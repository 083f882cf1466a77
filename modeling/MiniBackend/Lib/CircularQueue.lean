import Mathlib.Data.List.Range
import Mathlib.Data.Nat.ModEq
import Mathlib.Logic.Function.Basic

/-!
# Circular queues

An array of `cap` slots with a head, a tail and a count.  A push writes at the tail
whether or not a slot is free, as programs do that check for room elsewhere or not at
all.  The contents are what the next `count` pops will read.
-/

namespace MiniBackend.Lib.CircularQueue

variable {α : Type*}

structure RingBuffer (α : Type*) where
  slots : Nat → α
  head : Nat
  tail : Nat
  count : Nat

namespace RingBuffer

def empty (a : α) : RingBuffer α := ⟨fun _ => a, 0, 0, 0⟩

def push (cap : Nat) (r : RingBuffer α) (a : α) : RingBuffer α where
  slots := Function.update r.slots r.tail a
  head := r.head
  tail := (r.tail + 1) % cap
  count := r.count + 1

def front (r : RingBuffer α) : α := r.slots r.head

def pop (cap : Nat) (r : RingBuffer α) : RingBuffer α :=
  { r with head := (r.head + 1) % cap, count := r.count - 1 }

/-- What the `k`-th of the next pops will read. -/
def get (cap : Nat) (r : RingBuffer α) (k : Nat) : α := r.slots ((r.head + k) % cap)

def contents (cap : Nat) (r : RingBuffer α) : List α := (List.range r.count).map (r.get cap)

structure WellFormed (cap : Nat) (r : RingBuffer α) : Prop where
  head_lt : r.head < cap
  tail_eq : r.tail = (r.head + r.count) % cap

variable {cap : Nat} {r : RingBuffer α}

theorem empty_wellFormed (hcap : 0 < cap) (a : α) : (empty a).WellFormed cap where
  head_lt := hcap
  tail_eq := (Nat.zero_mod cap).symm

@[simp] theorem contents_empty (a : α) : (empty a).contents cap = [] := rfl

@[simp] theorem length_contents : (r.contents cap).length = r.count := by
  simp [contents]

theorem contents_eq_nil_iff : r.contents cap = [] ↔ r.count = 0 := by
  rw [← List.length_eq_zero_iff, length_contents]

/-! ## Pushing -/

theorem WellFormed.push (h : r.WellFormed cap) (a : α) : (r.push cap a).WellFormed cap where
  head_lt := h.head_lt
  tail_eq := by
    simp only [RingBuffer.push]
    rw [h.tail_eq, Nat.mod_add_mod, Nat.add_assoc]

/-- The slots that the next pops read are different from the one at the tail, unless the
ring is full. -/
theorem WellFormed.slot_ne_tail (h : r.WellFormed cap) (hfree : r.count < cap) {k : Nat}
    (hk : k < r.count) : (r.head + k) % cap ≠ r.tail := by
  rw [h.tail_eq]
  intro heq
  have hmod : k % cap = r.count % cap := Nat.ModEq.add_left_cancel' r.head heq
  rw [Nat.mod_eq_of_lt (by omega), Nat.mod_eq_of_lt hfree] at hmod
  omega

theorem get_push_of_ne {k : Nat} (hk : (r.head + k) % cap ≠ r.tail) (a : α) :
    (r.push cap a).get cap k = r.get cap k := by
  simp only [get, RingBuffer.push]
  rw [Function.update_of_ne hk]

theorem WellFormed.get_push_last (h : r.WellFormed cap) (a : α) :
    (r.push cap a).get cap r.count = a := by
  simp only [get, RingBuffer.push]
  rw [← h.tail_eq]
  exact Function.update_self r.tail a r.slots

theorem WellFormed.contents_push (h : r.WellFormed cap) (hfree : r.count < cap) (a : α) :
    (r.push cap a).contents cap = r.contents cap ++ [a] := by
  have hcount : (r.push cap a).count = r.count + 1 := rfl
  rw [contents, hcount, List.range_succ, List.map_append, List.map_singleton,
    h.get_push_last]
  congr 1
  apply List.map_congr_left
  intro k hk
  exact get_push_of_ne (h.slot_ne_tail hfree (List.mem_range.mp hk)) a

theorem mem_contents {b : α} : b ∈ r.contents cap ↔ ∃ k < r.count, r.get cap k = b := by
  simp [contents]

theorem WellFormed.mem_contents_push_self (h : r.WellFormed cap) (a : α) :
    a ∈ (r.push cap a).contents cap :=
  mem_contents.mpr ⟨r.count, Nat.lt_succ_self r.count, h.get_push_last a⟩

/-- A push loses at most what was stored at the tail, and that only when the ring is full. -/
theorem WellFormed.mem_contents_push (h : r.WellFormed cap) {a b : α}
    (hb : b ∈ r.contents cap) (hkept : r.count < cap ∨ b ≠ r.slots r.tail) :
    b ∈ (r.push cap a).contents cap := by
  obtain ⟨k, hk, hget⟩ := mem_contents.mp hb
  have hne : (r.head + k) % cap ≠ r.tail := by
    rcases hkept with hfree | hother
    · exact h.slot_ne_tail hfree hk
    · intro heq
      apply hother
      rw [← hget, get, heq]
  apply mem_contents.mpr
  exact ⟨k, Nat.lt_succ_of_lt hk, (get_push_of_ne hne a).trans hget⟩

theorem WellFormed.of_mem_contents_push (h : r.WellFormed cap) {a b : α}
    (hb : b ∈ (r.push cap a).contents cap) : b = a ∨ b ∈ r.contents cap := by
  obtain ⟨k, hk, hget⟩ := mem_contents.mp hb
  by_cases htail : (r.head + k) % cap = r.tail
  · left
    rw [← hget, get, RingBuffer.push]
    simp only [htail, Function.update_self]
  · right
    have hlast : k ≠ r.count := by
      intro heq
      exact htail (heq ▸ h.tail_eq.symm)
    have hk' : k < r.count + 1 := hk
    rw [get_push_of_ne htail] at hget
    exact mem_contents.mpr ⟨k, by omega, hget⟩

/-! ## Popping -/

theorem WellFormed.pop (h : r.WellFormed cap) (hne : r.count ≠ 0) :
    (r.pop cap).WellFormed cap where
  head_lt := Nat.mod_lt _ (Nat.zero_lt_of_lt h.head_lt)
  tail_eq := by
    simp only [RingBuffer.pop]
    rw [h.tail_eq, Nat.mod_add_mod]
    congr 1
    omega

theorem get_pop (k : Nat) : (r.pop cap).get cap k = r.get cap (k + 1) := by
  simp only [get, RingBuffer.pop]
  rw [Nat.mod_add_mod, Nat.add_assoc, Nat.add_comm 1 k]

theorem WellFormed.contents_eq_front_cons (h : r.WellFormed cap) (hne : r.count ≠ 0) :
    r.contents cap = r.front :: (r.pop cap).contents cap := by
  obtain ⟨n, hn⟩ := Nat.exists_eq_succ_of_ne_zero hne
  have hcount : (r.pop cap).count = n := by simp [RingBuffer.pop, hn]
  have hfront : r.get cap 0 = r.front := by
    rw [get, Nat.add_zero, Nat.mod_eq_of_lt h.head_lt, front]
  rw [contents, contents, hcount, hn, List.range_succ_eq_map, List.map_cons, hfront,
    List.map_map]
  congr 1
  apply List.map_congr_left
  intro k _
  exact (get_pop k).symm

end RingBuffer

end MiniBackend.Lib.CircularQueue
