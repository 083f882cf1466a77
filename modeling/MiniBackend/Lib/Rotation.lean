import Mathlib.Data.List.Rotate
import Mathlib.Logic.Function.Basic

/-!
# Taking turns

A table is searched round and round for the next entry with a property.  Seen from any place
of the table, the entries with the property form a ring; a search from that place takes the
head of the ring, and the ring seen from behind it is turned by one.  So the picks run through
the ring over and over, and as many of them in a row as the ring is long are a permutation of
it.
-/

namespace MiniBackend.Lib.Rotation

variable {α : Type*}

def ring (p : α → Bool) (l : List α) (start : Nat) : List α := (l.rotate start).filter p

theorem ring_perm (p : α → Bool) (l : List α) (start : Nat) :
    (ring p l start).Perm (l.filter p) :=
  (List.rotate_perm l start).filter p

theorem ring_mod (p : α → Bool) (l : List α) (start : Nat) :
    ring p l (start % l.length) = ring p l start := by
  rw [ring, List.rotate_mod, ring]

theorem ring_succ {p : α → Bool} {l : List α} {start : Nat} {a : α}
    (h : l[start % l.length]? = some a) :
    ∃ rest, ring p l start = (if p a then [a] else []) ++ rest ∧
      ring p l (start + 1) = rest ++ if p a then [a] else [] := by
  have hpos : 0 < l.length :=
    Nat.zero_lt_of_lt (List.getElem?_eq_some_iff.mp h).1
  have hhead : (l.rotate start).head? = some a := by
    rw [List.head?_eq_getElem?, List.getElem?_rotate hpos, Nat.zero_add, h]
  obtain ⟨rest, hrest⟩ := List.head?_eq_some_iff.mp hhead
  have hnext : l.rotate (start + 1) = rest ++ [a] := by
    rw [← List.rotate_rotate, hrest, List.rotate_cons_succ, List.rotate_zero]
  refine ⟨rest.filter p, ?_, ?_⟩
  · rw [ring, hrest, List.filter_cons]
    split <;> rfl
  · rw [ring, hnext, List.filter_append, List.filter_cons]
    rfl

theorem ring_skip {p : α → Bool} {l : List α} {start d : Nat}
    (h : ∀ j < d, l[(start + j) % l.length]?.any p = false) :
    ring p l (start + d) = ring p l start := by
  rcases Nat.eq_zero_or_pos l.length with hnil | hpos
  · simp [ring, List.length_eq_zero_iff.mp hnil]
  induction d with
  | zero => rfl
  | succ d ih =>
      obtain ⟨a, hentry⟩ : ∃ a, l[(start + d) % l.length]? = some a :=
        ⟨_, List.getElem?_eq_getElem (Nat.mod_lt _ hpos)⟩
      have hnot := h d (Nat.lt_succ_self d)
      rw [hentry, Option.any_some] at hnot
      obtain ⟨rest, hbefore, hafter⟩ := ring_succ (p := p) hentry
      rw [hnot] at hbefore hafter
      rw [← ih fun j hj => h j (Nat.lt_succ_of_lt hj), ← Nat.add_assoc, hafter, hbefore]
      simp

/-- The next entry with `p` is the head of the ring, and behind it the ring is turned by one. -/
theorem ring_next {p : α → Bool} {l : List α} {start d : Nat} {a : α}
    (hskip : ∀ j < d, l[(start + j) % l.length]?.any p = false)
    (hentry : l[(start + d) % l.length]? = some a) (hp : p a = true) :
    (ring p l start).head? = some a ∧
      ring p l (start + d + 1) = (ring p l start).rotate 1 := by
  obtain ⟨rest, hbefore, hafter⟩ := ring_succ (p := p) hentry
  rw [ring_skip hskip, hp] at hbefore
  rw [hp] at hafter
  rw [hafter, hbefore, if_pos rfl, List.singleton_append, List.rotate_cons_succ,
    List.rotate_zero]
  exact ⟨rfl, rfl⟩

/-! ## Going around -/

def Follows (r picks : List α) : Prop :=
  ∀ t < picks.length, picks[t]? = r[t % r.length]?

theorem follows_nil (r : List α) : Follows r [] :=
  fun _ h => absurd h (Nat.not_lt_zero _)

theorem Follows.snoc {r picks : List α} {a : α} (h : Follows r picks)
    (ha : (r.rotate picks.length).head? = some a) : Follows r (picks ++ [a]) := by
  have hpos : 0 < r.length := by
    rw [← List.length_rotate r picks.length]
    exact List.length_pos_of_mem (List.mem_of_mem_head? ha)
  intro t ht
  rw [List.length_append, List.length_singleton] at ht
  rcases Nat.lt_succ_iff_lt_or_eq.mp ht with hlt | rfl
  · rw [List.getElem?_append_left hlt]
    exact h t hlt
  · rw [List.head?_eq_getElem?, List.getElem?_rotate hpos, Nat.zero_add] at ha
    rw [List.getElem?_concat_length, ha]

/-- Each window of the length of the ring holds each of its entries once. -/
theorem Follows.window {r picks : List α} (h : Follows r picks) {i : Nat}
    (hi : i + r.length ≤ picks.length) : ((picks.drop i).take r.length).Perm r := by
  have hwindow : (picks.drop i).take r.length = r.rotate i := by
    apply List.ext_getElem?
    intro t
    by_cases ht : t < r.length
    · rw [List.getElem?_take_of_lt ht, List.getElem?_drop, List.getElem?_rotate ht,
        h (i + t) (by omega), Nat.add_comm]
    · rw [List.getElem?_eq_none, List.getElem?_eq_none]
      · rw [List.length_rotate]
        exact Nat.le_of_not_lt ht
      · rw [List.length_take]
        omega
  rw [hwindow]
  exact List.rotate_perm r i

/-! ## First visits -/

section FirstVisits

variable [DecidableEq α]

/-- The entries of a walk that were not seen before, each at its first visit. -/
def firstVisits (seen : α → Bool) : List α → List α
  | [] => []
  | a :: l =>
      if seen a then firstVisits seen l else a :: firstVisits (Function.update seen a true) l

theorem mem_firstVisits {seen : α → Bool} {l : List α} {a : α} :
    a ∈ firstVisits seen l ↔ a ∈ l ∧ seen a = false := by
  induction l generalizing seen with
  | nil => simp [firstVisits]
  | cons b l ih =>
      unfold firstVisits
      cases hb : seen b with
      | true =>
          rw [if_pos rfl, ih, List.mem_cons]
          constructor
          · exact fun h => ⟨Or.inr h.1, h.2⟩
          · rintro ⟨rfl | hmem, hfresh⟩
            · rw [hb] at hfresh
              cases hfresh
            · exact ⟨hmem, hfresh⟩
      | false =>
          rw [if_neg Bool.false_ne_true, List.mem_cons, List.mem_cons, ih]
          by_cases hab : a = b
          · subst hab
            simp [hb]
          · rw [Function.update_of_ne hab]
            simp [hab]

theorem nodup_firstVisits (seen : α → Bool) (l : List α) : (firstVisits seen l).Nodup := by
  induction l generalizing seen with
  | nil => exact List.nodup_nil
  | cons a l ih =>
      unfold firstVisits
      split
      · exact ih seen
      · rw [List.nodup_cons]
        refine ⟨?_, ih _⟩
        rw [mem_firstVisits, Function.update_self]
        exact fun h => Bool.noConfusion h.2

theorem head?_firstVisits (l : List α) : (firstVisits (fun _ => false) l).head? = l.head? := by
  cases l <;> rfl

end FirstVisits

end MiniBackend.Lib.Rotation
