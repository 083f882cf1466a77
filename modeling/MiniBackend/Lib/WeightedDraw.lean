import Mathlib.Order.ConditionallyCompleteLattice.Basic
import Mathlib.Data.Int.ConditionallyCompleteOrder
import Mathlib.Algebra.Order.BigOperators.Group.List
import Mathlib.Data.Int.Interval

/-!
# Drawing by weight

Each entry of a list of weights owns as many consecutive numbers as it weighs, from those of the
entries before it on.  A number below the sum of the weights draws the entry that owns it.
-/

namespace MiniBackend.Lib.WeightedDraw

/-- The index of the entry that owns the number. -/
def draw : List Int → Int → Option Nat
  | [], _ => none
  | w :: ws, r => if r < w then some 0 else (draw ws (r - w)).map (· + 1)

def start (ws : List Int) (k : Nat) : Int := (ws.take k).sum

variable {ws : List Int} {r w : Int} {k : Nat}

@[simp] theorem start_zero (ws : List Int) : start ws 0 = 0 := rfl

@[simp] theorem start_succ (w : Int) (ws : List Int) (k : Nat) :
    start (w :: ws) (k + 1) = w + start ws k := by
  rw [start, List.take_succ_cons, List.sum_cons, start]

theorem start_nonneg (hws : ∀ w ∈ ws, 0 ≤ w) (k : Nat) : 0 ≤ start ws k :=
  List.sum_nonneg fun w hw => hws w (List.mem_of_mem_take hw)

theorem start_add_le (hws : ∀ w ∈ ws, 0 ≤ w) (hk : ws[k]? = some w) : start ws k + w ≤ ws.sum := by
  induction ws generalizing k with
  | nil => simp at hk
  | cons v ws ih =>
      have hrest : ∀ w ∈ ws, 0 ≤ w := fun w hw => hws w (List.mem_cons_of_mem v hw)
      rw [List.sum_cons]
      cases k with
      | zero =>
          obtain rfl : v = w := by simpa using hk
          have hsum := List.sum_nonneg hrest
          rw [start_zero]
          omega
      | succ k =>
          have hle := ih hrest (by simpa using hk)
          rw [start_succ]
          omega

theorem draw_eq_some_iff (hws : ∀ w ∈ ws, 0 ≤ w) (hr : 0 ≤ r) :
    draw ws r = some k ↔ ∃ w, ws[k]? = some w ∧ start ws k ≤ r ∧ r < start ws k + w := by
  induction ws generalizing r k with
  | nil => simp [draw]
  | cons v ws ih =>
      have hrest : ∀ w ∈ ws, 0 ≤ w := fun w hw => hws w (List.mem_cons_of_mem v hw)
      rw [draw]
      split
      · next hlt =>
          cases k with
          | zero => simpa using ⟨hr, hlt⟩
          | succ k =>
              have hstart := start_nonneg hrest k
              refine iff_of_false (by simp) ?_
              rintro ⟨w, -, hle, -⟩
              rw [start_succ] at hle
              omega
      · next hge =>
          cases k with
          | zero => simpa using fun _ => Int.not_lt.mp hge
          | succ k =>
              rw [Option.map_eq_some_iff]
              simp only [Nat.add_right_cancel_iff, exists_eq_right, List.getElem?_cons_succ,
                start_succ]
              rw [ih hrest (by omega)]
              apply exists_congr
              intro w
              apply and_congr_right'
              omega

theorem draw_isSome (hr : 0 ≤ r) (h : r < ws.sum) : (draw ws r).isSome := by
  induction ws generalizing r with
  | nil =>
      rw [List.sum_nil] at h
      omega
  | cons v ws ih =>
      rw [draw]
      split
      · rfl
      · rw [List.sum_cons] at h
        rw [Option.isSome_map]
        apply ih <;> omega

/-- An entry is drawn by as many numbers as it weighs. -/
theorem card_draw (hws : ∀ w ∈ ws, 0 ≤ w) (hk : ws[k]? = some w) :
    (((Finset.Ico 0 ws.sum).filter fun r => draw ws r = some k).card : Int) = w := by
  have hnonneg : 0 ≤ w := hws w (List.mem_of_getElem? hk)
  have howned : ((Finset.Ico 0 ws.sum).filter fun r => draw ws r = some k) =
      Finset.Ico (start ws k) (start ws k + w) := by
    have hle := start_add_le hws hk
    have hstart := start_nonneg hws k
    ext r
    rw [Finset.mem_filter, Finset.mem_Ico, Finset.mem_Ico]
    constructor
    · rintro ⟨⟨hr, -⟩, hdraw⟩
      obtain ⟨w', hk', howns⟩ := (draw_eq_some_iff hws hr).mp hdraw
      obtain rfl : w = w' := Option.some.inj (hk.symm.trans hk')
      exact howns
    · intro howns
      exact ⟨by omega, (draw_eq_some_iff hws (by omega)).mpr ⟨w, hk, howns⟩⟩
  rw [howned, Int.card_Ico]
  omega

end MiniBackend.Lib.WeightedDraw
