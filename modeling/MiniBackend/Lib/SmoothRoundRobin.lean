import Mathlib.Algebra.BigOperators.Group.Finset.Basic
import Mathlib.Algebra.Order.BigOperators.Group.Finset
import Mathlib.Algebra.BigOperators.Ring.Finset
import Mathlib.Data.Int.Basic
import Mathlib.Tactic.Ring

/-!
# Smooth weighted round robin

Every candidate has a credit, which is 0 at first.  In each turn the credits grow by the
weights, a candidate is picked whose credit is then positive, and it pays the sum of all
weights.

No credit falls to minus that sum, and the credits add up to 0.  After as many turns as the
weights add up to, every credit is a multiple of the sum, so all of them are 0 again: the turns
repeat themselves, and in as many turns in a row each candidate is picked as often as its
weight says.
-/

namespace MiniBackend.Lib.SmoothRoundRobin

variable {ι : Type*} [DecidableEq ι] (s : Finset ι) (w : ι → Nat) (pick : (ι → Int) → ι)

def totalWeight : Nat := ∑ i ∈ s, w i

/-- The credits after they grew. -/
def grown (credit : ι → Int) (i : ι) : Int := credit i + w i

def afterTurn (credit : ι → Int) : ι → Int :=
  Function.update (grown w credit) (pick (grown w credit))
    (grown w credit (pick (grown w credit)) - totalWeight s w)

/-- The credits after `t` turns. -/
def creditAt : Nat → ι → Int
  | 0 => fun _ => 0
  | t + 1 => afterTurn s w pick (creditAt t)

def pickAt (t : Nat) : ι := pick (grown w (creditAt s w pick t))

section

variable {s w pick}

omit [DecidableEq ι] in
theorem sum_grown {credit : ι → Int} (h : ∑ i ∈ s, credit i = 0) :
    ∑ i ∈ s, grown w credit i = totalWeight s w := by
  simp only [grown, Finset.sum_add_distrib, h, zero_add, totalWeight, Nat.cast_sum]

theorem sum_update {f : ι → Int} {i : ι} (hi : i ∈ s) (d : Int) :
    ∑ j ∈ s, Function.update f i (f i - d) j = ∑ j ∈ s, f j - d := by
  rw [Finset.sum_update_of_mem hi, ← Finset.add_sum_erase s f hi,
    Finset.sdiff_singleton_eq_erase]
  ring

variable (hpos : 0 < totalWeight s w)
  (hpick : ∀ c : ι → Int, 0 < ∑ i ∈ s, c i → pick c ∈ s ∧ 0 < c (pick c))

include hpos hpick

theorem sum_creditAt (t : Nat) : ∑ i ∈ s, creditAt s w pick t i = 0 := by
  induction t with
  | zero => exact Finset.sum_const_zero
  | succ t ih =>
      have hsum := sum_grown (w := w) ih
      have hmem := (hpick (grown w (creditAt s w pick t)) (by rw [hsum]; exact_mod_cast hpos)).1
      rw [creditAt, afterTurn, sum_update hmem, hsum, Int.sub_self]

theorem pickAt_spec (t : Nat) : pickAt s w pick t ∈ s ∧
    0 < grown w (creditAt s w pick t) (pickAt s w pick t) := by
  apply hpick
  rw [sum_grown (sum_creditAt hpos hpick t)]
  exact_mod_cast hpos

theorem neg_lt_creditAt (t : Nat) (i : ι) : -(totalWeight s w : Int) < creditAt s w pick t i := by
  induction t with
  | zero =>
      show -(totalWeight s w : Int) < 0
      omega
  | succ t ih =>
      have hpositive := (pickAt_spec hpos hpick t).2
      rw [creditAt, afterTurn]
      by_cases hi : i = pick (grown w (creditAt s w pick t))
      · rw [hi, Function.update_self]
        rw [pickAt] at hpositive
        omega
      · rw [Function.update_of_ne hi, grown]
        omega

omit hpos hpick in
theorem creditAt_add (a t : Nat) (i : ι) :
    creditAt s w pick (a + t) i = creditAt s w pick a i + t * w i -
      totalWeight s w * (((List.range' a t).map (pickAt s w pick)).count i : Nat) := by
  induction t with
  | zero => simp
  | succ t ih =>
      rw [← Nat.add_assoc, creditAt, afterTurn, List.range'_1_concat, List.map_append,
        List.count_append, List.map_singleton, List.count_singleton]
      by_cases hi : i = pick (grown w (creditAt s w pick (a + t)))
      · have hcount : (pickAt s w pick (a + t) == i) = true := by
          rw [beq_iff_eq, hi]
          rfl
        rw [← hi, Function.update_self, grown, ih, if_pos hcount]
        push_cast
        ring
      · have hcount : (pickAt s w pick (a + t) == i) = false := by
          rw [beq_eq_false_iff_ne]
          exact Ne.symm hi
        rw [Function.update_of_ne hi, grown, ih, hcount]
        push_cast
        ring

variable (hsupport : ∀ i ∉ s, w i = 0)

include hsupport

theorem creditAt_totalWeight : creditAt s w pick (totalWeight s w) = fun _ => 0 := by
  have hcredit : ∀ i, creditAt s w pick (totalWeight s w) i = totalWeight s w *
      (w i - (((List.range' 0 (totalWeight s w)).map (pickAt s w pick)).count i : Nat) : Int) := by
    intro i
    have hadd := @creditAt_add _ _ s w pick 0 (totalWeight s w) i
    rw [Nat.zero_add] at hadd
    rw [hadd, creditAt]
    ring
  have hnonneg : ∀ i, 0 ≤ creditAt s w pick (totalWeight s w) i := by
    intro i
    have hlt := neg_lt_creditAt hpos hpick (totalWeight s w) i
    rw [hcredit] at hlt ⊢
    have hfactor : (-1 : Int) < w i -
        (((List.range' 0 (totalWeight s w)).map (pickAt s w pick)).count i : Nat) := by
      apply Int.lt_of_mul_lt_mul_left _ (Int.natCast_nonneg (totalWeight s w))
      rw [Int.mul_neg_one]
      exact hlt
    exact Int.mul_nonneg (Int.natCast_nonneg _) (by omega)
  funext i
  by_cases hi : i ∈ s
  · exact (Finset.sum_eq_zero_iff_of_nonneg fun j _ => hnonneg j).mp
      (sum_creditAt hpos hpick (totalWeight s w)) i hi
  · have hnever : ((List.range' 0 (totalWeight s w)).map (pickAt s w pick)).count i = 0 := by
      rw [List.count_eq_zero]
      intro hmem
      obtain ⟨t, _, rfl⟩ := List.mem_map.mp hmem
      exact hi (pickAt_spec hpos hpick t).1
    rw [hcredit, hsupport i hi, hnever]
    rfl

theorem creditAt_periodic (t : Nat) :
    creditAt s w pick (t + totalWeight s w) = creditAt s w pick t := by
  induction t with
  | zero =>
      rw [Nat.zero_add]
      exact creditAt_totalWeight hpos hpick hsupport
  | succ t ih =>
      rw [Nat.add_right_comm]
      show afterTurn s w pick (creditAt s w pick (t + totalWeight s w)) = _
      rw [ih]
      rfl

/-- In as many turns in a row as the weights add up to, a candidate is picked as often as its
weight says. -/
theorem count_window (a : Nat) (i : ι) :
    ((List.range' a (totalWeight s w)).map (pickAt s w pick)).count i = w i := by
  have hadd := @creditAt_add _ _ s w pick a (totalWeight s w) i
  rw [creditAt_periodic hpos hpick hsupport] at hadd
  have hmul : (totalWeight s w : Int) *
      (((List.range' a (totalWeight s w)).map (pickAt s w pick)).count i : Nat) =
        totalWeight s w * w i := by omega
  have hne : (totalWeight s w : Int) ≠ 0 := by omega
  exact_mod_cast Int.eq_of_mul_eq_mul_left hne hmul

end

end MiniBackend.Lib.SmoothRoundRobin
