import MiniBackend.JobSystem.RateLimiter
import MiniBackend.Lib.CircularQueue
import Mathlib.Algebra.BigOperators.Group.List.Basic
import Mathlib.Algebra.Order.BigOperators.Group.List
import Mathlib.Tactic.Linarith
import Mathlib.Tactic.Ring

/-!
# Pruning the sliding window

The loop drops the entries in front that are too old, whatever the ring holds; a later call goes
on where an earlier one stopped, so pruning twice is pruning once at the later time.
-/

namespace MiniBackend.JobSystem.Proofs.WindowPruning

open MiniBackend.Lib.CircularQueue MiniBackend.JobSystem.RateLimiter

/-! ## The ring -/

def ringOf (sw : RlSlidingWindow) : RingBuffer RlWindowEntry :=
  ⟨sw.entries, sw.head, (sw.head + sw.count) % rlWindowLen, sw.count⟩

def entriesOf (sw : RlSlidingWindow) : List RlWindowEntry := (ringOf sw).contents rlWindowLen

def totalCost (entries : List RlWindowEntry) : ℚ := (entries.map RlWindowEntry.cost).sum

variable {sw : RlSlidingWindow}

theorem ringOf_wellFormed (h : sw.head < rlWindowLen) : (ringOf sw).WellFormed rlWindowLen :=
  ⟨h, rfl⟩

theorem entriesOf_eq_nil_iff : entriesOf sw = [] ↔ sw.count = 0 := RingBuffer.contents_eq_nil_iff

@[simp] theorem length_entriesOf : (entriesOf sw).length = sw.count := RingBuffer.length_contents

def dropOldest (sw : RlSlidingWindow) : RlSlidingWindow :=
  { sw with
    currentCost := sw.currentCost - (sw.entries sw.head).cost
    head := (sw.head + 1) % rlWindowLen
    count := sw.count - 1 }

theorem ringOf_dropOldest (hne : sw.count ≠ 0) :
    ringOf (dropOldest sw) = (ringOf sw).pop rlWindowLen := by
  have htail : ((sw.head + 1) % rlWindowLen + (sw.count - 1)) % rlWindowLen =
      (sw.head + sw.count) % rlWindowLen := by
    rw [Nat.mod_add_mod]
    congr 1
    omega
  rw [ringOf, dropOldest, RingBuffer.pop, ringOf]
  simp only [htail]

theorem entriesOf_dropOldest (h : sw.head < rlWindowLen) (hne : sw.count ≠ 0) :
    entriesOf sw = sw.entries sw.head :: entriesOf (dropOldest sw) := by
  rw [entriesOf, entriesOf, ringOf_dropOldest hne]
  exact (ringOf_wellFormed h).contents_eq_front_cons hne

theorem dropOldest_head_lt (sw : RlSlidingWindow) : (dropOldest sw).head < rlWindowLen :=
  Nat.mod_lt _ (Nat.zero_lt_succ 255)

/-! ## The loop -/

def tooOld (since : Int) (e : RlWindowEntry) : Bool := decide (e.timestamp < since)

/-- What the loop leaves alone. -/
structure SameLimits (sw sw' : RlSlidingWindow) : Prop where
  window : sw'.windowSec = sw.windowSec
  limit : sw'.maxCost = sw.maxCost
  entries : sw'.entries = sw.entries

/-- The loop drops the entries in front that are too old. -/
structure Pruned (since : Int) (sw sw' : RlSlidingWindow) : Prop where
  same : SameLimits sw sw'
  head_lt : sw'.head < rlWindowLen
  kept : entriesOf sw' = (entriesOf sw).dropWhile (tooOld since)
  cost : sw'.currentCost = sw.currentCost - totalCost ((entriesOf sw).takeWhile (tooOld since))

attribute [local simp] pruneLoop in
theorem pruneLoop_spec (since : Int) {n : Nat} (h : sw.head < rlWindowLen) (hn : sw.count ≤ n) :
    Pruned since sw (pruneLoop since n sw) := by
  induction n generalizing sw with
  | zero =>
      have hnil : entriesOf sw = [] := entriesOf_eq_nil_iff.mpr (Nat.le_zero.mp hn)
      refine ⟨⟨rfl, rfl, rfl⟩, h, ?_, ?_⟩ <;> simp [hnil, totalCost]
  | succ n ih =>
      rw [pruneLoop]
      split
      · next hempty =>
          have hnil : entriesOf sw = [] := entriesOf_eq_nil_iff.mpr hempty
          refine ⟨⟨rfl, rfl, rfl⟩, h, ?_, ?_⟩ <;> simp [hnil, totalCost]
      · next hne =>
          have hcons := entriesOf_dropOldest h hne
          split
          · next hrecent =>
              have hkeep : tooOld since (sw.entries sw.head) = false := by
                simpa [tooOld] using hrecent
              refine ⟨⟨rfl, rfl, rfl⟩, h, ?_, ?_⟩
              · rw [hcons, List.dropWhile_cons_of_neg (by simp [hkeep])]
              · rw [hcons, List.takeWhile_cons_of_neg (by simp [hkeep])]
                simp [totalCost]
          · next hold =>
              have hdrop : tooOld since (sw.entries sw.head) = true := by
                simpa [tooOld] using hold
              have hrest := ih (dropOldest_head_lt sw) (Nat.sub_le_of_le_add hn)
              have hsame := hrest.same
              refine ⟨⟨hsame.window, hsame.limit, hsame.entries⟩, hrest.head_lt, ?_, ?_⟩
              · rw [hcons, List.dropWhile_cons_of_pos hdrop]
                exact hrest.kept
              · rw [hcons, List.takeWhile_cons_of_pos hdrop, totalCost, List.map_cons,
                  List.sum_cons, ← sub_sub]
                exact hrest.cost

/-- The loop stops, or it goes on behind the oldest entry. -/
theorem pruneLoop_cases (since : Int) {n : Nat} (hn : sw.count ≤ n) :
    (pruneLoop since n sw = sw ∧
        (sw.count = 0 ∨ since ≤ (sw.entries sw.head).timestamp)) ∨
      (sw.count ≠ 0 ∧ (sw.entries sw.head).timestamp < since ∧
        ∃ m, (dropOldest sw).count ≤ m ∧ n = m + 1 ∧
          pruneLoop since n sw = pruneLoop since m (dropOldest sw)) := by
  cases n with
  | zero => exact .inl ⟨rfl, .inl (Nat.le_zero.mp hn)⟩
  | succ n =>
      rw [pruneLoop]
      split
      · next hempty => exact .inl ⟨rfl, .inl hempty⟩
      · next hne =>
          split
          · next hrecent => exact .inl ⟨rfl, .inr hrecent⟩
          · next hold =>
              exact .inr ⟨hne, Int.not_le.mp hold, n, Nat.sub_le_of_le_add hn, rfl, rfl⟩

theorem pruneLoop_rounds (since : Int) {n m : Nat} (hn : sw.count ≤ n) (hm : sw.count ≤ m) :
    pruneLoop since n sw = pruneLoop since m sw := by
  induction n generalizing sw m with
  | zero =>
      have hempty := Nat.le_zero.mp hn
      cases m with
      | zero => rfl
      | succ m => rw [pruneLoop, pruneLoop, if_pos hempty]
  | succ n ih =>
      rw [pruneLoop]
      cases m with
      | zero => rw [pruneLoop, if_pos (Nat.le_zero.mp hm)]
      | succ m =>
          rw [pruneLoop]
          have hrest : pruneLoop since n (dropOldest sw) = pruneLoop since m (dropOldest sw) :=
            ih (Nat.sub_le_of_le_add hn) (Nat.sub_le_of_le_add hm)
          rw [dropOldest] at hrest
          rw [hrest]

/-- A later loop goes on where the earlier one stopped. -/
theorem pruneLoop_pruneLoop {since since' : Int} (h : since ≤ since') {n m : Nat}
    (hn : sw.count ≤ n) (hm : sw.count ≤ m) :
    pruneLoop since' m (pruneLoop since n sw) = pruneLoop since' m sw := by
  induction n generalizing sw m with
  | zero => rw [pruneLoop]
  | succ n ih =>
      rcases pruneLoop_cases since hn with ⟨hstop, -⟩ | ⟨hne, hold, k, hk, hnk, hgoes⟩
      · rw [hstop]
      · obtain rfl : n = k := Nat.succ.inj hnk
        have hm' : (dropOldest sw).count ≤ m := (Nat.sub_le sw.count 1).trans hm
        rw [hgoes, ih hk hm']
        rcases pruneLoop_cases since' hm with ⟨-, hstop⟩ | ⟨-, -, j, hj, -, hgoes'⟩
        · omega
        · rw [hgoes']
          exact pruneLoop_rounds since' hm' hj

theorem pruneLoop_same (since : Int) (n : Nat) (sw : RlSlidingWindow) :
    SameLimits sw (pruneLoop since n sw) := by
  induction n generalizing sw with
  | zero => exact ⟨rfl, rfl, rfl⟩
  | succ n ih =>
      rw [pruneLoop]
      split
      · exact ⟨rfl, rfl, rfl⟩
      · split
        · exact ⟨rfl, rfl, rfl⟩
        · have hrest := ih (dropOldest sw)
          exact ⟨hrest.window, hrest.limit, hrest.entries⟩

theorem pruneLoop_count_le (since : Int) (n : Nat) (sw : RlSlidingWindow) :
    (pruneLoop since n sw).count ≤ sw.count := by
  induction n generalizing sw with
  | zero => exact le_rfl
  | succ n ih =>
      rw [pruneLoop]
      split
      · exact le_rfl
      · split
        · exact le_rfl
        · exact (ih (dropOldest sw)).trans (Nat.sub_le sw.count 1)

/-! ## The running total -/

def withCost (sw : RlSlidingWindow) (cost : ℚ) : RlSlidingWindow := { sw with currentCost := cost }

/-- The loop does not look at the running total. -/
theorem pruneLoop_withCost (since : Int) (n : Nat) (sw : RlSlidingWindow) (cost : ℚ) :
    pruneLoop since n (withCost sw cost) = withCost (pruneLoop since n sw)
      (cost - (sw.currentCost - (pruneLoop since n sw).currentCost)) := by
  induction n generalizing sw cost with
  | zero =>
      rw [pruneLoop, pruneLoop, sub_self, sub_zero]
  | succ n ih =>
      have hcommute : dropOldest (withCost sw cost) =
          withCost (dropOldest sw) (cost - (sw.entries sw.head).cost) := rfl
      have hcount : (withCost sw cost).count = sw.count := rfl
      have hfront : (withCost sw cost).entries (withCost sw cost).head = sw.entries sw.head := rfl
      by_cases hempty : sw.count = 0
      · rw [pruneLoop, pruneLoop, if_pos hempty, if_pos (hcount.trans hempty), sub_self, sub_zero]
      by_cases hrecent : since ≤ (sw.entries sw.head).timestamp
      · rw [pruneLoop, pruneLoop, if_neg hempty, if_neg (hcount ▸ hempty), if_pos hrecent,
          if_pos (hfront ▸ hrecent), sub_self, sub_zero]
      · have hgoes : pruneLoop since (n + 1) sw = pruneLoop since n (dropOldest sw) := by
          rw [pruneLoop, if_neg hempty, if_neg hrecent]
          rfl
        have hgoes' : pruneLoop since (n + 1) (withCost sw cost) =
            pruneLoop since n (dropOldest (withCost sw cost)) := by
          rw [pruneLoop, if_neg (hcount ▸ hempty), if_neg (hfront ▸ hrecent)]
          rfl
        have htotal : (dropOldest sw).currentCost = sw.currentCost - (sw.entries sw.head).cost :=
          rfl
        rw [hgoes', hgoes, hcommute, ih, htotal]
        congr 1
        ring

def CostsNonneg (sw : RlSlidingWindow) : Prop := ∀ i, 0 ≤ (sw.entries i).cost

theorem pruneLoop_cost_le (since : Int) (n : Nat) (h : CostsNonneg sw) :
    (pruneLoop since n sw).currentCost ≤ sw.currentCost := by
  induction n generalizing sw with
  | zero => exact le_rfl
  | succ n ih =>
      rw [pruneLoop]
      split
      · exact le_rfl
      · split
        · exact le_rfl
        · have hrest : (pruneLoop since n (dropOldest sw)).currentCost ≤
              (dropOldest sw).currentCost :=
            ih h
          have hcost : (dropOldest sw).currentCost ≤ sw.currentCost := sub_le_self _ (h sw.head)
          exact hrest.trans hcost

def cutoffOf (sw : RlSlidingWindow) (now : Int) : Int :=
  if now - sw.windowSec.floor < 0 then 0 else now - sw.windowSec.floor

/-- A total that has gone below zero is set to zero. -/
def clampCost (sw : RlSlidingWindow) : RlSlidingWindow :=
  if sw.currentCost < 0 then withCost sw 0 else sw

theorem rlSlidingPrune_eq (sw : RlSlidingWindow) (now : Int) :
    rlSlidingPrune sw now = clampCost (pruneLoop (cutoffOf sw now) sw.count sw) := rfl

theorem cutoffOf_mono (sw : RlSlidingWindow) {now now' : Int} (h : now ≤ now') :
    cutoffOf sw now ≤ cutoffOf sw now' := by
  rw [cutoffOf, cutoffOf]
  omega

theorem clampCost_same (sw : RlSlidingWindow) : SameLimits sw (clampCost sw) := by
  rw [clampCost]
  split <;> exact ⟨rfl, rfl, rfl⟩

theorem clampCost_of_nonpos (h : sw.currentCost ≤ 0) : clampCost sw = withCost sw 0 := by
  rw [clampCost]
  split
  · rfl
  · next hnonneg =>
      have hzero : sw.currentCost = 0 := le_antisymm h (not_lt.mp hnonneg)
      rw [withCost, ← hzero]

theorem rlSlidingPrune_same (sw : RlSlidingWindow) (now : Int) :
    SameLimits sw (rlSlidingPrune sw now) := by
  have hloop := pruneLoop_same (cutoffOf sw now) sw.count sw
  have hclamp := clampCost_same (pruneLoop (cutoffOf sw now) sw.count sw)
  exact ⟨hclamp.window.trans hloop.window, hclamp.limit.trans hloop.limit,
    hclamp.entries.trans hloop.entries⟩

theorem pruneLoop_head_lt (since : Int) (n : Nat) (h : sw.head < rlWindowLen) :
    (pruneLoop since n sw).head < rlWindowLen := by
  induction n generalizing sw with
  | zero => exact h
  | succ n ih =>
      rw [pruneLoop]
      split
      · exact h
      · split
        · exact h
        · exact ih (dropOldest_head_lt sw)

theorem rlSlidingPrune_head_lt (now : Int) (h : sw.head < rlWindowLen) :
    (rlSlidingPrune sw now).head < rlWindowLen := by
  have hloop := pruneLoop_head_lt (cutoffOf sw now) sw.count h
  rw [rlSlidingPrune_eq, clampCost]
  split
  · exact hloop
  · exact hloop

theorem rlSlidingPrune_rlSlidingPrune (h : CostsNonneg sw) {now now' : Int} (hnow : now ≤ now') :
    rlSlidingPrune (rlSlidingPrune sw now) now' = rlSlidingPrune sw now' := by
  set first := pruneLoop (cutoffOf sw now) sw.count sw with hfirst
  have hsame := pruneLoop_same (cutoffOf sw now) sw.count sw
  have hcount := pruneLoop_count_le (cutoffOf sw now) sw.count sw
  have hcutoff : cutoffOf (rlSlidingPrune sw now) now' = cutoffOf sw now' := by
    rw [cutoffOf, (rlSlidingPrune_same sw now).window, cutoffOf]
  have hnonneg : CostsNonneg first := fun i => by
    rw [hfirst, hsame.entries]
    exact h i
  have hsecond : pruneLoop (cutoffOf sw now') first.count first =
      pruneLoop (cutoffOf sw now') sw.count sw := by
    rw [pruneLoop_rounds _ le_rfl hcount]
    exact pruneLoop_pruneLoop (cutoffOf_mono sw hnow) le_rfl le_rfl
  rw [rlSlidingPrune_eq (rlSlidingPrune sw now), hcutoff, rlSlidingPrune_eq sw now,
    rlSlidingPrune_eq sw now', ← hfirst, ← hsecond]
  by_cases hneg : first.currentCost < 0
  · have hle := pruneLoop_cost_le (cutoffOf sw now') first.count hnonneg
    rw [clampCost_of_nonpos hneg.le]
    change clampCost (pruneLoop _ first.count (withCost first 0)) = _
    rw [pruneLoop_withCost, clampCost_of_nonpos (hle.trans hneg.le), clampCost_of_nonpos]
    · rfl
    · change 0 - _ ≤ (0 : ℚ)
      linarith
  · have hsame : clampCost first = first := if_neg hneg
    rw [hsame]

end MiniBackend.JobSystem.Proofs.WindowPruning
