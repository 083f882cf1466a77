import MiniBackend.JobSystem.Proofs.DryRuns
import Mathlib.Algebra.Order.Floor.Ring
import Mathlib.Data.Rat.Floor

/-!
# The time until the next call

The wait that a bucket names is enough.  The sliding window waits for the oldest request to be as
old as the window is long, and then it still counts; the fixed window names no wait as long as
there is any room.
-/

namespace MiniBackend.JobSystem.Proofs.WaitTimes

open MiniBackend.Lib.CircularQueue MiniBackend.JobSystem.RateLimiter
open MiniBackend.JobSystem.Proofs.WindowPruning MiniBackend.JobSystem.Proofs.DryRuns

/-- A limiter after any calls, at any readings of the clock. -/
inductive Reachable : Limiter → Prop
  | create (setup : Setup) : Reachable (create setup)
  | step {rl : Limiter} (op : Op) : Reachable rl → Reachable (step rl op)
  | reset {rl : Limiter} (now : Int) : Reachable rl → Reachable (rlReset rl now)

/-- The burst, the capacity or the maximum. -/
def limitOf : Limiter → ℚ
  | .token tb => tb.burst
  | .leaky lb => lb.capacity
  | .sliding sw => sw.maxCost
  | .fixed fw => fw.maxCount

/-- The wait that the limiter names at `now` is enough: from its end on the request is accepted. -/
def WaitSuffices (rl : Limiter) (cost : ℚ) (now : Int) : Prop :=
  ∀ t : Int, now + rlTimeUntilNext rl cost now ≤ t → (rlConsume rl cost t t t).1 = true

def FitsNow (sw : RlSlidingWindow) (cost : ℚ) (now : Int) : Prop :=
  sw.currentCost - totalCost ((entriesOf sw).takeWhile (tooOld (cutoffOf sw now))) + cost ≤
    sw.maxCost

/-- A bucket has room for the request or was not brought up to date at a later time; the sliding
window has room for it now; the fixed window has room for it, or for nothing, or is over. -/
def WaitIsRight : Limiter → ℚ → Int → Prop
  | .token tb, cost, now => cost ≤ tb.tokens ∨ tb.lastRefill ≤ now
  | .leaky lb, cost, now => cost ≤ lb.capacity - lb.waterLevel ∨ lb.lastLeak ≤ now
  | .sliding sw, cost, now => FitsNow sw cost now
  | .fixed fw, cost, now => fw.count + cost ≤ fw.maxCount ∨ fw.maxCount ≤ fw.count ∨
      fw.windowSec ≤ (now - fw.windowStart : Int)

variable {cost : ℚ}

theorem sane_of_reachable {rl : Limiter} (h : Reachable rl) : Sane rl := by
  induction h with
  | create setup => exact sane_create setup
  | step op _ ih => exact sane_step op ih
  | @reset rl now _ ih =>
      cases rl with
      | token tb => exact ih
      | leaky lb => exact ih
      | sliding sw => exact ⟨ih.1, Nat.zero_lt_succ 255⟩
      | fixed fw => trivial

/-! ## The buckets -/

theorem ceil_lt_of_lt {now last : Int} (h : now < last) (d : ℚ) :
    ((⌈(now : ℚ) + d⌉ : Int) : ℚ) < last + d := by
  have hceil := Int.ceil_lt_add_one ((now : ℚ) + d)
  have hlast : (now : ℚ) + 1 ≤ last := by exact_mod_cast h
  linarith

structure Fills (rate level capacity : ℚ) (last : Int) (available : Int → ℚ) : Prop where
  rate_pos : 0 < rate
  before : ∀ t, t ≤ last → available t = level
  behind : ∀ t, last < t → available t = min (level + rate * (t - last : Int)) capacity

theorem Fills.wait_iff {rate level capacity : ℚ} {last : Int} {available : Int → ℚ}
    (h : Fills rate level capacity last available) (hlimit : cost ≤ capacity) (now : Int) :
    (∀ t : Int, (now : ℚ) + (if cost ≤ level then 0 else (cost - level) / rate) ≤ t →
      cost ≤ available t) ↔ cost ≤ level ∨ last ≤ now := by
  have hrate := h.rate_pos
  by_cases hroom : cost ≤ level
  · refine iff_of_true (fun t _ => ?_) (.inl hroom)
    rcases le_or_gt t last with hold | hlt
    · rwa [h.before t hold]
    · have hflow : 0 ≤ rate * ((t - last : Int) : ℚ) :=
        mul_nonneg hrate.le (Int.cast_nonneg (by omega))
      rw [h.behind t hlt]
      exact le_min (by linarith) hlimit
  · rw [if_neg hroom, or_iff_right hroom]
    have hflow : rate * ((cost - level) / rate) = cost - level := mul_div_cancel₀ _ hrate.ne'
    have hpos : 0 < (cost - level) / rate := div_pos (by linarith [not_le.mp hroom]) hrate
    constructor
    · intro hwait
      by_contra hlate
      have hearly := ceil_lt_of_lt (not_le.mp hlate) ((cost - level) / rate)
      have hfull := hwait ⌈(now : ℚ) + (cost - level) / rate⌉ (Int.le_ceil _)
      set t := ⌈(now : ℚ) + (cost - level) / rate⌉
      rcases le_or_gt t last with hold | hlt
      · rw [h.before t hold] at hfull
        exact hroom hfull
      · rw [h.behind t hlt] at hfull
        have hlevel : cost ≤ level + rate * ((t - last : Int) : ℚ) :=
          hfull.trans (min_le_left _ _)
        have hshort : rate * ((t - last : Int) : ℚ) < rate * ((cost - level) / rate) := by
          apply mul_lt_mul_of_pos_left _ hrate
          push_cast
          linarith
        linarith
    · intro hlast t ht
      have hlast : (last : ℚ) ≤ now := by exact_mod_cast hlast
      have hlt : last < t := by
        have hlt : (last : ℚ) < t := by linarith
        exact_mod_cast hlt
      rw [h.behind t hlt]
      have henough : rate * ((cost - level) / rate) ≤ rate * ((t - last : Int) : ℚ) := by
        apply mul_le_mul_of_nonneg_left _ hrate.le
        push_cast
        linarith
      exact le_min (by linarith) hlimit

theorem token_consume_iff {tb : RlTokenBucket} (hrate : 0 < tb.rate) (hcost : 0 < cost) (t : Int) :
    (rlConsume (.token tb) cost t t t).1 = true ↔ cost ≤ (rlTokenRefill tb t).tokens := by
  have htwice := rlTokenRefill_rlTokenRefill hrate.le (le_refl t)
  rw [rlConsume_eq hcost]
  dsimp only [advance, consumeAdvanced, tokenConsume]
  rw [htwice]
  split
  · next hroom => exact iff_of_true rfl hroom
  · next hroom => exact iff_of_false Bool.false_ne_true hroom

theorem token_fills {tb : RlTokenBucket} (hrate : 0 < tb.rate) :
    Fills tb.rate tb.tokens tb.burst tb.lastRefill fun t => (rlTokenRefill tb t).tokens where
  rate_pos := hrate
  before t ht := by
    have hsame : rlTokenRefill tb t = tb := if_pos ht
    rw [hsame]
  behind t ht := by rw [rlTokenRefill_of_lt ht]

theorem token_waitSuffices_iff {tb : RlTokenBucket} (hrate : 0 < tb.rate) (hcost : 0 < cost)
    (hlimit : cost ≤ tb.burst) (now : Int) :
    WaitSuffices (.token tb) cost now ↔ cost ≤ tb.tokens ∨ tb.lastRefill ≤ now := by
  rw [← (token_fills hrate).wait_iff hlimit now]
  simp only [WaitSuffices, token_consume_iff hrate hcost, rlTimeUntilNext, tokenTimeUntilNext,
    sub_nonpos]

theorem leaky_consume_iff {lb : RlLeakyBucket} (hrate : 0 < lb.rate) (hcost : 0 < cost) (t : Int) :
    (rlConsume (.leaky lb) cost t t t).1 = true ↔
      cost ≤ lb.capacity - (rlLeakyDrain lb t).waterLevel := by
  have htwice := rlLeakyDrain_rlLeakyDrain hrate.le (le_refl t)
  have hcapacity : (rlLeakyDrain lb t).capacity = lb.capacity := by
    rw [rlLeakyDrain]
    split <;> rfl
  rw [rlConsume_eq hcost]
  dsimp only [advance, consumeAdvanced, leakyConsume]
  rw [htwice, hcapacity, le_sub_iff_add_le, add_comm cost]
  split
  · next hroom => exact iff_of_true rfl hroom
  · next hroom => exact iff_of_false Bool.false_ne_true hroom

theorem leaky_fills {lb : RlLeakyBucket} (hrate : 0 < lb.rate) :
    Fills lb.rate (lb.capacity - lb.waterLevel) lb.capacity lb.lastLeak
      fun t => lb.capacity - (rlLeakyDrain lb t).waterLevel where
  rate_pos := hrate
  before t ht := by
    have hsame : rlLeakyDrain lb t = lb := if_pos ht
    rw [hsame]
  behind t ht := by
    rw [rlLeakyDrain_of_lt ht]
    dsimp only
    rcases le_total (lb.waterLevel - lb.rate * ((t - lb.lastLeak : Int) : ℚ)) 0 with hdry | hwet
    · rw [max_eq_right hdry, min_eq_right (by linarith), sub_zero]
    · rw [max_eq_left hwet, min_eq_left (by linarith)]
      ring

theorem leaky_waitSuffices_iff {lb : RlLeakyBucket} (hrate : 0 < lb.rate) (hcost : 0 < cost)
    (hlimit : cost ≤ lb.capacity) (now : Int) :
    WaitSuffices (.leaky lb) cost now ↔
      cost ≤ lb.capacity - lb.waterLevel ∨ lb.lastLeak ≤ now := by
  rw [← (leaky_fills hrate).wait_iff hlimit now]
  simp only [WaitSuffices, leaky_consume_iff hrate hcost, rlTimeUntilNext, leakyTimeUntilNext]

/-! ## The fixed window -/

def countAt (fw : RlFixedWindow) (t : Int) : ℚ :=
  if fw.windowSec ≤ (t - fw.windowStart : Int) then 0 else fw.count

theorem fixed_consume_iff (fw : RlFixedWindow) (hcost : 0 < cost) (t : Int) :
    (rlConsume (.fixed fw) cost t t t).1 = true ↔ countAt fw t + cost ≤ fw.maxCount := by
  rw [rlConsume_eq hcost, countAt]
  dsimp only [advance, consumeAdvanced, fixedConsume]
  split
  · dsimp only
    split
    · next hroom => exact iff_of_true rfl hroom
    · next hroom => exact iff_of_false Bool.false_ne_true hroom
  · split
    · next hroom => exact iff_of_true rfl hroom
    · next hroom => exact iff_of_false Bool.false_ne_true hroom

theorem countAt_of_over {fw : RlFixedWindow} {t : Int}
    (h : fw.windowSec ≤ (t - fw.windowStart : Int)) : countAt fw t = 0 := if_pos h

theorem fixed_waitSuffices_iff (fw : RlFixedWindow) (hcost : 0 < cost)
    (hlimit : cost ≤ fw.maxCount) (now : Int) :
    WaitSuffices (.fixed fw) cost now ↔ fw.count + cost ≤ fw.maxCount ∨ fw.maxCount ≤ fw.count ∨
      fw.windowSec ≤ (now - fw.windowStart : Int) := by
  simp only [WaitSuffices, fixed_consume_iff fw hcost, rlTimeUntilNext, fixedTimeUntilNext]
  have hempty : (0 : ℚ) + cost ≤ fw.maxCount := by linarith
  by_cases hany : fw.count < fw.maxCount
  · rw [if_pos hany, or_iff_right_of_imp (a := fw.maxCount ≤ fw.count)
      fun h => absurd h (not_le.mpr hany)]
    constructor
    · intro hwait
      have hnow := hwait now (by rw [add_zero])
      by_cases hover : fw.windowSec ≤ ((now - fw.windowStart : Int) : ℚ)
      · exact .inr hover
      · rw [countAt, if_neg hover] at hnow
        exact .inl hnow
    · intro h t ht
      rw [add_zero, Int.cast_le] at ht
      rw [countAt]
      split
      · exact hempty
      · next hopen =>
          rcases h with hroom | hover
          · exact hroom
          · have hle : ((now - fw.windowStart : Int) : ℚ) ≤ ((t - fw.windowStart : Int) : ℚ) := by
              exact_mod_cast (by omega : now - fw.windowStart ≤ t - fw.windowStart)
            exact absurd (hover.trans hle) hopen
  · rw [if_neg hany]
    refine iff_of_true (fun t ht => ?_) (.inr (.inl (not_lt.mp hany)))
    have hover : fw.windowSec ≤ ((t - fw.windowStart : Int) : ℚ) := by
      push_cast at ht ⊢
      linarith
    rw [countAt_of_over hover]
    exact hempty

/-! ## The sliding window -/

variable {sw : RlSlidingWindow}

theorem costs_of_entriesOf (h : CostsNonneg sw) : ∀ e ∈ entriesOf sw, 0 ≤ e.cost := by
  intro e he
  obtain ⟨k, -, rfl⟩ := RingBuffer.mem_contents.mp he
  exact h _

theorem sliding_consume_iff (h : Sane (.sliding sw)) (hcost : 0 < cost)
    (hlimit : cost ≤ sw.maxCost) (t : Int) :
    (rlConsume (.sliding sw) cost t t t).1 = true ↔ FitsNow sw cost t := by
  have htwice := rlSlidingPrune_rlSlidingPrune h.1 (le_refl t)
  have hpruned := pruneLoop_spec (cutoffOf sw t) h.2 (le_refl sw.count)
  have hsame := rlSlidingPrune_same sw t
  have hdecides : (rlConsume (.sliding sw) cost t t t).1 = true ↔
      (rlSlidingPrune sw t).currentCost + cost ≤ sw.maxCost := by
    rw [rlConsume_eq hcost]
    dsimp only [advance, consumeAdvanced, slidingConsume]
    rw [htwice, hsame.limit]
    split
    · next hroom => exact iff_of_true rfl hroom
    · next hroom => exact iff_of_false Bool.false_ne_true hroom
  rw [hdecides, rlSlidingPrune_eq, clampCost, FitsNow, ← hpruned.cost]
  split
  · next hneg =>
      refine iff_of_true ?_ (by linarith)
      change 0 + cost ≤ sw.maxCost
      linarith
  · exact Iff.rfl

theorem totalCost_takeWhile_mono {entries : List RlWindowEntry}
    (h : ∀ e ∈ entries, 0 ≤ e.cost) {since since' : Int} (hle : since ≤ since') :
    totalCost (entries.takeWhile (tooOld since)) ≤
      totalCost (entries.takeWhile (tooOld since')) := by
  induction entries with
  | nil => exact le_rfl
  | cons e entries ih =>
      have hrest := ih fun a ha => h a (List.mem_cons_of_mem e ha)
      by_cases hold : e.timestamp < since
      · have hold' : e.timestamp < since' := by omega
        rw [List.takeWhile_cons_of_pos (by simpa [tooOld] using hold),
          List.takeWhile_cons_of_pos (by simpa [tooOld] using hold')]
        simpa [totalCost] using hrest
      · rw [List.takeWhile_cons_of_neg (by simpa [tooOld] using hold)]
        apply List.sum_nonneg
        intro cost hmem
        obtain ⟨a, ha, rfl⟩ := List.mem_map.mp hmem
        exact h a ((List.takeWhile_sublist _).subset ha)

theorem FitsNow.mono (hcosts : CostsNonneg sw) {now t : Int} (h : FitsNow sw cost now)
    (hle : now ≤ t) : FitsNow sw cost t := by
  have hmono := totalCost_takeWhile_mono (costs_of_entriesOf hcosts) (cutoffOf_mono sw hle)
  rw [FitsNow] at h ⊢
  linarith

theorem fitsNow_of_end (hhead : sw.head < rlWindowLen) {now : Int} (hne : sw.count ≠ 0)
    (hfull : ¬sw.currentCost + cost ≤ sw.maxCost)
    (h : FitsNow sw cost (max now ((sw.entries sw.head).timestamp + sw.windowSec.floor))) :
    FitsNow sw cost now := by
  have hcons := entriesOf_dropOldest hhead hne
  by_cases hold : (sw.entries sw.head).timestamp < cutoffOf sw now
  · have hcutoff : cutoffOf sw (max now ((sw.entries sw.head).timestamp + sw.windowSec.floor)) =
        cutoffOf sw now := by
      rw [cutoffOf] at hold ⊢
      rw [cutoffOf]
      omega
    rwa [FitsNow, hcutoff] at h
  · exfalso
    have hkept : ¬(sw.entries sw.head).timestamp <
        cutoffOf sw (max now ((sw.entries sw.head).timestamp + sw.windowSec.floor)) := by
      rw [cutoffOf] at hold ⊢
      omega
    rw [FitsNow, hcons, List.takeWhile_cons_of_neg (by simpa [tooOld] using hkept)] at h
    apply hfull
    simpa [totalCost] using h

theorem slidingTimeUntilNext_nonneg (sw : RlSlidingWindow) (cost : ℚ) (now : Int) :
    0 ≤ slidingTimeUntilNext sw cost now := by
  unfold slidingTimeUntilNext
  split
  · exact le_rfl
  · split
    · exact le_rfl
    · dsimp only
      split
      · exact le_rfl
      · next hpos => exact not_lt.mp hpos

theorem sliding_waitSuffices_iff (h : Sane (.sliding sw)) (hcost : 0 < cost)
    (hlimit : cost ≤ sw.maxCost) (now : Int) :
    WaitSuffices (.sliding sw) cost now ↔ FitsNow sw cost now := by
  simp only [WaitSuffices, sliding_consume_iff h hcost hlimit, rlTimeUntilNext]
  constructor
  · intro hwait
    by_cases hroom : sw.currentCost + cost ≤ sw.maxCost
    · exact hwait now (by rw [slidingTimeUntilNext, if_pos hroom, add_zero])
    by_cases hempty : sw.count = 0
    · exact hwait now (by rw [slidingTimeUntilNext, if_neg hroom, if_pos hempty, add_zero])
    apply fitsNow_of_end h.2 hempty hroom
    apply hwait
    rw [slidingTimeUntilNext, if_neg hroom, if_neg hempty]
    dsimp only
    split
    · rw [add_zero]
      exact_mod_cast le_max_left _ _
    · have hle := le_max_right now ((sw.entries sw.head).timestamp + sw.windowSec.floor)
      have hle : (((sw.entries sw.head).timestamp + sw.windowSec.floor : Int) : ℚ) ≤
          (max now ((sw.entries sw.head).timestamp + sw.windowSec.floor) : Int) := by
        exact_mod_cast hle
      push_cast at hle ⊢
      linarith
  · intro hfits t ht
    apply hfits.mono h.1
    have hwait := slidingTimeUntilNext_nonneg sw cost now
    have hle : (now : ℚ) ≤ t := by linarith
    exact_mod_cast hle

/-! ## All limiters -/

/-- The wait that a limiter names is enough exactly for a request that costs nothing, and for one
for which it is right. -/
theorem wait_suffices_iff {rl : Limiter} (h : Reachable rl) (hlimit : cost ≤ limitOf rl)
    (now : Int) : WaitSuffices rl cost now ↔ cost ≤ 0 ∨ WaitIsRight rl cost now := by
  have hsane := sane_of_reachable h
  by_cases hfree : cost ≤ 0
  · refine iff_of_true (fun t _ => ?_) (.inl hfree)
    have haccepted : rlConsume rl cost t t t = (true, rl) := if_pos hfree
    rw [haccepted]
  · rw [or_iff_right hfree]
    have hcost := not_le.mp hfree
    cases rl with
    | token tb => exact token_waitSuffices_iff hsane hcost hlimit now
    | leaky lb => exact leaky_waitSuffices_iff hsane hcost hlimit now
    | sliding sw => exact sliding_waitSuffices_iff hsane hcost hlimit now
    | fixed fw => exact fixed_waitSuffices_iff fw hcost hlimit now

/-- A token bucket with 2 tokens left that fills by 2 each second. -/
theorem wait_suffices_iff_tokens :
    WaitSuffices (step (create (.token 2 10 0)) (.consume 8 1 1 1)) 5 1 :=
  (wait_suffices_iff (.step _ (.create _)) (by decide +kernel) 1).mpr
    (.inr (.inr (by decide +kernel)))

/-- The window is full from 1000 on.  At 1030 a wait of 30 seconds is named, and at 1060 the
request from 1000 still counts. -/
theorem oldest_still_counts :
    ¬WaitSuffices (step (create (.sliding 60 10)) (.consume 10 1000 1000 1000)) 5 1030 := by
  intro h
  have hnamed : ((1030 : Int) : ℚ) + rlTimeUntilNext (step (create (.sliding 60 10))
      (.consume 10 1000 1000 1000)) 5 1030 ≤ (1060 : Int) := by decide +kernel
  exact absurd (h 1060 hnamed) (by decide +kernel)

end MiniBackend.JobSystem.Proofs.WaitTimes
