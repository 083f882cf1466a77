import MiniBackend.JobSystem.Proofs.WindowPruning
import MiniBackend.Lib.Runs

/-!
# Dry runs of a limiter

A dry run brings the limiter up to date as a call of `rl_consume` does.  The buckets and the
sliding window do not notice: brought up to date twice, they are as if it had been done once, at
the later time.  A fixed window begins anew at the dry run when its time is over.
-/

namespace MiniBackend.JobSystem.Proofs.DryRuns

open MiniBackend.Lib.Runs MiniBackend.JobSystem.RateLimiter
open MiniBackend.JobSystem.Proofs.WindowPruning

/-- The initialisation of one of the four limiters, with the reading of the clock that it takes. -/
inductive Setup
  | token (rate burst : ℚ) (now : Int)
  | leaky (rate capacity : ℚ) (now : Int)
  | sliding (windowSec maxCost : ℚ)
  | fixed (windowSec maxCount : ℚ) (now : Int)

def create : Setup → Limiter
  | .token rate burst now => rlTokenBucketInit rate burst now
  | .leaky rate capacity now => rlLeakyBucketInit rate capacity now
  | .sliding windowSec maxCost => rlSlidingWindowInit windowSec maxCost
  | .fixed windowSec maxCount now => rlFixedWindowInit windowSec maxCount now

def isConsume : Op → Bool
  | .consume .. => true
  | _ => false

def readings : Op → List Int
  | .consume _ now₁ now₂ now₃ => [now₁, now₂, now₃]
  | .consumeNowait _ now => [now]
  | .wouldAllow _ now => [now]

/-- The clock of the run never goes back. -/
def Clocked (ops : List Op) : Prop := (ops.flatMap readings).Pairwise (· ≤ ·)

/-- The results of the calls of `rl_consume`. -/
def results : Limiter → List Op → List Bool
  | _, [] => []
  | rl, .consume cost now₁ now₂ now₃ :: ops =>
      (rlConsume rl cost now₁ now₂ now₃).1 :: results (step rl (.consume cost now₁ now₂ now₃)) ops
  | rl, op :: ops => results (step rl op) ops

/-- A dry run does not find a fixed window whose time is over. -/
def DryWithinWindow : Limiter → Op → Prop
  | .fixed fw, .consumeNowait cost now =>
      0 < cost → ((now - fw.windowStart : Int) : ℚ) < fw.windowSec
  | .fixed fw, .wouldAllow cost now => 0 < cost → ((now - fw.windowStart : Int) : ℚ) < fw.windowSec
  | _, _ => True

/-! ## Bringing a limiter up to date -/

def advance (rl : Limiter) (now : Int) : Limiter :=
  match rl with
  | .token tb => .token (rlTokenRefill tb now)
  | .leaky lb => .leaky (rlLeakyDrain lb now)
  | .sliding sw => .sliding (rlSlidingPrune sw now)
  | .fixed fw => .fixed fw

def Sane : Limiter → Prop
  | .token tb => 0 < tb.rate
  | .leaky lb => 0 < lb.rate
  | .sliding sw => CostsNonneg sw ∧ sw.head < rlWindowLen
  | .fixed _ => True

theorem rlTokenRefill_of_lt {tb : RlTokenBucket} {now : Int} (h : tb.lastRefill < now) :
    rlTokenRefill tb now =
      { tb with
        tokens := min (tb.tokens + tb.rate * (now - tb.lastRefill : Int)) tb.burst
        lastRefill := now } := by
  rw [rlTokenRefill, if_neg (not_le.mpr h)]
  dsimp only
  congr 1
  split
  · next hover => exact (min_eq_right hover.le).symm
  · next hover => exact (min_eq_left (not_lt.mp hover)).symm

theorem rlLeakyDrain_of_lt {lb : RlLeakyBucket} {now : Int} (h : lb.lastLeak < now) :
    rlLeakyDrain lb now =
      { lb with
        waterLevel := max (lb.waterLevel - lb.rate * (now - lb.lastLeak : Int)) 0
        lastLeak := now } := by
  rw [rlLeakyDrain, if_neg (not_le.mpr h)]
  dsimp only
  congr 1
  split
  · next hdry => exact (max_eq_right hdry.le).symm
  · next hdry => exact (max_eq_left (not_lt.mp hdry)).symm

theorem min_add_min {a b limit : ℚ} (hb : 0 ≤ b) :
    min (min a limit + b) limit = min (a + b) limit := by
  rcases le_total a limit with ha | ha
  · rw [min_eq_left ha]
  · rw [min_eq_right ha, min_eq_right (by linarith), min_eq_right (by linarith)]

theorem max_sub_max {a b : ℚ} (hb : 0 ≤ b) : max (max a 0 - b) 0 = max (a - b) 0 := by
  rcases le_total 0 a with ha | ha
  · rw [max_eq_left ha]
  · rw [max_eq_right ha, max_eq_right (by linarith), max_eq_right (by linarith)]

theorem rlTokenRefill_rlTokenRefill {tb : RlTokenBucket} (h : 0 ≤ tb.rate) {now now' : Int}
    (hnow : now ≤ now') :
    rlTokenRefill (rlTokenRefill tb now) now' = rlTokenRefill tb now' := by
  by_cases hold : now ≤ tb.lastRefill
  · have hsame : rlTokenRefill tb now = tb := if_pos hold
    rw [hsame]
  have hfirst := rlTokenRefill_of_lt (not_le.mp hold)
  rcases hnow.eq_or_lt with rfl | hlt
  · rw [hfirst]
    exact if_pos le_rfl
  · have hflow : 0 ≤ tb.rate * ((now' - now : Int) : ℚ) :=
      mul_nonneg h (Int.cast_nonneg (by omega))
    have hsplit : tb.rate * ((now' - tb.lastRefill : Int) : ℚ) =
        tb.rate * ((now - tb.lastRefill : Int) : ℚ) + tb.rate * ((now' - now : Int) : ℚ) := by
      push_cast
      ring
    rw [hfirst, rlTokenRefill_of_lt hlt, rlTokenRefill_of_lt ((not_le.mp hold).trans hlt)]
    dsimp only
    rw [min_add_min hflow, hsplit, add_assoc]

theorem rlLeakyDrain_rlLeakyDrain {lb : RlLeakyBucket} (h : 0 ≤ lb.rate) {now now' : Int}
    (hnow : now ≤ now') : rlLeakyDrain (rlLeakyDrain lb now) now' = rlLeakyDrain lb now' := by
  by_cases hold : now ≤ lb.lastLeak
  · have hsame : rlLeakyDrain lb now = lb := if_pos hold
    rw [hsame]
  have hfirst := rlLeakyDrain_of_lt (not_le.mp hold)
  rcases hnow.eq_or_lt with rfl | hlt
  · rw [hfirst]
    exact if_pos le_rfl
  · have hflow : 0 ≤ lb.rate * ((now' - now : Int) : ℚ) :=
      mul_nonneg h (Int.cast_nonneg (by omega))
    have hsplit : lb.rate * ((now' - lb.lastLeak : Int) : ℚ) =
        lb.rate * ((now - lb.lastLeak : Int) : ℚ) + lb.rate * ((now' - now : Int) : ℚ) := by
      push_cast
      ring
    rw [hfirst, rlLeakyDrain_of_lt hlt, rlLeakyDrain_of_lt ((not_le.mp hold).trans hlt)]
    dsimp only
    rw [max_sub_max hflow, hsplit, sub_sub]

theorem advance_advance {rl : Limiter} (h : Sane rl) {now now' : Int} (hnow : now ≤ now') :
    advance (advance rl now) now' = advance rl now' := by
  cases rl with
  | token tb => exact congrArg Limiter.token (rlTokenRefill_rlTokenRefill h.le hnow)
  | leaky lb => exact congrArg Limiter.leaky (rlLeakyDrain_rlLeakyDrain h.le hnow)
  | sliding sw => exact congrArg Limiter.sliding (rlSlidingPrune_rlSlidingPrune h.1 hnow)
  | fixed fw => rfl

/-! ## What the calls do -/

def consumeAdvanced (rl : Limiter) (cost : ℚ) (now₁ now₂ now₃ : Int) : Bool × Limiter :=
  match rl with
  | .token tb =>
      let (ok, tb) := tokenConsume tb cost true now₂
      (ok, .token tb)
  | .leaky lb =>
      let (ok, lb) := leakyConsume lb cost true now₂
      (ok, .leaky lb)
  | .sliding sw =>
      let (ok, sw) := slidingConsume sw cost true now₂ now₃
      (ok, .sliding sw)
  | .fixed fw =>
      let (ok, fw) := fixedConsume fw cost true now₁
      (ok, .fixed fw)

theorem rlConsume_eq {cost : ℚ} (hcost : 0 < cost) (rl : Limiter) (now₁ now₂ now₃ : Int) :
    rlConsume rl cost now₁ now₂ now₃ = consumeAdvanced (advance rl now₁) cost now₁ now₂ now₃ := by
  unfold rlConsume
  rw [if_neg (not_le.mpr hcost)]
  cases rl <;> rfl

theorem rlConsumeNowait_snd {rl : Limiter} {cost : ℚ} {now : Int}
    (h : DryWithinWindow rl (.consumeNowait cost now)) :
    (rlConsumeNowait rl cost now).2 = rl ∨ (rlConsumeNowait rl cost now).2 = advance rl now := by
  unfold rlConsumeNowait
  split
  · exact .inl rfl
  · next hcost =>
      cases rl with
      | token tb =>
          refine .inr ?_
          dsimp only [tokenConsume]
          split <;> rfl
      | leaky lb =>
          refine .inr ?_
          dsimp only [leakyConsume]
          split <;> rfl
      | sliding sw =>
          refine .inr ?_
          dsimp only [slidingConsume]
          split <;> rfl
      | fixed fw =>
          refine .inl ?_
          have hwithin := h (not_le.mp hcost)
          dsimp only [fixedConsume]
          rw [if_neg (not_le.mpr hwithin)]
          split <;> rfl

theorem rlWouldAllow_eq_rlConsume {rl : Limiter} (h : Sane rl) (cost : ℚ) (now : Int) :
    (rlWouldAllow rl cost now).1 = (rlConsume rl cost now now now).1 := by
  unfold rlWouldAllow rlConsumeNowait rlConsume
  split
  · rfl
  · cases rl with
    | token tb =>
        have htwice := rlTokenRefill_rlTokenRefill h.le (le_refl now)
        dsimp only [tokenConsume]
        rw [htwice]
        split <;> rfl
    | leaky lb =>
        have htwice := rlLeakyDrain_rlLeakyDrain h.le (le_refl now)
        dsimp only [leakyConsume]
        rw [htwice]
        split <;> rfl
    | sliding sw =>
        have htwice := rlSlidingPrune_rlSlidingPrune h.1 (le_refl now)
        dsimp only [slidingConsume]
        rw [htwice]
        split <;> rfl
    | fixed fw =>
        dsimp only [fixedConsume]
        split <;> split <;> rfl

theorem sane_create (setup : Setup) : Sane (create setup) := by
  have hrate (rate : ℚ) : 0 < if 0 < rate then rate else 1 := by
    split
    · assumption
    · exact zero_lt_one
  cases setup with
  | token rate burst now => exact hrate rate
  | leaky rate capacity now => exact hrate rate
  | sliding windowSec maxCost => exact ⟨fun i => le_rfl, Nat.zero_lt_succ 255⟩
  | fixed windowSec maxCount now => trivial

theorem sane_advance {rl : Limiter} (h : Sane rl) (now : Int) : Sane (advance rl now) := by
  cases rl with
  | token tb =>
      change 0 < (rlTokenRefill tb now).rate
      rw [rlTokenRefill]
      split
      · exact h
      · exact h
  | leaky lb =>
      change 0 < (rlLeakyDrain lb now).rate
      rw [rlLeakyDrain]
      split
      · exact h
      · exact h
  | sliding sw =>
      refine ⟨fun i => ?_, rlSlidingPrune_head_lt now h.2⟩
      rw [(rlSlidingPrune_same sw now).entries]
      exact h.1 i
  | fixed fw => trivial

theorem sane_consumeAdvanced {rl : Limiter} (h : Sane rl) {cost : ℚ} (hcost : 0 < cost)
    (now₁ now₂ now₃ : Int) : Sane (consumeAdvanced rl cost now₁ now₂ now₃).2 := by
  cases rl with
  | token tb =>
      have hfilled : Sane (.token (rlTokenRefill tb now₂)) := sane_advance h now₂
      dsimp only [consumeAdvanced, tokenConsume]
      split
      · exact hfilled
      · exact hfilled
  | leaky lb =>
      have hdrained : Sane (.leaky (rlLeakyDrain lb now₂)) := sane_advance h now₂
      dsimp only [consumeAdvanced, leakyConsume]
      split
      · exact hdrained
      · exact hdrained
  | sliding sw =>
      have hpruned : Sane (.sliding (rlSlidingPrune sw now₂)) := sane_advance h now₂
      dsimp only [consumeAdvanced, slidingConsume]
      split
      · rw [if_pos rfl]
        refine ⟨fun i => ?_, hpruned.2⟩
        dsimp only
        rw [Function.update_apply]
        split
        · exact hcost.le
        · exact hpruned.1 i
      · exact hpruned
  | fixed fw => trivial

theorem sane_consume {rl : Limiter} (h : Sane rl) (cost : ℚ) (now₁ now₂ now₃ : Int) :
    Sane (rlConsume rl cost now₁ now₂ now₃).2 := by
  by_cases hcost : 0 < cost
  · rw [rlConsume_eq hcost]
    exact sane_consumeAdvanced (sane_advance h now₁) hcost now₁ now₂ now₃
  · have hfree : rlConsume rl cost now₁ now₂ now₃ = (true, rl) := if_pos (not_lt.mp hcost)
    rw [hfree]
    exact h

theorem sane_consumeNowait {rl : Limiter} (h : Sane rl) (cost : ℚ) (now : Int) :
    Sane (rlConsumeNowait rl cost now).2 := by
  unfold rlConsumeNowait
  split
  · exact h
  · cases rl with
    | token tb =>
        have hfilled : Sane (.token (rlTokenRefill tb now)) := sane_advance h now
        dsimp only [tokenConsume]
        split <;> exact hfilled
    | leaky lb =>
        have hdrained : Sane (.leaky (rlLeakyDrain lb now)) := sane_advance h now
        dsimp only [leakyConsume]
        split <;> exact hdrained
    | sliding sw =>
        have hpruned : Sane (.sliding (rlSlidingPrune sw now)) := sane_advance h now
        dsimp only [slidingConsume]
        split <;> exact hpruned
    | fixed fw => trivial

theorem sane_step {rl : Limiter} (op : Op) (h : Sane rl) : Sane (step rl op) := by
  cases op with
  | consume cost now₁ now₂ now₃ => exact sane_consume h cost now₁ now₂ now₃
  | consumeNowait cost now => exact sane_consumeNowait h cost now
  | wouldAllow cost now => exact sane_consumeNowait h cost now

/-! ## Two runs -/

def Alike (clock : Int) (a b : Limiter) : Prop := ∀ now, clock ≤ now → advance a now = advance b now

/-- A call of `rl_consume` does not tell limiters apart that are alike, and leaves them alike. -/
theorem Alike.consume {clock : Int} {a b : Limiter} (h : Alike clock a b) {cost : ℚ}
    {now₁ : Int} (hnow : clock ≤ now₁) (now₂ now₃ : Int) :
    (rlConsume a cost now₁ now₂ now₃).1 = (rlConsume b cost now₁ now₂ now₃).1 ∧
      Alike clock (rlConsume a cost now₁ now₂ now₃).2 (rlConsume b cost now₁ now₂ now₃).2 := by
  by_cases hcost : 0 < cost
  · rw [rlConsume_eq hcost, rlConsume_eq hcost, h now₁ hnow]
    exact ⟨rfl, fun _ _ => rfl⟩
  · have hfree (rl : Limiter) : rlConsume rl cost now₁ now₂ now₃ = (true, rl) :=
      if_pos (not_lt.mp hcost)
    rw [hfree, hfree]
    exact ⟨rfl, h⟩

theorem Alike.dry {clock : Int} {a b : Limiter} (h : Alike clock a b) (ha : Sane a) {cost : ℚ}
    {now : Int} (hnow : clock ≤ now) (hdry : DryWithinWindow a (.consumeNowait cost now)) :
    Alike now (rlConsumeNowait a cost now).2 b := by
  intro u hu
  rcases rlConsumeNowait_snd hdry with hsame | hadvanced
  · rw [hsame]
    exact h u (hnow.trans hu)
  · rw [hadvanced, advance_advance ha hu]
    exact h u (hnow.trans hu)

theorem Clocked.tail {op : Op} {ops : List Op} (h : Clocked (op :: ops)) : Clocked ops := by
  rw [Clocked, List.flatMap_cons] at h
  exact (List.pairwise_append.mp h).2.1

theorem Clocked.le {op : Op} {ops : List Op} (h : Clocked (op :: ops)) {now u : Int}
    (hnow : now ∈ readings op) (hu : u ∈ ops.flatMap readings) : now ≤ u := by
  rw [Clocked, List.flatMap_cons] at h
  exact (List.pairwise_append.mp h).2.2 now hnow u hu

theorem results_alike {clock : Int} {a b : Limiter} {ops : List Op} (h : Alike clock a b)
    (ha : Sane a) (hclock : ∀ now ∈ ops.flatMap readings, clock ≤ now) (hclocked : Clocked ops)
    (hdry : Always step DryWithinWindow a ops) :
    results a ops = results b (ops.filter isConsume) := by
  induction ops generalizing clock a b with
  | nil => rfl
  | cons op ops ih =>
      have hfirst : ∀ now ∈ readings op, clock ≤ now := fun now hnow =>
        hclock now (by rw [List.flatMap_cons]; exact List.mem_append_left _ hnow)
      have hrest : ∀ now ∈ ops.flatMap readings, clock ≤ now := fun now hnow =>
        hclock now (by rw [List.flatMap_cons]; exact List.mem_append_right _ hnow)
      have hsane := sane_step op ha
      cases op with
      | consume cost now₁ now₂ now₃ =>
          have hconsume := @Alike.consume _ _ _ h cost _ (hfirst now₁ List.mem_cons_self) now₂ now₃
          rw [List.filter_cons_of_pos rfl, results, results, hconsume.1]
          exact congrArg _ (ih hconsume.2 hsane hrest hclocked.tail hdry.2)
      | consumeNowait cost now =>
          have hnow := hfirst now List.mem_cons_self
          rw [List.filter_cons_of_neg (by simp [isConsume])]
          exact ih (h.dry ha hnow hdry.1) hsane
            (fun u hu => hclocked.le List.mem_cons_self hu) hclocked.tail hdry.2
      | wouldAllow cost now =>
          have hnow := hfirst now List.mem_cons_self
          have hwithin : DryWithinWindow a (.consumeNowait cost now) := by
            cases a with
            | fixed fw => exact hdry.1
            | token tb => trivial
            | leaky lb => trivial
            | sliding sw => trivial
          rw [List.filter_cons_of_neg (by simp [isConsume])]
          exact ih (h.dry ha hnow hwithin) hsane
            (fun u hu => hclocked.le List.mem_cons_self hu) hclocked.tail hdry.2

theorem results_filter_isConsume (setup : Setup) {ops : List Op} (hclocked : Clocked ops)
    (hdry : Always step DryWithinWindow (create setup) ops) :
    results (create setup) ops = results (create setup) (ops.filter isConsume) := by
  have halike (clock : Int) : Alike clock (create setup) (create setup) := fun _ _ => rfl
  have hsorted : (ops.flatMap readings).Pairwise (· ≤ ·) := hclocked
  cases hreadings : ops.flatMap readings with
  | nil =>
      refine results_alike (halike 0) (sane_create setup) ?_ hclocked hdry
      rw [hreadings]
      exact fun now hnow => absurd hnow List.not_mem_nil
  | cons first rest =>
      refine results_alike (halike first) (sane_create setup) ?_ hclocked hdry
      rw [hreadings] at hsorted ⊢
      intro now hnow
      rcases List.mem_cons.mp hnow with rfl | hnow
      · exact le_rfl
      · exact (List.pairwise_cons.mp hsorted).1 now hnow

/-- Two runs with the same calls of `rl_consume` have the same results, as long as no dry run finds
a fixed window whose time is over; and in every state a dry run decides as `rl_consume` does. -/
theorem dry_runs_pure (setup : Setup) {ops ops' : List Op}
    (hsame : ops.filter isConsume = ops'.filter isConsume)
    (hclocked : Clocked ops) (hclocked' : Clocked ops')
    (hdry : Always step DryWithinWindow (create setup) ops)
    (hdry' : Always step DryWithinWindow (create setup) ops') :
    results (create setup) ops = results (create setup) ops' ∧
      ∀ n cost now, (rlWouldAllow (run step (create setup) (ops.take n)) cost now).1 =
        (rlConsume (run step (create setup) (ops.take n)) cost now now now).1 := by
  constructor
  · rw [results_filter_isConsume setup hclocked hdry, hsame,
      results_filter_isConsume setup hclocked' hdry']
  · intro n cost now
    have hsane : Sane (run step (create setup) (ops.take n)) :=
      run_keeps step (fun rl op h => sane_step op h) (sane_create setup) (ops.take n)
    exact rlWouldAllow_eq_rlConsume hsane cost now

/-- A token bucket with two calls, and with dry runs before and between them. -/
theorem dry_runs_pure_tokens :
    results (create (.token 2 10 0)) [.consume 8 3 3 3, .consume 5 5 5 5] =
        results (create (.token 2 10 0))
          [.wouldAllow 4 1, .consume 8 3 3 3, .consumeNowait 9 4, .consume 5 5 5 5] ∧
      ∀ n cost now,
        (rlWouldAllow (run step (create (.token 2 10 0))
          (List.take n [.consume 8 3 3 3, .consume 5 5 5 5])) cost now).1 =
        (rlConsume (run step (create (.token 2 10 0))
          (List.take n [.consume 8 3 3 3, .consume 5 5 5 5])) cost now now now).1 :=
  dry_runs_pure (.token 2 10 0) rfl (by unfold Clocked; decide) (by unfold Clocked; decide)
    ⟨trivial, trivial, trivial⟩ ⟨trivial, trivial, trivial, trivial, trivial⟩

/-- A dry run at 15 begins the fixed window anew, so that it is over at 25; without the dry run it
begins at 16. -/
theorem dry_run_moves_window :
    ([Op.wouldAllow 1 15, .consume 1 16 16 16, .consume 1 25 25 25].filter isConsume =
        [Op.consume 1 16 16 16, .consume 1 25 25 25].filter isConsume) ∧
      results (create (.fixed 10 1 0))
          [.wouldAllow 1 15, .consume 1 16 16 16, .consume 1 25 25 25] = [true, true] ∧
        results (create (.fixed 10 1 0)) [.consume 1 16 16 16, .consume 1 25 25 25] =
          [true, false] := by
  refine ⟨rfl, by decide +kernel, by decide +kernel⟩

end MiniBackend.JobSystem.Proofs.DryRuns
