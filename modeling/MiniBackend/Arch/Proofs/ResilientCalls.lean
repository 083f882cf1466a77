import MiniBackend.Arch.BusinessPatterns
import MiniBackend.Lib.Runs
import Mathlib.Algebra.Order.Ring.Unbundled.Rat

/-!
# What a breaker learns from calls under a policy

The bulkhead is left as it was on every path.  The breaker is told what came of a call when
`fn` was invoked, and nothing when the bulkhead or the breaker itself turned the call away.
A call that the rate limiter turns away is recorded as a success.
-/

namespace MiniBackend.Arch.Proofs.ResilientCalls

open MiniBackend.Arch.Patterns MiniBackend.Lib.Runs

variable {D : Type}

def Learned (frame : Frame D) : Prop :=
  frame.recorded =
    if 0 ∈ frame.returned then [.success] else if frame.returned = [] then [] else [.failure]

instance decidableLearned (frame : Frame D) : Decidable (Learned frame) :=
  inferInstanceAs (Decidable (frame.recorded = _))

/-! ## Breakers -/

def Counted (cb : CircuitBreaker) (zeros : Nat) : Prop :=
  cb.state = .halfOpen → cb.halfOpenSuccessCount ≤ zeros

def zerosBefore (cb : CircuitBreaker) (zeros : Nat) : Nat := if cb.state = .opened then 0 else zeros

structure Asked (cb cb' : CircuitBreaker) : Prop where
  closed : cb'.state = .closed ↔ cb.state = .closed
  limit : cb'.halfOpenMaxRequests = cb.halfOpenMaxRequests
  counted : ∀ zeros, Counted cb zeros → Counted cb' (zerosBefore cb zeros)

theorem allowRequest_asked (cb : CircuitBreaker) (now : UInt64) :
    Asked cb (cbAllowRequest cb now).2 := by
  unfold cbAllowRequest
  cases hstate : cb.state with
  | closed =>
      refine ⟨by simp [hstate], rfl, ?_⟩
      intro zeros _ hhalf
      rw [hstate] at hhalf
      contradiction
  | opened =>
      dsimp only
      split
      · refine ⟨by simp [hstate], rfl, ?_⟩
        intro zeros _ _
        exact Nat.zero_le _
      · refine ⟨Iff.rfl, rfl, ?_⟩
        intro zeros _ hhalf
        rw [cbReject, hstate] at hhalf
        contradiction
  | halfOpen =>
      have hzeros : ∀ zeros, zerosBefore cb zeros = zeros := by
        intro zeros
        rw [zerosBefore, hstate]
        rfl
      dsimp only
      split
      · refine ⟨by simp [hstate], rfl, ?_⟩
        intro zeros hcounted _
        rw [hzeros]
        exact hcounted hstate
      · refine ⟨by simp [cbReject, hstate], rfl, ?_⟩
        intro zeros hcounted _
        rw [hzeros]
        exact hcounted hstate

theorem recordSuccess_counted {cb : CircuitBreaker} {zeros : Nat} (now : UInt64)
    (h : Counted cb zeros) :
    Counted (cbRecordSuccess cb now) (zeros + 1) ∧
      (cb.state ≠ .closed → (cbRecordSuccess cb now).state = .closed →
        cb.halfOpenMaxRequests ≤ (zeros + 1 : Nat)) := by
  unfold cbRecordSuccess
  cases hstate : cb.state with
  | closed => simp [Counted]
  | opened => simp [Counted]
  | halfOpen =>
      have hle := h hstate
      by_cases henough : cb.halfOpenMaxRequests ≤ (cb.halfOpenSuccessCount + 1 : Nat)
      · have hzeros : cb.halfOpenMaxRequests ≤ (zeros + 1 : Nat) := by omega
        simp only [if_true, if_pos henough, hzeros, implies_true, and_true]
        intro hhalf
        contradiction
      · simp only [if_true, if_neg henough]
        refine ⟨fun _ => Nat.succ_le_succ hle, ?_⟩
        intro _ hclosed
        contradiction

theorem recordFailure_counted (cb : CircuitBreaker) (zeros : Nat) (now : UInt64) :
    Counted (cbRecordFailure cb now) zeros ∧
      ((cbRecordFailure cb now).state = .closed → cb.state = .closed) := by
  unfold cbRecordFailure
  cases hstate : cb.state with
  | closed =>
      dsimp only
      split <;> simp [Counted]
  | opened => simp [Counted]
  | halfOpen => simp [Counted]

/-! ## Bulkheads -/

theorem release_tryAcquire {bh : Bulkhead} (h : (bhTryAcquire bh).1 = 0) :
    (bhRelease (bhTryAcquire bh).2).currentCount = bh.currentCount ∧
      ∀ success, (bhReleaseWithResult (bhTryAcquire bh).2 success).currentCount =
        bh.currentCount := by
  unfold bhTryAcquire at h ⊢
  split
  · next hfull =>
      rw [if_pos hfull] at h
      contradiction
  · dsimp only
    constructor
    · split <;> simp [bhRelease]
    · intro success
      cases success
      · split <;> simp [bhReleaseWithResult]
      · split <;> simp [bhReleaseWithResult]

theorem tryAcquire_refused {bh : Bulkhead} (h : (bhTryAcquire bh).1 ≠ 0) :
    (bhTryAcquire bh).2.currentCount = bh.currentCount := by
  unfold bhTryAcquire at h ⊢
  split
  · rfl
  · next hroom =>
      rw [if_neg hroom] at h
      exact absurd rfl h

/-! ## A call -/

structure LoopDone (frame : Frame D) (loopEnd : LoopEnd) (frame' : Frame D) : Prop where
  breaker_eq : frame'.circuitBreaker = frame.circuitBreaker
  bulkhead_eq : frame'.bulkhead = frame.bulkhead
  recorded_eq : frame'.recorded = frame.recorded
  returned : ∃ more, frame'.returned = frame.returned ++ more ∧ more ≠ [] ∧
    more.count 0 = if loopEnd = .succeeded then 1 else 0

def roundsLeft (frame : Frame D) : Nat :=
  (frame.backoff.elim 0 fun eb => (eb.maxRetries - eb.attempt).toNat) + 1

theorem callLoop_done {timeoutMs : UInt64} {around : Surroundings} {fuel n : Nat}
    {frame : Frame D} (hfuel : roundsLeft frame ≤ fuel) :
    ∃ loopEnd frame', callLoop timeoutMs around fuel n frame = some (loopEnd, frame') ∧
      LoopDone frame loopEnd frame' := by
  induction fuel generalizing n frame with
  | zero =>
      unfold roundsLeft at hfuel
      omega
  | succ fuel ih =>
      rw [callLoop]
      dsimp only
      by_cases hresult : (around.fn n).result = 0
      · rw [if_pos hresult]
        exact ⟨_, _, rfl, rfl, rfl, rfl, [(around.fn n).result], rfl, by simp, by simp [hresult]⟩
      · rw [if_neg hresult]
        have honce : ([(around.fn n).result] : List Int).count 0 = 0 := by
          rw [List.count_singleton, if_neg]
          simpa using hresult
        split
        · exact ⟨_, _, rfl, rfl, rfl, rfl, _, rfl, by simp, honce⟩
        · cases hbackoff : frame.backoff with
          | none => exact ⟨_, _, rfl, rfl, rfl, rfl, _, rfl, by simp, honce⟩
          | some eb =>
              dsimp only
              by_cases hretry : ebShouldRetry eb = true
              · rw [if_pos hretry]
                split
                · have hlt : (eb.attempt : Int) < eb.maxRetries := of_decide_eq_true hretry
                  let next : Frame D := { frame with
                    returned := frame.returned ++ [(around.fn n).result]
                    backoff := some (ebNextDelayMs eb around.draw).2 }
                  have hrounds : roundsLeft next ≤ fuel := by
                    simp only [roundsLeft, hbackoff, Option.elim_some, next, ebNextDelayMs,
                      if_pos hretry] at hfuel ⊢
                    omega
                  obtain ⟨loopEnd, frame', hrun, hdone⟩ := ih hrounds
                  refine ⟨loopEnd, frame', hrun, hdone.breaker_eq, hdone.bulkhead_eq,
                    hdone.recorded_eq, ?_⟩
                  obtain ⟨more, hmore, -, hcount⟩ := hdone.returned
                  refine ⟨(around.fn n).result :: more, ?_, List.cons_ne_nil _ _, ?_⟩
                  · rw [hmore, List.append_assoc, List.singleton_append]
                  · rw [List.count_cons, hcount]
                    simp [hresult]
                · exact ⟨_, _, rfl, rfl, rfl, rfl, _, rfl, by simp, honce⟩
              · rw [if_neg hretry]
                exact ⟨_, _, rfl, rfl, rfl, rfl, _, rfl, by simp, honce⟩

def told (circuitBreaker : Option CircuitBreaker) (recorded : Recorded) : List Recorded :=
  if circuitBreaker.isSome then [recorded] else []

theorem recordSuccess_eq (frame : Frame D) (now : UInt64) :
    frame.recordSuccess now = { frame with
      circuitBreaker := frame.circuitBreaker.map (cbRecordSuccess · now)
      recorded := frame.recorded ++ told frame.circuitBreaker .success } := by
  unfold Frame.recordSuccess told
  cases hcb : frame.circuitBreaker with
  | none => cases frame; simp_all
  | some cb => rfl

theorem recordFailure_eq (frame : Frame D) (now : UInt64) :
    frame.recordFailure now = { frame with
      circuitBreaker := frame.circuitBreaker.map (cbRecordFailure · now)
      recorded := frame.recorded ++ told frame.circuitBreaker .failure } := by
  unfold Frame.recordFailure told
  cases hcb : frame.circuitBreaker with
  | none => cases frame; simp_all
  | some cb => rfl

theorem tryAcquire_eq (frame : Frame D) :
    frame.tryAcquire.2 = { frame with
      bulkhead := frame.bulkhead.map fun bh => (bhTryAcquire bh).2 } := by
  unfold Frame.tryAcquire
  cases hbh : frame.bulkhead with
  | none => cases frame; simp_all
  | some bh => rfl

theorem allowRequest_eq (frame : Frame D) (now : UInt64) :
    (frame.allowRequest now).2 = { frame with
      circuitBreaker := frame.circuitBreaker.map fun cb => (cbAllowRequest cb now).2 } := by
  unfold Frame.allowRequest
  cases hcb : frame.circuitBreaker with
  | none => cases frame; simp_all
  | some cb => rfl

theorem allowRequest_fst (frame : Frame D) (now : UInt64) :
    (frame.allowRequest now).1 = frame.circuitBreaker.all fun cb => (cbAllowRequest cb now).1 := by
  unfold Frame.allowRequest
  cases frame.circuitBreaker <;> rfl

def inFlight (frame : Frame D) : Option Nat := frame.bulkhead.map (·.currentCount)

theorem tryAcquire_true {frame : Frame D} (h : frame.tryAcquire.1 = true) :
    (frame.bulkhead.map fun bh => (bhRelease (bhTryAcquire bh).2).currentCount) =
        inFlight frame ∧
      ∀ success, (frame.bulkhead.map fun bh =>
        (bhReleaseWithResult (bhTryAcquire bh).2 success).currentCount) = inFlight frame := by
  unfold Frame.tryAcquire at h
  unfold inFlight
  cases hbh : frame.bulkhead with
  | none => exact ⟨rfl, fun _ => rfl⟩
  | some bh =>
      rw [hbh] at h
      obtain ⟨hrelease, hresult⟩ := release_tryAcquire (of_decide_eq_true h)
      exact ⟨congrArg some hrelease, fun success => congrArg some (hresult success)⟩

theorem tryAcquire_false {frame : Frame D} (h : frame.tryAcquire.1 = false) :
    inFlight frame.tryAcquire.2 = inFlight frame := by
  rw [tryAcquire_eq]
  unfold Frame.tryAcquire at h
  unfold inFlight
  cases hbh : frame.bulkhead with
  | none => rfl
  | some bh =>
      rw [hbh] at h
      exact congrArg some (tryAcquire_refused (of_decide_eq_false h))

inductive Attempted (around : Surroundings) (frame frame' : Frame D) : Prop
  | succeeded : frame'.circuitBreaker =
        frame.circuitBreaker.map (cbRecordSuccess · around.recordedAt) →
      frame'.returned.count 0 = 1 → frame'.recorded = told frame.circuitBreaker .success →
      Attempted around frame frame'
  | failed : frame'.circuitBreaker =
        frame.circuitBreaker.map (cbRecordFailure · around.recordedAt) →
      frame'.returned.count 0 = 0 → frame'.returned ≠ [] →
      frame'.recorded = told frame.circuitBreaker .failure → Attempted around frame frame'

theorem finish_attempted {around : Surroundings} {loopEnd : LoopEnd} {frame looped : Frame D}
    (hdone : LoopDone frame loopEnd looped) (hreturned : frame.returned = [])
    (hrecorded : frame.recorded = []) :
    Attempted around frame (finish around loopEnd looped).2 ∧
      ∃ success, (finish around loopEnd looped).2.bulkhead =
        frame.bulkhead.map (bhReleaseWithResult · success) := by
  obtain ⟨more, hmore, hne, hcount⟩ := hdone.returned
  rw [hreturned, List.nil_append] at hmore
  have htold : ∀ recorded, looped.recorded ++ told looped.circuitBreaker recorded =
      told frame.circuitBreaker recorded := by
    intro recorded
    rw [hdone.recorded_eq, hrecorded, hdone.breaker_eq, List.nil_append]
  cases loopEnd with
  | succeeded =>
      rw [if_pos rfl, ← hmore] at hcount
      simp only [finish, recordSuccess_eq, Frame.mapBackoff, Frame.releaseWithResult]
      refine ⟨.succeeded ?_ hcount (htold _), true, ?_⟩
      · rw [← hdone.breaker_eq]
      · rw [← hdone.bulkhead_eq]
  | timedOut =>
      rw [if_neg nofun, ← hmore] at hcount
      simp only [finish, recordFailure_eq, Frame.mapBackoff, Frame.releaseWithResult]
      refine ⟨.failed ?_ hcount (hmore ▸ hne) (htold _), false, ?_⟩
      · rw [← hdone.breaker_eq]
      · rw [← hdone.bulkhead_eq]
  | failed =>
      rw [if_neg nofun, ← hmore] at hcount
      simp only [finish, recordFailure_eq, Frame.mapBackoff, Frame.releaseWithResult]
      refine ⟨.failed ?_ hcount (hmore ▸ hne) (htold _), false, ?_⟩
      · rw [← hdone.breaker_eq]
      · rw [← hdone.bulkhead_eq]

/-- The last stage of a call: `fn` is invoked. -/
theorem loop_attempted (timeoutMs : UInt64) (around : Surroundings) {frame : Frame D}
    (hreturned : frame.returned = []) (hrecorded : frame.recorded = []) :
    ∃ result frame', ((callLoop timeoutMs around (callRounds (frame.mapBackoff ebReset)) 0
        (frame.mapBackoff ebReset)).map fun (loopEnd, looped) => finish around loopEnd looped) =
          some (result, frame') ∧
      Attempted around frame frame' ∧
      ∃ success, frame'.bulkhead = frame.bulkhead.map (bhReleaseWithResult · success) := by
  have hrounds : roundsLeft (frame.mapBackoff ebReset) ≤ callRounds (frame.mapBackoff ebReset) := by
    simp only [roundsLeft, callRounds, Frame.mapBackoff]
    cases frame.backoff with
    | none => exact le_rfl
    | some eb =>
        simp only [Option.map_some, Option.elim_some, ebReset]
        omega
  obtain ⟨loopEnd, looped, hloop, hdone⟩ := callLoop_done hrounds
  rw [hloop]
  exact ⟨(finish around loopEnd looped).1, (finish around loopEnd looped).2, rfl,
    finish_attempted ⟨hdone.breaker_eq, hdone.bulkhead_eq, hdone.recorded_eq, hdone.returned⟩
      hreturned hrecorded⟩

theorem bulkheads_store {memory : Memory D} {policy : ResiliencePolicy} {frame : Frame D}
    (h : inFlight frame = inFlight (memory.load policy)) (b : Nat) :
    ((memory.store policy frame).bulkheads b).currentCount =
      (memory.bulkheads b).currentCount := by
  simp only [Memory.store]
  unfold inFlight Memory.load at h
  cases hpointer : policy.bulkhead with
  | none => rfl
  | some address =>
      rw [hpointer, Option.map_some, Option.map_some, Option.map_eq_some_iff] at h
      obtain ⟨bh, hbh, hcount⟩ := h
      rw [hbh, writeBack]
      by_cases hb : b = address
      · rw [hb, Function.update_self]
        exact hcount
      · rw [Function.update_of_ne hb]

section

variable [Add D] [Sub D] [Mul D] [Div D] [NatCast D] [LT D] [DecidableLT D] [LE D]
  [DecidableLE D]

def RefusedLate (frame : Frame D) (around : Surroundings) : Prop :=
  frame.circuitBreaker.isSome = true ∧ frame.tryAcquire.1 = true ∧
    (frame.allowRequest around.allowedAt).1 = true ∧ (frame.tryConsume around.nowMs).1 = false

instance decidableRefusedLate (frame : Frame D) (around : Surroundings) :
    Decidable (RefusedLate frame around) :=
  inferInstanceAs (Decidable (_ ∧ _ ∧ _ ∧ _))

theorem tryConsume_eq (frame : Frame D) (now : UInt64) :
    ∃ rateLimiter, (frame.tryConsume now).2 = { frame with rateLimiter := rateLimiter } := by
  unfold Frame.tryConsume
  cases frame.rateLimiter with
  | none => exact ⟨frame.rateLimiter, rfl⟩
  | some tb => exact ⟨_, rfl⟩

theorem tryConsume_fst (frame : Frame D) (now : UInt64) :
    (frame.tryConsume now).1 =
      frame.rateLimiter.all fun tb => (tbTryConsume tb now ((1 : Nat) : D)).1 := by
  unfold Frame.tryConsume
  cases frame.rateLimiter <;> rfl

/-- What becomes of the breaker of a call, and what it is told. -/
inductive Outcome (frame : Frame D) (around : Surroundings) (frame' : Frame D) : Prop
  | full : ¬ RefusedLate frame around → frame'.circuitBreaker = frame.circuitBreaker →
      frame'.returned = [] → frame'.recorded = [] → Outcome frame around frame'
  | refused : ¬ RefusedLate frame around →
      frame'.circuitBreaker = frame.circuitBreaker.map (fun cb =>
        (cbAllowRequest cb around.allowedAt).2) →
      frame'.returned = [] → frame'.recorded = [] → Outcome frame around frame'
  | limited : (frame.circuitBreaker.isSome = true → RefusedLate frame around) →
      frame'.circuitBreaker = frame.circuitBreaker.map (fun cb =>
        cbRecordSuccess (cbAllowRequest cb around.allowedAt).2 around.recordedAt) →
      frame'.returned = [] → frame'.recorded = told frame.circuitBreaker .success →
      Outcome frame around frame'
  | succeeded : ¬ RefusedLate frame around →
      frame'.circuitBreaker = frame.circuitBreaker.map (fun cb =>
        cbRecordSuccess (cbAllowRequest cb around.allowedAt).2 around.recordedAt) →
      frame'.returned.count 0 = 1 → frame'.recorded = told frame.circuitBreaker .success →
      Outcome frame around frame'
  | failed : ¬ RefusedLate frame around →
      frame'.circuitBreaker = frame.circuitBreaker.map (fun cb =>
        cbRecordFailure (cbAllowRequest cb around.allowedAt).2 around.recordedAt) →
      frame'.returned.count 0 = 0 → frame'.returned ≠ [] →
      frame'.recorded = told frame.circuitBreaker .failure → Outcome frame around frame'

theorem acquired_outcome {timeoutMs : UInt64} {frame : Frame D} {around : Surroundings}
    (hreturned : frame.returned = []) (hrecorded : frame.recorded = [])
    (hacquired : frame.tryAcquire.1 = true) :
    ∃ result frame', resilienceExecute timeoutMs frame around = some (result, frame') ∧
      inFlight frame' = inFlight frame ∧ Outcome frame around frame' := by
  obtain ⟨hrelease, hresult⟩ := tryAcquire_true hacquired
  let acquired : Frame D := { frame with
    bulkhead := frame.bulkhead.map fun bh => (bhTryAcquire bh).2 }
  let asked : Frame D := { acquired with
    circuitBreaker := frame.circuitBreaker.map fun cb => (cbAllowRequest cb around.allowedAt).2 }
  have hasked : (acquired.allowRequest around.allowedAt).2 = asked := allowRequest_eq ..
  have hallow : (acquired.allowRequest around.allowedAt).1 =
      (frame.allowRequest around.allowedAt).1 := by
    rw [allowRequest_fst, allowRequest_fst]
  have hconsume : (asked.tryConsume around.nowMs).1 = (frame.tryConsume around.nowMs).1 := by
    rw [tryConsume_fst, tryConsume_fst]
  have hreleased : asked.release.bulkhead.map (·.currentCount) = inFlight frame := by
    rw [← hrelease, Frame.release, Option.map_map, Option.map_map]
    rfl
  obtain ⟨rateLimiter, hlimiter⟩ := tryConsume_eq asked around.nowMs
  rw [resilienceExecute]
  dsimp only
  rw [hacquired, tryAcquire_eq]
  change ∃ result frame', (if (!(acquired.allowRequest around.allowedAt).1) = true then _
    else _) = some (result, frame') ∧ _
  by_cases hallowed : (acquired.allowRequest around.allowedAt).1 = true
  · rw [hallowed, hasked]
    change ∃ result frame', (if (!(asked.tryConsume around.nowMs).1) = true then _
      else _) = some (result, frame') ∧ _
    by_cases hconsumed : (asked.tryConsume around.nowMs).1 = true
    · have hlate : ¬ RefusedLate frame around := by
        intro hlate
        rw [hconsume, hlate.2.2.2] at hconsumed
        contradiction
      rw [hconsumed, hlimiter]
      let consumed : Frame D := { asked with rateLimiter := rateLimiter }
      have hnothing : consumed.returned = [] ∧ consumed.recorded = [] := ⟨hreturned, hrecorded⟩
      obtain ⟨result, frame', hrun, hattempted, success, hbulkhead⟩ :=
        loop_attempted timeoutMs around hnothing.1 hnothing.2
      refine ⟨result, frame', hrun, ?_, ?_⟩
      · rw [inFlight, hbulkhead, ← hresult success, Option.map_map, Option.map_map]
        rfl
      · have htold : ∀ recorded, told asked.circuitBreaker recorded =
            told frame.circuitBreaker recorded := by
          intro recorded
          rw [told, told, Option.isSome_map]
        cases hattempted with
        | succeeded hbreaker hcount hrecord =>
            refine .succeeded hlate ?_ hcount (hrecord.trans (htold _))
            rw [hbreaker, Option.map_map]
            rfl
        | failed hbreaker hcount hne hrecord =>
            refine .failed hlate ?_ hcount hne (hrecord.trans (htold _))
            rw [hbreaker, Option.map_map]
            rfl
    · rw [Bool.not_eq_true] at hconsumed
      rw [hconsumed, hlimiter, recordSuccess_eq]
      refine ⟨_, _, rfl, hreleased, .limited ?_ ?_ hreturned ?_⟩
      · intro hbreaker
        exact ⟨hbreaker, hacquired, hallow ▸ hallowed, hconsume ▸ hconsumed⟩
      · exact Option.map_map ..
      · simp only [Frame.release, asked, acquired, hrecorded, List.nil_append, told,
          Option.isSome_map]
  · rw [Bool.not_eq_true] at hallowed
    rw [hallowed, hasked]
    refine ⟨_, _, rfl, hreleased, .refused ?_ rfl hreturned hrecorded⟩
    intro hlate
    rw [hallow, hlate.2.2.1] at hallowed
    contradiction

/-- A call returns, the bulkhead is as before, and the breaker has learned something. -/
theorem resilienceExecute_outcome (timeoutMs : UInt64) {frame : Frame D}
    (around : Surroundings) (hreturned : frame.returned = []) (hrecorded : frame.recorded = []) :
    ∃ result frame', resilienceExecute timeoutMs frame around = some (result, frame') ∧
      inFlight frame' = inFlight frame ∧ Outcome frame around frame' := by
  by_cases hacquired : frame.tryAcquire.1 = true
  · exact acquired_outcome hreturned hrecorded hacquired
  · rw [Bool.not_eq_true] at hacquired
    rw [resilienceExecute]
    dsimp only
    rw [hacquired]
    refine ⟨_, _, rfl, tryAcquire_false hacquired, .full ?_ ?_ ?_ ?_⟩
    · intro hlate
      rw [hlate.2.1] at hacquired
      contradiction
    · rw [tryAcquire_eq]
    · rw [tryAcquire_eq]
      exact hreturned
    · rw [tryAcquire_eq]
      exact hrecorded

theorem Outcome.learned_iff {frame frame' : Frame D} {around : Surroundings}
    (h : Outcome frame around frame') (hbreaker : frame.circuitBreaker.isSome = true) :
    Learned frame' ↔ ¬ RefusedLate frame around := by
  have htold : ∀ recorded, told frame.circuitBreaker recorded = [recorded] := by
    intro recorded
    rw [told, if_pos hbreaker]
  unfold Learned
  cases h with
  | full hlate _ hreturned hrecorded => simp [hlate, hreturned, hrecorded]
  | refused hlate _ hreturned hrecorded => simp [hlate, hreturned, hrecorded]
  | limited hlate _ hreturned hrecorded => simp [hlate hbreaker, hreturned, hrecorded, htold]
  | succeeded hlate _ hcount hrecorded =>
      have hmem : (0 : Int) ∈ frame'.returned := List.count_pos_iff.mp (hcount ▸ Nat.one_pos)
      simp [hlate, hmem, hrecorded, htold]
  | failed hlate _ hcount hne hrecorded =>
      have hmem : (0 : Int) ∉ frame'.returned := List.count_eq_zero.mp hcount
      simp [hlate, hmem, hne, hrecorded, htold]

structure BreakerDone (cb : CircuitBreaker) (zeros : Nat) (cb' : CircuitBreaker) : Prop where
  counted : Counted cb' zeros
  closes : cb.state ≠ .closed → cb'.state = .closed → cb.halfOpenMaxRequests ≤ zeros

theorem Asked.breakerDone {cb cb' : CircuitBreaker} {zeros : Nat} (h : Asked cb cb')
    (hcounted : Counted cb zeros) : BreakerDone cb (zerosBefore cb zeros) cb' where
  counted := h.counted zeros hcounted
  closes hopen hclosed := absurd (h.closed.mp hclosed) hopen

theorem Outcome.breakerDone {frame frame' : Frame D} {around : Surroundings}
    (h : Outcome frame around frame') (hlate : ¬ RefusedLate frame around) {cb : CircuitBreaker}
    {zeros : Nat} (hcb : frame.circuitBreaker = some cb) (hcounted : Counted cb zeros) :
    ∃ cb', frame'.circuitBreaker = some cb' ∧
      BreakerDone cb (zerosBefore cb zeros + frame'.returned.count 0) cb' := by
  have hasked := allowRequest_asked cb around.allowedAt
  cases h with
  | full _ hbreaker hreturned =>
      have hsame : Asked cb cb := by
        refine ⟨Iff.rfl, rfl, ?_⟩
        intro zeros hcounted hhalf
        rw [zerosBefore, hhalf]
        exact hcounted hhalf
      rw [hreturned]
      exact ⟨cb, hbreaker.trans hcb, hsame.breakerDone hcounted⟩
  | refused _ hbreaker hreturned =>
      rw [hreturned]
      refine ⟨_, ?_, hasked.breakerDone hcounted⟩
      rw [hbreaker, hcb, Option.map_some]
  | limited hrefused => exact absurd (hrefused (by rw [hcb]; rfl)) hlate
  | succeeded _ hbreaker hcount =>
      rw [hcb, Option.map_some] at hbreaker
      obtain ⟨hcounted', hcloses⟩ := recordSuccess_counted around.recordedAt
        (hasked.counted zeros hcounted)
      rw [hcount]
      refine ⟨_, hbreaker, hcounted', ?_⟩
      intro hopen hclosed
      rw [← hasked.limit]
      exact hcloses (mt hasked.closed.mp hopen) hclosed
  | failed _ hbreaker hcount =>
      rw [hcb, Option.map_some] at hbreaker
      obtain ⟨hcounted', hcloses⟩ := recordFailure_counted
        (cbAllowRequest cb around.allowedAt).2 (zerosBefore cb zeros) around.recordedAt
      rw [hcount]
      refine ⟨_, hbreaker, hcounted', ?_⟩
      intro hopen hclosed
      exact absurd (hasked.closed.mp (hcloses hclosed)) hopen

/-! ## Runs -/

/-- What is asked of a call. -/
structure CallHolds (memory : Memory D) (call : Call) : Prop where
  learned : call.policy.circuitBreaker.isSome = true → ∀ result frame,
    memory.execute call = some (result, frame) → Learned frame
  closes : ∀ next ∈ step memory call, ∀ b, (memory.breakers b).state ≠ .closed →
    (next.breakers b).state = .closed → (memory.breakers b).halfOpenMaxRequests ≤ next.zeros b
  keeps : ∀ next ∈ step memory call, ∀ b,
    (next.bulkheads b).currentCount = (memory.bulkheads b).currentCount

/-- The rate limiter of a policy with a breaker does not turn the call away after its bulkhead
and its breaker have let it in. -/
def NotRefusedLate (memory : Memory D) (call : Call) : Prop :=
  ¬ RefusedLate (memory.load call.policy) call.around

instance decidableNotRefusedLate (memory : Memory D) (call : Call) :
    Decidable (NotRefusedLate memory call) :=
  inferInstanceAs (Decidable (¬ RefusedLate _ _))

def AllCounted (memory : Memory D) : Prop :=
  ∀ b, Counted (memory.breakers b) (memory.zeros b)

theorem execute_outcome (memory : Memory D) (call : Call) :
    ∃ result frame, memory.execute call = some (result, frame) ∧
      inFlight frame = inFlight (memory.load call.policy) ∧
      Outcome (memory.load call.policy) call.around frame :=
  resilienceExecute_outcome call.policy.timeoutMs call.around rfl rfl

theorem step_eq_store {memory : Memory D} {call : Call} {result : ResilienceResult}
    {frame : Frame D} (hrun : memory.execute call = some (result, frame)) :
    step memory call = some (memory.store call.policy frame) := by
  rw [step, hrun]
  rfl

theorem step_total (memory : Memory D) (call : Call) : ∃ next, step memory call = some next := by
  obtain ⟨result, frame, hrun, -⟩ := execute_outcome memory call
  exact ⟨_, step_eq_store hrun⟩

theorem breakers_store {memory : Memory D} {call : Call} {frame : Frame D}
    (h : Outcome (memory.load call.policy) call.around frame) (hlate : NotRefusedLate memory call)
    (hcounted : AllCounted memory) (b : Nat) :
    Counted ((memory.store call.policy frame).breakers b)
        ((memory.store call.policy frame).zeros b) ∧
      ((memory.breakers b).state ≠ .closed →
        ((memory.store call.policy frame).breakers b).state = .closed →
        (memory.breakers b).halfOpenMaxRequests ≤ (memory.store call.policy frame).zeros b) := by
  simp only [Memory.store, Memory.countZeros]
  cases hpointer : call.policy.circuitBreaker with
  | none => exact ⟨hcounted b, fun hopen hclosed => absurd hclosed hopen⟩
  | some address =>
      have hcb : (memory.load call.policy).circuitBreaker = some (memory.breakers address) := by
        rw [Memory.load, hpointer, Option.map_some]
      obtain ⟨cb', hcb', hdone⟩ := h.breakerDone hlate hcb (hcounted address)
      rw [hcb', writeBack]
      dsimp only
      by_cases hb : b = address
      · rw [hb, Function.update_self, Function.update_self]
        exact ⟨hdone.counted, hdone.closes⟩
      · rw [Function.update_of_ne hb, Function.update_of_ne hb]
        exact ⟨hcounted b, fun hopen hclosed => absurd hclosed hopen⟩

theorem callHolds_of_notRefusedLate {memory : Memory D} {call : Call}
    (hcounted : AllCounted memory) (hlate : NotRefusedLate memory call) :
    CallHolds memory call ∧ ∀ next ∈ step memory call, AllCounted next := by
  obtain ⟨result, frame, hrun, hflight, houtcome⟩ := execute_outcome memory call
  have hnext : ∀ next ∈ step memory call, next = memory.store call.policy frame := by
    intro next hmem
    rw [step_eq_store hrun] at hmem
    exact (Option.some.inj hmem).symm
  refine ⟨⟨?_, ?_, ?_⟩, ?_⟩
  · intro hbreaker result' frame' hrun'
    have heq : frame = frame' := congrArg Prod.snd (Option.some.inj (hrun.symm.trans hrun'))
    rw [← heq]
    exact (houtcome.learned_iff (by rw [Memory.load, Option.isSome_map, hbreaker])).mpr hlate
  · intro next hmem b
    rw [hnext next hmem]
    exact (breakers_store houtcome hlate hcounted b).2
  · intro next hmem b
    rw [hnext next hmem]
    exact bulkheads_store hflight b
  · intro next hmem b
    rw [hnext next hmem]
    exact (breakers_store houtcome hlate hcounted b).1

theorem notRefusedLate_of_callHolds {memory : Memory D} {call : Call}
    (h : CallHolds memory call) : NotRefusedLate memory call := by
  intro hlate
  obtain ⟨result, frame, hrun, -, houtcome⟩ := execute_outcome memory call
  have hbreaker : call.policy.circuitBreaker.isSome = true := by
    have hloaded := hlate.1
    rwa [Memory.load, Option.isSome_map] at hloaded
  exact (houtcome.learned_iff hlate.1).mp (h.learned hbreaker result frame hrun) hlate

/-- The bulkheads are as before after any run of calls. -/
theorem bulkheads_kept {memory last : Memory D} {calls : List Call}
    (h : runOption step memory calls = some last) (b : Nat) :
    (last.bulkheads b).currentCount = (memory.bulkheads b).currentCount := by
  let Kept (next : Memory D) : Prop :=
    (next.bulkheads b).currentCount = (memory.bulkheads b).currentCount
  have hkept : Kept memory := rfl
  refine runOption_keeps_of_forall (I := Kept) step ?_ hkept h
  intro before call after hbefore hstep
  obtain ⟨result, frame, hrun, hflight, -⟩ := execute_outcome before call
  rw [step_eq_store hrun] at hstep
  rw [← Option.some.inj hstep]
  exact (bulkheads_store hflight b).trans hbefore

/-- In every run from breakers that were created all calls return, and the breakers learn from
real calls only, exactly when no call is turned away by a rate limiter after its breaker has let
it in. -/
theorem breakers_learn_iff {memory : Memory D}
    (h : ∀ b, ∃ threshold timeout halfOpenMax,
      memory.breakers b = cbCreateWithConfig threshold timeout halfOpenMax) (calls : List Call) :
    (∃ last, runOption step memory calls = some last) ∧
      (AlwaysOption step CallHolds memory calls ↔
        AlwaysOption step NotRefusedLate memory calls) := by
  refine ⟨runOption_total step step_total memory calls, ?_, ?_⟩
  · intro hholds
    exact alwaysOption_of_invariant (I := fun _ => True) step (fun _ _ _ _ _ _ => trivial)
      (fun _ _ _ => notRefusedLate_of_callHolds) trivial hholds
  · intro hnot
    have hcounted : AllCounted memory := by
      intro b hhalf
      obtain ⟨threshold, timeout, halfOpenMax, hbreaker⟩ := h b
      rw [hbreaker] at hhalf
      contradiction
    exact alwaysOption_of_invariant (I := AllCounted) step
      (fun _ _ next hs hp hrun => (callHolds_of_notRefusedLate hs hp).2 next hrun)
      (fun _ _ hs hp => (callHolds_of_notRefusedLate hs hp).1) hcounted hnot

end

/-- A breaker that opens at the first failure and tries one call after 10 ms, a bulkhead, a
backoff with two retries, and a bucket whose one token is gone. -/
def guards : Memory ℚ where
  breakers _ := cbCreateWithConfig 1 10 1
  bulkheads _ := ⟨2, 0, 0, 0, 0, 0, 0⟩
  backoffs _ := ⟨100, 30000, 2, 0, 0, 0, 0⟩
  limiters _ := ⟨1, 1, 0, 20, 0, 0⟩
  zeros _ := 0

/-- A call at the given time under a policy with breaker and bulkhead, and with the limiter if
there is a pointer to it. -/
def callAt (limiter : Option Nat) (now : UInt64) (result : Int) : Call :=
  ⟨⟨some 0, some 0, some 0, limiter, 5000⟩, ⟨now, now, now, fun _ => ⟨result, now, now⟩, id⟩⟩

theorem breakers_learn_iff_guards :
    AlwaysOption step NotRefusedLate guards [callAt none 1 (-1), callAt none 20 0] ∧
      (∃ last, runOption step guards [callAt none 1 (-1), callAt none 20 0] = some last) ∧
      (AlwaysOption step CallHolds guards [callAt none 1 (-1), callAt none 20 0] ↔
        AlwaysOption step NotRefusedLate guards [callAt none 1 (-1), callAt none 20 0]) :=
  ⟨by decide, breakers_learn_iff (fun _ => ⟨1, 10, 1, rfl⟩) _⟩

/-- The call that is to find out whether the service is back finds no token.  The breaker closes
although `fn` has only ever failed. -/
theorem limited_call_closes :
    (∃ last, runOption step guards [callAt none 1 (-1), callAt (some 0) 20 0] = some last ∧
      (last.breakers 0).state = .closed ∧ last.zeros 0 = 0) ∧
    ¬ AlwaysOption step CallHolds guards [callAt none 1 (-1), callAt (some 0) 20 0] := by
  refine ⟨⟨_, rfl, by decide, by decide⟩, ?_⟩
  intro h
  have hlearned := (h.2 _ rfl).1.learned rfl _ _ rfl
  exact absurd hlearned (by decide)

end MiniBackend.Arch.Proofs.ResilientCalls
