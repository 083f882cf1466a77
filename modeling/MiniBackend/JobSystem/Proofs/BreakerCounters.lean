import MiniBackend.JobSystem.Proofs.HalfOpenProbes

/-!
# The counters of the breaker

Which counters a state leaves free: a closed breaker has counted fewer failures than open it, a
half-open one fewer successes than close it, and only a half-open one counts successes at all.
The calls that change the state set the counters that the new state does not leave free.
-/

namespace MiniBackend.JobSystem.Proofs.BreakerCounters

open MiniBackend.Lib.Runs MiniBackend.JobSystem.Breaker
open MiniBackend.JobSystem.Proofs.HalfOpenProbes (config_cbChangeState state_cbChangeState)

structure Thresholds (config : CbConfig) : Prop where
  failure : 1 ≤ config.failureThreshold
  success : 1 ≤ config.successThreshold
  requests : 1 ≤ config.halfOpenMaxRequests

def Fits (cb : CircuitBreaker) : CbState → Prop
  | .closed => cb.consecutiveFailures < cb.config.failureThreshold ∧ cb.consecutiveSuccesses = 0
  | .opened => cb.consecutiveSuccesses = 0
  | .halfOpen => cb.consecutiveSuccesses < cb.config.successThreshold

structure Counters (cb : CircuitBreaker) : Prop where
  thresholds : Thresholds cb.config
  fits : Fits cb cb.state
  requests_nonneg : 0 ≤ cb.halfOpenRequests
  requests_le : cb.halfOpenRequests ≤ cb.config.halfOpenMaxRequests

variable {cb : CircuitBreaker}

theorem fits_of_state {state : CbState} (hstate : cb.state = state) (h : Fits cb state) :
    Fits cb cb.state := hstate ▸ h

/-! ## Changing the state -/

theorem consecutiveFailures_cbChangeState (cb : CircuitBreaker) (newState : CbState) (now : Int) :
    (cbChangeState cb newState now).consecutiveFailures = cb.consecutiveFailures := by
  unfold cbChangeState
  split
  · rfl
  · cases newState <;> rfl

theorem consecutiveSuccesses_cbChangeState (cb : CircuitBreaker) (newState : CbState) (now : Int) :
    (cbChangeState cb newState now).consecutiveSuccesses = cb.consecutiveSuccesses := by
  unfold cbChangeState
  split
  · rfl
  · cases newState <;> rfl

/-- Only a change to half-open sets the number of requests. -/
theorem halfOpenRequests_cbChangeState (cb : CircuitBreaker) (newState : CbState) (now : Int) :
    (cbChangeState cb newState now).halfOpenRequests = cb.halfOpenRequests ∨
      (cbChangeState cb newState now).halfOpenRequests = 0 := by
  unfold cbChangeState
  split
  · exact .inl rfl
  · cases newState with
    | closed => exact .inl rfl
    | opened => exact .inl rfl
    | halfOpen => exact .inr rfl

theorem fits_cbChangeState {newState : CbState} (h : Fits cb newState) (now : Int) :
    Fits (cbChangeState cb newState now) (cbChangeState cb newState now).state := by
  rw [state_cbChangeState]
  cases newState <;>
    simpa only [Fits, config_cbChangeState, consecutiveFailures_cbChangeState,
      consecutiveSuccesses_cbChangeState] using h

theorem counters_cbChangeState (hthresholds : Thresholds cb.config) {newState : CbState}
    (hfits : Fits cb newState) (hnonneg : 0 ≤ cb.halfOpenRequests)
    (hle : cb.halfOpenRequests ≤ cb.config.halfOpenMaxRequests) (now : Int) :
    Counters (cbChangeState cb newState now) := by
  have hpos := hthresholds.requests
  refine ⟨by rwa [config_cbChangeState], fits_cbChangeState hfits now, ?_, ?_⟩
  · rcases halfOpenRequests_cbChangeState cb newState now with hsame | hzero <;> omega
  · rw [config_cbChangeState]
    rcases halfOpenRequests_cbChangeState cb newState now with hsame | hzero <;> omega

/-! ## The calls -/

/-- No state has counted as many successes as close the breaker. -/
theorem Counters.successes_lt (h : Counters cb) :
    cb.consecutiveSuccesses < cb.config.successThreshold := by
  have hfits := h.fits
  have hpos := h.thresholds.success
  cases hstate : cb.state <;> rw [hstate] at hfits
  · have hzero := hfits.2
    omega
  · have hzero : cb.consecutiveSuccesses = 0 := hfits
    omega
  · exact hfits

theorem Counters.requests_pos (h : Counters cb) : 0 ≤ cb.config.halfOpenMaxRequests := by
  have hpos := h.thresholds.requests
  omega

theorem Counters.cbTransitionToOpen (h : Counters cb) (now : Int) :
    Counters (cbTransitionToOpen cb now) := by
  unfold Breaker.cbTransitionToOpen
  apply counters_cbChangeState
  · exact h.thresholds
  · rfl
  · exact Int.le_refl 0
  · exact h.requests_pos

theorem Counters.cbTransitionToHalfOpen (h : Counters cb) (now : Int) :
    Counters (cbTransitionToHalfOpen cb now) := by
  unfold Breaker.cbTransitionToHalfOpen
  apply counters_cbChangeState
  · exact h.thresholds
  · exact h.successes_lt
  · exact Int.le_refl 0
  · exact h.requests_pos

theorem Counters.cbTransitionToClosed (h : Counters cb) (now : Int) :
    Counters (cbTransitionToClosed cb now) := by
  unfold Breaker.cbTransitionToClosed
  apply counters_cbChangeState
  · exact h.thresholds
  · exact ⟨h.thresholds.failure, rfl⟩
  · exact Int.le_refl 0
  · exact h.requests_pos

theorem Counters.cbReset (h : Counters cb) : Counters (cbReset cb) where
  thresholds := h.thresholds
  fits := ⟨h.thresholds.failure, rfl⟩
  requests_nonneg := Int.le_refl 0
  requests_le := h.requests_pos

theorem Counters.cbAllowRequest (h : Counters cb) (now : Int) :
    Counters (cbAllowRequest cb now).2 := by
  have hfits := h.fits
  unfold Breaker.cbAllowRequest
  split
  · exact h
  · next hstate =>
      split
      · -- the first probe, which `half_open_max_requests` leaves room for
        have hchanged : Counters (cbChangeState cb .halfOpen now) := by
          apply counters_cbChangeState
          · exact h.thresholds
          · exact h.successes_lt
          · exact h.requests_nonneg
          · exact h.requests_le
        have hpos := hchanged.thresholds.requests
        refine ⟨hchanged.thresholds, hchanged.fits, ?_, hpos⟩
        exact Int.zero_le_ofNat 1
      · exact ⟨h.thresholds, hfits, h.requests_nonneg, h.requests_le⟩
  · split
    · next hroom =>
        have hnonneg := h.requests_nonneg
        refine ⟨h.thresholds, hfits, ?_, hroom⟩
        change 0 ≤ cb.halfOpenRequests + 1
        omega
    · exact ⟨h.thresholds, hfits, h.requests_nonneg, h.requests_le⟩

theorem Counters.releaseProbe (h : Counters cb) : Counters (releaseProbe cb) := by
  have hnonneg := h.requests_nonneg
  have hle := h.requests_le
  have hpos := h.requests_pos
  refine ⟨h.thresholds, h.fits, ?_, ?_⟩
  · change 0 ≤ if cb.halfOpenRequests - 1 < 0 then 0 else cb.halfOpenRequests - 1
    split <;> omega
  · change (if cb.halfOpenRequests - 1 < 0 then 0 else cb.halfOpenRequests - 1) ≤ _
    split
    · exact hpos
    · change _ ≤ cb.config.halfOpenMaxRequests
      omega

theorem Counters.cbReportSuccess (h : Counters cb) (now : Int) :
    Counters (cbReportSuccess cb now) := by
  have hfits := h.fits
  unfold Breaker.cbReportSuccess
  dsimp only
  split
  · next hstate =>
      rw [hstate] at hfits
      refine ⟨h.thresholds, fits_of_state hstate ?_, h.requests_nonneg, h.requests_le⟩
      exact ⟨h.thresholds.failure, hfits.2⟩
  · exact ⟨h.thresholds, hfits, h.requests_nonneg, h.requests_le⟩
  · next hstate =>
      split
      · apply Counters.releaseProbe
        apply counters_cbChangeState
        · exact h.thresholds
        · exact ⟨h.thresholds.failure, rfl⟩
        · exact h.requests_nonneg
        · exact h.requests_le
      · next hfew =>
          apply Counters.releaseProbe
          refine ⟨h.thresholds, fits_of_state hstate ?_, h.requests_nonneg, h.requests_le⟩
          exact Int.not_le.mp hfew

theorem Counters.cbReportFailure (h : Counters cb) (type : CbFailureType) (now₁ now₂ now₃ : Int) :
    Counters (cbReportFailure cb type now₁ now₂ now₃) := by
  have hfits := h.fits
  unfold Breaker.cbReportFailure
  dsimp only
  split
  · next hstate =>
      rw [hstate] at hfits
      split
      · unfold Breaker.cbTransitionToOpen
        apply counters_cbChangeState
        · exact h.thresholds
        · rfl
        · exact Int.le_refl 0
        · exact h.requests_pos
      · next hfew =>
          refine ⟨h.thresholds, fits_of_state hstate ?_, h.requests_nonneg, h.requests_le⟩
          exact ⟨Int.not_le.mp hfew, hfits.2⟩
  · exact ⟨h.thresholds, hfits, h.requests_nonneg, h.requests_le⟩
  · unfold Breaker.cbTransitionToOpen
    apply counters_cbChangeState
    · exact h.thresholds
    · rfl
    · exact Int.le_refl 0
    · exact h.requests_pos

theorem Counters.call (h : Counters cb) (op : Op) : Counters (call cb op) := by
  cases op with
  | allowRequest now => exact h.cbAllowRequest now
  | reportSuccess now => exact h.cbReportSuccess now
  | reportFailure type now₁ now₂ now₃ => exact h.cbReportFailure type now₁ now₂ now₃
  | transitionToOpen now => exact h.cbTransitionToOpen now
  | transitionToHalfOpen now => exact h.cbTransitionToHalfOpen now
  | transitionToClosed now => exact h.cbTransitionToClosed now
  | reset => exact h.cbReset

/-! ## Runs -/

theorem counters_cbCreate {config : Option CbConfig}
    (h : Thresholds (config.getD defaultConfig)) : Counters (cbCreate config) where
  thresholds := h
  fits := ⟨h.failure, rfl⟩
  requests_nonneg := Int.le_refl 0
  requests_le := by
    have hpos := h.requests
    change 0 ≤ (config.getD defaultConfig).halfOpenMaxRequests
    omega

/-- While the breaker is open, a request is admitted only behind the cooldown. -/
def CoolsDown (cb : CircuitBreaker) : Prop :=
  ∀ now, cb.state = .opened → (cbAllowRequest cb now).1 = true →
    cb.config.cooldownMs ≤ (now - cb.openedAt) * 1000

theorem coolsDown (cb : CircuitBreaker) : CoolsDown cb := by
  intro now hopened hadmitted
  unfold Breaker.cbAllowRequest at hadmitted
  rw [hopened] at hadmitted
  dsimp only at hadmitted
  split at hadmitted
  · next helapsed => exact of_decide_eq_true helapsed
  · cases hadmitted

/-- The breaker after the calls. -/
def reached (config : Option CbConfig) (ops : List Op) : CircuitBreaker :=
  run call (cbCreate config) ops

/-- The counters match the state after every sequence of calls, and an open breaker admits a
request only behind its cooldown. -/
theorem counters_match_state {config : Option CbConfig}
    (h : Thresholds (config.getD defaultConfig)) (ops : List Op) :
    Counters (reached config ops) ∧ CoolsDown (reached config ops) := by
  constructor
  · exact run_keeps call (fun cb op hcb => hcb.call op) (counters_cbCreate h) ops
  · exact coolsDown (reached config ops)

def reopenedRun : List Op :=
  [.transitionToOpen 5, .allowRequest 40, .reportFailure .timeout 41 41 41]

theorem counters_match_state_reopened :
    Counters (reached none reopenedRun) ∧ CoolsDown (reached none reopenedRun) :=
  counters_match_state ⟨by decide, by decide, by decide⟩ reopenedRun

end MiniBackend.JobSystem.Proofs.BreakerCounters
