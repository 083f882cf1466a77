import MiniBackend.Infra.CircuitBreaker
import MiniBackend.Lib.Runs
import Mathlib.Data.Int.ConditionallyCompleteOrder

/-!
# Which breakers can always close again

While the breaker is half-open the successes of the probes are counted, and their number also
limits how many probes are admitted.  So a breaker that has to see more successes than it
admits probes is half-open for ever, unless its window is too small for it ever to open.
-/

namespace MiniBackend.Infra.Proofs.BreakerRecovery

open MiniBackend.Lib.Runs MiniBackend.Infra.Breaker

def Successful : Event → Prop
  | .advance _ => True
  | .call result timeoutMs pauses =>
      result = 0 ∧ (0 < timeoutMs → pauses.finished ≤ timeoutMs)

/-- A finite continuation without a failure closes the breaker. -/
def Recovers (s : System) : Prop :=
  ∃ events : List Event, (∀ e ∈ events, Successful e) ∧
    (run step s events).breaker.state = .closed

/-- As many probes are admitted as have to succeed, or the breaker never opens. -/
def CanClose (config : CbConfig) : Prop :=
  (withDefaults config).successThreshold ≤ (withDefaults config).halfOpenMaxRequests ∨
    (withDefaults config).slidingWindowSize < (withDefaults config).failureThreshold

instance decidableCanClose (config : CbConfig) : Decidable (CanClose config) :=
  inferInstanceAs (Decidable (_ ∨ _))

/-! ## Settings -/

theorem orDefault_pos {setting default : Int} (h : 0 < default) :
    0 < orDefault setting default := by
  unfold orDefault
  split
  · exact h
  · omega

theorem successThreshold_pos (config : CbConfig) : 0 < (withDefaults config).successThreshold :=
  orDefault_pos (by decide)

theorem halfOpenMaxRequests_pos (config : CbConfig) :
    0 < (withDefaults config).halfOpenMaxRequests :=
  orDefault_pos (by decide)

theorem slidingWindowSize_pos (config : CbConfig) :
    0 < (withDefaults config).slidingWindowSize :=
  orDefault_pos (by decide)

theorem slidingWindowTimeMs_pos (config : CbConfig) :
    0 < (withDefaults config).slidingWindowTimeMs :=
  orDefault_pos (by decide)

/-! ## What every call keeps -/

structure Sound (config : CbConfig) (cb : CbCircuitBreaker) : Prop where
  config_eq : cb.config = withDefaults config
  probing : cb.state = .halfOpen → cb.consecutiveFailures = 0 ∧
    0 ≤ cb.consecutiveSuccesses ∧ cb.consecutiveSuccesses < cb.config.successThreshold
  within : (cb.windowPos : Int) < cb.config.slidingWindowSize

theorem cbTransition_state (cb : CbCircuitBreaker) (newState : CbState) (now : Int) :
    (cbTransition cb newState now).state = newState := by
  unfold cbTransition
  split
  · assumption
  · rfl

theorem sound_transition {config : CbConfig} {cb : CbCircuitBreaker} {newState : CbState}
    (hconfig : cb.config = withDefaults config)
    (hwithin : (cb.windowPos : Int) < cb.config.slidingWindowSize)
    (hstate : cb.state ≠ newState) (now : Int) : Sound config (cbTransition cb newState now) := by
  rw [cbTransition, if_neg hstate]
  refine ⟨hconfig, fun _ => ⟨rfl, le_rfl, ?_⟩, hwithin⟩
  show 0 < cb.config.successThreshold
  rw [hconfig]
  exact successThreshold_pos config

@[simp] theorem cbWindowRecord_config (cb : CbCircuitBreaker) (failed : Bool) (now : Int) :
    (cbWindowRecord cb failed now).config = cb.config := by
  unfold cbWindowRecord
  dsimp only
  split <;> rfl

@[simp] theorem cbWindowRecord_state (cb : CbCircuitBreaker) (failed : Bool) (now : Int) :
    (cbWindowRecord cb failed now).state = cb.state := by
  unfold cbWindowRecord
  dsimp only
  split <;> rfl

@[simp] theorem cbWindowRecord_consecutiveFailures (cb : CbCircuitBreaker) (failed : Bool)
    (now : Int) :
    (cbWindowRecord cb failed now).consecutiveFailures = cb.consecutiveFailures := by
  unfold cbWindowRecord
  dsimp only
  split <;> rfl

@[simp] theorem cbWindowRecord_consecutiveSuccesses (cb : CbCircuitBreaker) (failed : Bool)
    (now : Int) :
    (cbWindowRecord cb failed now).consecutiveSuccesses = cb.consecutiveSuccesses := by
  unfold cbWindowRecord
  dsimp only
  split <;> rfl

theorem Sound.counted {config : CbConfig} {cb : CbCircuitBreaker} (h : Sound config cb) :
    Sound config (countCall cb) :=
  ⟨h.config_eq, h.probing, h.within⟩

theorem Sound.record {config : CbConfig} {cb : CbCircuitBreaker} (h : Sound config cb)
    (failed : Bool) (now : Int) : Sound config (cbWindowRecord cb failed now) := by
  refine ⟨?_, ?_, ?_⟩
  · rw [cbWindowRecord_config]
    exact h.config_eq
  · simp only [cbWindowRecord_state, cbWindowRecord_consecutiveFailures,
      cbWindowRecord_consecutiveSuccesses, cbWindowRecord_config]
    exact h.probing
  · unfold cbWindowRecord
    dsimp only
    split
    · show ((0 : Nat) : Int) < cb.config.slidingWindowSize
      rw [h.config_eq]
      exact slidingWindowSize_pos config
    next hsize => exact Int.lt_of_not_ge hsize

theorem Sound.failure {config : CbConfig} {cb : CbCircuitBreaker} (h : Sound config cb)
    (timedOut : Bool) (r : Readings) :
    Sound config (afterFailure (countFailure cb timedOut r.entered) r) := by
  unfold afterFailure
  split
  next hhalf =>
    apply sound_transition
    · exact h.config_eq
    · exact h.within
    · rw [hhalf]
      decide
  next hhalf =>
    split
    next hopens =>
      apply sound_transition
      · exact h.config_eq
      · exact h.within
      · rw [hopens.1]
        decide
    next hopens => exact ⟨h.config_eq, fun hstate => absurd hstate hhalf, h.within⟩

theorem Sound.success {config : CbConfig} {cb : CbCircuitBreaker} (h : Sound config cb)
    (r : Readings) : Sound config (afterSuccess (countSuccess cb r.entered) r) := by
  unfold afterSuccess
  split
  next hcloses =>
    apply sound_transition
    · exact h.config_eq
    · exact h.within
    · rw [hcloses.1]
      decide
  next hkeeps =>
    refine ⟨h.config_eq, ?_, h.within⟩
    intro hhalf
    obtain ⟨_, hnonneg, _⟩ := h.probing hhalf
    refine ⟨rfl, Int.add_nonneg hnonneg (by decide), ?_⟩
    exact Int.lt_of_not_ge fun hle => hkeeps ⟨hhalf, hle⟩

theorem Sound.failFast {config : CbConfig} {cb : CbCircuitBreaker} (h : Sound config cb) :
    Sound config (failFast cb).2 :=
  ⟨h.config_eq, h.probing, h.within⟩

theorem probe_induct {P : CbCircuitBreaker → Prop} {cb : CbCircuitBreaker} {r : Readings}
    (hfast : P (failFast cb).2)
    (hfailure : ∀ timedOut,
      P (afterFailure (countFailure (cbWindowRecord cb true r.recorded) timedOut r.entered) r))
    (hsuccess : (cb.state = .halfOpen →
        cb.consecutiveSuccesses + cb.consecutiveFailures < cb.config.halfOpenMaxRequests) →
      P (afterSuccess (countSuccess (cbWindowRecord cb false r.recorded) r.entered) r))
    (result timeoutMs : Int) : P (probe cb result timeoutMs r).2 := by
  unfold probe
  split
  · exact hfast
  next hadmitted =>
    dsimp only
    by_cases hfailed : result ≠ 0 ∨ timedOut timeoutMs r = true
    · rw [if_pos hfailed, decide_eq_true hfailed]
      exact hfailure _
    · rw [if_neg hfailed, decide_eq_false hfailed]
      apply hsuccess
      intro hhalf
      exact Int.lt_of_not_ge fun hle => hadmitted ⟨hhalf, hle⟩

theorem Sound.probe {config : CbConfig} {cb : CbCircuitBreaker} (h : Sound config cb)
    (result timeoutMs : Int) (r : Readings) : Sound config (probe cb result timeoutMs r).2 :=
  probe_induct h.failFast (fun _ => (h.record _ _).failure _ _)
    (fun _ => (h.record _ _).success _) result timeoutMs

theorem Sound.call {config : CbConfig} {cb : CbCircuitBreaker} (h : Sound config cb)
    (result timeoutMs : Int) (r : Readings) :
    Sound config (cbCall cb result timeoutMs r).2 := by
  unfold cbCall
  dsimp only
  split
  next hopened =>
    split
    · apply Sound.probe
      apply sound_transition h.counted.config_eq h.counted.within
      rw [hopened]
      decide
    · exact h.counted.failFast
  · exact h.counted.probe _ _ _

theorem sound_init (config : CbConfig) (now : Int) : Sound config (init config now).breaker where
  config_eq := rfl
  probing hhalf := by cases hhalf
  within := slidingWindowSize_pos config

theorem Sound.next {config : CbConfig} {s : System} (h : Sound config s.breaker) (e : Event) :
    Sound config (step s e).breaker := by
  cases e with
  | advance ms => exact h
  | call result timeoutMs pauses => exact h.call _ _ _

theorem sound_run (config : CbConfig) (now : Int) (events : List Event) :
    Sound config (run step (init config now) events).breaker :=
  run_keeps step (I := fun s => Sound config s.breaker) (fun _ e h => h.next e)
    (sound_init config now) events

/-! ## A window that is too small -/

theorem Sound.windowCount_le {config : CbConfig} {cb : CbCircuitBreaker} (h : Sound config cb) :
    (windowCount cb : Int) ≤ cb.config.slidingWindowSize := by
  have hpos := slidingWindowSize_pos config
  rw [← h.config_eq] at hpos
  unfold windowCount
  split
  · exact le_of_eq (Int.toNat_of_nonneg (Int.le_of_lt hpos))
  · exact Int.le_of_lt h.within

theorem cbWindowFailures_le (cb : CbCircuitBreaker) (now : Int) :
    cbWindowFailures cb now ≤ windowCount cb := by
  calc cbWindowFailures cb now
      ≤ (List.range (windowCount cb)).length := List.countP_le_length
    _ = windowCount cb := List.length_range

theorem afterFailure_closed {cb : CbCircuitBreaker} (hclosed : cb.state = .closed)
    (r : Readings) : (afterFailure cb r).state =
      if cb.config.failureThreshold ≤ cbWindowFailures cb r.counted then .opened
      else .closed := by
  have hhalf : cb.state ≠ .halfOpen := by
    rw [hclosed]
    decide
  rw [afterFailure, if_neg hhalf]
  by_cases hopens : cb.config.failureThreshold ≤ cbWindowFailures cb r.counted
  · rw [if_pos ⟨hclosed, hopens⟩, if_pos hopens]
    exact cbTransition_state _ _ _
  · rw [if_neg fun h => hopens h.2, if_neg hopens]
    exact hclosed

theorem afterSuccess_closed {cb : CbCircuitBreaker} (hclosed : cb.state = .closed)
    (r : Readings) : (afterSuccess cb r).state = .closed := by
  unfold afterSuccess
  split
  · exact cbTransition_state _ _ _
  · exact hclosed

/-- A closed breaker stays closed when its window cannot hold as many failures as it takes to
open it. -/
theorem Sound.closed_call {config : CbConfig} {cb : CbCircuitBreaker} (h : Sound config cb)
    (hclosed : cb.state = .closed)
    (hsize : (withDefaults config).slidingWindowSize < (withDefaults config).failureThreshold)
    (result timeoutMs : Int) (r : Readings) :
    (cbCall cb result timeoutMs r).2.state = .closed := by
  have hstate : (countCall cb).state = .closed := hclosed
  have hrecorded : ∀ failed, (cbWindowRecord (countCall cb) failed r.recorded).state = .closed := by
    intro failed
    rw [cbWindowRecord_state]
    exact hstate
  unfold cbCall
  dsimp only
  rw [if_neg (by rw [hstate]; decide)]
  apply probe_induct (P := fun cb => cb.state = .closed)
  · exact hstate
  · intro timedOut
    rw [afterFailure_closed, if_neg]
    · intro hopens
      have hsound := h.counted.record true r.recorded
      have hle := hsound.windowCount_le
      have hfailures := cbWindowFailures_le (cbWindowRecord (countCall cb) true r.recorded)
        r.counted
      have hthreshold : (cbWindowRecord (countCall cb) true r.recorded).config.failureThreshold ≤
        cbWindowFailures (cbWindowRecord (countCall cb) true r.recorded) r.counted := hopens
      rw [hsound.config_eq] at hthreshold hle
      omega
    · exact hrecorded true
  · intro _
    apply afterSuccess_closed
    exact hrecorded false

theorem closed_run {config : CbConfig}
    (hsize : (withDefaults config).slidingWindowSize < (withDefaults config).failureThreshold)
    (now : Int) (events : List Event) :
    (run step (init config now) events).breaker.state = .closed := by
  have hstep : ∀ s e, Sound config s.breaker ∧ s.breaker.state = .closed →
      Sound config (step s e).breaker ∧ (step s e).breaker.state = .closed := by
    rintro s e ⟨hsound, hclosed⟩
    refine ⟨hsound.next e, ?_⟩
    cases e with
    | advance ms => exact hclosed
    | call result timeoutMs pauses => exact hsound.closed_call hclosed hsize _ _ _
  exact (run_keeps step hstep ⟨sound_init config now, rfl⟩ events).2

/-! ## Enough probes -/

def noPause : Pauses := ⟨0, 0, 0, 0, 0, 0, 0⟩

def immediately : Event := .call 0 0 noPause

theorem successful_immediately : Successful immediately :=
  ⟨rfl, fun hpos => absurd hpos (by decide)⟩

theorem Recovers.of_step {s : System} {e : Event} (he : Successful e)
    (h : Recovers (step s e)) : Recovers s := by
  obtain ⟨events, hevents, hclosed⟩ := h
  exact ⟨e :: events, List.forall_mem_cons.mpr ⟨he, hevents⟩, hclosed⟩

theorem recovers_of_closed {s : System} (h : s.breaker.state = .closed) : Recovers s :=
  ⟨[], List.forall_mem_nil _, h⟩

/-- A probe that is admitted and succeeds closes the breaker or is counted. -/
theorem probe_immediately {cb : CbCircuitBreaker} (hhalf : cb.state = .halfOpen)
    (hroom : cb.consecutiveSuccesses + cb.consecutiveFailures < cb.config.halfOpenMaxRequests)
    (r : Readings) :
    (probe cb 0 0 r).2.state = .closed ∨
      ((probe cb 0 0 r).2.state = .halfOpen ∧
        (probe cb 0 0 r).2.consecutiveSuccesses = cb.consecutiveSuccesses + 1) := by
  have hsucceeds : ¬ ((0 : Int) ≠ 0 ∨ timedOut 0 r = true) := by simp [timedOut]
  unfold probe
  rw [if_neg fun h => absurd hroom (Int.not_lt.mpr h.2)]
  dsimp only
  rw [if_neg hsucceeds, decide_eq_false hsucceeds]
  unfold afterSuccess
  split
  · exact Or.inl (cbTransition_state _ _ _)
  · refine Or.inr ⟨?_, ?_⟩
    · exact (cbWindowRecord_state ..).trans hhalf
    · exact congrArg (· + 1) (cbWindowRecord_consecutiveSuccesses ..)

theorem cbCall_halfOpen {cb : CbCircuitBreaker} (hhalf : cb.state = .halfOpen)
    (result timeoutMs : Int) (r : Readings) :
    cbCall cb result timeoutMs r = probe (countCall cb) result timeoutMs r := by
  rw [cbCall, if_neg]
  show cb.state ≠ .opened
  rw [hhalf]
  decide

theorem cbCall_opened {cb : CbCircuitBreaker} {r : Readings} (hopened : cb.state = .opened)
    (hlate : cb.config.timeoutMs ≤ r.entered - cb.lastTransitionTime) (result timeoutMs : Int) :
    cbCall cb result timeoutMs r =
      probe (cbTransition (countCall cb) .halfOpen r.halfOpened) result timeoutMs r := by
  rw [cbCall, if_pos, if_pos]
  · exact hlate
  · exact hopened

section

variable {config : CbConfig}
  (hlimit : (withDefaults config).successThreshold ≤ (withDefaults config).halfOpenMaxRequests)

include hlimit

theorem recovers_of_halfOpen {s : System} (h : Sound config s.breaker)
    (hhalf : s.breaker.state = .halfOpen) : Recovers s := by
  obtain ⟨n, hn⟩ : ∃ n : Nat,
      (withDefaults config).successThreshold - s.breaker.consecutiveSuccesses ≤ n :=
    ⟨_, Int.self_le_toNat _⟩
  induction n generalizing s with
  | zero =>
      have hbelow := (h.probing hhalf).2.2
      rw [h.config_eq] at hbelow
      omega
  | succ n ih =>
      obtain ⟨hzero, _, hbelow⟩ := h.probing hhalf
      rw [h.config_eq] at hbelow
      have hroom : s.breaker.consecutiveSuccesses + s.breaker.consecutiveFailures <
          s.breaker.config.halfOpenMaxRequests := by
        rw [h.config_eq]
        omega
      have hcall := congrArg Prod.snd (cbCall_halfOpen hhalf 0 0 (readings s.now noPause))
      have hprobe := @probe_immediately (countCall s.breaker) hhalf hroom
        (readings s.now noPause)
      rw [← hcall] at hprobe
      apply Recovers.of_step successful_immediately
      rcases hprobe with hclosed | ⟨hstate, hcount⟩
      · exact recovers_of_closed hclosed
      · apply ih (h.next immediately) hstate
        have hsuccesses : (step s immediately).breaker.consecutiveSuccesses =
          s.breaker.consecutiveSuccesses + 1 := hcount
        omega

/-- When the time is up, the next call makes an open breaker half-open. -/
theorem recovers_of_opened {s : System} (h : Sound config s.breaker)
    (hopened : s.breaker.state = .opened) : Recovers s := by
  let wait : Event :=
    .advance (s.breaker.config.timeoutMs + s.breaker.lastTransitionTime - s.now).toNat
  let r := readings (step s wait).now noPause
  have hlate : s.breaker.config.timeoutMs ≤ r.entered - s.breaker.lastTransitionTime := by
    show _ ≤ s.now + (_ : Nat) + ((0 : Nat) : Int) - _
    omega
  have hcall := congrArg Prod.snd (cbCall_opened hopened hlate 0 0)
  have hne : (countCall s.breaker).state ≠ .halfOpen := by
    show s.breaker.state ≠ .halfOpen
    rw [hopened]
    decide
  have hroom : 0 + 0 < s.breaker.config.halfOpenMaxRequests := by
    rw [h.config_eq]
    exact halfOpenMaxRequests_pos config
  have hprobe := @probe_immediately (cbTransition (countCall s.breaker) .halfOpen r.halfOpened)
    (cbTransition_state _ _ _) (by rw [cbTransition, if_neg hne]; exact hroom) r
  rw [← hcall] at hprobe
  apply Recovers.of_step (e := wait) trivial
  apply Recovers.of_step successful_immediately
  rcases hprobe with hclosed | ⟨hstate, _⟩
  · exact recovers_of_closed hclosed
  · exact recovers_of_halfOpen hlimit ((h.next wait).next immediately) hstate

end

/-! ## Too few probes -/

section

variable {config : CbConfig}
  (hlimit : (withDefaults config).halfOpenMaxRequests < (withDefaults config).successThreshold)

include hlimit

/-- The last probe that is admitted is one success short. -/
theorem not_closed_probe {cb : CbCircuitBreaker} (h : Sound config cb)
    (hstate : cb.state ≠ .closed) (result timeoutMs : Int) (r : Readings) :
    (probe cb result timeoutMs r).2.state ≠ .closed := by
  apply probe_induct (P := fun cb => cb.state ≠ .closed)
  · exact hstate
  · intro timedOut
    have hkept : (cbWindowRecord cb true r.recorded).state = cb.state := cbWindowRecord_state ..
    unfold afterFailure
    split
    · rw [cbTransition_state]
      decide
    · rw [if_neg fun hclosed => hstate (hkept.symm.trans hclosed.1)]
      exact fun hclosed => hstate (hkept.symm.trans hclosed)
  · intro hadmitted
    have hkept : (cbWindowRecord cb false r.recorded).state = cb.state := cbWindowRecord_state ..
    unfold afterSuccess
    rw [if_neg]
    · exact fun hclosed => hstate (hkept.symm.trans hclosed)
    · rintro ⟨hhalf, hcloses⟩
      have hroom := hadmitted (hkept.symm.trans hhalf)
      have hzero := (h.probing (hkept.symm.trans hhalf)).1
      have hle : (cbWindowRecord cb false r.recorded).config.successThreshold ≤
        (cbWindowRecord cb false r.recorded).consecutiveSuccesses + 1 := hcloses
      rw [cbWindowRecord_config, cbWindowRecord_consecutiveSuccesses] at hle
      rw [h.config_eq] at hle hroom
      omega

theorem not_closed_step {s : System} (h : Sound config s.breaker)
    (hstate : s.breaker.state ≠ .closed) (e : Event) : (step s e).breaker.state ≠ .closed := by
  cases e with
  | advance ms => exact hstate
  | call result timeoutMs pauses =>
      show (cbCall s.breaker result timeoutMs _).2.state ≠ .closed
      unfold cbCall
      dsimp only
      split
      next hopened =>
        split
        · apply not_closed_probe hlimit
          · apply sound_transition h.counted.config_eq h.counted.within
            rw [hopened]
            decide
          · rw [cbTransition_state]
            decide
        · exact hstate
      · exact not_closed_probe hlimit h.counted hstate _ _ _

theorem not_recovers {s : System} (h : Sound config s.breaker)
    (hstate : s.breaker.state ≠ .closed) : ¬ Recovers s := by
  rintro ⟨events, _, hclosed⟩
  have hstep : ∀ s e, Sound config s.breaker ∧ s.breaker.state ≠ .closed →
      Sound config (step s e).breaker ∧ (step s e).breaker.state ≠ .closed :=
    fun _ e hs => ⟨hs.1.next e, not_closed_step hlimit hs.1 hs.2 e⟩
  exact (run_keeps step hstep ⟨h, hstate⟩ events).2 hclosed

end

/-! ## Opening a breaker -/

/-- The next operation fails at once. -/
def failing : Event := .call 1 0 noPause

structure Failed (config : CbConfig) (now : Int) (n : Nat) (s : System) : Prop where
  sound : Sound config s.breaker
  now_eq : s.now = now
  closed : s.breaker.state = .closed
  windowPos_eq : s.breaker.windowPos = n
  not_filled : s.breaker.windowFilled = false
  entries : ∀ i < n, s.breaker.window i = ⟨now, true⟩

/-- All entries of the window are failures that are not too old. -/
theorem cbWindowFailures_eq {cb : CbCircuitBreaker} {now : Int}
    (hpos : 0 < cb.config.slidingWindowTimeMs)
    (hentries : ∀ i < windowCount cb, cb.window i = ⟨now, true⟩) :
    cbWindowFailures cb now = windowCount cb := by
  have hall : ∀ i ∈ List.range (windowCount cb),
      decide (now - cb.config.slidingWindowTimeMs ≤ (cb.window i).timestampMs ∧
        (cb.window i).failed = true) = true := by
    intro i hi
    rw [hentries i (List.mem_range.mp hi)]
    exact decide_eq_true ⟨by dsimp only; omega, rfl⟩
  calc cbWindowFailures cb now
      = (List.range (windowCount cb)).length := List.countP_eq_length.mpr hall
    _ = windowCount cb := List.length_range

theorem windowCount_record {config : CbConfig} {cb : CbCircuitBreaker} (h : Sound config cb)
    (hfilled : cb.windowFilled = false) (failed : Bool) (now : Int) :
    windowCount (cbWindowRecord cb failed now) = cb.windowPos + 1 := by
  have hwithin := h.within
  unfold cbWindowRecord
  dsimp only
  split
  next hfull =>
    show cb.config.slidingWindowSize.toNat = cb.windowPos + 1
    omega
  next hroom =>
    rw [windowCount, if_neg]
    show ¬ cb.windowFilled = true
    rw [hfilled]
    decide

theorem cbWindowRecord_window (cb : CbCircuitBreaker) (failed : Bool) (now : Int) :
    (cbWindowRecord cb failed now).window =
      Function.update cb.window cb.windowPos ⟨now, failed⟩ := by
  unfold cbWindowRecord
  dsimp only
  split <;> rfl

theorem cbWindowRecord_room {cb : CbCircuitBreaker}
    (hroom : (cb.windowPos : Int) + 1 < cb.config.slidingWindowSize) (failed : Bool)
    (now : Int) :
    (cbWindowRecord cb failed now).windowPos = cb.windowPos + 1 ∧
      (cbWindowRecord cb failed now).windowFilled = cb.windowFilled := by
  unfold cbWindowRecord
  dsimp only
  rw [if_neg (by push_cast; omega)]
  exact ⟨rfl, rfl⟩

theorem step_failing {s : System} (hclosed : s.breaker.state = .closed) :
    (step s failing).breaker =
      afterFailure (countFailure (cbWindowRecord (countCall s.breaker) true s.now) false s.now)
        (readings s.now noPause) := by
  have hopened : (countCall s.breaker).state ≠ .opened := by
    show s.breaker.state ≠ .opened
    rw [hclosed]
    decide
  have hhalf : (countCall s.breaker).state ≠ .halfOpen := by
    show s.breaker.state ≠ .halfOpen
    rw [hclosed]
    decide
  have hnow : (readings s.now noPause).recorded = s.now ∧
      (readings s.now noPause).entered = s.now := by
    simp [readings, noPause]
  show (cbCall s.breaker 1 0 (readings s.now noPause)).2 = _
  rw [cbCall, if_neg hopened, probe, if_neg fun h => hhalf h.1, hnow.1, hnow.2]
  rfl

theorem Failed.next {config : CbConfig} {now : Int} {n : Nat} {s : System}
    (h : Failed config now n s)
    (hsize : (withDefaults config).failureThreshold ≤ (withDefaults config).slidingWindowSize) :
    (step s failing).breaker.state = .opened ∨
      (Failed config now (n + 1) (step s failing) ∧
        (n : Int) + 1 < (withDefaults config).failureThreshold) := by
  let recorded := cbWindowRecord (countCall s.breaker) true s.now
  have hclosed : recorded.state = .closed := (cbWindowRecord_state ..).trans h.closed
  have hsettings : recorded.config = withDefaults config :=
    (cbWindowRecord_config ..).trans h.sound.config_eq
  have hcount : windowCount recorded = n + 1 := by
    rw [← h.windowPos_eq]
    exact windowCount_record h.sound.counted h.not_filled true s.now
  have hentries : ∀ i < n + 1, recorded.window i = ⟨now, true⟩ := by
    intro i hi
    rw [cbWindowRecord_window]
    show Function.update s.breaker.window s.breaker.windowPos _ i = _
    rw [h.windowPos_eq, h.now_eq]
    rcases Nat.lt_succ_iff_lt_or_eq.mp hi with hlt | rfl
    · rw [Function.update_of_ne (Nat.ne_of_lt hlt)]
      exact h.entries i hlt
    · exact Function.update_self ..
  have hfailures : cbWindowFailures (countFailure recorded false s.now)
      (readings s.now noPause).counted = n + 1 := by
    have hnow : (readings s.now noPause).counted = now := by
      simp [readings, noPause, h.now_eq]
    rw [hnow, ← hcount]
    apply cbWindowFailures_eq
    · show 0 < recorded.config.slidingWindowTimeMs
      rw [hsettings]
      exact slidingWindowTimeMs_pos config
    · show ∀ i < windowCount recorded, recorded.window i = ⟨now, true⟩
      rw [hcount]
      exact hentries
  have hbreaker := step_failing h.closed
  by_cases hopens : (withDefaults config).failureThreshold ≤ (n + 1 : Nat)
  · left
    rw [hbreaker, afterFailure_closed, if_pos]
    · rw [hfailures]
      show recorded.config.failureThreshold ≤ _
      rw [hsettings]
      exact hopens
    · exact hclosed
  · right
    have hkept : (step s failing).breaker = countFailure recorded false s.now := by
      rw [hbreaker, afterFailure, if_neg, if_neg]
      · rintro ⟨_, hle⟩
        rw [hfailures] at hle
        apply hopens
        rw [← hsettings]
        exact hle
      · intro hhalf
        exact absurd (hclosed.symm.trans hhalf) (by decide)
    have hroom : (s.breaker.windowPos : Int) + 1 < s.breaker.config.slidingWindowSize := by
      rw [h.windowPos_eq, h.sound.config_eq]
      push_cast at hopens
      omega
    obtain ⟨hpos, hfilled⟩ := @cbWindowRecord_room (countCall s.breaker) hroom true s.now
    refine ⟨⟨h.sound.next failing, ?_, ?_, ?_, ?_, ?_⟩, ?_⟩
    · show (readings s.now noPause).changed = now
      simp [readings, noPause, h.now_eq]
    · rw [hkept]
      exact hclosed
    · rw [hkept, ← h.windowPos_eq]
      exact hpos
    · rw [hkept]
      exact hfilled.trans h.not_filled
    · rw [hkept]
      exact hentries
    · push_cast at hopens
      omega

theorem Failed.opens {config : CbConfig} {now : Int} {n : Nat} {s : System}
    (h : Failed config now n s)
    (hsize : (withDefaults config).failureThreshold ≤ (withDefaults config).slidingWindowSize) :
    ∃ events, (run step s events).breaker.state = .opened := by
  obtain ⟨k, hk⟩ : ∃ k : Nat, (withDefaults config).failureThreshold ≤ n + k := by
    refine ⟨((withDefaults config).failureThreshold - n).toNat, ?_⟩
    omega
  induction k generalizing s n with
  | zero =>
      have hstep := h.next hsize
      rcases hstep with hopened | ⟨_, hlt⟩
      · exact ⟨[failing], hopened⟩
      · omega
  | succ k ih =>
      rcases h.next hsize with hopened | ⟨hnext, _⟩
      · exact ⟨[failing], hopened⟩
      · obtain ⟨events, hopened⟩ := ih hnext (by push_cast at hk ⊢; omega)
        exact ⟨failing :: events, hopened⟩

theorem failed_init (config : CbConfig) (now : Int) : Failed config now 0 (init config now) where
  sound := sound_init config now
  now_eq := rfl
  closed := rfl
  windowPos_eq := rfl
  not_filled := rfl
  entries _ hi := absurd hi (Nat.not_lt_zero _)

/-- Every state that the calls can lead to can be left towards closed, exactly when the
configuration allows it. -/
theorem recovers_iff_canClose (config : CbConfig) (now : Int) :
    (∀ events, Recovers (run step (init config now) events)) ↔ CanClose config := by
  constructor
  · intro hrecovers
    by_contra hnot
    obtain ⟨hlimit, hsize⟩ := not_or.mp hnot
    obtain ⟨events, hopened⟩ := (failed_init config now).opens (Int.not_lt.mp hsize)
    apply not_recovers (Int.not_le.mp hlimit) (sound_run config now events) _ (hrecovers events)
    rw [hopened]
    decide
  · intro hcan events
    have hsound := sound_run config now events
    rcases hcan with hlimit | hsize
    · cases hstate : (run step (init config now) events).breaker.state with
      | closed => exact recovers_of_closed hstate
      | opened => exact recovers_of_opened hlimit hsound hstate
      | halfOpen => exact recovers_of_halfOpen hlimit hsound hstate
    · exact recovers_of_closed (closed_run hsize now events)

/-- Two successes are needed and one probe is admitted. -/
def oneProbe : CbConfig where
  failureThreshold := 1
  successThreshold := 2
  timeoutMs := 1000
  halfOpenMaxRequests := 1
  slidingWindowSize := 10
  slidingWindowTimeMs := 60000

/-- After one failure it is open, and it never closes again. -/
theorem oneProbe_stuck :
    (run step (init oneProbe 0) [failing]).breaker.state = .opened ∧
      ¬ Recovers (run step (init oneProbe 0) [failing]) := by
  have hopened : (run step (init oneProbe 0) [failing]).breaker.state = .opened := by decide
  refine ⟨hopened, not_recovers (by decide) (sound_run oneProbe 0 [failing]) ?_⟩
  rw [hopened]
  decide

end MiniBackend.Infra.Proofs.BreakerRecovery
