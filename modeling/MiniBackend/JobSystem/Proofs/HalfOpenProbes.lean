import MiniBackend.JobSystem.CircuitBreaker
import MiniBackend.Lib.Runs
import Mathlib.Data.List.Nodup

/-!
# How many probes are out while the breaker is half-open

`half_open_requests` is meant to count the probes that are out.  It does as long as no
request that was admitted before the breaker became half-open reports a success: such a
report gives back a place that it never took.
-/

namespace MiniBackend.JobSystem.Proofs.HalfOpenProbes

open MiniBackend.Lib.Runs MiniBackend.JobSystem.Breaker

def ProbesBounded (limit : Int) (s : System) : Prop :=
  s.breaker.state = .halfOpen → ((probes s).length : Int) ≤ limit

instance (limit : Int) (s : System) : Decidable (ProbesBounded limit s) :=
  inferInstanceAs (Decidable (s.breaker.state = .halfOpen → ((probes s).length : Int) ≤ limit))

/-- The report of a success lowers the count of a half-open breaker for a request that
was admitted before the breaker became half-open. -/
def LateSuccess (s : System) : Event → Prop
  | .reportSuccess client _ =>
      s.breaker.state = .halfOpen ∧ 0 < s.breaker.halfOpenRequests ∧
        s.breaker.consecutiveSuccesses + 1 < s.breaker.config.successThreshold ∧
          ∃ r ∈ s.inFlight, r.client = client ∧ r.admitted ≠ s.epoch
  | _ => False

instance (s : System) : (e : Event) → Decidable (LateSuccess s e)
  | .reportSuccess .. => inferInstanceAs (Decidable (_ ∧ _ ∧ _ ∧ _))
  | .allowRequest .. | .reportFailure .. => .isFalse id

structure Counted (limit : Int) (s : System) : Prop where
  positive : 1 ≤ limit
  limit_eq : s.breaker.config.halfOpenMaxRequests = limit
  distinct : (s.inFlight.map Request.client).Nodup
  admitted_le : ∀ r ∈ s.inFlight, r.admitted ≤ s.epoch
  counted : s.breaker.state = .halfOpen →
    ((probes s).length : Int) = s.breaker.halfOpenRequests
  within : s.breaker.state = .halfOpen → s.breaker.halfOpenRequests ≤ limit

theorem Counted.probesBounded {limit : Int} {s : System} (h : Counted limit s) :
    ProbesBounded limit s := by
  intro hhalf
  rw [h.counted hhalf]
  exact h.within hhalf

/-! ## The calls of the breaker -/

theorem config_cbChangeState (cb : CircuitBreaker) (newState : CbState) (now : Int) :
    (cbChangeState cb newState now).config = cb.config := by
  unfold cbChangeState
  split
  · rfl
  · cases newState <;> rfl

theorem state_cbChangeState (cb : CircuitBreaker) (newState : CbState) (now : Int) :
    (cbChangeState cb newState now).state = newState := by
  unfold cbChangeState
  split
  next h => exact h
  next h => cases newState <;> rfl

theorem config_cbReportSuccess (cb : CircuitBreaker) (now : Int) :
    (cbReportSuccess cb now).config = cb.config := by
  unfold cbReportSuccess
  cases cb.state with
  | closed => rfl
  | opened => rfl
  | halfOpen =>
      dsimp only
      split
      · simp [releaseProbe, config_cbChangeState]
      · rfl

theorem config_cbReportFailure (cb : CircuitBreaker) (type : CbFailureType)
    (now₁ now₂ now₃ : Int) :
    (cbReportFailure cb type now₁ now₂ now₃).config = cb.config := by
  unfold cbReportFailure
  cases cb.state with
  | closed =>
      dsimp only
      split
      · exact config_cbChangeState _ _ _
      · rfl
  | opened => rfl
  | halfOpen => exact config_cbChangeState _ _ _

theorem halfOpen_cbReportSuccess {cb : CircuitBreaker} {now : Int}
    (h : (cbReportSuccess cb now).state = .halfOpen) :
    cb.state = .halfOpen ∧ cb.consecutiveSuccesses + 1 < cb.config.successThreshold ∧
      (cbReportSuccess cb now).halfOpenRequests = max (cb.halfOpenRequests - 1) 0 := by
  unfold cbReportSuccess at h ⊢
  cases hstate : cb.state with
  | closed => simp [hstate] at h
  | opened => simp [hstate] at h
  | halfOpen =>
      simp only [hstate] at h ⊢
      split at h
      next hle =>
        simp only [releaseProbe] at h
        rw [state_cbChangeState] at h
        cases h
      next hle =>
        rw [if_neg hle]
        refine ⟨trivial, by omega, ?_⟩
        simp only [releaseProbe]
        split <;> omega

theorem not_halfOpen_cbReportFailure (cb : CircuitBreaker) (type : CbFailureType)
    (now₁ now₂ now₃ : Int) :
    (cbReportFailure cb type now₁ now₂ now₃).state ≠ .halfOpen := by
  unfold cbReportFailure
  cases cb.state with
  | closed =>
      dsimp only
      split
      · simp [cbTransitionToOpen, state_cbChangeState]
      · simp
  | opened => simp
  | halfOpen => simp [cbTransitionToOpen, state_cbChangeState]

/-! ## A report takes one request out of flight -/

theorem settle_inFlight {s : System} (hdistinct : (s.inFlight.map Request.client).Nodup)
    {r : Request} (hr : r ∈ s.inFlight) (breaker : CircuitBreaker) :
    (settle s r.client breaker).inFlight = s.inFlight.erase r := by
  rw [(hdistinct.of_map _).erase_eq_filter]
  apply List.filter_congr
  intro x hx
  have hiff : x.client = r.client ↔ x = r := by
    constructor
    · exact fun hclient => List.inj_on_of_nodup_map hdistinct hx hr hclient
    · exact congrArg Request.client
  by_cases hx : x = r <;> simp [hiff, hx]

theorem probes_settle {s : System} (hdistinct : (s.inFlight.map Request.client).Nodup)
    {r : Request} (hr : r ∈ s.inFlight) (breaker : CircuitBreaker) :
    probes (settle s r.client breaker) = (probes s).erase r := by
  have hnodup := hdistinct.of_map
  unfold probes
  rw [settle_inFlight hdistinct hr, (hnodup.filter _).erase_eq_filter,
    hnodup.erase_eq_filter, List.filter_filter, List.filter_filter]
  apply List.filter_congr
  intro x _
  exact Bool.and_comm _ _

theorem Counted.settle_of_count {limit : Int} {s : System} (h : Counted limit s) {r : Request}
    (hr : r ∈ s.inFlight) {breaker : CircuitBreaker}
    (hconfig : breaker.config = s.breaker.config)
    (hcount : breaker.state = .halfOpen → (((probes s).erase r).length : Int) =
      breaker.halfOpenRequests ∧ breaker.halfOpenRequests ≤ limit) :
    Counted limit (settle s r.client breaker) where
  positive := h.positive
  limit_eq := by
    rw [← h.limit_eq]
    exact congrArg CbConfig.halfOpenMaxRequests hconfig
  distinct := by
    apply List.Nodup.sublist _ h.distinct
    exact List.filter_sublist.map Request.client
  admitted_le := by
    intro x hx
    exact h.admitted_le x (List.mem_of_mem_filter hx)
  counted := by
    intro hhalf
    rw [probes_settle h.distinct hr]
    exact (hcount hhalf).1
  within := fun hhalf => (hcount hhalf).2

theorem Counted.reportSuccess {limit : Int} {s : System} (h : Counted limit s) {r : Request}
    (hr : r ∈ s.inFlight) {now : Int}
    (hlate : ¬ LateSuccess s (.reportSuccess r.client now)) :
    Counted limit (settle s r.client (cbReportSuccess s.breaker now)) := by
  apply h.settle_of_count hr (config_cbReportSuccess s.breaker now)
  intro hhalf
  obtain ⟨hstate, hbelow, hrequests⟩ := halfOpen_cbReportSuccess hhalf
  have hcounted := h.counted hstate
  have hwithin := h.within hstate
  rw [hrequests]
  by_cases hcurrent : r.admitted = s.epoch
  · have hmem : r ∈ probes s := by simp [probes, hr, hcurrent]
    have hlength := List.length_erase_of_mem hmem
    have hpos := List.length_pos_of_mem hmem
    omega
  · -- a late report: it changes neither the probes nor a count that is already zero
    have hmem : r ∉ probes s := by simp [probes, hcurrent]
    have hzero : ¬ 0 < s.breaker.halfOpenRequests := by
      intro hpos
      exact hlate ⟨hstate, hpos, hbelow, r, hr, rfl, hcurrent⟩
    rw [List.erase_of_not_mem hmem]
    omega

theorem Counted.reportFailure {limit : Int} {s : System} (h : Counted limit s) {r : Request}
    (hr : r ∈ s.inFlight) (type : CbFailureType) (now₁ now₂ now₃ : Int) :
    Counted limit
      (settle s r.client (cbReportFailure s.breaker type now₁ now₂ now₃)) := by
  apply h.settle_of_count hr (config_cbReportFailure s.breaker type now₁ now₂ now₃)
  intro hhalf
  exact absurd hhalf (not_halfOpen_cbReportFailure s.breaker type now₁ now₂ now₃)

/-! ## Asking for admission -/

theorem request_cases (s : System) (client : Nat) (now : Int) :
    (s.breaker.state = .closed ∧
      request s client now = { s with inFlight := ⟨client, s.epoch⟩ :: s.inFlight }) ∨
    (s.breaker.state = .opened ∧ request s client now =
      { breaker := { s.breaker with state := .halfOpen, halfOpenRequests := 1 }
        epoch := s.epoch + 1
        inFlight := ⟨client, s.epoch + 1⟩ :: s.inFlight }) ∨
    (s.breaker.state = .halfOpen ∧
      s.breaker.halfOpenRequests < s.breaker.config.halfOpenMaxRequests ∧
      request s client now =
        { s with
          breaker := { s.breaker with halfOpenRequests := s.breaker.halfOpenRequests + 1 }
          inFlight := ⟨client, s.epoch⟩ :: s.inFlight }) ∨
    request s client now = { s with breaker := reject s.breaker } := by
  unfold request cbAllowRequest
  cases hstate : s.breaker.state with
  | closed => simp [hstate]
  | opened =>
      dsimp only
      split
      · simp [hstate, cbChangeState]
      · simp [hstate, reject]
  | halfOpen =>
      dsimp only
      split
      next hlt => simp [hstate, hlt]
      next => simp [hstate, reject]

theorem Counted.request {limit : Int} {s : System} (h : Counted limit s) {client : Nat}
    (hidle : ¬ Busy s client) (now : Int) : Counted limit (request s client now) := by
  have hfresh : client ∉ s.inFlight.map Request.client := by
    intro hmem
    obtain ⟨r, hr, hclient⟩ := List.mem_map.mp hmem
    exact hidle ⟨r, hr, hclient⟩
  have hdistinct : ((client :: s.inFlight.map Request.client)).Nodup :=
    List.nodup_cons.mpr ⟨hfresh, h.distinct⟩
  rcases request_cases s client now with ⟨hstate, heq⟩ | ⟨hstate, heq⟩ |
    ⟨hstate, hlt, heq⟩ | heq
  · rw [heq]
    exact {
      positive := h.positive
      limit_eq := h.limit_eq
      distinct := hdistinct
      admitted_le := by simpa using h.admitted_le
      counted := fun hhalf => absurd (hstate.symm.trans hhalf) (by decide)
      within := fun hhalf => absurd (hstate.symm.trans hhalf) (by decide) }
  · -- the first probe: every older request was admitted in an earlier epoch
    have hold : s.inFlight.filter (fun r => r.admitted = s.epoch + 1) = [] := by
      rw [List.filter_eq_nil_iff]
      intro r hr
      have := h.admitted_le r hr
      simp
      omega
    rw [heq]
    exact {
      positive := h.positive
      limit_eq := h.limit_eq
      distinct := hdistinct
      admitted_le := by
        intro r hr
        rcases List.mem_cons.mp hr with rfl | hr
        · exact Nat.le_refl _
        · exact Nat.le_succ_of_le (h.admitted_le r hr)
      counted := fun _ => by simp [probes, hold]
      within := fun _ => h.positive }
  · have hcounted := h.counted hstate
    rw [heq]
    exact {
      positive := h.positive
      limit_eq := h.limit_eq
      distinct := hdistinct
      admitted_le := by simpa using h.admitted_le
      counted := fun _ => by simpa [probes] using hcounted
      within := fun _ => by
        have := h.limit_eq
        dsimp only
        omega }
  · rw [heq]
    exact ⟨h.positive, h.limit_eq, h.distinct, h.admitted_le, h.counted, h.within⟩

/-! ## Whole runs -/

theorem Counted.step {limit : Int} {s : System} (h : Counted limit s) {e : Event}
    (hlate : ¬ LateSuccess s e) : Counted limit (step s e) := by
  cases e with
  | allowRequest client now =>
      simp only [Breaker.step]
      split
      next => exact h
      next hidle => exact h.request hidle now
  | reportSuccess client now =>
      simp only [Breaker.step]
      split
      next hbusy =>
        obtain ⟨r, hr, rfl⟩ := hbusy
        exact h.reportSuccess hr hlate
      next => exact h
  | reportFailure client type now₁ now₂ now₃ =>
      simp only [Breaker.step]
      split
      next hbusy =>
        obtain ⟨r, hr, rfl⟩ := hbusy
        exact h.reportFailure hr type now₁ now₂ now₃
      next => exact h

theorem init_counted {config : Option CbConfig}
    (hmax : 1 ≤ (config.getD defaultConfig).halfOpenMaxRequests) :
    Counted (config.getD defaultConfig).halfOpenMaxRequests (init config) where
  positive := hmax
  limit_eq := rfl
  distinct := List.nodup_nil
  admitted_le := by simp [init]
  counted := fun hhalf => nomatch hhalf
  within := fun hhalf => nomatch hhalf

/-- In a run without late successes the probes of a half-open breaker stay within
`half_open_max_requests`. -/
theorem probesBounded_of_noLateSuccess (config : Option CbConfig)
    (hmax : 1 ≤ (config.getD defaultConfig).halfOpenMaxRequests) (events : List Event)
    (hlate : Always step (fun s e => ¬ LateSuccess s e) (init config) events) :
    ProbesBounded (config.getD defaultConfig).halfOpenMaxRequests
      (run step (init config) events) := by
  apply Counted.probesBounded
  apply run_invariant step _ (init_counted hmax) hlate
  intro s e hs he
  exact hs.step he

/-- One failure opens this breaker and two successes close it. -/
def touchyConfig : CbConfig where
  failureThreshold := 1
  successThreshold := 2
  timeoutMs := 5000
  cooldownMs := 1000
  halfOpenMaxRequests := 1
  slidingWindowSize := 60

/-- Clients 0 and 1 pass the closed breaker and 0 fails; client 2 is the only probe, and
its own success lets client 3 in. -/
theorem probesBounded_of_noLateSuccess_probe :
    ProbesBounded 1 (run step (init (some touchyConfig))
      [.allowRequest 0 0, .allowRequest 1 0, .reportFailure 0 .timeout 0 0 0,
        .allowRequest 2 1, .reportSuccess 2 1, .allowRequest 3 1]) :=
  probesBounded_of_noLateSuccess (some touchyConfig) (by decide) _ (by decide)

/-- The success of client 1, admitted while the breaker was closed, gives back the place
of the probe of client 2, and client 3 is let in beside it. -/
theorem late_success_admits_second_probe :
    ¬ ProbesBounded 1 (run step (init (some touchyConfig))
      [.allowRequest 0 0, .allowRequest 1 0, .reportFailure 0 .timeout 0 0 0,
        .allowRequest 2 1, .reportSuccess 1 1, .allowRequest 3 1]) := by
  decide

end MiniBackend.JobSystem.Proofs.HalfOpenProbes
