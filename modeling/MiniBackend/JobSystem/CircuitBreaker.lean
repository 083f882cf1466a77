import Mathlib.Logic.Function.Basic

/-!
# `circuit_breaker.c`

The three-state breaker of the job system.  Each reading of the clock is an argument of
its own, in the order in which the call takes them.  No state callback is installed; the
breaker pointer is non-null, and the counters are unbounded integers.
-/

namespace MiniBackend.JobSystem.Breaker

inductive CbState
  | closed
  | opened
  | halfOpen
deriving DecidableEq

inductive CbFailureType
  | timeout
  | connection
  | http5xx
  | custom
deriving DecidableEq

structure CbConfig where
  failureThreshold : Int
  successThreshold : Int
  timeoutMs : Int
  cooldownMs : Int
  halfOpenMaxRequests : Int
  slidingWindowSize : Int
deriving DecidableEq

def cbWindowLen : Nat := 256

structure CbFailureWindow where
  timestamps : Nat → Int
  count : Nat
  head : Nat

structure CircuitBreaker where
  state : CbState
  config : CbConfig
  consecutiveFailures : Int
  consecutiveSuccesses : Int
  totalFailures : Int
  totalSuccesses : Int
  totalRejected : Int
  openedAt : Int
  lastFailureAt : Int
  lastSuccessAt : Int
  failureWindow : CbFailureWindow
  halfOpenRequests : Int

def defaultConfig : CbConfig where
  failureThreshold := 5
  successThreshold := 3
  timeoutMs := 5000
  cooldownMs := 30000
  halfOpenMaxRequests := 1
  slidingWindowSize := 60

def emptyWindow : CbFailureWindow := ⟨fun _ => 0, 0, 0⟩

def cbCreate (config : Option CbConfig) : CircuitBreaker where
  state := .closed
  config := config.getD defaultConfig
  consecutiveFailures := 0
  consecutiveSuccesses := 0
  totalFailures := 0
  totalSuccesses := 0
  totalRejected := 0
  openedAt := 0
  lastFailureAt := 0
  lastSuccessAt := 0
  failureWindow := emptyWindow
  halfOpenRequests := 0

/-- `now` is read only when the breaker opens. -/
def cbChangeState (cb : CircuitBreaker) (newState : CbState) (now : Int) : CircuitBreaker :=
  if cb.state = newState then cb
  else
    match newState with
    | .closed => { cb with state := .closed }
    | .opened => { cb with state := .opened, openedAt := now }
    | .halfOpen => { cb with state := .halfOpen, halfOpenRequests := 0 }

def reject (cb : CircuitBreaker) : CircuitBreaker :=
  { cb with totalRejected := cb.totalRejected + 1 }

/-- `difftime(now, opened_at) * 1000.0 >= cooldown_ms`. -/
def cooldownElapsed (cb : CircuitBreaker) (now : Int) : Bool :=
  decide (cb.config.cooldownMs ≤ (now - cb.openedAt) * 1000)

def cbAllowRequest (cb : CircuitBreaker) (now : Int) : Bool × CircuitBreaker :=
  match cb.state with
  | .closed => (true, cb)
  | .opened =>
      if cooldownElapsed cb now then
        (true, { cbChangeState cb .halfOpen now with halfOpenRequests := 1 })
      else (false, reject cb)
  | .halfOpen =>
      if cb.halfOpenRequests < cb.config.halfOpenMaxRequests then
        (true, { cb with halfOpenRequests := cb.halfOpenRequests + 1 })
      else (false, reject cb)

/-- `half_open_requests--`, not below zero. -/
def releaseProbe (cb : CircuitBreaker) : CircuitBreaker :=
  { cb with
    halfOpenRequests := if cb.halfOpenRequests - 1 < 0 then 0 else cb.halfOpenRequests - 1 }

def cbReportSuccess (cb : CircuitBreaker) (now : Int) : CircuitBreaker :=
  let cb := { cb with totalSuccesses := cb.totalSuccesses + 1, lastSuccessAt := now }
  match cb.state with
  | .closed => { cb with consecutiveFailures := 0 }
  | .opened => cb
  | .halfOpen =>
      let cb := { cb with consecutiveSuccesses := cb.consecutiveSuccesses + 1 }
      if cb.config.successThreshold ≤ cb.consecutiveSuccesses then
        releaseProbe
          (cbChangeState { cb with consecutiveFailures := 0, consecutiveSuccesses := 0 }
            .closed now)
      else releaseProbe cb

def cbTransitionToOpen (cb : CircuitBreaker) (now : Int) : CircuitBreaker :=
  cbChangeState { cb with consecutiveSuccesses := 0, halfOpenRequests := 0 } .opened now

def cbTransitionToHalfOpen (cb : CircuitBreaker) (now : Int) : CircuitBreaker :=
  cbChangeState { cb with halfOpenRequests := 0 } .halfOpen now

def cbTransitionToClosed (cb : CircuitBreaker) (now : Int) : CircuitBreaker :=
  cbChangeState
    { cb with consecutiveFailures := 0, consecutiveSuccesses := 0, halfOpenRequests := 0 }
    .closed now

/-- When the window is full the oldest time stamp is overwritten. -/
def cbFailureWindowRecord (fw : CbFailureWindow) (now : Int) : CbFailureWindow where
  timestamps := Function.update fw.timestamps fw.head now
  head := (fw.head + 1) % cbWindowLen
  count := if fw.count < cbWindowLen then fw.count + 1 else fw.count

def cbReportFailure (cb : CircuitBreaker) (_type : CbFailureType) (now₁ now₂ now₃ : Int) :
    CircuitBreaker :=
  let cb :=
    { cb with
      totalFailures := cb.totalFailures + 1
      lastFailureAt := now₁
      failureWindow := cbFailureWindowRecord cb.failureWindow now₂ }
  match cb.state with
  | .closed =>
      let cb := { cb with consecutiveFailures := cb.consecutiveFailures + 1 }
      if cb.config.failureThreshold ≤ cb.consecutiveFailures then cbTransitionToOpen cb now₃
      else cb
  | .opened => cb
  | .halfOpen =>
      cbTransitionToOpen { cb with consecutiveFailures := cb.consecutiveFailures + 1 } now₃

def cbReset (cb : CircuitBreaker) : CircuitBreaker :=
  { cb with
    state := .closed
    consecutiveFailures := 0
    consecutiveSuccesses := 0
    totalFailures := 0
    totalSuccesses := 0
    totalRejected := 0
    halfOpenRequests := 0
    failureWindow := emptyWindow }

/-! ## Calls -/

inductive Op
  | allowRequest (now : Int)
  | reportSuccess (now : Int)
  | reportFailure (type : CbFailureType) (now₁ now₂ now₃ : Int)
  | transitionToOpen (now : Int)
  | transitionToHalfOpen (now : Int)
  | transitionToClosed (now : Int)
  | reset
deriving DecidableEq

def call (cb : CircuitBreaker) : Op → CircuitBreaker
  | .allowRequest now => (cbAllowRequest cb now).2
  | .reportSuccess now => cbReportSuccess cb now
  | .reportFailure type now₁ now₂ now₃ => cbReportFailure cb type now₁ now₂ now₃
  | .transitionToOpen now => cbTransitionToOpen cb now
  | .transitionToHalfOpen now => cbTransitionToHalfOpen cb now
  | .transitionToClosed now => cbTransitionToClosed cb now
  | .reset => cbReset cb

/-! ## Clients -/

/-- A client whose request was admitted and not reported yet, and how often the breaker
had become half-open when it was admitted. -/
structure Request where
  client : Nat
  admitted : Nat
deriving DecidableEq

/-- The breaker with its clients; `epoch` counts how often it became half-open. -/
structure System where
  breaker : CircuitBreaker
  epoch : Nat
  inFlight : List Request

inductive Event
  | allowRequest (client : Nat) (now : Int)
  | reportSuccess (client : Nat) (now : Int)
  | reportFailure (client : Nat) (type : CbFailureType) (now₁ now₂ now₃ : Int)
deriving DecidableEq

def init (config : Option CbConfig) : System := ⟨cbCreate config, 0, []⟩

/-- The client waits for the outcome of its request. -/
def Busy (s : System) (client : Nat) : Prop := ∃ r ∈ s.inFlight, r.client = client

instance (s : System) (client : Nat) : Decidable (Busy s client) :=
  inferInstanceAs (Decidable (∃ r ∈ s.inFlight, r.client = client))

/-- The call made by a client that is not busy. -/
def request (s : System) (client : Nat) (now : Int) : System :=
  let (allowed, breaker) := cbAllowRequest s.breaker now
  let epoch :=
    if s.breaker.state ≠ .halfOpen ∧ breaker.state = .halfOpen then s.epoch + 1 else s.epoch
  { breaker, epoch, inFlight := if allowed then ⟨client, epoch⟩ :: s.inFlight else s.inFlight }

def settle (s : System) (client : Nat) (breaker : CircuitBreaker) : System :=
  { s with breaker, inFlight := s.inFlight.filter fun r => r.client ≠ client }

/-- Each client alternates between an admitted request and one report of its outcome; an
event that is not its turn does not happen. -/
def step (s : System) : Event → System
  | .allowRequest client now => if Busy s client then s else request s client now
  | .reportSuccess client now =>
      if Busy s client then settle s client (cbReportSuccess s.breaker now) else s
  | .reportFailure client type now₁ now₂ now₃ =>
      if Busy s client then
        settle s client (cbReportFailure s.breaker type now₁ now₂ now₃)
      else s

/-- The unreported requests admitted since the breaker last became half-open. -/
def probes (s : System) : List Request := s.inFlight.filter fun r => r.admitted = s.epoch

end MiniBackend.JobSystem.Breaker
