import Mathlib.Logic.Function.Basic
import Mathlib.Data.Fintype.Defs

/-!
# `circuit_breaker.c` of the infrastructure library

A breaker with a rolling window of outcomes.  The monotonic clock is read up to seven times
in a call; `Readings` has the values in the order in which they are taken.  No state callback
is installed, the pointers are non-null, and the counters are unbounded integers.
-/

namespace MiniBackend.Infra.Breaker

inductive CbState
  | closed
  | opened
  | halfOpen
deriving DecidableEq

structure CbStats where
  totalCalls : Int
  totalSuccesses : Int
  totalFailures : Int
  totalTimeouts : Int
  totalFastFails : Int
  lastFailureTime : Int
  lastSuccessTime : Int
  openedAt : Int
  lastStateChange : Int

structure CbConfig where
  failureThreshold : Int
  successThreshold : Int
  timeoutMs : Int
  halfOpenMaxRequests : Int
  slidingWindowSize : Int
  slidingWindowTimeMs : Int

structure CbWindowEntry where
  timestampMs : Int
  failed : Bool

structure CbCircuitBreaker where
  config : CbConfig
  state : CbState
  consecutiveFailures : Int
  consecutiveSuccesses : Int
  lastTransitionTime : Int
  stats : CbStats
  window : Nat → CbWindowEntry
  windowPos : Nat
  windowFilled : Bool

structure Readings where
  entered : Int
  halfOpened : Int
  started : Int
  finished : Int
  recorded : Int
  counted : Int
  changed : Int

def cbDefaultFailures : Int := 5
def cbDefaultTimeoutMs : Int := 30000
def cbDefaultSuccesses : Int := 3
def cbDefaultHalfMax : Int := 3

/-- A setting that is not positive is replaced by the default. -/
def orDefault (setting default : Int) : Int := if setting ≤ 0 then default else setting

def withDefaults (config : CbConfig) : CbConfig where
  failureThreshold := orDefault config.failureThreshold cbDefaultFailures
  successThreshold := orDefault config.successThreshold cbDefaultSuccesses
  timeoutMs := orDefault config.timeoutMs cbDefaultTimeoutMs
  halfOpenMaxRequests := orDefault config.halfOpenMaxRequests cbDefaultHalfMax
  slidingWindowSize := orDefault config.slidingWindowSize 100
  slidingWindowTimeMs := orDefault config.slidingWindowTimeMs 60000

def cbCreate (config : CbConfig) (now : Int) : CbCircuitBreaker where
  config := withDefaults config
  state := .closed
  consecutiveFailures := 0
  consecutiveSuccesses := 0
  lastTransitionTime := now
  stats := ⟨0, 0, 0, 0, 0, 0, 0, 0, 0⟩
  window _ := ⟨0, false⟩
  windowPos := 0
  windowFilled := false

/-- How many entries of the window are in use. -/
def windowCount (cb : CbCircuitBreaker) : Nat :=
  if cb.windowFilled then cb.config.slidingWindowSize.toNat else cb.windowPos

def cbWindowFailures (cb : CbCircuitBreaker) (now : Int) : Nat :=
  (List.range (windowCount cb)).countP fun i =>
    now - cb.config.slidingWindowTimeMs ≤ (cb.window i).timestampMs ∧ (cb.window i).failed

def cbWindowRecord (cb : CbCircuitBreaker) (failed : Bool) (now : Int) : CbCircuitBreaker :=
  let cb := { cb with
    window := Function.update cb.window cb.windowPos ⟨now, failed⟩
    windowPos := cb.windowPos + 1 }
  if cb.config.slidingWindowSize ≤ cb.windowPos then
    { cb with windowPos := 0, windowFilled := true }
  else cb

def cbTransition (cb : CbCircuitBreaker) (newState : CbState) (now : Int) : CbCircuitBreaker :=
  if cb.state = newState then cb
  else
    { cb with
      state := newState
      lastTransitionTime := now
      consecutiveFailures := 0
      consecutiveSuccesses := 0
      stats := { cb.stats with
        lastStateChange := now
        openedAt := if newState = .opened then now else cb.stats.openedAt } }

/-- `return -1` before the operation is run. -/
def failFast (cb : CbCircuitBreaker) : Int × CbCircuitBreaker :=
  (-1, { cb with stats := { cb.stats with totalFastFails := cb.stats.totalFastFails + 1 } })

def countCall (cb : CbCircuitBreaker) : CbCircuitBreaker :=
  { cb with stats := { cb.stats with totalCalls := cb.stats.totalCalls + 1 } }

def countFailure (cb : CbCircuitBreaker) (timedOut : Bool) (now : Int) : CbCircuitBreaker :=
  { cb with
    consecutiveFailures := cb.consecutiveFailures + 1
    consecutiveSuccesses := 0
    stats := { cb.stats with
      totalFailures := cb.stats.totalFailures + 1
      lastFailureTime := now
      totalTimeouts := cb.stats.totalTimeouts + if timedOut then 1 else 0 } }

def countSuccess (cb : CbCircuitBreaker) (now : Int) : CbCircuitBreaker :=
  { cb with
    consecutiveSuccesses := cb.consecutiveSuccesses + 1
    consecutiveFailures := 0
    stats := { cb.stats with
      totalSuccesses := cb.stats.totalSuccesses + 1
      lastSuccessTime := now } }

/-- What `cb_call` does once a failure is counted: any failure opens a half-open breaker. -/
def afterFailure (cb : CbCircuitBreaker) (r : Readings) : CbCircuitBreaker :=
  if cb.state = .halfOpen then cbTransition cb .opened r.changed
  else if cb.state = .closed ∧
      cb.config.failureThreshold ≤ cbWindowFailures cb r.counted then
    cbTransition cb .opened r.changed
  else cb

/-- What `cb_call` does once a success is counted. -/
def afterSuccess (cb : CbCircuitBreaker) (r : Readings) : CbCircuitBreaker :=
  if cb.state = .halfOpen ∧ cb.config.successThreshold ≤ cb.consecutiveSuccesses then
    cbTransition cb .closed r.changed
  else cb

/-- The operation took longer than the limit of the call; there is none unless it is
positive. -/
def timedOut (timeoutMs : Int) (r : Readings) : Bool :=
  0 < timeoutMs ∧ timeoutMs < r.finished - r.started

/-- The part of `cb_call` from the limit on the probes on. -/
def probe (cb : CbCircuitBreaker) (result timeoutMs : Int) (r : Readings) :
    Int × CbCircuitBreaker :=
  if cb.state = .halfOpen ∧
      cb.config.halfOpenMaxRequests ≤ cb.consecutiveSuccesses + cb.consecutiveFailures then
    failFast cb
  else
    let failed := result ≠ 0 ∨ timedOut timeoutMs r
    let cb := cbWindowRecord cb failed r.recorded
    (result,
      if failed then afterFailure (countFailure cb (timedOut timeoutMs r) r.entered) r
      else afterSuccess (countSuccess cb r.entered) r)

/-- `result` is what the operation returns if it is run. -/
def cbCall (cb : CbCircuitBreaker) (result timeoutMs : Int) (r : Readings) :
    Int × CbCircuitBreaker :=
  let cb := countCall cb
  if cb.state = .opened then
    if cb.config.timeoutMs ≤ r.entered - cb.lastTransitionTime then
      probe (cbTransition cb .halfOpen r.halfOpened) result timeoutMs r
    else failFast cb
  else probe cb result timeoutMs r

/-! ## Calls as time goes by -/

/-- How much time passes in a call before each reading of the clock. -/
structure Pauses where
  entered : Nat
  halfOpened : Nat
  started : Nat
  finished : Nat
  recorded : Nat
  counted : Nat
  changed : Nat

def readings (now : Int) (p : Pauses) : Readings :=
  let entered := now + p.entered
  let halfOpened := entered + p.halfOpened
  let started := halfOpened + p.started
  let finished := started + p.finished
  let recorded := finished + p.recorded
  let counted := recorded + p.counted
  ⟨entered, halfOpened, started, finished, recorded, counted, counted + p.changed⟩

/-- A breaker and the time. -/
structure System where
  breaker : CbCircuitBreaker
  now : Int

inductive Event
  | advance (ms : Nat)
  | call (result timeoutMs : Int) (pauses : Pauses)

def init (config : CbConfig) (now : Int) : System := ⟨cbCreate config now, now⟩

def step (s : System) : Event → System
  | .advance ms => { s with now := s.now + ms }
  | .call result timeoutMs pauses =>
      let r := readings s.now pauses
      ⟨(cbCall s.breaker result timeoutMs r).2, r.changed⟩

end MiniBackend.Infra.Breaker
