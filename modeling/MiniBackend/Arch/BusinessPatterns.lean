import MiniBackend.Lib.CString
import Mathlib.Logic.Function.Basic

/-!
# `business_patterns.c`

The resilience patterns and the store of idempotency keys.  Every reading of the clock is an
argument of its own, in the order in which a call takes them.  The tokens of a bucket are of
any type of numbers with the operations that the code applies to its doubles.  A policy points
to at most one component of each kind, and two policies may share components.
-/

namespace MiniBackend.Arch.Patterns

open MiniBackend.Lib.CString

/-! ## Circuit breaker -/

inductive CircuitBreakerState
  | closed
  | opened
  | halfOpen
deriving DecidableEq

structure CircuitBreaker where
  state : CircuitBreakerState
  failureCount : Nat
  failureThreshold : Int
  halfOpenMaxRequests : Int
  halfOpenSuccessCount : Nat
  halfOpenRequestCount : Nat
  lastFailureTimeMs : UInt64
  timeoutMs : UInt64
  lastStateChangeMs : UInt64
  totalSuccesses : Nat
  totalFailures : Nat
  totalRejected : Nat
deriving DecidableEq

def cbMaxFailuresDefault : Int := 5
def cbTimeoutMsDefault : UInt64 := 30000
def cbHalfOpenMaxDefault : Int := 3

def cbCreateWithConfig (failureThreshold : Int) (timeoutMs : UInt64) (halfOpenMax : Int) :
    CircuitBreaker where
  state := .closed
  failureCount := 0
  failureThreshold := if 0 < failureThreshold then failureThreshold else cbMaxFailuresDefault
  halfOpenMaxRequests := if 0 < halfOpenMax then halfOpenMax else cbHalfOpenMaxDefault
  halfOpenSuccessCount := 0
  halfOpenRequestCount := 0
  lastFailureTimeMs := 0
  timeoutMs := if 0 < timeoutMs then timeoutMs else cbTimeoutMsDefault
  lastStateChangeMs := 0
  totalSuccesses := 0
  totalFailures := 0
  totalRejected := 0

def cbReject (cb : CircuitBreaker) : Bool × CircuitBreaker :=
  (false, { cb with totalRejected := cb.totalRejected + 1 })

def cbAllowRequest (cb : CircuitBreaker) (now : UInt64) : Bool × CircuitBreaker :=
  match cb.state with
  | .closed => (true, cb)
  | .opened =>
      if cb.timeoutMs ≤ now - cb.lastStateChangeMs then
        (true, { cb with
          state := .halfOpen
          halfOpenRequestCount := 0
          halfOpenSuccessCount := 0
          lastStateChangeMs := now })
      else cbReject cb
  | .halfOpen =>
      if cb.halfOpenRequestCount < cb.halfOpenMaxRequests then
        (true, { cb with halfOpenRequestCount := cb.halfOpenRequestCount + 1 })
      else cbReject cb

def cbRecordSuccess (cb : CircuitBreaker) (now : UInt64) : CircuitBreaker :=
  let cb := { cb with totalSuccesses := cb.totalSuccesses + 1 }
  let cb : CircuitBreaker :=
    if cb.state = .halfOpen then
      let cb := { cb with halfOpenSuccessCount := cb.halfOpenSuccessCount + 1 }
      if cb.halfOpenMaxRequests ≤ cb.halfOpenSuccessCount then
        { cb with state := .closed, failureCount := 0, lastStateChangeMs := now }
      else cb
    else cb
  if cb.state = .closed then { cb with failureCount := 0 } else cb

def cbRecordFailure (cb : CircuitBreaker) (now : UInt64) : CircuitBreaker :=
  let cb := { cb with totalFailures := cb.totalFailures + 1, lastFailureTimeMs := now }
  match cb.state with
  | .closed =>
      let cb := { cb with failureCount := cb.failureCount + 1 }
      if cb.failureThreshold ≤ cb.failureCount then
        { cb with state := .opened, lastStateChangeMs := now }
      else cb
  | .halfOpen => { cb with state := .opened, lastStateChangeMs := now }
  | .opened => cb

/-! ## Idempotency keys -/

def ikKeyLen : Nat := 128
def ikResponseLen : Nat := 2048
def ikMaxKeys : Nat := 256

inductive IdempotencyKeyStatus
  | notFound
  | processing
  | completed
  | expired
deriving DecidableEq

/-- `response` has the first `response_size` bytes of the array. -/
structure IdempotencyKeyEntry where
  key : CStr
  response : List UInt8
  status : IdempotencyKeyStatus
  createdAtMs : UInt64
  ttlMs : UInt64
deriving DecidableEq

structure IdempotencyKeyStore where
  entries : List IdempotencyKeyEntry
  defaultTtlMs : UInt64
  hits : Nat
  misses : Nat
  expiredCount : Nat
deriving DecidableEq

def ikStoreCreate (defaultTtlMs : UInt64) : IdempotencyKeyStore :=
  ⟨[], if 0 < defaultTtlMs then defaultTtlMs else 3600000, 0, 0, 0⟩

/-- `strncmp(entry->key, key, IK_KEY_LEN) == 0` -/
def IdempotencyKeyEntry.hasKey (entry : IdempotencyKeyEntry) (key : CStr) : Bool :=
  entry.key.take ikKeyLen == key.take ikKeyLen

def IdempotencyKeyEntry.isExpired (entry : IdempotencyKeyEntry) (now : UInt64) : Bool :=
  entry.ttlMs < now - entry.createdAtMs

def ikStoreFindIndex (store : IdempotencyKeyStore) (key : CStr) : Option Nat :=
  store.entries.findIdx? (·.hasKey key)

def ikStoreCheck (store : IdempotencyKeyStore) (key : CStr) (now : UInt64) :
    IdempotencyKeyStatus × IdempotencyKeyStore :=
  match ikStoreFindIndex store key with
  | none => (.notFound, { store with misses := store.misses + 1 })
  | some idx =>
      let store := { store with hits := store.hits + 1 }
      match store.entries[idx]? with
      | none => (.notFound, store)
      | some entry =>
          if entry.isExpired now then
            (.expired, { store with
              entries := store.entries.eraseIdx idx
              expiredCount := store.expiredCount + 1 })
          else (entry.status, store)

def ikStoreMarkProcessing (store : IdempotencyKeyStore) (key : CStr) (now : UInt64) :
    Int × IdempotencyKeyStore :=
  if ikMaxKeys ≤ store.entries.length then (-1, store)
  else if (ikStoreFindIndex store key).isSome then (-2, store)
  else
    (0, { store with
      entries := store.entries ++
        [⟨strncpy key (ikKeyLen - 1), [], .processing, now, store.defaultTtlMs⟩] })

/-- The response is cut to the array without its last byte. -/
def storedResponse (response : List UInt8) : List UInt8 := response.take (ikResponseLen - 1)

def ikStoreMarkCompleted (store : IdempotencyKeyStore) (key : CStr) (response : List UInt8) :
    Int × IdempotencyKeyStore :=
  match ikStoreFindIndex store key with
  | none => (-1, store)
  | some idx =>
      (0, { store with
        entries := store.entries.modify idx fun entry =>
          { entry with status := .completed, response := storedResponse response } })

def ikStoreGetResponse (store : IdempotencyKeyStore) (key : CStr) : Option (List UInt8) :=
  (ikStoreFindIndex store key).bind fun idx => store.entries[idx]?.map (·.response)

/-- The loop of `ik_store_evict_expired` below index `i`. -/
def evictLoop (now : UInt64) : Nat → Nat × IdempotencyKeyStore → Nat × IdempotencyKeyStore
  | 0, (evicted, store) => (evicted, store)
  | i + 1, (evicted, store) =>
      if store.entries[i]?.any (·.isExpired now) then
        evictLoop now i (evicted + 1, { store with
          entries := store.entries.eraseIdx i
          expiredCount := store.expiredCount + 1 })
      else evictLoop now i (evicted, store)

def ikStoreEvictExpired (store : IdempotencyKeyStore) (now : UInt64) :
    Nat × IdempotencyKeyStore :=
  evictLoop now store.entries.length (0, store)

/-! ## Token bucket -/

section

variable {D : Type} [Add D] [Sub D] [Mul D] [Div D] [NatCast D] [LT D] [DecidableLT D] [LE D]
  [DecidableLE D]

structure TokenBucket (D : Type) where
  rate : D
  burst : D
  tokens : D
  lastRefillMs : UInt64
  totalAllowed : Nat
  totalRejected : Nat
deriving DecidableEq

def tbRefill (tb : TokenBucket D) (now : UInt64) : TokenBucket D :=
  let elapsed := now - tb.lastRefillMs
  if elapsed = 0 then tb
  else
    let newTokens := tb.rate * ((elapsed.toNat : D) / ((1000 : Nat) : D))
    let tokens := tb.tokens + newTokens
    { tb with tokens := if tb.burst < tokens then tb.burst else tokens, lastRefillMs := now }

def tbTryConsume (tb : TokenBucket D) (now : UInt64) (tokens : D) : Bool × TokenBucket D :=
  let tb := tbRefill tb now
  if tokens ≤ tb.tokens then
    (true, { tb with tokens := tb.tokens - tokens, totalAllowed := tb.totalAllowed + 1 })
  else (false, { tb with totalRejected := tb.totalRejected + 1 })

end

/-! ## Exponential backoff -/

structure ExponentialBackoff where
  baseDelayMs : UInt64
  maxDelayMs : UInt64
  maxRetries : Int
  attempt : Nat
  totalRetries : Nat
  totalSuccesses : Nat
  totalGaveUp : Nat
deriving DecidableEq

def ebPow2 : Nat → UInt64
  | 0 => 1
  | n + 1 => if ebPow2 n < 0x7fffffffffffffff then ebPow2 n <<< 1 else ebPow2 n

def ebReset (eb : ExponentialBackoff) : ExponentialBackoff := { eb with attempt := 0 }

def ebShouldRetry (eb : ExponentialBackoff) : Bool := eb.attempt < eb.maxRetries

/-- `draw` is `eb_random_range`. -/
def ebNextDelayMs (eb : ExponentialBackoff) (draw : UInt64 → UInt64) :
    UInt64 × ExponentialBackoff :=
  if ebShouldRetry eb then
    let base := eb.baseDelayMs * ebPow2 eb.attempt
    let capped := if base < eb.maxDelayMs then base else eb.maxDelayMs
    (draw capped, { eb with attempt := eb.attempt + 1, totalRetries := eb.totalRetries + 1 })
  else (0, eb)

def ebRecordSuccess (eb : ExponentialBackoff) : ExponentialBackoff :=
  ebReset { eb with totalSuccesses := eb.totalSuccesses + 1 }

def ebRecordGaveUp (eb : ExponentialBackoff) : ExponentialBackoff :=
  ebReset { eb with totalGaveUp := eb.totalGaveUp + 1 }

/-! ## Bulkhead -/

structure Bulkhead where
  maxConcurrent : Int
  currentCount : Nat
  peakConcurrency : Nat
  totalAdmitted : Nat
  totalRejected : Nat
  totalCompleted : Nat
  totalFailed : Nat
deriving DecidableEq

def bhTryAcquire (bh : Bulkhead) : Int × Bulkhead :=
  if bh.maxConcurrent ≤ bh.currentCount then
    (-1, { bh with totalRejected := bh.totalRejected + 1 })
  else
    let bh := { bh with
      currentCount := bh.currentCount + 1
      totalAdmitted := bh.totalAdmitted + 1 }
    (0, if bh.peakConcurrency < bh.currentCount then { bh with peakConcurrency := bh.currentCount }
      else bh)

def bhRelease (bh : Bulkhead) : Bulkhead :=
  if 0 < bh.currentCount then
    { bh with currentCount := bh.currentCount - 1, totalCompleted := bh.totalCompleted + 1 }
  else bh

def bhReleaseWithResult (bh : Bulkhead) (success : Bool) : Bulkhead :=
  let bh := if 0 < bh.currentCount then { bh with currentCount := bh.currentCount - 1 } else bh
  if success then { bh with totalCompleted := bh.totalCompleted + 1 }
  else { bh with totalFailed := bh.totalFailed + 1 }

/-! ## Composite policy -/

inductive ResilienceResult
  | ok
  | rejectedBulkhead
  | rejectedCircuitOpen
  | rejectedRateLimited
  | timeout
  | callFailed
  | retriesExhausted
deriving DecidableEq

/-- What a breaker is told. -/
inductive Recorded
  | success
  | failure
deriving DecidableEq

/-- An invocation of `fn`: what it returns, and the clock before and after it. -/
structure Invocation where
  result : Int
  start : UInt64
  finish : UInt64

/-- The readings and outcomes that a call meets: `fn n` is the invocation number `n`. -/
structure Surroundings where
  nowMs : UInt64
  allowedAt : UInt64
  recordedAt : UInt64
  fn : Nat → Invocation
  draw : UInt64 → UInt64

/-- The components of a policy while a call is under way, with what `fn` has returned and what
the breaker was told. -/
structure Frame (D : Type) where
  circuitBreaker : Option CircuitBreaker
  bulkhead : Option Bulkhead
  backoff : Option ExponentialBackoff
  rateLimiter : Option (TokenBucket D)
  returned : List Int
  recorded : List Recorded

namespace Frame

variable {D : Type}

def recordSuccess (frame : Frame D) (now : UInt64) : Frame D :=
  match frame.circuitBreaker with
  | none => frame
  | some cb => { frame with
      circuitBreaker := some (cbRecordSuccess cb now)
      recorded := frame.recorded ++ [.success] }

def recordFailure (frame : Frame D) (now : UInt64) : Frame D :=
  match frame.circuitBreaker with
  | none => frame
  | some cb => { frame with
      circuitBreaker := some (cbRecordFailure cb now)
      recorded := frame.recorded ++ [.failure] }

def tryAcquire (frame : Frame D) : Bool × Frame D :=
  match frame.bulkhead with
  | none => (true, frame)
  | some bh =>
      let (result, bh) := bhTryAcquire bh
      (result = 0, { frame with bulkhead := some bh })

def allowRequest (frame : Frame D) (now : UInt64) : Bool × Frame D :=
  match frame.circuitBreaker with
  | none => (true, frame)
  | some cb =>
      let (allowed, cb) := cbAllowRequest cb now
      (allowed, { frame with circuitBreaker := some cb })

def release (frame : Frame D) : Frame D :=
  { frame with bulkhead := frame.bulkhead.map bhRelease }

def releaseWithResult (frame : Frame D) (success : Bool) : Frame D :=
  { frame with bulkhead := frame.bulkhead.map (bhReleaseWithResult · success) }

def mapBackoff (frame : Frame D) (f : ExponentialBackoff → ExponentialBackoff) : Frame D :=
  { frame with backoff := frame.backoff.map f }

end Frame

/-- How the loop of `resilience_execute` is left. -/
inductive LoopEnd
  | succeeded
  | timedOut
  | failed
deriving DecidableEq

/-- The loop from the invocation number `n` on, with at most `fuel` rounds. -/
def callLoop {D : Type} (timeoutMs : UInt64) (around : Surroundings) :
    Nat → Nat → Frame D → Option (LoopEnd × Frame D)
  | 0, _, _ => none
  | fuel + 1, n, frame =>
      let invocation := around.fn n
      let elapsed := invocation.finish - invocation.start
      let frame := { frame with returned := frame.returned ++ [invocation.result] }
      if invocation.result = 0 then some (.succeeded, frame)
      else if timeoutMs < elapsed then some (.timedOut, frame)
      else
        match frame.backoff with
        | none => some (.failed, frame)
        | some eb =>
            if ebShouldRetry eb then
              let eb := (ebNextDelayMs eb around.draw).2
              let frame := { frame with backoff := some eb }
              -- `continue` goes on to the condition at the end of the loop.
              if ebShouldRetry eb then callLoop timeoutMs around fuel (n + 1) frame
              else some (.failed, frame)
            else some (.failed, frame)

/-- More rounds than the loop can take. -/
def callRounds {D : Type} (frame : Frame D) : Nat :=
  (frame.backoff.elim 0 fun eb => eb.maxRetries.toNat) + 1

section

variable {D : Type} [Add D] [Sub D] [Mul D] [Div D] [NatCast D] [LT D] [DecidableLT D] [LE D]
  [DecidableLE D]

def Frame.tryConsume (frame : Frame D) (now : UInt64) : Bool × Frame D :=
  match frame.rateLimiter with
  | none => (true, frame)
  | some tb =>
      let (consumed, tb) := tbTryConsume tb now ((1 : Nat) : D)
      (consumed, { frame with rateLimiter := some tb })

/-- What follows the loop, or stands at the exits from it. -/
def finish (around : Surroundings) (loopEnd : LoopEnd) (frame : Frame D) :
    ResilienceResult × Frame D :=
  match loopEnd with
  | .succeeded =>
      (.ok, ((frame.recordSuccess around.recordedAt).mapBackoff ebRecordSuccess).releaseWithResult
        true)
  | .timedOut =>
      (.timeout, ((frame.recordFailure around.recordedAt).mapBackoff
        ebRecordGaveUp).releaseWithResult false)
  | .failed =>
      let frame := ((frame.recordFailure around.recordedAt).mapBackoff
        ebRecordGaveUp).releaseWithResult false
      -- `eb_record_gave_up` has already set `attempt` to 0.
      (if frame.backoff.any fun eb => eb.maxRetries ≤ eb.attempt then .retriesExhausted
        else .callFailed, frame)

def resilienceExecute (timeoutMs : UInt64) (frame : Frame D) (around : Surroundings) :
    Option (ResilienceResult × Frame D) :=
  let (acquired, frame) := frame.tryAcquire
  if !acquired then some (.rejectedBulkhead, frame)
  else
    let (allowed, frame) := frame.allowRequest around.allowedAt
    if !allowed then some (.rejectedCircuitOpen, frame.release)
    else
      let (consumed, frame) := frame.tryConsume around.nowMs
      if !consumed then
        some (.rejectedRateLimited, (frame.recordSuccess around.recordedAt).release)
      else
        let frame := frame.mapBackoff ebReset
        (callLoop timeoutMs around (callRounds frame) 0 frame).map fun (loopEnd, frame) =>
          finish around loopEnd frame

/-! ## Calls under policies that share components -/

/-- `timeout_ms` is positive in a policy that `resilience_policy_create` made. -/
structure ResiliencePolicy where
  circuitBreaker : Option Nat
  bulkhead : Option Nat
  backoff : Option Nat
  rateLimiter : Option Nat
  timeoutMs : UInt64

/-- The components, by their addresses, and for each breaker how many invocations of `fn` under
it have returned 0 since it was last open. -/
structure Memory (D : Type) where
  breakers : Nat → CircuitBreaker
  bulkheads : Nat → Bulkhead
  backoffs : Nat → ExponentialBackoff
  limiters : Nat → TokenBucket D
  zeros : Nat → Nat

def Memory.load (memory : Memory D) (policy : ResiliencePolicy) : Frame D where
  circuitBreaker := policy.circuitBreaker.map memory.breakers
  bulkhead := policy.bulkhead.map memory.bulkheads
  backoff := policy.backoff.map memory.backoffs
  rateLimiter := policy.rateLimiter.map memory.limiters
  returned := []
  recorded := []

/-- Write a component back to where a policy points. -/
def writeBack {α : Type} (components : Nat → α) (pointer : Option Nat) (value : Option α) :
    Nat → α :=
  match pointer, value with
  | some address, some value => Function.update components address value
  | _, _ => components

def Memory.countZeros (memory : Memory D) (policy : ResiliencePolicy) (returned : List Int) :
    Nat → Nat :=
  match policy.circuitBreaker with
  | none => memory.zeros
  | some address =>
      let before := if (memory.breakers address).state = .opened then 0 else memory.zeros address
      Function.update memory.zeros address (before + returned.count 0)

def Memory.store (memory : Memory D) (policy : ResiliencePolicy) (frame : Frame D) : Memory D where
  breakers := writeBack memory.breakers policy.circuitBreaker frame.circuitBreaker
  bulkheads := writeBack memory.bulkheads policy.bulkhead frame.bulkhead
  backoffs := writeBack memory.backoffs policy.backoff frame.backoff
  limiters := writeBack memory.limiters policy.rateLimiter frame.rateLimiter
  zeros := memory.countZeros policy frame.returned

structure Call where
  policy : ResiliencePolicy
  around : Surroundings

def Memory.execute (memory : Memory D) (call : Call) : Option (ResilienceResult × Frame D) :=
  resilienceExecute call.policy.timeoutMs (memory.load call.policy) call.around

def step (memory : Memory D) (call : Call) : Option (Memory D) :=
  (memory.execute call).map fun (_, frame) => memory.store call.policy frame

end

end MiniBackend.Arch.Patterns
