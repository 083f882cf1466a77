import MiniBackend.Lib.CArray
import Mathlib.Algebra.Ring.Int.Defs

/-!
# `task_retry.c`

Retries with exponential backoff.  Tasks, callbacks and user data are pointers that are
only stored and called.  The retry state is the list of used entries; each reading of the
clock is an argument of its own.
-/

namespace MiniBackend.JobSystem.Retry

open MiniBackend.Lib.CArray

def trMaxRetriesDefault : Int := 3
def trBaseDelayMs : UInt64 := 100
def trMaxDelayMs : UInt64 := 3600000
def trMaxJitterMs : Int := 50
def trDeadLetterMax : Nat := 256

inductive TrErrorCode
  | none
  | timeout
  | http503
  | connRefused
  | tempFailure
  | unknown
deriving DecidableEq

structure TrEntry where
  jobId : UInt64
  task : UInt64
  userdata : UInt64
  maxRetries : Int
  retryCount : Int
  baseDelayMs : UInt64
  currentDelayMs : UInt64
  retryOnCodes : List TrErrorCode
  retryOnCount : Int
  nextRetryAt : Int
  deadLetterCb : UInt64
  deadLetterUd : UInt64
  exhausted : Bool
deriving DecidableEq

structure TrDeadLetter where
  jobId : UInt64
  error : TrErrorCode
  exhaustedAt : Int
  deadLetterCb : UInt64
  deadLetterUd : UInt64
deriving DecidableEq

structure TaskRetry where
  entries : List TrEntry
  capacity : Nat
  deadLetters : List TrDeadLetter
  seed : UInt32
deriving DecidableEq

def taskRetryCreate (capacity : Int) (now : Int) : TaskRetry where
  entries := []
  capacity := if capacity ≤ 0 then trDeadLetterMax else capacity.toNat
  deadLetters := []
  seed := UInt32.ofNat (now % 2 ^ 32).toNat

def isJob (jobId : UInt64) (entry : TrEntry) : Bool := entry.jobId == jobId

/-- The entry that the index points at; `none` stands for -1. -/
def trFind (tr : TaskRetry) (jobId : UInt64) : Option TrEntry :=
  tr.entries.find? (isJob jobId)

/-- Write through the pointer to the entry of the job. -/
def updateEntry (tr : TaskRetry) (jobId : UInt64) (f : TrEntry → TrEntry) : TaskRetry :=
  { tr with entries := updateFirst (isJob jobId) f tr.entries }

def zeroEntry : TrEntry := ⟨0, 0, 0, 0, 0, 0, 0, [], 0, 0, 0, 0, false⟩

/-- The number of retries that a registration with `max_retries = m` allows. -/
def retryLimit (maxRetries : Int) : Int :=
  if 0 ≤ maxRetries then maxRetries else trMaxRetriesDefault

/-- A registration keeps the due time, the codes and the callback of an older one. -/
def registerEntry (jobId task ud : UInt64) (maxRetries : Int) (baseDelayMs : UInt64)
    (entry : TrEntry) : TrEntry :=
  let base := if baseDelayMs = 0 then trBaseDelayMs else baseDelayMs
  { entry with
    jobId, task
    userdata := ud
    maxRetries := retryLimit maxRetries
    baseDelayMs := base
    currentDelayMs := base
    retryCount := 0
    exhausted := false
    retryOnCount := 0 }

/-- The capacity can be larger than the array of entries; `none` stands for an entry written
behind its end, over `count`, `capacity` and the dead letters. -/
def trRegister (tr : TaskRetry) (jobId : UInt64) (task : Option UInt64) (ud : UInt64)
    (maxRetries : Int) (baseDelayMs : UInt64) : Option (Int × TaskRetry) :=
  match task with
  | none => some (-1, tr)
  | some task =>
      if tr.capacity ≤ tr.entries.length then some (-2, tr)
      else
        let fill := registerEntry jobId task ud maxRetries baseDelayMs
        match trFind tr jobId with
        | none =>
            if trDeadLetterMax ≤ tr.entries.length then none
            else some (0, { tr with entries := tr.entries ++ [fill zeroEntry] })
        | some _ => some (0, updateEntry tr jobId fill)

/-- Codes past `count` are never read; `codes` has at least `count` elements. -/
def trSetRetryOn (tr : TaskRetry) (jobId : UInt64) (codes : List TrErrorCode) (count : Int) :
    Int × TaskRetry :=
  match trFind tr jobId with
  | none => (-1, tr)
  | some _ =>
      let used := if 8 < count then 8 else count
      (0, updateEntry tr jobId fun entry =>
        { entry with retryOnCount := used, retryOnCodes := codes.take used.toNat })

def trSetDeadLetter (tr : TaskRetry) (jobId cb ud : UInt64) : Int × TaskRetry :=
  match trFind tr jobId with
  | none => (-1, tr)
  | some _ =>
      (0, updateEntry tr jobId fun entry => { entry with deadLetterCb := cb, deadLetterUd := ud })

def shouldRetryOn (entry : TrEntry) (err : TrErrorCode) : Bool :=
  if err = .none then false
  else if entry.retryOnCount = 0 then true
  else (entry.retryOnCodes.take entry.retryOnCount.toNat).contains err

/-- The doubling loop; it stops at the cap. -/
def doubleDelay : Nat → UInt64 → UInt64
  | 0, delay => delay
  | n + 1, delay =>
      if trMaxDelayMs < delay * 2 then trMaxDelayMs else doubleDelay n (delay * 2)

/-- The double expression is exact; the conversion to `int` truncates. -/
def jitterOf (seed : UInt32) : Int :=
  Int.tdiv (seed.toNat * (trMaxJitterMs * 2) - trMaxJitterMs * 2 ^ 32) (2 ^ 32)

def addJitter (delay : UInt64) (jitter : Int) : UInt64 :=
  let delay := UInt64.ofNat ((delay.toNat + jitter) % 2 ^ 64).toNat
  let delay := if delay < 1 then 1 else delay
  if trMaxDelayMs < delay then trMaxDelayMs else delay

def nextSeed (seed : UInt32) : UInt32 := seed * 1664525 + 1013904223

/-- `seed = none` stands for a `NULL` pointer; the new seed is returned beside the delay. -/
def trCalcDelay (retryCount : Int) (baseMs : UInt64) (useJitter : Bool) (seed : Option UInt32) :
    UInt64 × Option UInt32 :=
  let delay := doubleDelay retryCount.toNat baseMs
  match seed with
  | none => (delay, none)
  | some seed =>
      if useJitter then (addJitter delay (jitterOf (nextSeed seed)), some (nextSeed seed))
      else (delay, some seed)

def scheduleRetry (seed : UInt32) (now₁ now₂ now₃ : Int) (entry : TrEntry) : TrEntry :=
  let delay := (trCalcDelay (entry.retryCount + 1) entry.baseDelayMs true (some seed)).1
  let due := now₁ + (delay / 1000).toNat
  { entry with
    retryCount := entry.retryCount + 1
    currentDelayMs := delay
    nextRetryAt := if due ≤ now₂ then now₃ + 1 else due }

def exhaust (entry : TrEntry) : TrEntry := { entry with exhausted := true }

/-- The dead letters after the job of `entry` ran out of retries. -/
def recordDeadLetter (letters : List TrDeadLetter) (entry : TrEntry) (err : TrErrorCode)
    (now : Int) : List TrDeadLetter :=
  if letters.length < trDeadLetterMax then
    letters ++ [⟨entry.jobId, err, now, entry.deadLetterCb, entry.deadLetterUd⟩]
  else letters

def trReportResult (tr : TaskRetry) (jobId : UInt64) (err : TrErrorCode)
    (now₁ now₂ now₃ : Int) : Int × TaskRetry :=
  match trFind tr jobId with
  | none => (-1, tr)
  | some entry =>
      if shouldRetryOn entry err = false then (0, updateEntry tr jobId exhaust)
      else if entry.maxRetries ≤ entry.retryCount then
        (0, { updateEntry tr jobId exhaust with
          deadLetters := recordDeadLetter tr.deadLetters entry err now₁ })
      else
        (1, { updateEntry tr jobId (scheduleRetry tr.seed now₁ now₂ now₃) with
          seed := nextSeed tr.seed })

def trCanRetry (tr : TaskRetry) (jobId : UInt64) (now : Int) : Bool :=
  match trFind tr jobId with
  | none => false
  | some entry => !entry.exhausted && entry.nextRetryAt ≤ now

/-- The task and the user data it is called with when 1 is returned. -/
def trTriggerRetry (tr : TaskRetry) (jobId : UInt64) (now : Int) : Option (UInt64 × UInt64) :=
  match trFind tr jobId with
  | none => none
  | some entry =>
      if entry.exhausted then none
      else if now < entry.nextRetryAt then none
      else some (entry.task, entry.userdata)

def trIsExhausted (tr : TaskRetry) (jobId : UInt64) : Bool :=
  match trFind tr jobId with
  | none => false
  | some entry => entry.exhausted

/-- The callbacks that are made, and the state with no letter left. -/
def trProcessDeadLetters (tr : TaskRetry) : List TrDeadLetter × TaskRetry :=
  (tr.deadLetters.filter fun letter => letter.deadLetterCb ≠ 0, { tr with deadLetters := [] })

/-! ## Runs -/

inductive Op
  | register (jobId : UInt64) (task : Option UInt64) (ud : UInt64) (maxRetries : Int)
      (baseDelayMs : UInt64)
  | setRetryOn (jobId : UInt64) (codes : List TrErrorCode) (count : Int)
  | setDeadLetter (jobId cb ud : UInt64)
  | reportResult (jobId : UInt64) (err : TrErrorCode) (now₁ now₂ now₃ : Int)
  | canRetry (jobId : UInt64) (now : Int)
  | triggerRetry (jobId : UInt64) (now : Int)
  | processDeadLetters
deriving DecidableEq

def step (tr : TaskRetry) : Op → Option TaskRetry
  | .register jobId task ud maxRetries baseDelayMs =>
      (trRegister tr jobId task ud maxRetries baseDelayMs).map Prod.snd
  | .setRetryOn jobId codes count => some (trSetRetryOn tr jobId codes count).2
  | .setDeadLetter jobId cb ud => some (trSetDeadLetter tr jobId cb ud).2
  | .reportResult jobId err now₁ now₂ now₃ =>
      some (trReportResult tr jobId err now₁ now₂ now₃).2
  | .canRetry _ _ => some tr
  | .triggerRetry _ _ => some tr
  | .processDeadLetters => some (trProcessDeadLetters tr).2

end MiniBackend.JobSystem.Retry
