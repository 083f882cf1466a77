import MiniBackend.Lib.CArray
import MiniBackend.Lib.CString
import MiniBackend.Lib.Calendar

/-!
# `cron_scheduler.c`

A cron expression has six fields, each a wildcard or a list of values.  `time_t` and
`int` values are unbounded integers; the local time zone is UTC.  Callbacks are pointers
that are called and do not use the scheduler themselves.
-/

namespace MiniBackend.JobSystem.Cron

open MiniBackend.Lib.CArray MiniBackend.Lib.CString MiniBackend.Lib.Calendar

inductive CronField
  | second | minute | hour | day | month | weekday
deriving DecidableEq

def cronFields : List CronField := [.second, .minute, .hour, .day, .month, .weekday]

inductive CronEntryType
  | any | specific | range | step
deriving DecidableEq

/-- `values` are the first `count` entries of the source's array of 64. -/
structure CronFieldDef where
  type : CronEntryType
  values : List Int
deriving DecidableEq

def maxValues : Nat := 64

structure CronExpression where
  fields : CronField → CronFieldDef

def cronMinVals : CronField → Int
  | .second | .minute | .hour | .weekday => 0
  | .day | .month => 1

def cronMaxVals : CronField → Int
  | .second | .minute => 59
  | .hour => 23
  | .day => 31
  | .month => 12
  | .weekday => 6

/-! ## Parsing -/

def comma : UInt8 := 44
def slash : UInt8 := 47
def dash : UInt8 := 45
def star : CStr := lit "*"

/-- The values a `for (n = lo; n <= hi && count < 64; n += step)` loop stores while it
has `room`. -/
def rangeValues (lo hi step : Int) : Nat → List Int
  | 0 => []
  | room + 1 => if lo ≤ hi then lo :: rangeValues (lo + step) hi step room else []

def stepOf (text : CStr) : Int := if atoi text ≤ 0 then 1 else atoi text

/-- The bounds of an item with a step.  The dash is looked up in the whole token; when
it stands behind the slash, what follows it is still read as the upper bound. -/
def stepBounds (token : CStr) (minVal maxVal : Int) : Int × Int :=
  let base := token.takeWhile (· ≠ slash)
  if base = star then (minVal, maxVal)
  else
    match strchr token dash with
    | some rest =>
        (atoi (base.takeWhile (· ≠ dash)),
          atoi (match strchr base dash with
            | some inner => inner.tail
            | none => rest.tail))
    | none => (atoi base, maxVal)

/-- One item of a comma-separated list. -/
def parseItem (field : CronFieldDef) (token : CStr) (minVal maxVal : Int) : CronFieldDef :=
  let room := maxValues - field.values.length
  match strchr token slash, strchr token dash with
  | some rest, _ =>
      let (lo, hi) := stepBounds token minVal maxVal
      ⟨.step, field.values ++ rangeValues lo hi (stepOf rest.tail) room⟩
  | none, some rest =>
      let lo := atoi (token.takeWhile (· ≠ dash))
      ⟨.range, field.values ++ rangeValues lo (atoi rest.tail) 1 room⟩
  | none, none =>
      if token = star then ⟨.any, []⟩
      else if field.type = .specific then ⟨.specific, field.values ++ [atoi token]⟩
      else ⟨.specific, [atoi token]⟩

def parseItems (minVal maxVal : Int) : List CStr → CronFieldDef → CronFieldDef
  | [], field => field
  | token :: tokens, field =>
      if field.values.length < maxValues then
        parseItems minVal maxVal tokens (parseItem field token minVal maxVal)
      else field

def parseList (field : CronFieldDef) (str : CStr) (minVal maxVal : Int) : CronFieldDef :=
  parseItems minVal maxVal (pieces (· == comma) (strncpy str 255)) field

def cronParseField (str : CStr) (minVal maxVal : Int) : CronFieldDef :=
  if str = [] ∨ str = star then ⟨.any, []⟩ else parseList ⟨.any, []⟩ str minVal maxVal

/-- The texts of the six fields, at most the first six tokens of `spec`.  An expression
of five fields fires at second 0. -/
def fieldTexts (spec : CStr) : Option (CronField → CStr) :=
  match pieces (fun b => b == 32 || b == 9) (strncpy spec 255) with
  | t₀ :: t₁ :: t₂ :: t₃ :: t₄ :: t₅ :: _ => some fun
      | .second => t₀ | .minute => t₁ | .hour => t₂
      | .day => t₃ | .month => t₄ | .weekday => t₅
  | [t₀, t₁, t₂, t₃, t₄] => some fun
      | .second => lit "0" | .minute => t₀ | .hour => t₁
      | .day => t₂ | .month => t₃ | .weekday => t₄
  | _ => none

/-- `none` stands for -1. -/
def cronParseExpression (spec : CStr) : Option CronExpression :=
  (fieldTexts spec).map fun texts =>
    ⟨fun f => cronParseField (texts f) (cronMinVals f) (cronMaxVals f)⟩

/-! ## Matching -/

def cronFieldMatches (field : CronFieldDef) (value : Int) : Bool :=
  field.type == .any || field.values.contains value

/-- The value a field is compared with. -/
def fieldValue (tm : Tm) : CronField → Int
  | .second => tm.sec
  | .minute => tm.min
  | .hour => tm.hour
  | .day => tm.mday
  | .month => tm.mon + 1
  | .weekday => tm.wday

def cronMatches (expr : CronExpression) (tm : Tm) : Bool :=
  cronFields.all fun f => cronFieldMatches (expr.fields f) (fieldValue tm f)

/-! ## The next fire time -/

def cronFieldNext (field : CronFieldDef) (val : Int) : Int :=
  if field.type = .any then val + 1
  else (field.values.find? (val < ·)).getD (-1)

def cronFieldFirst (field : CronFieldDef) (minVal : Int) : Int :=
  if field.type = .any then minVal else field.values.headD minVal

/-- The seconds field is set to its next value, or to its first one in the next
minute. -/
def nextSecond (field : CronFieldDef) (tm : Tm) : Tm :=
  if cronFieldNext field tm.sec < 0 then
    { tm with sec := cronFieldFirst field 0, min := tm.min + 1 }
  else { tm with sec := cronFieldNext field tm.sec }

def carrySec (tm : Tm) : Tm :=
  if 60 ≤ tm.sec then { tm with sec := 0, min := tm.min + 1 } else tm

def carryMin (tm : Tm) : Tm :=
  if 60 ≤ tm.min then { tm with min := 0, hour := tm.hour + 1 } else tm

def carryHour (tm : Tm) : Tm :=
  if 24 ≤ tm.hour then { tm with hour := 0, mday := tm.mday + 1 } else tm

def carryMday (tm : Tm) : Tm :=
  if 31 < tm.mday then { tm with mday := 1, mon := tm.mon + 1 } else tm

def carryMon (tm : Tm) : Tm :=
  if 11 < tm.mon then { tm with mon := 0, year := tm.year + 1 } else tm

def advance (expr : CronExpression) (tm : Tm) : Tm :=
  carryMon (carryMday (carryHour (carryMin (carrySec (nextSecond (expr.fields .second) tm)))))

/-- `mktime` normalises the broken-down time it is given, so the next round starts from
the fields of the candidate. -/
def searchLoop (expr : CronExpression) : Nat → Tm → Int
  | 0, _ => -1
  | iter + 1, tm =>
      if cronMatches expr tm then mktime tm
      else if mktime (advance expr tm) = -1 then -1
      else searchLoop expr iter (localtime (mktime (advance expr tm)))

def maxIterations : Nat := 525600 * 5

def cronNextFireTime (expr : CronExpression) (fromTime : Int) : Int :=
  searchLoop expr maxIterations (localtime (fromTime + 1))

/-! ## Jobs -/

def cronMaxJobs : Nat := 64

structure CronJob where
  id : UInt64
  expr : CronExpression
  callback : UInt64
  userdata : UInt64
  catchUp : Bool
  lastFire : Int
  nextFire : Int
  active : Bool

structure CronScheduler where
  jobs : List CronJob
  maxJobs : Nat

/-- The argument is `config->max_jobs`, if there is a configuration. -/
def cronSchedulerCreate (maxJobs : Option Int) : CronScheduler where
  jobs := []
  maxJobs :=
    match maxJobs with
    | some n => if 0 < n then min n.toNat cronMaxJobs else cronMaxJobs
    | none => cronMaxJobs

def hasId (id : UInt64) (job : CronJob) : Bool := job.id == id

def cronUnregisterJob (sched : CronScheduler) (id : UInt64) : Int × CronScheduler :=
  match sched.jobs.findIdx? (hasId id) with
  | some i => (0, { sched with jobs := swapRemove sched.jobs i })
  | none => (-1, sched)

/-- A registration at `clock`, the result of `time(NULL)`.  A callback of 0 is `NULL`; a
job with the same id is removed, not replaced. -/
def cronRegisterJob (sched : CronScheduler) (clock : Int) (id : UInt64) (cronSpec : Option CStr)
    (cb ud : UInt64) (catchUp : Bool) : Int × CronScheduler :=
  match cronSpec with
  | none => (-1, sched)
  | some spec =>
      if cb = 0 then (-1, sched)
      else if sched.maxJobs ≤ sched.jobs.length then (-2, sched)
      else if sched.jobs.any (hasId id) then cronUnregisterJob sched id
      else
        match cronParseExpression spec with
        | none => (-3, sched)
        | some expr =>
            (0, { sched with jobs := sched.jobs ++
              [⟨id, expr, cb, ud, catchUp, 0, cronNextFireTime expr clock, true⟩] })

def activate (clock : Int) (active : Bool) (job : CronJob) : CronJob :=
  if active then { job with active := true, nextFire := cronNextFireTime job.expr clock }
  else { job with active := false }

def cronActivateJob (sched : CronScheduler) (clock : Int) (id : UInt64) (active : Bool) :
    Int × CronScheduler :=
  if sched.jobs.any (hasId id) then
    (0, { sched with jobs := updateFirst (hasId id) (activate clock active) sched.jobs })
  else (-1, sched)

/-! ## Ticks -/

/-- How many missed fires the catch-up loop counts, from the fire time `next` on; `none`
when it is not done after `rounds` tests of its condition. -/
def countMissed (expr : CronExpression) (now : Int) : Nat → Int → Option Nat
  | 0, _ => none
  | rounds + 1, next =>
      if next ≤ now ∧ next ≠ -1 then
        (countMissed expr now rounds (cronNextFireTime expr next)).map (· + 1)
      else some 0

/-- How often the callback of a job that fires is called. -/
def callbackRuns (rounds : Nat) (now : Int) (job : CronJob) : Option Nat :=
  if job.catchUp then
    (countMissed job.expr now rounds (cronNextFireTime job.expr job.nextFire)).map (· + 1)
  else some 1

def fires (now : Int) (job : CronJob) : Bool := job.active && decide (job.nextFire ≤ now)

def fireJob (now : Int) (job : CronJob) : CronJob :=
  { job with
    lastFire := now
    nextFire := cronNextFireTime job.expr now
    active := decide (cronNextFireTime job.expr now ≠ -1) }

/-- The jobs whose callbacks are called by a tick, once for each call in order, and the
jobs after it; `none` when the tick has not returned because a catch-up loop is not done. -/
def tickJobs (rounds : Nat) (now : Int) : List CronJob → List CronJob × Option (List CronJob)
  | [] => ([], some [])
  | job :: jobs =>
      if fires now job then
        match callbackRuns rounds now job with
        | none => ([], none)
        | some n =>
            let rest := tickJobs rounds now jobs
            (List.replicate n job ++ rest.1, rest.2.map (fireJob now job :: ·))
      else
        let rest := tickJobs rounds now jobs
        (rest.1, rest.2.map (job :: ·))

/-- The number of jobs fired, and the scheduler. -/
def cronTick (rounds : Nat) (sched : CronScheduler) (now : Int) : Option (Int × CronScheduler) :=
  (tickJobs rounds now sched.jobs).2.map fun jobs =>
    (sched.jobs.countP (fires now), { sched with jobs := jobs })

/-! ## Runs -/

inductive Event
  | register (clock : Int) (id : UInt64) (cronSpec : Option CStr) (cb ud : UInt64)
      (catchUp : Bool)
  | unregister (id : UInt64)
  | activate (clock : Int) (id : UInt64) (active : Bool)
  | tick (now : Int) (rounds : Nat)
deriving DecidableEq

/-- The scheduler after a call, `none` from a tick on that does not return. -/
def step : Option CronScheduler → Event → Option CronScheduler
  | none, _ => none
  | some sched, .register clock id cronSpec cb ud catchUp =>
      some (cronRegisterJob sched clock id cronSpec cb ud catchUp).2
  | some sched, .unregister id => some (cronUnregisterJob sched id).2
  | some sched, .activate clock id active => some (cronActivateJob sched clock id active).2
  | some sched, .tick now rounds => (cronTick rounds sched now).map Prod.snd

end MiniBackend.JobSystem.Cron
