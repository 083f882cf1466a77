import MiniBackend.Lib.CArray
import MiniBackend.Lib.CircularQueue
import Mathlib.Algebra.Ring.Int.Defs

/-!
# `priority_scheduler.c`

A table of jobs with one circular queue of table indices for each priority level.  Entries
of the table are never reused; a job that was dispatched or cancelled stays in it as an
inactive entry.  Each reading of the clock is an argument; the scheduler pointer and the
output pointer are non-null.
-/

namespace MiniBackend.JobSystem.Priority

open MiniBackend.Lib.CArray MiniBackend.Lib.CircularQueue

def psMaxPriorityLevels : Nat := 8
def psMaxJobsPerLevel : Nat := 64
def psMaxJobs : Nat := 256

inductive PsSchedAlgo
  | mlfq
  | fixed
  | lottery
deriving DecidableEq

structure PsJobEntry where
  id : UInt64
  job : UInt64
  userdata : UInt64
  priority : Int
  originalPriority : Int
  boostCount : Int
  tickets : Int
  enqueuedAt : Int
  active : Bool
deriving DecidableEq

structure PsConfig where
  algorithm : PsSchedAlgo
  levelCount : Int
  agingIntervalSec : Int
  maxAgingBoosts : Int
deriving DecidableEq

structure PsScheduler where
  jobs : List PsJobEntry
  queues : Nat → RingBuffer Nat
  algorithm : PsSchedAlgo
  levelCount : Nat
  agingIntervalSec : Int
  maxAgingBoosts : Int
  lastAging : Int
  totalSubmitted : Int
  totalCompleted : Int

def psCreate (config : Option PsConfig) (now : Int) : PsScheduler :=
  let emptyWith (algorithm : PsSchedAlgo) (levelCount : Nat) (interval boosts : Int) :
      PsScheduler :=
    { jobs := []
      queues := fun _ => RingBuffer.empty 0
      algorithm, levelCount
      agingIntervalSec := interval
      maxAgingBoosts := boosts
      lastAging := now
      totalSubmitted := 0
      totalCompleted := 0 }
  match config with
  | none => emptyWith .mlfq 3 30 3
  | some config =>
      emptyWith config.algorithm
        (min (if 0 < config.levelCount then config.levelCount.toNat else psMaxPriorityLevels)
          psMaxPriorityLevels)
        (if 0 < config.agingIntervalSec then config.agingIntervalSec else 30)
        (if 0 < config.maxAgingBoosts then config.maxAgingBoosts else 3)

/-- The index of the active job with the id; `none` stands for -1. -/
def jobFind (sched : PsScheduler) (id : UInt64) : Option Nat :=
  sched.jobs.findIdx? fun job => job.id == id && job.active

def setJob (sched : PsScheduler) (idx : Nat) (f : PsJobEntry → PsJobEntry) : PsScheduler :=
  { sched with jobs := sched.jobs.modify idx f }

/-- A priority as `ps_submit` and `enqueue_at_level` clamp it. -/
def clampPriority (levelCount : Nat) (priority : Int) : Int :=
  let priority := if priority < 0 then 0 else priority
  if levelCount ≤ priority then levelCount - 1 else priority

/-- There is no look at the count before the slot at the tail is written. -/
def enqueueAtLevel (sched : PsScheduler) (jobIdx : Nat) (priority : Int) : PsScheduler :=
  let lev := (clampPriority sched.levelCount priority).toNat
  { sched with
    queues := Function.update sched.queues lev
      ((sched.queues lev).push psMaxJobsPerLevel jobIdx) }

def newJob (id job ud : UInt64) (priority tickets now : Int) : PsJobEntry where
  id := id
  job := job
  userdata := ud
  priority := priority
  originalPriority := priority
  boostCount := 0
  tickets := if 0 < tickets then tickets else 1
  enqueuedAt := now
  active := true

def psSubmit (sched : PsScheduler) (id : UInt64) (job : Option UInt64) (ud : UInt64)
    (priority tickets now : Int) : Int × PsScheduler :=
  match job with
  | none => (-1, sched)
  | some job =>
      if psMaxJobs ≤ sched.jobs.length then (-2, sched)
      else
        let priority := clampPriority sched.levelCount priority
        let idx := sched.jobs.length
        let sched := { sched with jobs := sched.jobs ++ [newJob id job ud priority tickets now] }
        let sched := enqueueAtLevel sched idx priority
        (0, { sched with totalSubmitted := sched.totalSubmitted + 1 })

def deactivate (job : PsJobEntry) : PsJobEntry := { job with active := false }

/-- The job stops being active; its index may still be in its queue. -/
def retire (sched : PsScheduler) (idx : Nat) : PsScheduler :=
  { setJob sched idx deactivate with totalCompleted := sched.totalCompleted + 1 }

def psCancel (sched : PsScheduler) (id : UInt64) : Int × PsScheduler :=
  match jobFind sched id with
  | none => (-1, sched)
  | some idx => (0, retire sched idx)

def psBoostPriority (sched : PsScheduler) (id : UInt64) (newPriority : Int) :
    Int × PsScheduler :=
  match jobFind sched id with
  | none => (-1, sched)
  | some idx =>
      if newPriority < 0 ∨ sched.levelCount ≤ newPriority then (-2, sched)
      else
        (0, setJob sched idx fun job =>
          { job with priority := newPriority, boostCount := job.boostCount + 1 })

def psRestorePriority (sched : PsScheduler) (id : UInt64) : Int × PsScheduler :=
  match jobFind sched id with
  | none => (-1, sched)
  | some idx => (0, setJob sched idx fun job => { job with priority := job.originalPriority })

def psPriorityInherit (sched : PsScheduler) (holderId waiterId : UInt64) : Int × PsScheduler :=
  match jobFind sched holderId, jobFind sched waiterId with
  | some hi, some wi =>
      match sched.jobs[hi]?, sched.jobs[wi]? with
      | some holder, some waiter =>
          if waiter.priority < holder.priority then
            (1, setJob sched hi fun job => { job with priority := waiter.priority })
          else (0, sched)
      | _, _ => (-1, sched)
  | _, _ => (-1, sched)

/-- `waited >= aging_interval_sec && boost_count < max_aging_boosts && priority > 0`. -/
def agingDue (sched : PsScheduler) (now : Int) (job : PsJobEntry) : Bool :=
  job.active && decide (sched.agingIntervalSec ≤ now - job.enqueuedAt) &&
    decide (job.boostCount < sched.maxAgingBoosts) && decide (0 < job.priority)

def ageJob (sched : PsScheduler) (now : Int) (job : PsJobEntry) : PsJobEntry :=
  if agingDue sched now job then
    { job with
      priority := job.priority - 1
      boostCount := job.boostCount + 1
      enqueuedAt := now }
  else job

def psAgeJobs (sched : PsScheduler) (now : Int) : Nat × PsScheduler :=
  (sched.jobs.countP (agingDue sched now),
    { sched with jobs := sched.jobs.map (ageJob sched now) })

/-- `dequeue_from_level` without its result, for a level whose queue is not empty. -/
def dequeueFromLevel (sched : PsScheduler) (lev : Nat) : PsScheduler :=
  { sched with
    queues := Function.update sched.queues lev ((sched.queues lev).pop psMaxJobsPerLevel) }

/-- The inner loop: each round takes one index from the queue, so `count` rounds are
enough. -/
def scheduleLevel (lev : Nat) : Nat → PsScheduler → Option PsJobEntry × PsScheduler
  | 0, sched => (none, sched)
  | n + 1, sched =>
      if (sched.queues lev).count = 0 then (none, sched)
      else
        let idx := (sched.queues lev).front
        let sched := dequeueFromLevel sched lev
        match sched.jobs[idx]? with
        | none => scheduleLevel lev n sched
        | some job =>
            if job.active then (some job, retire sched idx)
            else scheduleLevel lev n sched

def scheduleLevels : List Nat → PsScheduler → Option PsJobEntry × PsScheduler
  | [], sched => (none, sched)
  | lev :: levs, sched =>
      match scheduleLevel lev (sched.queues lev).count sched with
      | (some job, sched) => (some job, sched)
      | (none, sched) => scheduleLevels levs sched

/-- The job that is stored through `out` when 1 is returned. -/
def scheduleMlfq (sched : PsScheduler) : Option PsJobEntry × PsScheduler :=
  scheduleLevels (List.range sched.levelCount) sched

def scheduleFixed (sched : PsScheduler) : Option PsJobEntry × PsScheduler := scheduleMlfq sched

/-- The scan that adds up the tickets until the drawn one is covered. -/
def winnerFrom (winner : Int) : Nat → Int → List PsJobEntry → Option Nat
  | _, _, [] => none
  | i, acc, job :: jobs =>
      if job.active then
        if winner < acc + job.tickets then some i
        else winnerFrom winner (i + 1) (acc + job.tickets) jobs
      else winnerFrom winner (i + 1) acc jobs

/-- The selected index and the new seed; the drawn ticket is computed exactly. -/
def psLotterySelect (sched : PsScheduler) (seed : UInt32) : Option Nat × UInt32 :=
  let total := ((sched.jobs.filter PsJobEntry.active).map PsJobEntry.tickets).sum
  if total = 0 then (none, seed)
  else
    let seed := seed * 1664525 + 1013904223
    let winner := (seed.toNat * total) / 2 ^ 32
    match winnerFrom winner 0 0 sched.jobs with
    | some i => (some i, seed)
    | none => (lastIndex PsJobEntry.active sched.jobs, seed)

/-- The aging at the start of `ps_schedule_next`. -/
def autoAge (sched : PsScheduler) (now : Int) : PsScheduler :=
  if sched.agingIntervalSec ≤ now - sched.lastAging then
    { (psAgeJobs sched now).2 with lastAging := now }
  else sched

def psScheduleNext (sched : PsScheduler) (now : Int) : Option PsJobEntry × PsScheduler :=
  let sched := autoAge sched now
  match sched.algorithm with
  | .mlfq => scheduleMlfq sched
  | .fixed => scheduleFixed sched
  | .lottery =>
      match (psLotterySelect sched (UInt32.ofNat (now % 2 ^ 32).toNat)).1 with
      | none => (none, sched)
      | some idx => (sched.jobs[idx]?, retire sched idx)

def psQueueSize (sched : PsScheduler) : Nat := sched.jobs.countP PsJobEntry.active

/-! ## Runs -/

inductive Op
  | submit (id : UInt64) (job : Option UInt64) (ud : UInt64) (priority tickets now : Int)
  | cancel (id : UInt64)
  | boostPriority (id : UInt64) (newPriority : Int)
  | restorePriority (id : UInt64)
  | priorityInherit (holderId waiterId : UInt64)
  | ageJobs (now : Int)
  | scheduleNext (now : Int)
deriving DecidableEq

def step (sched : PsScheduler) : Op → PsScheduler
  | .submit id job ud priority tickets now => (psSubmit sched id job ud priority tickets now).2
  | .cancel id => (psCancel sched id).2
  | .boostPriority id newPriority => (psBoostPriority sched id newPriority).2
  | .restorePriority id => (psRestorePriority sched id).2
  | .priorityInherit holderId waiterId => (psPriorityInherit sched holderId waiterId).2
  | .ageJobs now => (psAgeJobs sched now).2
  | .scheduleNext now => (psScheduleNext sched now).2

end MiniBackend.JobSystem.Priority
