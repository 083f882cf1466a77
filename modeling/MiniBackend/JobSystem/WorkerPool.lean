import MiniBackend.Lib.CString
import MiniBackend.Lib.CircularQueue

/-!
# `worker_pool.c`

The pool as a system of workers and clients.  A step is one critical section of a worker
or of a client, one piece of code between two of them, or one access to the table of job
types where that is read and written without the lock: `find_concurrency_index` and the
write of a limit.  Tasks and callbacks are pointers that are only stored and called.
-/

namespace MiniBackend.JobSystem.Pool

open MiniBackend.Lib.CString MiniBackend.Lib.CircularQueue

def wpMaxWorkers : Nat := 64
def wpMaxJobTypes : Nat := 32
def wpDefaultQueueSize : Nat := 256

/-- The room for a name in `job_type_names`, with its terminator. -/
def wpJobTypeLen : Nat := 32

structure WpTask where
  jobId : UInt64
  task : UInt64
  userdata : UInt64
  ack : UInt64
  ackUd : UInt64
  jobType : Option CStr
deriving DecidableEq

/-- An entry of `job_type_names` with the entry of `concurrency` at the same index. -/
structure WpConcurrencyLimit where
  name : CStr
  maxConcurrent : Int
  current : Int
deriving DecidableEq

/-- The two arrays with `job_type_count`. -/
structure JobTypes where
  entries : List WpConcurrencyLimit
  count : Nat
deriving DecidableEq

/-- Where a call of `find_concurrency_index` is: the access that comes next.  From `count` on
the index of the new entry has been read. -/
inductive Lookup
  | scan (i : Nat)
  | full
  | number
  | count (i : Nat)
  | name (i : Nat)
  | limit (i : Nat)
  | current (i : Nat)
deriving DecidableEq

inductive WpWorkerState
  | alive
  | idle
  | busy
  | exit
deriving DecidableEq

/-- Where a worker is in its loop.  It holds its slot from `running` to the end of
`executed`; no slot is held with index `none`, the -1 of the source. -/
inductive Phase
  | loopTop
  | polling
  | popped (task : WpTask)
  | searching (task : WpTask) (l : Lookup)
  | waiting (task : WpTask) (ci : Nat)
  | running (task : WpTask) (ci : Option Nat)
  | executed (task : WpTask) (ci : Option Nat)
  | exited
deriving DecidableEq

structure WpWorker where
  phase : Phase
  state : WpWorkerState
deriving DecidableEq

inductive SetPhase
  | searching (l : Lookup)
  | writing (i : Nat)
  | returned (result : Int)
deriving DecidableEq

/-- A call of `wp_set_concurrency_limit` with a job type. -/
structure SetCall where
  jobType : CStr
  maxConcurrent : Int
  phase : SetPhase
deriving DecidableEq

structure WorkerPool where
  workers : List WpWorker
  queue : RingBuffer WpTask
  capacity : Nat
  running : Bool
  shuttingDown : Bool
  jobTypes : JobTypes
  /-- All calls so far that set a limit. -/
  calls : List SetCall

structure WpConfig where
  maxWorkers : Int
  queueSize : Int
deriving DecidableEq

def zeroTask : WpTask := ⟨0, 0, 0, 0, 0, none⟩

/-- `config->field`, or a default when there is no configuration or the field is not
positive. -/
def configured (field : Option Int) (default : Nat) : Nat :=
  match field with
  | some value => if 0 < value then value.toNat else default
  | none => default

def workerPoolCreate (config : Option WpConfig) : WorkerPool where
  workers := List.replicate (min (configured (config.map WpConfig.maxWorkers) 4) wpMaxWorkers)
    ⟨.loopTop, .idle⟩
  queue := RingBuffer.empty zeroTask
  capacity := configured (config.map WpConfig.queueSize) wpDefaultQueueSize
  running := true
  shuttingDown := false
  jobTypes := ⟨List.replicate wpMaxJobTypes ⟨[], 0, 0⟩, 0⟩
  calls := []

/-! ## The queue and the table of job types -/

def qPush (pool : WorkerPool) (task : WpTask) : Int × WorkerPool :=
  if pool.capacity ≤ pool.queue.count then (-1, pool)
  else (0, { pool with queue := pool.queue.push pool.capacity task })

def setName (jobType : CStr) (entry : WpConcurrencyLimit) : WpConcurrencyLimit :=
  { entry with name := strncpy jobType (wpJobTypeLen - 1) }

def setMax (max : Int) (entry : WpConcurrencyLimit) : WpConcurrencyLimit :=
  { entry with maxConcurrent := max }

def setCurrent (current : Int) (entry : WpConcurrencyLimit) : WpConcurrencyLimit :=
  { entry with current := current }

def JobTypes.modify (table : JobTypes) (i : Nat)
    (f : WpConcurrencyLimit → WpConcurrencyLimit) : JobTypes :=
  { table with entries := table.entries.modify i f }

def JobTypes.nameAt (table : JobTypes) (i : Nat) : Option CStr :=
  table.entries[i]?.map WpConcurrencyLimit.name

/-- One access of a call: the table behind it, and the rest of the call or its result.  When
others have filled the table since the test for room, the new entry would lie behind the
arrays; a call that comes there goes no further. -/
def findConcurrencyIndex (table : JobTypes) (jobType : CStr) :
    Lookup → JobTypes × (Lookup ⊕ Option Nat)
  | .scan i =>
      if i < table.count then
        if table.nameAt i = some jobType then (table, .inr (some i))
        else (table, .inl (.scan (i + 1)))
      else (table, .inl .full)
  | .full => (table, if table.count < wpMaxJobTypes then .inl .number else .inr none)
  | .number =>
      (table, .inl (if table.count < wpMaxJobTypes then .count table.count else .number))
  | .count i => ({ table with count := i + 1 }, .inl (.name i))
  | .name i => (table.modify i (setName jobType), .inl (.limit i))
  | .limit i => (table.modify i (setMax 0), .inl (.current i))
  | .current i => (table.modify i (setCurrent 0), .inr (some i))

def afterSetLookup : Lookup ⊕ Option Nat → SetPhase
  | .inl l => .searching l
  | .inr none => .returned (-1)
  | .inr (some i) => .writing i

/-- The next access of a call that sets a limit. -/
def wpSetConcurrencyLimit (pool : WorkerPool) (k : Nat) : WorkerPool :=
  match pool.calls[k]? with
  | none => pool
  | some call =>
      match call.phase with
      | .searching l =>
          let (jobTypes, next) := findConcurrencyIndex pool.jobTypes call.jobType l
          { pool with
            jobTypes := jobTypes
            calls := pool.calls.set k { call with phase := afterSetLookup next } }
      | .writing i =>
          { pool with
            jobTypes := pool.jobTypes.modify i (setMax call.maxConcurrent)
            calls := pool.calls.set k { call with phase := .returned 0 } }
      | .returned _ => pool

def hasRoom (entry : WpConcurrencyLimit) : Bool :=
  decide (entry.maxConcurrent = 0 ∨ entry.current < entry.maxConcurrent)

def addCurrent (delta : Int) (entry : WpConcurrencyLimit) : WpConcurrencyLimit :=
  { entry with current := entry.current + delta }

/-! ## The worker loop -/

def setWorker (pool : WorkerPool) (w : Nat) (worker : WpWorker) : WorkerPool :=
  { pool with workers := pool.workers.set w worker }

def checkLoop (pool : WorkerPool) (w : Nat) : WorkerPool :=
  if pool.running && !pool.shuttingDown then setWorker pool w ⟨.polling, .idle⟩
  else setWorker pool w ⟨.exited, .exit⟩

/-- `q_pop` with a task in the queue; otherwise the worker waits. -/
def qPop (pool : WorkerPool) (w : Nat) (worker : WpWorker) : WorkerPool :=
  if pool.queue.count = 0 then pool
  else
    setWorker { pool with queue := pool.queue.pop pool.capacity } w
      { worker with phase := .popped pool.queue.front }

/-- A task without a job type runs at once; otherwise the type is looked up. -/
def startTask (pool : WorkerPool) (w : Nat) (worker : WpWorker) (task : WpTask) : WorkerPool :=
  match task.jobType with
  | none => setWorker pool w ⟨.running task none, .busy⟩
  | some _ => setWorker pool w { worker with phase := .searching task (.scan 0) }

/-- Without an index the task runs at once. -/
def afterLookup (worker : WpWorker) (task : WpTask) : Lookup ⊕ Option Nat → WpWorker
  | .inl l => { worker with phase := .searching task l }
  | .inr none => ⟨.running task none, .busy⟩
  | .inr (some ci) => { worker with phase := .waiting task ci }

def lookupType (pool : WorkerPool) (w : Nat) (worker : WpWorker) (task : WpTask) (l : Lookup) :
    WorkerPool :=
  match task.jobType with
  | none => pool
  | some jobType =>
      let (jobTypes, next) := findConcurrencyIndex pool.jobTypes jobType l
      setWorker { pool with jobTypes := jobTypes } w (afterLookup worker task next)

def acquireSlot (pool : WorkerPool) (w : Nat) (task : WpTask) (ci : Nat) : WorkerPool :=
  match pool.jobTypes.entries[ci]? with
  | none => pool
  | some entry =>
      if hasRoom entry then
        setWorker { pool with jobTypes := pool.jobTypes.modify ci (addCurrent 1) } w
          ⟨.running task (some ci), .busy⟩
      else pool

/-- `if (ci >= 0 && task.job_type)`: the slot is given back. -/
def releaseSlot (pool : WorkerPool) (w : Nat) (worker : WpWorker) (task : WpTask)
    (ci : Option Nat) : WorkerPool :=
  let jobTypes :=
    match ci, task.jobType with
    | some ci, some _ => pool.jobTypes.modify ci (addCurrent (-1))
    | _, _ => pool.jobTypes
  setWorker { pool with jobTypes := jobTypes } w { worker with phase := .loopTop }

def advance (pool : WorkerPool) (w : Nat) : WorkerPool :=
  match pool.workers[w]? with
  | none => pool
  | some worker =>
      match worker.phase with
      | .loopTop => checkLoop pool w
      | .polling => qPop pool w worker
      | .popped task => startTask pool w worker task
      | .searching task l => lookupType pool w worker task l
      | .waiting task ci => acquireSlot pool w task ci
      | .running task ci => setWorker pool w { worker with phase := .executed task ci }
      | .executed task ci => releaseSlot pool w worker task ci
      | .exited => pool

/-- `q_pop` gives up: a timed wait that ran out returns 0 without another look. -/
def giveUp (pool : WorkerPool) (w : Nat) : WorkerPool :=
  match pool.workers[w]? with
  | none => pool
  | some worker =>
      if worker.phase = .polling then setWorker pool w { worker with phase := .loopTop } else pool

def wpBusyWorkers (pool : WorkerPool) : Nat :=
  pool.workers.countP fun worker => worker.state = .busy

/-! ## Runs -/

/-- A step of a worker or of a client.  A batch is a sequence of submissions; a graceful
shutdown sets its flag, waits until no worker is busy and clears `running`.  The call number
`k` of those that set a limit is begun by `setConcurrencyLimit` and goes on with `client k`. -/
inductive Event
  | submit (task : WpTask)
  | setConcurrencyLimit (jobType : Option CStr) (maxConcurrent : Int)
  | client (k : Nat)
  | shutdown
  | shutdownGraceful
  | finishGraceful
  | worker (w : Nat)
  | timeout (w : Nat)
deriving DecidableEq

def step (pool : WorkerPool) : Event → WorkerPool
  | .submit task => (qPush pool task).2
  | .setConcurrencyLimit none _ => pool
  | .setConcurrencyLimit (some jobType) maxConcurrent =>
      { pool with calls := pool.calls ++ [⟨jobType, maxConcurrent, .searching (.scan 0)⟩] }
  | .client k => wpSetConcurrencyLimit pool k
  | .shutdown => { pool with running := false, shuttingDown := true }
  | .shutdownGraceful => { pool with shuttingDown := true }
  | .finishGraceful =>
      if pool.shuttingDown && wpBusyWorkers pool = 0 then { pool with running := false } else pool
  | .worker w => advance pool w
  | .timeout w => giveUp pool w

end MiniBackend.JobSystem.Pool
