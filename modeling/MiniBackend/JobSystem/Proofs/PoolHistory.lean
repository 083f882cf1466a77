import Mathlib.Data.List.Perm.Basic
import MiniBackend.JobSystem.WorkerPool
import MiniBackend.Lib.Runs

/-!
# What becomes of the tasks of a worker pool

A history beside the pool records which tasks were accepted, taken from the queue and
executed.  The accepted tasks are those that were taken followed by those in the queue,
and the taken ones are those that were executed and those in the hands of the workers.
A worker that leaves its loop leaves the queue as it is.
-/

namespace MiniBackend.JobSystem.Proofs.PoolHistory

open MiniBackend.Lib.Runs MiniBackend.Lib.CircularQueue MiniBackend.JobSystem.Pool

structure History where
  accepted : List WpTask
  popped : List WpTask
  executed : List WpTask
deriving DecidableEq

def noteWorker (h : History) (pool : WorkerPool) : Phase → History
  | .polling =>
      if pool.queue.count = 0 then h else { h with popped := h.popped ++ [pool.queue.front] }
  | .running task _ => { h with executed := h.executed ++ [task] }
  | _ => h

def note (h : History) (pool : WorkerPool) : Event → History
  | .submit task =>
      if (qPush pool task).1 = 0 then { h with accepted := h.accepted ++ [task] } else h
  | .worker w =>
      match pool.workers[w]? with
      | some worker => noteWorker h pool worker.phase
      | none => h
  | _ => h

/-- The history of a run from a new pool. -/
def historyOf (config : Option WpConfig) (events : List Event) : History :=
  observe step note ⟨[], [], []⟩ (workerPoolCreate config) events

/-- The tasks in the queue, from head to tail. -/
def queued (pool : WorkerPool) : List WpTask := pool.queue.contents pool.capacity

def AllExited (pool : WorkerPool) : Prop := ∀ worker ∈ pool.workers, worker.phase = .exited

instance (pool : WorkerPool) : Decidable (AllExited pool) :=
  inferInstanceAs (Decidable (∀ worker ∈ pool.workers, worker.phase = .exited))

def inHand (worker : WpWorker) : List WpTask :=
  match worker.phase with
  | .popped task => [task]
  | .searching task _ => [task]
  | .waiting task _ => [task]
  | .running task _ => [task]
  | _ => []

def held (pool : WorkerPool) : List WpTask := pool.workers.flatMap inHand

/-- Nothing is lost between the queue, the workers and the executed tasks. -/
structure Accounted (pool : WorkerPool) (h : History) : Prop where
  wellFormed : pool.queue.WellFormed pool.capacity
  fits : pool.queue.count ≤ pool.capacity
  order : h.accepted = h.popped ++ queued pool
  work : h.popped.Perm (h.executed ++ held pool)

/-! ## One worker among the others -/

theorem flatMap_set_perm {workers : List WpWorker} {w : Nat} {worker : WpWorker}
    (hw : workers[w]? = some worker) (worker' : WpWorker) :
    ∃ others, (workers.flatMap inHand).Perm (inHand worker ++ others) ∧
      ((workers.set w worker').flatMap inHand).Perm (inHand worker' ++ others) := by
  obtain ⟨hlt, rfl⟩ := List.getElem?_eq_some_iff.mp hw
  let before := (workers.take w).flatMap inHand
  let after := (workers.drop (w + 1)).flatMap inHand
  have hsplit : ∀ x : WpWorker, ((workers.set w x).flatMap inHand).Perm
      (inHand x ++ (before ++ after)) := by
    intro x
    rw [List.set_eq_take_append_cons_drop, if_pos hlt, List.flatMap_append, List.flatMap_cons]
    rw [← List.append_assoc, ← List.append_assoc]
    exact List.perm_append_comm.append_right after
  refine ⟨before ++ after, ?_, hsplit worker'⟩
  have hself := hsplit workers[w]
  rwa [List.set_getElem_self] at hself

theorem Accounted.keep {pool pool' : WorkerPool} {h : History} (ha : Accounted pool h)
    (hqueue : pool'.queue = pool.queue) (hcapacity : pool'.capacity = pool.capacity)
    (hheld : (held pool').Perm (held pool)) : Accounted pool' h where
  wellFormed := by
    rw [hqueue, hcapacity]
    exact ha.wellFormed
  fits := by
    rw [hqueue, hcapacity]
    exact ha.fits
  order := by
    rw [queued, hqueue, hcapacity]
    exact ha.order
  work := ha.work.trans (hheld.symm.append_left h.executed)

theorem held_setWorker_of_inHand {pool pool' : WorkerPool} {w : Nat} {worker worker' : WpWorker}
    (hw : pool.workers[w]? = some worker) (hworkers : pool'.workers = pool.workers.set w worker')
    (hsame : inHand worker' = inHand worker) : (held pool').Perm (held pool) := by
  obtain ⟨others, hbefore, hafter⟩ := flatMap_set_perm hw worker'
  rw [hsame] at hafter
  unfold held
  rw [hworkers]
  exact hafter.trans hbefore.symm

/-! ## One lemma for each step -/

theorem Accounted.submit {pool : WorkerPool} {h : History} (ha : Accounted pool h)
    (task : WpTask) : Accounted (qPush pool task).2 (note h pool (.submit task)) := by
  simp only [note]
  unfold qPush
  split
  next hfull => simpa using ha
  next hfull =>
    have hfree : pool.queue.count < pool.capacity := Nat.lt_of_not_le hfull
    exact {
      wellFormed := ha.wellFormed.push task
      fits := hfree
      order := by
        have hpush := ha.wellFormed.contents_push hfree task
        simp only [queued, if_true, hpush]
        rw [ha.order, queued, List.append_assoc]
      work := ha.work }

theorem Accounted.pop {pool : WorkerPool} {h : History} (ha : Accounted pool h) {w : Nat}
    {worker : WpWorker} (hw : pool.workers[w]? = some worker) (hphase : worker.phase = .polling) :
    Accounted (qPop pool w worker) (noteWorker h pool .polling) := by
  simp only [noteWorker]
  unfold qPop
  split
  next hempty => exact ha
  next hempty =>
    have hcons := ha.wellFormed.contents_eq_front_cons hempty
    obtain ⟨others, hbefore, hafter⟩ :=
      flatMap_set_perm hw { worker with phase := .popped pool.queue.front }
    have hnone : inHand worker = [] := by simp [inHand, hphase]
    rw [hnone, List.nil_append] at hbefore
    refine ⟨ha.wellFormed.pop hempty, ?_, ?_, ?_⟩
    · have := ha.fits
      simp only [setWorker, RingBuffer.pop]
      omega
    · rw [ha.order, queued, hcons, List.append_assoc]
      rfl
    · have htaken : (held pool ++ [pool.queue.front]).Perm
          (held (setWorker { pool with queue := pool.queue.pop pool.capacity } w
            { worker with phase := .popped pool.queue.front })) := by
        apply List.Perm.trans (hbefore.append_right [pool.queue.front])
        exact (List.perm_append_comm).trans hafter.symm
      have hwork := ha.work.append_right [pool.queue.front]
      rw [List.append_assoc] at hwork
      exact hwork.trans (htaken.append_left h.executed)

theorem Accounted.execute {pool : WorkerPool} {h : History} (ha : Accounted pool h) {w : Nat}
    {worker : WpWorker} (hw : pool.workers[w]? = some worker) {task : WpTask} {ci : Option Nat}
    (hphase : worker.phase = .running task ci) :
    Accounted (setWorker pool w { worker with phase := .executed task ci })
      (noteWorker h pool (.running task ci)) := by
  obtain ⟨others, hbefore, hafter⟩ :=
    flatMap_set_perm hw { worker with phase := .executed task ci }
  have hone : inHand worker = [task] := by simp [inHand, hphase]
  rw [hone] at hbefore
  refine ⟨ha.wellFormed, ha.fits, ha.order, ?_⟩
  simp only [noteWorker]
  have hwork := ha.work.trans (hbefore.append_left h.executed)
  rw [← List.append_assoc] at hwork
  exact hwork.trans (hafter.symm.append_left (h.executed ++ [task]))

theorem Accounted.move {pool pool' : WorkerPool} {h : History} (ha : Accounted pool h) {w : Nat}
    {worker worker' : WpWorker} (hw : pool.workers[w]? = some worker)
    (hworkers : pool'.workers = pool.workers.set w worker') (hqueue : pool'.queue = pool.queue)
    (hcapacity : pool'.capacity = pool.capacity) (hsame : inHand worker' = inHand worker) :
    Accounted pool' h :=
  ha.keep hqueue hcapacity (held_setWorker_of_inHand hw hworkers hsame)

theorem inHand_afterLookup (worker : WpWorker) (task : WpTask) (next : Lookup ⊕ Option Nat) :
    inHand (afterLookup worker task next) = [task] := by
  rcases next with l | (_ | ci) <;> rfl

theorem Accounted.client {pool : WorkerPool} {h : History} (ha : Accounted pool h) (k : Nat) :
    Accounted (wpSetConcurrencyLimit pool k) h := by
  unfold wpSetConcurrencyLimit
  split
  · exact ha
  · split
    · exact ha.keep rfl rfl (List.Perm.refl _)
    · exact ha.keep rfl rfl (List.Perm.refl _)
    · exact ha

theorem Accounted.advance {pool : WorkerPool} {h : History} (ha : Accounted pool h) {w : Nat}
    {worker : WpWorker} (hw : pool.workers[w]? = some worker) :
    Accounted (advance pool w) (noteWorker h pool worker.phase) := by
  unfold Pool.advance
  rw [hw]
  dsimp only
  cases hphase : worker.phase with
  | loopTop =>
      simp only [noteWorker, checkLoop]
      split
      · exact ha.move hw rfl rfl rfl (by simp [inHand, hphase])
      · exact ha.move hw rfl rfl rfl (by simp [inHand, hphase])
  | polling => exact ha.pop hw hphase
  | popped task =>
      simp only [noteWorker, startTask]
      split
      · exact ha.move hw rfl rfl rfl (by simp [inHand, hphase])
      · exact ha.move hw rfl rfl rfl (by simp [inHand, hphase])
  | searching task l =>
      simp only [noteWorker, lookupType]
      split
      · exact ha
      · exact ha.move hw rfl rfl rfl (by rw [inHand_afterLookup, inHand, hphase])
  | waiting task ci =>
      simp only [noteWorker, acquireSlot]
      split
      · exact ha
      · split
        · exact ha.move hw rfl rfl rfl (by simp [inHand, hphase])
        · exact ha
  | running task ci => exact ha.execute hw hphase
  | executed task ci => exact ha.move hw rfl rfl rfl (by simp [inHand, hphase])
  | exited => exact ha

theorem Accounted.step {pool : WorkerPool} {h : History} (ha : Accounted pool h) (e : Event) :
    Accounted (step pool e) (note h pool e) := by
  cases e with
  | submit task => exact ha.submit task
  | setConcurrencyLimit jobType maxConcurrent =>
      cases jobType with
      | none => exact ha
      | some jobType => exact ha.keep rfl rfl (List.Perm.refl _)
  | client k => exact ha.client k
  | shutdown => exact ha.keep rfl rfl (List.Perm.refl _)
  | shutdownGraceful => exact ha.keep rfl rfl (List.Perm.refl _)
  | finishGraceful =>
      simp only [Pool.step]
      split
      · exact ha.keep rfl rfl (List.Perm.refl _)
      · exact ha
  | worker w =>
      cases hw : pool.workers[w]? with
      | none => simpa [Pool.step, Pool.advance, note, hw] using ha
      | some worker =>
          simp only [Pool.step, note, hw]
          exact ha.advance hw
  | timeout w =>
      simp only [Pool.step, giveUp]
      split
      · exact ha
      next worker hw =>
        split
        next hphase => exact ha.move hw rfl rfl rfl (by simp [inHand, hphase])
        next => exact ha

/-! ## Whole runs -/

theorem configured_pos {field : Option Int} {default : Nat} (h : 0 < default) :
    0 < configured field default := by
  unfold configured
  split
  · split <;> omega
  · exact h

theorem workerPoolCreate_accounted (config : Option WpConfig) :
    Accounted (workerPoolCreate config) ⟨[], [], []⟩ where
  wellFormed := RingBuffer.empty_wellFormed (configured_pos (by decide)) zeroTask
  fits := Nat.zero_le _
  order := rfl
  work := by
    have hheld : held (workerPoolCreate config) = [] := by
      apply List.flatMap_eq_nil_iff.mpr
      intro worker hworker
      rw [List.eq_of_mem_replicate hworker]
      rfl
    rw [hheld]
    exact List.Perm.refl []

theorem historyOf_accounted (config : Option WpConfig) (events : List Event) :
    Accounted (run step (workerPoolCreate config) events) (historyOf config events) := by
  apply observe_invariant step (p := fun _ _ => True) _ (workerPoolCreate_accounted config)
  · exact always_of_forall step (q := fun _ => True) (fun _ _ h => h) (fun _ _ => trivial) _
  · intro pool h e ha _
    exact ha.step e

theorem held_of_allExited {pool : WorkerPool} (h : AllExited pool) : held pool = [] := by
  unfold held
  rw [List.flatMap_eq_nil_iff]
  intro worker hworker
  simp [inHand, h worker hworker]

/-- Over every run tasks are taken in the order in which they were accepted, none is
executed twice, and when all workers have left each accepted task was executed or is still
in the queue. -/
theorem tasks_executed_once (config : Option WpConfig) (events : List Event) :
    (historyOf config events).accepted =
        (historyOf config events).popped ++ queued (run step (workerPoolCreate config) events) ∧
      (historyOf config events).executed.Subperm (historyOf config events).popped ∧
      (AllExited (run step (workerPoolCreate config) events) →
        (historyOf config events).accepted.Perm ((historyOf config events).executed ++
          queued (run step (workerPoolCreate config) events))) := by
  have ha := historyOf_accounted config events
  refine ⟨ha.order, ?_, ?_⟩
  · apply List.Subperm.trans _ ha.work.symm.subperm
    exact (List.sublist_append_left _ _).subperm
  · intro hexited
    have hwork := ha.work
    rw [held_of_allExited hexited, List.append_nil] at hwork
    rw [ha.order]
    exact hwork.append_right _

/-- A task that the pool accepts before a graceful shutdown. -/
def lastTask : WpTask := ⟨1, 7, 0, 0, 0, none⟩

def lateShutdown : List Event := [.submit lastTask, .shutdownGraceful, .worker 0, .finishGraceful]

/-- The only worker leaves its loop at the flag, and the accepted task is never executed. -/
theorem queued_task_not_executed :
    AllExited (run step (workerPoolCreate (some ⟨1, 8⟩)) lateShutdown) ∧
      lastTask ∈ (historyOf (some ⟨1, 8⟩) lateShutdown).accepted ∧
      lastTask ∉ (historyOf (some ⟨1, 8⟩) lateShutdown).executed := by
  decide

end MiniBackend.JobSystem.Proofs.PoolHistory
