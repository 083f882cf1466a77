import MiniBackend.WebServer.Server
import MiniBackend.Lib.Runs

/-!
# The thread pool loses no accepted work

The items of the successful submissions are, at any time, those taken so far followed by
those in the ring.  A worker that exits leaves an empty ring behind it in a pool that accepts
nothing more, so nothing is left when the last one is gone.
-/

namespace MiniBackend.WebServer.Proofs.PoolLossless

open MiniBackend.WebServer.Server
open MiniBackend.Lib.CircularQueue MiniBackend.Lib.Runs

variable {α : Type}

def acceptedItem : Entry α → Option α
  | .submitted _ item true => some item
  | _ => none

def takenItem : Entry α → Option α
  | .taken _ item => some item
  | _ => none

/-- The items whose submission returned 1, in this order. -/
def accepted (log : List (Entry α)) : List α := log.filterMap acceptedItem

def taken (log : List (Entry α)) : List α := log.filterMap takenItem

/-- The items between `queue_front` and `queue_rear`. -/
def queued (pool : ThreadPool α) : List α := pool.queue.contents pool.queueCapacity

/-- `queue_size` items lie between `queue_front` and `queue_rear`, no more than there is room
for. -/
structure RingSound (pool : ThreadPool α) : Prop where
  ring : pool.queue.WellFormed pool.queueCapacity
  size_le : pool.queue.count ≤ pool.queueCapacity

/-- No submission returns 1 after `running` became 0. -/
def ClosedAfterStop (log : List (Entry α)) : Prop :=
  ∀ before after, log = before ++ .stopped :: after → accepted after = []

structure Inv (s : System α) : Prop where
  sound : RingSound s.pool
  history : accepted s.log = taken s.log ++ queued s.pool
  stopped : Entry.stopped ∈ s.log → s.pool.running = false
  closed : ClosedAfterStop s.log
  exited : WorkerPhase.exited ∈ s.workers → s.pool.running = false ∧ s.pool.queue.count = 0

/-! ## The log -/

theorem accepted_append (log : List (Entry α)) (entry : Entry α) :
    accepted (log ++ [entry]) = accepted log ++ (acceptedItem entry).toList := by
  cases h : acceptedItem entry <;> simp [accepted, h]

theorem taken_append (log : List (Entry α)) (entry : Entry α) :
    taken (log ++ [entry]) = taken log ++ (takenItem entry).toList := by
  cases h : takenItem entry <;> simp [taken, h]

theorem ClosedAfterStop.append {log : List (Entry α)} (h : ClosedAfterStop log)
    {entry : Entry α} (hentry : Entry.stopped ∈ log → acceptedItem entry = none) :
    ClosedAfterStop (log ++ [entry]) := by
  intro before after heq
  cases after using List.reverseRecOn with
  | nil => rfl
  | append_singleton after last _ =>
      have hcons : log ++ [entry] = (before ++ .stopped :: after) ++ [last] := by
        simpa using heq
      obtain ⟨hlog, hlast⟩ := List.append_inj' hcons rfl
      have hmem : Entry.stopped ∈ log := by
        rw [hlog]
        exact List.mem_append_right before List.mem_cons_self
      have hnone := hentry hmem
      rw [List.cons.injEq] at hlast
      rw [accepted_append, ← hlast.1, hnone, h before after hlog]
      rfl

/-! ## Sections -/

theorem takeSection_cases (pool : ThreadPool α) :
    (takeSection pool = (.wait, pool) ∧ pool.queue.count = 0 ∧ pool.running = true) ∨
    (takeSection pool = (.stop, pool) ∧ pool.queue.count = 0 ∧ pool.running = false) ∨
    (takeSection pool = (.took pool.queue.front,
        { pool with queue := pool.queue.pop pool.queueCapacity }) ∧ pool.queue.count ≠ 0) := by
  unfold takeSection
  by_cases hcount : pool.queue.count = 0
  · cases hrunning : pool.running with
    | true => simp [hcount]
    | false => simp [hcount]
  · simp [hcount]

theorem submitSection_cases (pool : ThreadPool α) (item : α) :
    (submitSection pool item = (.wait, pool)) ∨
    (submitSection pool item = (.returned false, pool)) ∨
    (submitSection pool item = (.returned true,
        { pool with queue := pool.queue.push pool.queueCapacity item }) ∧
      pool.running = true ∧ pool.queue.count < pool.queueCapacity) := by
  unfold submitSection
  cases hrunning : pool.running with
  | false => simp
  | true =>
      by_cases hfull : pool.queueCapacity ≤ pool.queue.count
      · simp [hfull]
      · simp [hfull]
        omega

/-! ## Steps -/

variable {s : System α}

theorem exited_of_set {workers : List (WorkerPhase α)} {w : Nat} {phase : WorkerPhase α}
    (hphase : phase ≠ .exited) (h : WorkerPhase.exited ∈ workers.set w phase) :
    WorkerPhase.exited ∈ workers := by
  rcases List.mem_or_eq_of_mem_set h with hold | hnew
  · exact hold
  · exact absurd hnew.symm hphase

theorem Inv.setWorker (h : Inv s) (w : Nat) {phase : WorkerPhase α} (hphase : phase ≠ .exited) :
    Inv { s with workers := s.workers.set w phase } where
  sound := h.sound
  history := h.history
  stopped := h.stopped
  closed := h.closed
  exited := fun hmem => h.exited (exited_of_set hphase hmem)

theorem Inv.workerStep (h : Inv s) (w : Nat) : Inv (workerStep s w) := by
  unfold WebServer.Server.workerStep
  rcases takeSection_cases s.pool with ⟨htake, hcount, hrunning⟩ | ⟨htake, hcount, hrunning⟩ |
    ⟨htake, hcount⟩
  · rw [htake]
    apply h.setWorker
    simp
  · rw [htake]
    exact ⟨h.sound, h.history, h.stopped, h.closed, fun _ => ⟨hrunning, hcount⟩⟩
  · rw [htake]
    have hpop := h.sound.ring.contents_eq_front_cons hcount
    constructor
    case sound =>
      constructor
      · exact h.sound.ring.pop hcount
      · exact Nat.le_trans (Nat.sub_le _ _) h.sound.size_le
    case history =>
      have hhistory := h.history
      rw [queued, hpop] at hhistory
      simp only [accepted_append, taken_append, acceptedItem, takenItem, queued]
      simp [hhistory]
    case stopped =>
      intro hmem
      apply h.stopped
      simpa using hmem
    case closed =>
      apply h.closed.append
      intro _
      rfl
    case exited =>
      intro hmem
      have hexited := h.exited (exited_of_set (by simp) hmem)
      exact absurd hexited.2 hcount

theorem Inv.producerStep (h : Inv s) (p : Nat) (item : α) : Inv (producerStep s p item) := by
  unfold WebServer.Server.producerStep
  rcases submitSection_cases s.pool item with hsubmit | hsubmit | ⟨hsubmit, hrunning, hfree⟩
  · rw [hsubmit]
    exact ⟨h.sound, h.history, h.stopped, h.closed, h.exited⟩
  · rw [hsubmit]
    constructor
    case sound => exact h.sound
    case history =>
      simp only [accepted_append, taken_append, acceptedItem, takenItem, h.history]
      simp
    case stopped =>
      intro hmem
      apply h.stopped
      simpa using hmem
    case closed =>
      apply h.closed.append
      intro _
      rfl
    case exited => exact h.exited
  · rw [hsubmit]
    -- A pool that accepts is running, and so was never stopped.
    have hopen : Entry.stopped ∉ s.log := by
      intro hmem
      rw [h.stopped hmem] at hrunning
      contradiction
    constructor
    case sound =>
      constructor
      · exact h.sound.ring.push item
      · exact hfree
    case history =>
      have hpush := h.sound.ring.contents_push hfree item
      simp only [accepted_append, taken_append, acceptedItem, takenItem, queued, hpush, h.history]
      simp
    case stopped =>
      intro hmem
      have hmem : Entry.stopped ∈ s.log := by simpa using hmem
      contradiction
    case closed =>
      apply h.closed.append
      intro hmem
      contradiction
    case exited =>
      intro hmem
      rw [(h.exited hmem).1] at hrunning
      contradiction

theorem Inv.destroyStep (h : Inv s) :
    Inv { s with pool := destroySection s.pool, log := s.log ++ [.stopped] } where
  sound := ⟨h.sound.ring, h.sound.size_le⟩
  history := by
    simp only [accepted_append, taken_append, acceptedItem, takenItem, h.history]
    simp [queued, destroySection]
  stopped := fun _ => rfl
  closed := h.closed.append fun _ => rfl
  exited := fun hmem => ⟨rfl, (h.exited hmem).2⟩

theorem Inv.step (h : Inv s) (event : Event α) : Inv (step s event) := by
  cases event with
  | submit p item =>
      simp only [WebServer.Server.step]
      split
      · exact h.producerStep p item
      · exact h
  | resume p =>
      simp only [WebServer.Server.step]
      split
      · exact h.producerStep p _
      · exact h
  | worker w =>
      simp only [WebServer.Server.step]
      split
      · exact h.workerStep w
      · exact h.workerStep w
      · exact h.setWorker w (by simp)
      · exact h
  | destroy => exact h.destroyStep

/-! ## Runs -/

theorem inv_start {zero : α} {numWorkers : Int} {pool : ThreadPool α}
    (hcreate : threadPoolCreate zero numWorkers = some pool) (producers : Nat) :
    Inv (start pool producers) := by
  unfold threadPoolCreate at hcreate
  split at hcreate
  · contradiction
  · cases hcreate
    constructor
    case sound =>
      have hcap : 0 < poolMaxQueueSize := by decide
      exact ⟨RingBuffer.empty_wellFormed hcap zero, Nat.zero_le _⟩
    case history => rfl
    case stopped => simp [start]
    case closed => simp [ClosedAfterStop, start]
    case exited => simp [start]

theorem length_workers_step (s : System α) (event : Event α) :
    (step s event).workers.length = s.workers.length := by
  cases event with
  | submit p item =>
      simp only [WebServer.Server.step, producerStep]
      split <;> (try split) <;> rfl
  | resume p =>
      simp only [WebServer.Server.step, producerStep]
      split <;> (try split) <;> rfl
  | worker w =>
      simp only [WebServer.Server.step, workerStep]
      split <;> (try split) <;> simp
  | destroy => rfl

theorem run_inv {pool : System α} (h : Inv pool) (events : List (Event α)) :
    Inv (run step pool events) ∧
      (run step pool events).workers.length = pool.workers.length := by
  have hstep : ∀ (s : System α) event, Inv s ∧ s.workers.length = pool.workers.length →
      Inv (step s event) ∧ (step s event).workers.length = pool.workers.length :=
    fun s event hs => ⟨hs.1.step event, (length_workers_step s event).trans hs.2⟩
  exact run_keeps step hstep ⟨h, rfl⟩ events

/-- In every interleaving of any number of producers, workers and shutdowns the ring is
sound, items are taken in the order of submission, nothing is accepted after the stop, and
once all workers have exited every accepted item has been taken. -/
theorem pool_loses_nothing {zero : α} {numWorkers : Int} {pool : ThreadPool α}
    (hcreate : threadPoolCreate zero numWorkers = some pool) (producers : Nat)
    (events : List (Event α)) :
    let s := run step (start pool producers) events
    RingSound s.pool ∧
      accepted s.log = taken s.log ++ queued s.pool ∧
      ((∀ phase ∈ s.workers, phase = .exited) → accepted s.log = taken s.log) ∧
      ClosedAfterStop s.log := by
  intro s
  obtain ⟨hinv, hlength⟩ := run_inv (inv_start hcreate producers) events
  refine ⟨hinv.sound, hinv.history, ?_, hinv.closed⟩
  intro hall
  have hcount : 0 < s.workers.length := by
    change 0 < (run step (start pool producers) events).workers.length
    rw [hlength]
    unfold threadPoolCreate at hcreate
    split at hcreate
    · contradiction
    · cases hcreate
      simp [start]
      omega
  obtain ⟨phase, hphase⟩ := List.exists_mem_of_length_pos hcount
  have hexited : WorkerPhase.exited ∈ s.workers := hall phase hphase ▸ hphase
  have hempty : queued s.pool = [] :=
    RingBuffer.contents_eq_nil_iff.mpr (hinv.exited hexited).2
  calc
    accepted s.log = taken s.log ++ queued s.pool := hinv.history
    _ = taken s.log := by rw [hempty, List.append_nil]

/-- Two workers, one producer: the item is accepted, the pool stops, both workers exit. -/
theorem pool_loses_nothing_two_workers :
    let events : List (Event Nat) :=
      [.worker 0, .submit 0 5, .destroy, .worker 1, .submit 0 6, .worker 0, .worker 1, .worker 1]
    let s := run step (start ⟨RingBuffer.empty 0, 512, 2, true⟩ 1) events
    accepted s.log = [5] ∧ accepted s.log = taken s.log := by
  intro events s
  refine ⟨rfl, ?_⟩
  have hall : ∀ phase ∈ s.workers, phase = .exited := by
    intro phase hphase
    have hworkers : s.workers = [.exited, .exited] := rfl
    rw [hworkers] at hphase
    simpa using hphase
  exact (pool_loses_nothing (show threadPoolCreate 0 2 = some _ from rfl) 1 events).2.2.1 hall

end MiniBackend.WebServer.Proofs.PoolLossless
