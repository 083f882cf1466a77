import MiniBackend.JobSystem.Proofs.JobTypeTable
import MiniBackend.Lib.Runs

/-!
# The concurrency limit of a job type

A type whose name fits into the table of job types is found at the same entry each time,
and the counter of that entry counts the workers that hold its slots, so its limit is kept
in every interleaving without a race on the table.  A longer name is stored cut off, is not
found again, and gets a new entry without a limit at each lookup; and a lookup that races with
the one that adds the type can write over its entry.
-/

namespace MiniBackend.JobSystem.Proofs.ConcurrencyLimit

open MiniBackend.Lib.CString MiniBackend.Lib.CircularQueue MiniBackend.Lib.Runs
open MiniBackend.JobSystem.Pool MiniBackend.JobSystem.Proofs.JobTypeTable

def runningTask (worker : WpWorker) : Option WpTask :=
  match worker.phase with
  | .running task _ => some task
  | .executed task _ => some task
  | _ => none

def runsType (jobType : CStr) (worker : WpWorker) : Bool :=
  (runningTask worker).any fun task => task.jobType == some jobType

/-- At most `limit` workers run a task of the type. -/
def LimitRespected (jobType : CStr) (limit : Int) (pool : WorkerPool) : Prop :=
  (pool.workers.countP (runsType jobType) : Int) ≤ limit

instance (jobType : CStr) (limit : Int) (pool : WorkerPool) :
    Decidable (LimitRespected jobType limit pool) :=
  inferInstanceAs (Decidable ((_ : Int) ≤ limit))

def submitsType (jobType : CStr) : Event → Bool
  | .submit task => task.jobType == some jobType
  | _ => false

/-- The entry at which a lookup of the type ends. -/
def indexOf (table : JobTypes) (jobType : CStr) : Option Nat :=
  (List.range table.count).find? fun i => table.nameAt i == some jobType

/-- A write of a limit into the entry of the type does not raise or lift its limit. -/
def KeepsLimit (jobType : CStr) (limit : Int) (pool : WorkerPool) : Event → Prop
  | .client k => ∀ call ∈ pool.calls[k]?, ∀ i ∈ indexOf pool.jobTypes jobType,
      call.phase = .writing i → call.maxConcurrent ≠ 0 ∧ call.maxConcurrent ≤ limit
  | _ => True

instance (jobType : CStr) (limit : Int) (pool : WorkerPool) :
    (e : Event) → Decidable (KeepsLimit jobType limit pool e)
  | .client k => inferInstanceAs (Decidable (∀ call ∈ pool.calls[k]?, ∀ i ∈ _, _ → _ ∧ _))
  | .submit .. | .setConcurrencyLimit .. | .shutdown | .shutdownGraceful | .finishGraceful
  | .worker .. | .timeout .. => .isTrue trivial

/-! ## What the threads do with the table -/

def workerStage (worker : WpWorker) : Stage :=
  match worker.phase with
  | .searching task l => task.jobType.elim .idle (.searching · l)
  | .waiting task ci => task.jobType.elim .idle (.found · ci)
  | .running task ci | .executed task ci =>
      task.jobType.elim .idle fun jobType => ci.elim .idle (.found jobType)
  | .loopTop | .polling | .popped _ | .exited => .idle

def callStage (call : SetCall) : Stage :=
  match call.phase with
  | .searching l => .searching call.jobType l
  | .writing i => .found call.jobType i
  | .returned _ => .idle

def stages (pool : WorkerPool) : List Stage :=
  pool.workers.map workerStage ++ pool.calls.map callStage

/-- No lookup is inside of `find_concurrency_index` while another one writes the table, and no
two are past a scan that found nothing. -/
def NoRace (pool : WorkerPool) : Prop := (stages pool).Pairwise Compatible

instance (pool : WorkerPool) : Decidable (NoRace pool) :=
  inferInstanceAs (Decidable ((stages pool).Pairwise Compatible))

theorem perm_set {α β : Type} {l : List α} {k : Nat} {a : α} (hk : l[k]? = some a) (f : α → β) :
    ∃ others, (l.map f).Perm (f a :: others) ∧
      ∀ a', ((l.set k a').map f).Perm (f a' :: others) := by
  obtain ⟨hlt, rfl⟩ := List.getElem?_eq_some_iff.mp hk
  refine ⟨(l.eraseIdx k).map f, ?_, fun a' => ?_⟩
  · exact ((List.getElem_cons_eraseIdx_perm hlt).map f).symm
  · exact (List.set_perm_cons_eraseIdx hlt a').map f

theorem stages_worker {pool : WorkerPool} {w : Nat} {worker : WpWorker}
    (hw : pool.workers[w]? = some worker) :
    ∃ others, (stages pool).Perm (workerStage worker :: others) ∧
      ∀ worker', ((pool.workers.set w worker').map workerStage ++ pool.calls.map callStage).Perm
        (workerStage worker' :: others) := by
  obtain ⟨others, hbefore, hafter⟩ := perm_set hw workerStage
  exact ⟨others ++ pool.calls.map callStage, hbefore.append_right _,
    fun worker' => (hafter worker').append_right _⟩

theorem stages_call {pool : WorkerPool} {k : Nat} {call : SetCall}
    (hk : pool.calls[k]? = some call) :
    ∃ others, (stages pool).Perm (callStage call :: others) ∧
      ∀ call', (pool.workers.map workerStage ++ (pool.calls.set k call').map callStage).Perm
        (callStage call' :: others) := by
  obtain ⟨others, hbefore, hafter⟩ := perm_set hk callStage
  refine ⟨pool.workers.map workerStage ++ others, ?_, fun call' => ?_⟩
  · exact (hbefore.append_left _).trans List.perm_middle
  · exact ((hafter call').append_left _).trans List.perm_middle

theorem NoRace.compatible {pool : WorkerPool} (h : NoRace pool) {s : Stage} {others : List Stage}
    (hperm : (stages pool).Perm (s :: others)) : ∀ s' ∈ others, Compatible s s' :=
  (List.pairwise_cons.mp ((hperm.pairwise_iff Compatible.symm).mp h)).1

theorem workerStage_mem {pool : WorkerPool} {worker : WpWorker} (h : worker ∈ pool.workers) :
    workerStage worker ∈ stages pool :=
  List.mem_append_left _ (List.mem_map_of_mem h)

/-! ## What a step does -/

/-- The moves of a worker that leave the table alone. -/
inductive PlainMove (pool : WorkerPool) : Phase → Phase → Prop
  | enter : PlainMove pool .loopTop .polling
  | leave : PlainMove pool .loopTop .exited
  | giveUp : PlainMove pool .polling .loopTop
  | pop : PlainMove pool .polling (.popped pool.queue.front)
  | untyped (task : WpTask) (h : task.jobType = none) :
      PlainMove pool (.popped task) (.running task none)
  | begin (task : WpTask) : PlainMove pool (.popped task) (.searching task (.scan 0))
  | execute (task : WpTask) (ci : Option Nat) :
      PlainMove pool (.running task ci) (.executed task ci)
  | finish (task : WpTask) (ci : Option Nat) (h : ci = none ∨ task.jobType = none) :
      PlainMove pool (.executed task ci) .loopTop

/-- The workers, the calls and the table after a step. -/
inductive Change (pool : WorkerPool) : Event → List WpWorker → List SetCall → JobTypes → Prop
  | stay (e : Event) : Change pool e pool.workers pool.calls pool.jobTypes
  | begin (jobType : CStr) (max : Int) :
      Change pool (.setConcurrencyLimit (some jobType) max) pool.workers
        (pool.calls ++ [⟨jobType, max, .searching (.scan 0)⟩]) pool.jobTypes
  | search (k : Nat) (jobType : CStr) (max : Int) (l : Lookup)
      (hk : pool.calls[k]? = some ⟨jobType, max, .searching l⟩) :
      Change pool (.client k) pool.workers
        (pool.calls.set k ⟨jobType, max,
          afterSetLookup (findConcurrencyIndex pool.jobTypes jobType l).2⟩)
        (findConcurrencyIndex pool.jobTypes jobType l).1
  | write (k : Nat) (jobType : CStr) (max : Int) (i : Nat)
      (hk : pool.calls[k]? = some ⟨jobType, max, .writing i⟩) :
      Change pool (.client k) pool.workers (pool.calls.set k ⟨jobType, max, .returned 0⟩)
        (pool.jobTypes.modify i (setMax max))
  | move (e : Event) (w : Nat) (phase phase' : Phase) (state state' : WpWorkerState)
      (hw : pool.workers[w]? = some ⟨phase, state⟩) (h : PlainMove pool phase phase') :
      Change pool e (pool.workers.set w ⟨phase', state'⟩) pool.calls pool.jobTypes
  | lookup (e : Event) (w : Nat) (task : WpTask) (jobType : CStr) (l : Lookup)
      (state : WpWorkerState) (hw : pool.workers[w]? = some ⟨.searching task l, state⟩)
      (htype : task.jobType = some jobType) :
      Change pool e
        (pool.workers.set w (afterLookup ⟨.searching task l, state⟩ task
          (findConcurrencyIndex pool.jobTypes jobType l).2))
        pool.calls (findConcurrencyIndex pool.jobTypes jobType l).1
  | acquire (e : Event) (w : Nat) (task : WpTask) (ci : Nat) (state state' : WpWorkerState)
      (hw : pool.workers[w]? = some ⟨.waiting task ci, state⟩) (entry : WpConcurrencyLimit)
      (hentry : pool.jobTypes.entries[ci]? = some entry) (hroom : hasRoom entry = true) :
      Change pool e (pool.workers.set w ⟨.running task (some ci), state'⟩) pool.calls
        (pool.jobTypes.modify ci (addCurrent 1))
  | release (e : Event) (w : Nat) (task : WpTask) (jobType : CStr) (ci : Nat)
      (state state' : WpWorkerState)
      (hw : pool.workers[w]? = some ⟨.executed task (some ci), state⟩)
      (htype : task.jobType = some jobType) :
      Change pool e (pool.workers.set w ⟨.loopTop, state'⟩) pool.calls
        (pool.jobTypes.modify ci (addCurrent (-1)))

theorem advance_change (pool : WorkerPool) (e : Event) (w : Nat) :
    Change pool e (advance pool w).workers (advance pool w).calls (advance pool w).jobTypes := by
  unfold advance
  cases hw : pool.workers[w]? with
  | none => exact .stay e
  | some worker =>
      obtain ⟨phase, state⟩ := worker
      cases phase with
      | loopTop =>
          simp only [checkLoop]
          split
          · exact .move e w _ _ _ _ hw .enter
          · exact .move e w _ _ _ _ hw .leave
      | polling =>
          simp only [qPop]
          split
          · exact .stay e
          · exact .move e w _ _ _ _ hw .pop
      | popped task =>
          simp only [startTask]
          split
          next htype => exact .move e w _ _ _ _ hw (.untyped task htype)
          next => exact .move e w _ _ _ _ hw (.begin task)
      | searching task l =>
          simp only [lookupType]
          split
          next => exact .stay e
          next jobType htype => exact .lookup e w task jobType l state hw htype
      | waiting task ci =>
          simp only [acquireSlot]
          split
          next => exact .stay e
          next entry hentry =>
            split
            next hroom => exact .acquire e w task ci _ _ hw entry hentry hroom
            next => exact .stay e
      | running task ci => exact .move e w _ _ _ _ hw (.execute task ci)
      | executed task ci =>
          simp only [releaseSlot]
          cases ci with
          | none => exact .move e w _ _ _ _ hw (.finish task none (Or.inl rfl))
          | some ci =>
              cases htype : task.jobType with
              | none => exact .move e w _ _ _ _ hw (.finish task (some ci) (Or.inr htype))
              | some jobType => exact .release e w task jobType ci _ _ hw htype
      | exited => exact .stay e

theorem step_change (pool : WorkerPool) (e : Event) :
    Change pool e (step pool e).workers (step pool e).calls (step pool e).jobTypes := by
  cases e with
  | submit task =>
      simp only [step, qPush]
      split
      · exact .stay _
      · exact .stay _
  | setConcurrencyLimit jobType max =>
      cases jobType with
      | none => exact .stay _
      | some jobType => exact .begin jobType max
  | client k =>
      simp only [step, wpSetConcurrencyLimit]
      split
      next => exact .stay _
      next call hk =>
        obtain ⟨jobType, max, phase⟩ := call
        cases phase with
        | searching l => exact .search k jobType max l hk
        | writing i => exact .write k jobType max i hk
        | returned result => exact .stay _
  | shutdown => exact .stay _
  | shutdownGraceful => exact .stay _
  | finishGraceful =>
      simp only [step]
      split
      · exact .stay _
      · exact .stay _
  | worker w => exact advance_change pool _ w
  | timeout w =>
      simp only [step, giveUp]
      split
      next => exact .stay _
      next worker hw =>
        split
        next hphase =>
          obtain ⟨phase, state⟩ := worker
          cases hphase
          exact .move _ w _ _ _ _ hw .giveUp
        next => exact .stay _

/-! ## The table stays consistent -/

theorem workerStage_afterLookup {worker : WpWorker} {task : WpTask} {jobType : CStr}
    (htype : task.jobType = some jobType) (next : Lookup ⊕ Option Nat) :
    workerStage (afterLookup worker task next) = afterAccess jobType next := by
  rcases next with l | (_ | ci) <;> simp [workerStage, afterLookup, afterAccess, htype]

theorem callStage_afterSetLookup (jobType : CStr) (max : Int) (next : Lookup ⊕ Option Nat) :
    callStage ⟨jobType, max, afterSetLookup next⟩ = afterAccess jobType next := by
  rcases next with l | (_ | ci) <;> rfl

/-- Beside the stages of the threads, `kept` has the indexes that are to stay where they are. -/
theorem consistent_step {pool : WorkerPool} {kept : List Stage}
    (h : Consistent pool.jobTypes (kept ++ stages pool)) (hrace : NoRace pool)
    (hkept : ∀ s ∈ kept, ∀ s', Compatible s' s) (e : Event) :
    Consistent (step pool e).jobTypes (kept ++ stages (step pool e)) := by
  have hchange := step_change pool e
  unfold stages
  generalize (Pool.step pool e).workers = workers at hchange ⊢
  generalize (Pool.step pool e).calls = calls at hchange ⊢
  generalize (Pool.step pool e).jobTypes = table at hchange ⊢
  have hsplit : ∀ {s others}, (stages pool).Perm (s :: others) →
      Consistent pool.jobTypes (s :: (kept ++ others)) ∧
        ∀ s' ∈ kept ++ others, Compatible s s' := by
    intro s others hperm
    refine ⟨h.perm ((hperm.append_left kept).trans List.perm_middle), fun s' hs' => ?_⟩
    rcases List.mem_append.mp hs' with hmem | hmem
    · exact hkept s' hmem s
    · exact hrace.compatible hperm s' hmem
  have hjoin : ∀ {table : JobTypes} {l s others}, Consistent table (s :: (kept ++ others)) →
      List.Perm l (s :: others) → Consistent table (kept ++ l) := fun hnew hperm =>
    hnew.perm ((hperm.append_left kept).trans List.perm_middle).symm
  cases hchange with
  | stay => exact h
  | begin jobType max =>
      have hscan := @Consistent.searching _ _ h jobType (.scan 0)
        ⟨Nat.zero_le _, fun _ hj => absurd hj (Nat.not_lt_zero _)⟩ nofun
      have hend : kept ++ (pool.workers.map workerStage ++
          (pool.calls ++ [(⟨jobType, max, .searching (.scan 0)⟩ : SetCall)]).map callStage) =
            kept ++ stages pool ++ [.searching jobType (.scan 0)] := by
        simp [stages, callStage]
      rw [hend]
      exact hscan.perm (List.perm_append_singleton _ _).symm
  | search k jobType max l hk =>
      obtain ⟨others, hbefore, hafter⟩ := stages_call hk
      obtain ⟨hthread, hcompatible⟩ := hsplit hbefore
      have hnew := hthread.access hcompatible
      rw [← callStage_afterSetLookup jobType max] at hnew
      exact hjoin hnew (hafter _)
  | write k jobType max i hk =>
      obtain ⟨others, hbefore, hafter⟩ := stages_call hk
      obtain ⟨hthread, -⟩ := hsplit hbefore
      exact hjoin (hthread.tail.modify i (setMax max) fun _ => rfl).idle (hafter _)
  | move e w phase phase' state state' hw hmove =>
      obtain ⟨others, hbefore, hafter⟩ := stages_worker hw
      obtain ⟨hthread, -⟩ := hsplit hbefore
      refine hjoin ?_ (hafter _)
      cases hmove with
      | begin task =>
          cases htype : task.jobType with
          | none => simpa [workerStage, htype] using hthread
          | some jobType =>
              simp only [workerStage, htype, Option.elim_some]
              exact hthread.tail.searching
                ⟨Nat.zero_le _, fun _ hj => absurd hj (Nat.not_lt_zero _)⟩ nofun
      | untyped task htype => simpa [workerStage, htype] using hthread
      | execute task ci => exact hthread
      | finish task ci hfree => exact hthread.tail.idle
      | _ => exact hthread
  | lookup e w task jobType l state hw htype =>
      obtain ⟨others, hbefore, hafter⟩ := stages_worker hw
      have hstage : workerStage ⟨.searching task l, state⟩ = .searching jobType l := by
        simp [workerStage, htype]
      rw [hstage] at hbefore
      obtain ⟨hthread, hcompatible⟩ := hsplit hbefore
      have hnew := hthread.access hcompatible
      rw [← workerStage_afterLookup htype] at hnew
      exact hjoin hnew (hafter _)
  | acquire e w task ci state state' hw entry hentry hroom =>
      obtain ⟨others, hbefore, hafter⟩ := stages_worker hw
      obtain ⟨hthread, -⟩ := hsplit hbefore
      exact hjoin (hthread.modify ci (addCurrent 1) fun _ => rfl) (hafter _)
  | release e w task jobType ci state state' hw htype =>
      obtain ⟨others, hbefore, hafter⟩ := stages_worker hw
      obtain ⟨hthread, -⟩ := hsplit hbefore
      exact hjoin (hthread.tail.modify ci (addCurrent (-1)) fun _ => rfl).idle (hafter _)

/-! ## Slots are counted -/

def heldIndex (worker : WpWorker) : Option Nat :=
  match worker.phase with
  | .running task ci | .executed task ci => if task.jobType.isSome then ci else none
  | _ => none

def holdsSlot (ci : Nat) (worker : WpWorker) : Bool := heldIndex worker == some ci

structure SlotsCounted (pool : WorkerPool) : Prop where
  typed : ∀ worker ∈ pool.workers, ∀ task ci, worker.phase = .waiting task ci →
    task.jobType ≠ none
  counted : ∀ (ci : Nat) (entry : WpConcurrencyLimit), pool.jobTypes.entries[ci]? = some entry →
    entry.current = pool.workers.countP (holdsSlot ci)

theorem workerStage_of_heldIndex {worker : WpWorker} {ci : Nat}
    (h : heldIndex worker = some ci) : ∃ jobType, workerStage worker = .found jobType ci := by
  obtain ⟨phase, state⟩ := worker
  cases phase with
  | running task index | executed task index =>
      cases htype : task.jobType with
      | none => simp [heldIndex, htype] at h
      | some jobType =>
          have hindex : index = some ci := by simpa [heldIndex, htype] using h
          exact ⟨jobType, by simp [workerStage, htype, hindex]⟩
  | _ => cases h

/-- A worker that moves on changes a count by its own part in it. -/
theorem countP_set_add {workers : List WpWorker} {w : Nat} {worker : WpWorker}
    (hw : workers[w]? = some worker) (p : WpWorker → Bool) (worker' : WpWorker) :
    (workers.set w worker').countP p + (if p worker then 1 else 0) =
      workers.countP p + (if p worker' then 1 else 0) := by
  obtain ⟨hlt, rfl⟩ := List.getElem?_eq_some_iff.mp hw
  rw [List.countP_set hlt]
  have hpos : p workers[w] = true → 0 < workers.countP p := fun hp =>
    List.countP_pos_iff.mpr ⟨_, List.getElem_mem hlt, hp⟩
  split
  next hp =>
    have := hpos hp
    omega
  next => omega

theorem countP_set_of_eq {workers : List WpWorker} {w : Nat} {worker worker' : WpWorker}
    (hw : workers[w]? = some worker) {p : WpWorker → Bool} (hsame : p worker' = p worker) :
    (workers.set w worker').countP p = workers.countP p := by
  have hcount := countP_set_add hw p worker'
  rw [hsame] at hcount
  omega

theorem typed_set {workers : List WpWorker} {w : Nat} {worker' : WpWorker}
    (h : ∀ worker ∈ workers, ∀ task ci, worker.phase = .waiting task ci → task.jobType ≠ none)
    (hnew : ∀ task ci, worker'.phase = .waiting task ci → task.jobType ≠ none) :
    ∀ worker ∈ workers.set w worker', ∀ task ci, worker.phase = .waiting task ci →
      task.jobType ≠ none := by
  intro worker hworker
  rcases List.mem_or_eq_of_mem_set hworker with hold | rfl
  · exact h worker hold
  · exact hnew

/-- An access of a lookup that is alone with its new entry keeps the counters right. -/
theorem SlotsCounted.access {pool : WorkerPool} (h : SlotsCounted pool)
    (hconsistent : Consistent pool.jobTypes (stages pool)) {jobType : CStr} {l : Lookup}
    (hsearch : .searching jobType l ∈ stages pool) {ci : Nat} {entry : WpConcurrencyLimit}
    (hentry : (findConcurrencyIndex pool.jobTypes jobType l).1.entries[ci]? = some entry) :
    entry.current = pool.workers.countP (holdsSlot ci) := by
  obtain ⟨old, hold, hsame | ⟨hfresh, hzero⟩⟩ := current_access pool.jobTypes jobType l hentry
  · rw [hsame]
    exact h.counted ci old hold
  · have hnone : pool.workers.countP (holdsSlot ci) = 0 := by
      rw [List.countP_eq_zero]
      intro worker hworker hholds
      obtain ⟨jobType', hstage⟩ := workerStage_of_heldIndex (eq_of_beq hholds)
      have hfound := workerStage_mem hworker
      rw [hstage] at hfound
      exact absurd (hconsistent.apart _ ci hfound jobType l hsearch ci hfresh) (Nat.lt_irrefl _)
    rw [hzero, hnone]
    rfl

theorem SlotsCounted.addCurrent {pool : WorkerPool} (h : SlotsCounted pool) {w ci : Nat}
    {worker worker' : WpWorker} (hw : pool.workers[w]? = some worker) {delta : Int}
    (hself : (if holdsSlot ci worker' then 1 else 0) =
      (if holdsSlot ci worker then 1 else 0) + delta)
    (hother : ∀ i, i ≠ ci → holdsSlot i worker' = holdsSlot i worker) {i : Nat}
    {entry : WpConcurrencyLimit}
    (hentry : (pool.jobTypes.modify ci (addCurrent delta)).entries[i]? = some entry) :
    entry.current = (pool.workers.set w worker').countP (holdsSlot i) := by
  rw [JobTypes.getElem?_modify] at hentry
  split at hentry
  next heq =>
    subst heq
    obtain ⟨old, hold, rfl⟩ := Option.map_eq_some_iff.mp hentry
    have hcurrent := h.counted ci old hold
    have hcount : ((pool.workers.set w worker').countP (holdsSlot ci) : Int) +
        (if holdsSlot ci worker then 1 else 0) =
        pool.workers.countP (holdsSlot ci) + (if holdsSlot ci worker' then 1 else 0) := by
      exact_mod_cast countP_set_add hw (holdsSlot ci) worker'
    simp only [Pool.addCurrent]
    omega
  next hne =>
    rw [countP_set_of_eq hw (hother i (Ne.symm hne))]
    exact h.counted i entry hentry

theorem heldIndex_afterLookup (worker : WpWorker) (task : WpTask) (next : Lookup ⊕ Option Nat) :
    heldIndex (afterLookup worker task next) = none := by
  rcases next with l | (_ | ci) <;> simp [heldIndex, afterLookup]

theorem heldIndex_of_plainMove {pool : WorkerPool} {phase phase' : Phase}
    (h : PlainMove pool phase phase') (state state' : WpWorkerState) :
    heldIndex ⟨phase', state'⟩ = heldIndex ⟨phase, state⟩ := by
  cases h with
  | finish task ci hfree => rcases hfree with rfl | htype <;> simp [heldIndex, *]
  | untyped task htype => simp [heldIndex]
  | _ => rfl

theorem SlotsCounted.step {pool : WorkerPool} (h : SlotsCounted pool)
    (hconsistent : Consistent pool.jobTypes (stages pool)) (e : Event) :
    SlotsCounted (step pool e) := by
  have hchange := step_change pool e
  generalize hworkers : (Pool.step pool e).workers = workers at hchange
  generalize (Pool.step pool e).calls = calls at hchange
  generalize htable : (Pool.step pool e).jobTypes = table at hchange
  suffices hnew : (∀ worker ∈ workers, ∀ task ci, worker.phase = .waiting task ci →
      task.jobType ≠ none) ∧ ∀ (ci : Nat) (entry : WpConcurrencyLimit),
      table.entries[ci]? = some entry → entry.current = workers.countP (holdsSlot ci) by
    subst hworkers htable
    exact ⟨hnew.1, hnew.2⟩
  cases hchange with
  | stay => exact ⟨h.typed, h.counted⟩
  | begin jobType max => exact ⟨h.typed, h.counted⟩
  | search k jobType max l hk =>
      have hmem : Stage.searching jobType l ∈ stages pool :=
        List.mem_append_right _ (List.mem_map_of_mem (List.mem_of_getElem? hk))
      exact ⟨h.typed, fun ci entry hentry => h.access hconsistent hmem hentry⟩
  | write k jobType max i hk =>
      refine ⟨h.typed, fun ci entry hentry => ?_⟩
      rw [JobTypes.getElem?_modify] at hentry
      split at hentry
      · obtain ⟨old, hold, rfl⟩ := Option.map_eq_some_iff.mp hentry
        exact h.counted ci old hold
      · exact h.counted ci entry hentry
  | move e w phase phase' state state' hw hmove =>
      refine ⟨typed_set h.typed fun task ci hphase => ?_, fun ci entry hentry => ?_⟩
      · cases hmove <;> cases hphase
      · have hsame : holdsSlot ci ⟨phase', state'⟩ = holdsSlot ci ⟨phase, state⟩ := by
          rw [holdsSlot, holdsSlot, heldIndex_of_plainMove hmove state state']
        rw [countP_set_of_eq hw hsame]
        exact h.counted ci entry hentry
  | lookup e w task jobType l state hw htype =>
      have hmem := workerStage_mem (List.mem_of_getElem? hw)
      simp only [workerStage, htype, Option.elim_some] at hmem
      refine ⟨typed_set h.typed ?_, fun ci entry hentry => ?_⟩
      · intro task' ci hphase
        have htask : task' = task := by
          rcases hnext : (findConcurrencyIndex pool.jobTypes jobType l).2 with l' | (_ | i) <;>
            simp_all [afterLookup]
        rw [htask, htype]
        nofun
      · have hsame : holdsSlot ci (afterLookup ⟨.searching task l, state⟩ task
            (findConcurrencyIndex pool.jobTypes jobType l).2) =
              holdsSlot ci ⟨.searching task l, state⟩ := by
          rw [holdsSlot, holdsSlot, heldIndex_afterLookup]
          rfl
        rw [countP_set_of_eq hw hsame]
        exact h.access hconsistent hmem hentry
  | acquire e w task ci state state' hw entry hentry hroom =>
      have htyped := h.typed _ (List.mem_of_getElem? hw) task ci rfl
      have hsome : task.jobType.isSome = true := Option.isSome_iff_ne_none.mpr htyped
      refine ⟨typed_set h.typed nofun, fun i entry' hentry' => ?_⟩
      refine h.addCurrent hw ?_ ?_ hentry'
      · simp [holdsSlot, heldIndex, hsome]
      · intro j hj
        simp [holdsSlot, heldIndex, hsome, Ne.symm hj]
  | release e w task jobType ci state state' hw htype =>
      refine ⟨typed_set h.typed nofun, fun i entry' hentry' => ?_⟩
      refine h.addCurrent hw ?_ ?_ hentry'
      · simp [holdsSlot, heldIndex, htype]
      · intro j hj
        simp [holdsSlot, heldIndex, htype, Ne.symm hj]

/-! ## A type whose limit is set -/

theorem indexOf_eq_of_located {table : JobTypes} {jobType : CStr}
    (hfits : jobType.length ≤ wpJobTypeLen - 1) {t : Nat} (h : Located table jobType t) :
    indexOf table jobType = some t := by
  rw [indexOf, List.find?_range_eq_some]
  refine ⟨beq_iff_eq.mpr (h.name_eq hfits), List.mem_range.mpr h.stored, fun j hj => ?_⟩
  rw [Bool.not_eq_true', beq_eq_false_iff_ne]
  exact h.absent j hj

/-- The entry `t` is the one of the type, and its limit is in force. -/
structure Limited (jobType : CStr) (limit : Int) (t : Nat) (pool : WorkerPool) : Prop where
  consistent : Consistent pool.jobTypes ([.found jobType t] ++ stages pool)
  bounded : ∃ entry, pool.jobTypes.entries[t]? = some entry ∧ entry.maxConcurrent ≠ 0 ∧
    entry.maxConcurrent ≤ limit
  indexed : ∀ worker ∈ pool.workers, runsType jobType worker = true → heldIndex worker ≠ none
  respected : LimitRespected jobType limit pool

theorem workerStage_of_runsType {jobType : CStr} {worker : WpWorker} {ci : Nat}
    (hruns : runsType jobType worker = true) (hheld : heldIndex worker = some ci) :
    workerStage worker = .found jobType ci := by
  obtain ⟨phase, state⟩ := worker
  cases phase with
  | running task index | executed task index =>
      have htype : task.jobType = some jobType := by simpa [runsType, runningTask] using hruns
      have hindex : index = some ci := by simpa [heldIndex, htype] using hheld
      simp [workerStage, htype, hindex]
  | _ => cases hheld

section

variable {jobType : CStr} {limit : Int} {t : Nat} {pool : WorkerPool}
  (h : Limited jobType limit t pool) (hfits : jobType.length ≤ wpJobTypeLen - 1)

include h hfits

theorem Limited.eq_of_found {i : Nat} (hfound : .found jobType i ∈ stages pool) : i = t := by
  have hi : Located pool.jobTypes jobType i := h.consistent.sound _ (List.mem_cons_of_mem _ hfound)
  have ht : Located pool.jobTypes jobType t := h.consistent.sound _ List.mem_cons_self
  exact hi.unique hfits ht

/-- A slot of the entry is free only while fewer than `limit` tasks of the type run. -/
theorem Limited.countP_lt (hslots : SlotsCounted pool) {entry : WpConcurrencyLimit}
    (hentry : pool.jobTypes.entries[t]? = some entry) (hroom : hasRoom entry = true) :
    (pool.workers.countP (runsType jobType) : Int) < limit := by
  obtain ⟨entry', hentry', hnonzero, hle⟩ := h.bounded
  rw [hentry] at hentry'
  cases hentry'
  have hcurrent := hslots.counted t entry hentry
  have hheld : pool.workers.countP (runsType jobType) ≤ pool.workers.countP (holdsSlot t) := by
    refine List.countP_mono_left fun worker hworker hruns => ?_
    obtain ⟨ci, hci⟩ := Option.ne_none_iff_exists'.mp (h.indexed worker hworker hruns)
    have hfound := workerStage_mem hworker
    rw [workerStage_of_runsType hruns hci] at hfound
    rw [h.eq_of_found hfits hfound] at hci
    exact beq_iff_eq.mpr hci
  have hfree : entry.maxConcurrent = 0 ∨ entry.current < entry.maxConcurrent :=
    of_decide_eq_true hroom
  omega

theorem Limited.bounded_step {e : Event} (hkeeps : KeepsLimit jobType limit pool e) :
    ∃ entry, (step pool e).jobTypes.entries[t]? = some entry ∧ entry.maxConcurrent ≠ 0 ∧
      entry.maxConcurrent ≤ limit := by
  have hchange := step_change pool e
  generalize (step pool e).workers = workers at hchange
  generalize (step pool e).calls = calls at hchange
  generalize (step pool e).jobTypes = table at hchange ⊢
  have hsearch : ∀ {jobType' l}, .searching jobType' l ∈ stages pool →
      (findConcurrencyIndex pool.jobTypes jobType' l).1.entries[t]? =
        pool.jobTypes.entries[t]? := by
    intro jobType' l hmem
    refine entries_access _ _ fun hfresh => ?_
    exact absurd (h.consistent.apart jobType t List.mem_cons_self jobType' l
      (List.mem_cons_of_mem _ hmem) t hfresh) (Nat.lt_irrefl t)
  obtain ⟨entry, hentry, hbounds⟩ := h.bounded
  have hmodify : ∀ i f, (i = t → (f entry).maxConcurrent ≠ 0 ∧ (f entry).maxConcurrent ≤ limit) →
      ∃ entry', (pool.jobTypes.modify i f).entries[t]? = some entry' ∧ entry'.maxConcurrent ≠ 0 ∧
        entry'.maxConcurrent ≤ limit := by
    intro i f hf
    by_cases hi : i = t
    · exact ⟨f entry, by rw [JobTypes.getElem?_modify, if_pos hi, hentry]; rfl, hf hi⟩
    · exact ⟨entry, by rw [JobTypes.getElem?_modify, if_neg hi, hentry], hbounds⟩
  cases hchange with
  | stay | begin | move => exact ⟨entry, hentry, hbounds⟩
  | search k jobType' max l hk =>
      refine ⟨entry, ?_, hbounds⟩
      have hmem : callStage ⟨jobType', max, .searching l⟩ ∈ stages pool :=
        List.mem_append_right _ (List.mem_map_of_mem (List.mem_of_getElem? hk))
      rw [hsearch hmem, hentry]
  | write k jobType' max i hk =>
      refine hmodify i (setMax max) fun hi => ?_
      have hlocated : Located pool.jobTypes jobType t := h.consistent.sound _ List.mem_cons_self
      subst hi
      exact hkeeps _ hk i (indexOf_eq_of_located hfits hlocated) rfl
  | lookup e w task jobType' l state hw htype =>
      refine ⟨entry, ?_, hbounds⟩
      have hmem := workerStage_mem (List.mem_of_getElem? hw)
      simp only [workerStage, htype, Option.elim_some] at hmem
      rw [hsearch hmem, hentry]
  | acquire e w task ci state state' hw entry' hentry' hroom =>
      exact hmodify ci (addCurrent 1) fun _ => hbounds
  | release e w task jobType' ci state state' hw htype =>
      exact hmodify ci (addCurrent (-1)) fun _ => hbounds

omit hfits in
/-- A worker that moves on keeps the limit if a task of the type only starts in a free slot. -/
theorem Limited.set {w : Nat} {worker worker' : WpWorker} (hw : pool.workers[w]? = some worker)
    (hruns : runsType jobType worker' = true → heldIndex worker' ≠ none ∧
      (runsType jobType worker = true ∨
        (pool.workers.countP (runsType jobType) : Int) < limit)) :
    (∀ x ∈ pool.workers.set w worker', runsType jobType x = true → heldIndex x ≠ none) ∧
      ((pool.workers.set w worker').countP (runsType jobType) : Int) ≤ limit := by
  refine ⟨fun x hx hrunsx => ?_, ?_⟩
  · rcases List.mem_or_eq_of_mem_set hx with hold | rfl
    · exact h.indexed x hold hrunsx
    · exact (hruns hrunsx).1
  · have hcount := countP_set_add hw (runsType jobType) worker'
    have hbefore : (pool.workers.countP (runsType jobType) : Int) ≤ limit := h.respected
    by_cases hnew : runsType jobType worker' = true
    · rw [if_pos hnew] at hcount
      rcases (hruns hnew).2 with hold | hroom
      · rw [if_pos hold] at hcount
        omega
      · omega
    · rw [if_neg hnew] at hcount
      omega

theorem Limited.workers_step (hslots : SlotsCounted pool) (e : Event) :
    (∀ worker ∈ (step pool e).workers, runsType jobType worker = true → heldIndex worker ≠ none) ∧
      LimitRespected jobType limit (step pool e) := by
  unfold LimitRespected
  have hchange := step_change pool e
  generalize (step pool e).workers = workers at hchange ⊢
  generalize (step pool e).calls = calls at hchange
  generalize (step pool e).jobTypes = table at hchange
  cases hchange with
  | stay | begin | search | write => exact ⟨h.indexed, h.respected⟩
  | move e w phase phase' state state' hw hmove =>
      refine h.set hw fun hruns => ?_
      cases hmove with
      | execute task ci =>
          have hheld := h.indexed _ (List.mem_of_getElem? hw) hruns
          exact ⟨hheld, .inl hruns⟩
      | untyped task htype => simp [runsType, runningTask, htype] at hruns
      | _ => cases hruns
  | lookup e w task jobType' l state hw htype =>
      refine h.set hw fun hruns => ?_
      have hmem := workerStage_mem (List.mem_of_getElem? hw)
      simp only [workerStage, htype, Option.elim_some] at hmem
      have hnone := @Consistent.access_ne_none _ _ h.consistent jobType hfits t
        List.mem_cons_self l
      rcases hnext : (findConcurrencyIndex pool.jobTypes jobType' l).2 with l' | (_ | ci)
      · rw [hnext] at hruns
        cases hruns
      · -- the type is in the table, so its lookup does not end without an index
        have htype' : jobType' = jobType := by
          simpa [hnext, runsType, runningTask, afterLookup, htype] using hruns
        subst htype'
        exact absurd hnext (hnone (List.mem_cons_of_mem _ hmem))
      · rw [hnext] at hruns
        cases hruns
  | acquire e w task ci state state' hw entry hentry hroom =>
      refine h.set hw fun hruns => ?_
      have htype : task.jobType = some jobType := by simpa [runsType, runningTask] using hruns
      have hmem := workerStage_mem (List.mem_of_getElem? hw)
      simp only [workerStage, htype, Option.elim_some] at hmem
      obtain rfl : ci = t := h.eq_of_found hfits hmem
      exact ⟨by simp [heldIndex, htype], .inr (h.countP_lt hfits hslots hentry hroom)⟩
  | release e w task jobType' ci state state' hw htype => exact h.set hw nofun

theorem Limited.step (hslots : SlotsCounted pool) (hrace : NoRace pool) {e : Event}
    (hkeeps : KeepsLimit jobType limit pool e) : Limited jobType limit t (step pool e) where
  consistent := by
    refine consistent_step h.consistent hrace (fun s hs s' => ?_) e
    rw [List.mem_singleton.mp hs]
    cases s' <;> trivial
  bounded := h.bounded_step hfits hkeeps
  indexed := (h.workers_step hfits hslots e).1
  respected := (h.workers_step hfits hslots e).2

end

/-! ## Before the limit is set -/

def taskOf : Phase → Option WpTask
  | .popped task | .searching task _ | .waiting task _ | .running task _ | .executed task _ =>
      some task
  | .loopTop | .polling | .exited => none

structure Unseen (jobType : CStr) (pool : WorkerPool) : Prop where
  queue : ∀ i, (pool.queue.slots i).jobType ≠ some jobType
  workers : ∀ worker ∈ pool.workers, ∀ task, taskOf worker.phase = some task →
    task.jobType ≠ some jobType

theorem slots_advance (pool : WorkerPool) (w : Nat) :
    (advance pool w).queue.slots = pool.queue.slots := by
  unfold advance
  cases pool.workers[w]? with
  | none => rfl
  | some worker =>
      dsimp only
      cases worker.phase with
      | loopTop =>
          simp only [checkLoop]
          split <;> rfl
      | polling =>
          simp only [qPop]
          split <;> rfl
      | popped task =>
          simp only [startTask]
          split <;> rfl
      | searching task l =>
          simp only [lookupType]
          split <;> rfl
      | waiting task ci =>
          simp only [acquireSlot]
          split
          · rfl
          · split <;> rfl
      | _ => rfl

theorem slots_step (pool : WorkerPool) (e : Event) (i : Nat) :
    (step pool e).queue.slots i = pool.queue.slots i ∨
      ∃ task, e = .submit task ∧ (step pool e).queue.slots i = task := by
  cases e with
  | submit task =>
      simp only [step, qPush]
      split
      · exact Or.inl rfl
      · simp only [RingBuffer.push, Function.update_apply]
        split
        · exact Or.inr ⟨task, rfl, rfl⟩
        · exact Or.inl rfl
  | setConcurrencyLimit jobType max =>
      left
      cases jobType <;> rfl
  | client k =>
      left
      simp only [step, wpSetConcurrencyLimit]
      split
      · rfl
      · split <;> rfl
  | shutdown => exact Or.inl rfl
  | shutdownGraceful => exact Or.inl rfl
  | finishGraceful =>
      left
      simp only [step]
      split <;> rfl
  | worker w => exact Or.inl (congrFun (slots_advance pool w) i)
  | timeout w =>
      left
      simp only [step, giveUp]
      split
      · rfl
      · split <;> rfl

theorem taskOf_of_plainMove {pool : WorkerPool} {phase phase' : Phase}
    (h : PlainMove pool phase phase') {task : WpTask} (htask : taskOf phase' = some task) :
    taskOf phase = some task ∨ task = pool.queue.front := by
  cases h with
  | pop => exact Or.inr (Option.some.inj htask).symm
  | untyped task' | begin task' | execute task' => exact Or.inl htask
  | _ => cases htask

theorem taskOf_afterLookup {worker : WpWorker} {task : WpTask} (next : Lookup ⊕ Option Nat) :
    taskOf (afterLookup worker task next).phase = some task := by
  rcases next with l | (_ | ci) <;> rfl

theorem Unseen.set {jobType : CStr} {pool : WorkerPool} (h : Unseen jobType pool) {w : Nat}
    {worker worker' : WpWorker} (hw : pool.workers[w]? = some worker)
    (htask : ∀ task, taskOf worker'.phase = some task →
      taskOf worker.phase = some task ∨ task = pool.queue.front) :
    ∀ x ∈ pool.workers.set w worker', ∀ task, taskOf x.phase = some task →
      task.jobType ≠ some jobType := by
  intro x hx task hx'
  rcases List.mem_or_eq_of_mem_set hx with hold | rfl
  · exact h.workers x hold task hx'
  · rcases htask task hx' with hsame | rfl
    · exact h.workers worker (List.mem_of_getElem? hw) task hsame
    · exact h.queue pool.queue.head

theorem Unseen.step {jobType : CStr} {pool : WorkerPool} (h : Unseen jobType pool) {e : Event}
    (he : submitsType jobType e = false) : Unseen jobType (step pool e) where
  queue := by
    intro i
    rcases slots_step pool e i with hsame | ⟨task, rfl, hnew⟩
    · rw [hsame]
      exact h.queue i
    · rw [hnew]
      simpa [submitsType] using he
  workers := by
    have hchange := step_change pool e
    generalize (Pool.step pool e).workers = workers at hchange
    generalize (Pool.step pool e).calls = calls at hchange
    generalize (Pool.step pool e).jobTypes = table at hchange
    cases hchange with
    | stay | begin | search | write => exact h.workers
    | move e w phase phase' state state' hw hmove =>
        exact h.set hw fun task htask => taskOf_of_plainMove hmove htask
    | lookup e w task jobType' l state hw =>
        refine h.set hw fun task' htask => ?_
        rw [taskOf_afterLookup] at htask
        exact Or.inl htask
    | acquire e w task ci state state' hw => exact h.set hw fun task' htask => Or.inl htask
    | release e w task jobType' ci state state' hw => exact h.set hw nofun

theorem Unseen.not_runsType {jobType : CStr} {pool : WorkerPool} (h : Unseen jobType pool)
    {worker : WpWorker} (hworker : worker ∈ pool.workers) : ¬ runsType jobType worker = true := by
  intro hruns
  have hnone := h.workers worker hworker
  obtain ⟨phase, state⟩ := worker
  cases phase with
  | running task ci | executed task ci =>
      exact hnone task rfl (by simpa [runsType, runningTask] using hruns)
  | _ => cases hruns

/-! ## Whole runs -/

structure Ready (jobType : CStr) (pool : WorkerPool) : Prop where
  consistent : Consistent pool.jobTypes (stages pool)
  slots : SlotsCounted pool
  unseen : Unseen jobType pool

theorem workerPoolCreate_ready (jobType : CStr) (config : Option WpConfig) :
    Ready jobType (workerPoolCreate config) := by
  have hloop : ∀ worker ∈ (workerPoolCreate config).workers, worker.phase = .loopTop := by
    intro worker hworker
    rw [List.eq_of_mem_replicate hworker]
  have hidle : ∀ s ∈ stages (workerPoolCreate config), s = .idle := by
    intro s hs
    rcases List.mem_append.mp hs with hs | hs
    · obtain ⟨worker, hworker, rfl⟩ := List.mem_map.mp hs
      simp [workerStage, hloop worker hworker]
    · cases hs
  refine ⟨⟨List.length_replicate, Nat.zero_le _, ?_, ?_⟩, ⟨?_, ?_⟩, ⟨fun _ => nofun, ?_⟩⟩
  · intro s hs
    rw [hidle s hs]
    trivial
  · intro _ _ hfound
    cases hidle _ hfound
  · intro worker hworker task ci hphase
    rw [hloop worker hworker] at hphase
    cases hphase
  · intro ci entry hentry
    have hnone : (workerPoolCreate config).workers.countP (holdsSlot ci) = 0 := by
      rw [List.countP_eq_zero]
      intro worker hworker
      simp [holdsSlot, heldIndex, hloop worker hworker]
    rw [hnone, List.eq_of_mem_replicate (List.mem_of_getElem? hentry)]
    rfl
  · intro worker hworker task htask
    rw [hloop worker hworker] at htask
    cases htask

theorem Ready.step {jobType : CStr} {pool : WorkerPool} (h : Ready jobType pool)
    (hrace : NoRace pool) {e : Event} (he : submitsType jobType e = false) :
    Ready jobType (step pool e) where
  consistent := @consistent_step pool [] h.consistent hrace nofun e
  slots := h.slots.step h.consistent e
  unseen := h.unseen.step he

/-- The call writes the limit. -/
theorem Ready.limited {jobType : CStr} {limit : Int} {pool : WorkerPool} (h : Ready jobType pool)
    (hrace : NoRace pool) (hlimit : 0 < limit) {k i : Nat}
    (hset : pool.calls[k]? = some ⟨jobType, limit, .writing i⟩) :
    Limited jobType limit i (Pool.step pool (.client k)) := by
  have hmem : Stage.found jobType i ∈ stages pool :=
    List.mem_append_right _ (List.mem_map_of_mem (List.mem_of_getElem? hset))
  have hlocated : Located pool.jobTypes jobType i := h.consistent.sound _ hmem
  have hkept : Consistent pool.jobTypes ([.found jobType i] ++ stages pool) :=
    h.consistent.found hlocated fun jobType' l hsearch => h.consistent.apart _ _ hmem _ _ hsearch
  have hunseen : Unseen jobType (Pool.step pool (.client k)) := h.unseen.step rfl
  refine ⟨consistent_step hkept hrace (fun s hs s' => ?_) _, ?_, ?_, ?_⟩
  · rw [List.mem_singleton.mp hs]
    cases s' <;> trivial
  · have hlt : i < pool.jobTypes.entries.length := by
      rw [h.consistent.length_eq]
      exact hlocated.stored.trans_le h.consistent.count_le
    refine ⟨setMax limit pool.jobTypes.entries[i], ?_, hlimit.ne', le_rfl⟩
    simp only [Pool.step, wpSetConcurrencyLimit, hset]
    rw [JobTypes.getElem?_modify, if_pos rfl, List.getElem?_eq_getElem hlt]
    rfl
  · exact fun worker hworker hruns => absurd hruns (hunseen.not_runsType hworker)
  · have hnone : (Pool.step pool (.client k)).workers.countP (runsType jobType) = 0 :=
      List.countP_eq_zero.mpr fun worker hworker => hunseen.not_runsType hworker
    rw [LimitRespected, hnone]
    exact hlimit.le

/-- The step `client k` after `before` is the one that sets the limit of the type.  No task of the
type has been submitted until then, and no limit written later raises or lifts it. -/
theorem concurrency_limit_respected (config : Option WpConfig) (jobType : CStr)
    (hfits : jobType.length ≤ wpJobTypeLen - 1) (limit : Int) (hlimit : 0 < limit)
    (before after : List Event) (k i : Nat)
    (hbefore : ∀ e ∈ before, submitsType jobType e = false)
    (hset : (run step (workerPoolCreate config) before).calls[k]? =
      some ⟨jobType, limit, .writing i⟩)
    (hrace : Always step (fun pool _ => NoRace pool) (workerPoolCreate config)
      (before ++ .client k :: after))
    (hafter : Always step (KeepsLimit jobType limit)
      (run step (workerPoolCreate config) (before ++ [.client k])) after) :
    LimitRespected jobType limit
      (run step (workerPoolCreate config) (before ++ .client k :: after)) := by
  obtain ⟨hrace₁, hrace₂, hrace₃⟩ := (always_append step).mp hrace
  have hready : Ready jobType (run step (workerPoolCreate config) before) :=
    run_invariant step (fun pool e hpool he => hpool.step he.1 he.2)
      (workerPoolCreate_ready jobType config) (hrace₁.and_forall step hbefore)
  rw [run_append] at hafter ⊢
  have hend := run_invariant (I := fun pool => Consistent pool.jobTypes (stages pool) ∧
      SlotsCounted pool ∧ Limited jobType limit i pool) step
    (fun pool e hpool he => ⟨@consistent_step pool [] hpool.1 he.1 nofun e,
      hpool.2.1.step hpool.1 e, hpool.2.2.step hfits hpool.2.1 he.1 he.2⟩)
    ⟨@consistent_step _ [] hready.consistent hrace₂ nofun _,
      hready.slots.step hready.consistent _, hready.limited hrace₂ hlimit hset⟩
    (hrace₃.and step hafter)
  exact hend.2.2.respected

/-- A name of `n` bytes. -/
def typeName (n : Nat) : CStr := List.replicate n 109

def typedTask (jobType : CStr) : WpTask := ⟨1, 7, 0, 0, 0, some jobType⟩

/-- A call up to the write of the limit, when the table has no entries. -/
def newLimit (jobType : CStr) (max : Int) : List Event :=
  .setConcurrencyLimit (some jobType) max :: List.replicate 7 (.client 0)

/-- Two tasks of the type, taken by two workers that make `n` and `m` steps. -/
def twoTasks (jobType : CStr) (n m : Nat) : List Event :=
  [.submit (typedTask jobType), .submit (typedTask jobType)] ++ List.replicate n (.worker 0) ++
    List.replicate m (.worker 1)

theorem concurrency_limit_respected_two_tasks :
    LimitRespected (typeName 31) 1 (run step (workerPoolCreate (some ⟨2, 8⟩))
      (newLimit (typeName 31) 1 ++ .client 0 :: twoTasks (typeName 31) 5 5)) :=
  concurrency_limit_respected (some ⟨2, 8⟩) (typeName 31) (by decide) 1 (by decide)
    (newLimit (typeName 31) 1) (twoTasks (typeName 31) 5 5) 0 0 (by decide) (by decide) (by decide)
    (by decide)

/-- A name of 32 bytes is stored without its last one: both workers get an entry without a
limit and run the task at once. -/
theorem long_type_exceeds_limit :
    (run step (workerPoolCreate (some ⟨2, 8⟩)) (newLimit (typeName 32) 1 ++ [.client 0])).calls =
        [⟨typeName 32, 1, .returned 0⟩] ∧
      Always step (fun pool _ => NoRace pool) (workerPoolCreate (some ⟨2, 8⟩))
        (newLimit (typeName 32) 1 ++ .client 0 :: twoTasks (typeName 32) 12 13) ∧
      ¬LimitRespected (typeName 32) 1 (run step (workerPoolCreate (some ⟨2, 8⟩))
        (newLimit (typeName 32) 1 ++ .client 0 :: twoTasks (typeName 32) 12 13)) := by
  decide

/-- Two calls that have both found nothing take the same entry: the name of the second type
replaces that of the first, and the limit of the first is lost. -/
def lostUpdate : List Event :=
  [.setConcurrencyLimit (some (typeName 1)) 1, .setConcurrencyLimit (some (typeName 2)) 5] ++
    [.client 0, .client 0, .client 0, .client 1, .client 1, .client 1] ++
    List.replicate 5 (.client 0) ++ List.replicate 5 (.client 1)

theorem race_exceeds_limit :
    (run step (workerPoolCreate (some ⟨2, 8⟩)) lostUpdate).calls =
        [⟨typeName 1, 1, .returned 0⟩, ⟨typeName 2, 5, .returned 0⟩] ∧
      ¬LimitRespected (typeName 1) 1 (run step (workerPoolCreate (some ⟨2, 8⟩))
        (lostUpdate ++ twoTasks (typeName 1) 12 6)) := by
  decide

end MiniBackend.JobSystem.Proofs.ConcurrencyLimit
