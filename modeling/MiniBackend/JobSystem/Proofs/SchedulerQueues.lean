import MiniBackend.JobSystem.PriorityScheduler
import MiniBackend.Lib.Runs

/-!
# The queues of the priority scheduler hold every waiting job

The table of jobs says which jobs wait; the queues decide which one is next.  A queue has
64 slots and takes any number of indices, so the index of a waiting job can be
overwritten.  As long as that does not happen every waiting job is in some queue, and the
scheduler finds one whenever there is one.
-/

namespace MiniBackend.JobSystem.Proofs.SchedulerQueues

open MiniBackend.Lib.Runs MiniBackend.Lib.CircularQueue MiniBackend.JobSystem.Priority

def waiting (sched : PsScheduler) (lev : Nat) : List Nat :=
  (sched.queues lev).contents psMaxJobsPerLevel

def ActiveAt (sched : PsScheduler) (idx : Nat) : Prop :=
  ∃ job, sched.jobs[idx]? = some job ∧ job.active = true

/-- The queues are in order, and every waiting job is in the queue of some level. -/
structure Queued (sched : PsScheduler) : Prop where
  levels : 0 < sched.levelCount
  wellFormed : ∀ lev, (sched.queues lev).WellFormed psMaxJobsPerLevel
  known : ∀ lev, ∀ idx ∈ waiting sched lev, idx < sched.jobs.length
  complete : ∀ idx, ActiveAt sched idx → ∃ lev < sched.levelCount, idx ∈ waiting sched lev

/-! ## Changes that leave the queues alone -/

theorem Queued.of_replaced_queue {sched sched' : PsScheduler} (h : Queued sched) {lev : Nat}
    {queue : RingBuffer Nat} (hqueues : sched'.queues = Function.update sched.queues lev queue)
    (hlevels : sched'.levelCount = sched.levelCount)
    (hlength : sched'.jobs.length = sched.jobs.length)
    (hactive : ∀ idx, ActiveAt sched' idx → ActiveAt sched idx)
    (hwf : queue.WellFormed psMaxJobsPerLevel)
    (hold : ∀ idx ∈ queue.contents psMaxJobsPerLevel, idx ∈ waiting sched lev)
    (hkept : ∀ idx ∈ waiting sched lev, ActiveAt sched' idx →
      idx ∈ queue.contents psMaxJobsPerLevel) : Queued sched' := by
  have hsame : waiting sched' lev = queue.contents psMaxJobsPerLevel := by
    rw [waiting, hqueues, Function.update_self]
  have hother : ∀ lev', lev' ≠ lev → waiting sched' lev' = waiting sched lev' := by
    intro lev' hne
    rw [waiting, hqueues, Function.update_of_ne hne, waiting]
  refine ⟨by rw [hlevels]; exact h.levels, ?_, ?_, ?_⟩
  · intro lev'
    rw [hqueues]
    by_cases hne : lev' = lev
    · rw [hne, Function.update_self]
      exact hwf
    · rw [Function.update_of_ne hne]
      exact h.wellFormed lev'
  · intro lev' idx hidx
    rw [hlength]
    by_cases hne : lev' = lev
    · rw [hne, hsame] at hidx
      exact h.known lev idx (hold idx hidx)
    · rw [hother lev' hne] at hidx
      exact h.known lev' idx hidx
  · intro idx hidx
    obtain ⟨lev', hlt, hmem⟩ := h.complete idx (hactive idx hidx)
    refine ⟨lev', by rwa [hlevels], ?_⟩
    by_cases hne : lev' = lev
    · rw [hne] at hmem ⊢
      rw [hsame]
      exact hkept idx hmem hidx
    · rw [hother lev' hne]
      exact hmem

theorem Queued.of_same_queues {sched sched' : PsScheduler} (h : Queued sched)
    (hqueues : sched'.queues = sched.queues) (hlevels : sched'.levelCount = sched.levelCount)
    (hlength : sched'.jobs.length = sched.jobs.length)
    (hactive : ∀ idx, ActiveAt sched' idx → ActiveAt sched idx) : Queued sched' := by
  have hupdate : sched'.queues = Function.update sched.queues 0 (sched.queues 0) := by
    rw [hqueues, Function.update_eq_self]
  exact h.of_replaced_queue hupdate hlevels hlength hactive (h.wellFormed 0) (fun _ hidx => hidx)
    fun _ hidx _ => hidx

theorem activeAt_setJob {sched : PsScheduler} {idx i : Nat} {f : PsJobEntry → PsJobEntry}
    (hf : ∀ job, (f job).active = true → job.active = true)
    (h : ActiveAt (setJob sched idx f) i) : ActiveAt sched i := by
  obtain ⟨job, hjob, hactive⟩ := h
  simp only [setJob, List.getElem?_modify] at hjob
  obtain ⟨old, hold, heq⟩ := Option.map_eq_some_iff.mp hjob
  refine ⟨old, hold, ?_⟩
  by_cases hidx : idx = i
  · rw [if_pos hidx] at heq
    apply hf
    rw [heq]
    exact hactive
  · rw [if_neg hidx] at heq
    rw [show old = job from heq]
    exact hactive

theorem Queued.setJob {sched : PsScheduler} (h : Queued sched) (idx : Nat)
    {f : PsJobEntry → PsJobEntry} (hf : ∀ job, (f job).active = true → job.active = true) :
    Queued (setJob sched idx f) := by
  refine h.of_same_queues rfl rfl ?_ ?_
  · simp [Priority.setJob]
  · exact fun i hi => activeAt_setJob hf hi

theorem Queued.retire {sched : PsScheduler} (h : Queued sched) (idx : Nat) :
    Queued (retire sched idx) := by
  have hset := h.setJob idx (f := deactivate) fun _ hf => nomatch hf
  exact hset.of_same_queues rfl rfl rfl fun _ hi => hi

theorem activeAt_map {sched sched' : PsScheduler} {f : PsJobEntry → PsJobEntry}
    (hjobs : sched'.jobs = sched.jobs.map f) (hf : ∀ job, (f job).active = job.active)
    (idx : Nat) :
    ActiveAt sched' idx ↔ ActiveAt sched idx := by
  simp only [ActiveAt, hjobs, List.getElem?_map]
  constructor
  · intro h
    obtain ⟨job, hjob, hactive⟩ := h
    obtain ⟨old, hold, rfl⟩ := Option.map_eq_some_iff.mp hjob
    exact ⟨old, hold, by rwa [hf] at hactive⟩
  · intro h
    obtain ⟨job, hjob, hactive⟩ := h
    exact ⟨f job, by rw [hjob]; rfl, by rwa [hf]⟩

theorem ageJob_active (sched : PsScheduler) (now : Int) (job : PsJobEntry) :
    (ageJob sched now job).active = job.active := by
  unfold ageJob
  split <;> rfl

theorem Queued.psAgeJobs {sched : PsScheduler} (h : Queued sched) (now : Int) :
    Queued (psAgeJobs sched now).2 := by
  refine h.of_same_queues rfl rfl ?_ ?_
  · simp [Priority.psAgeJobs]
  · intro idx hidx
    exact (activeAt_map rfl (ageJob_active sched now) idx).mp hidx

theorem Queued.autoAge {sched : PsScheduler} (h : Queued sched) (now : Int) :
    Queued (autoAge sched now) := by
  unfold Priority.autoAge
  split
  · exact (h.psAgeJobs now).of_same_queues rfl rfl rfl fun _ hi => hi
  · exact h

/-! ## Submitting -/

def SlotFree (sched : PsScheduler) (priority : Int) : Prop :=
  let queue := sched.queues (clampPriority sched.levelCount priority).toNat
  queue.count < psMaxJobsPerLevel ∨
    ((sched.jobs[queue.slots queue.tail]?).any PsJobEntry.active) = false

theorem clampPriority_range {levels : Nat} (h : 0 < levels) (priority : Int) :
    0 ≤ clampPriority levels priority ∧ clampPriority levels priority < levels := by
  simp only [clampPriority]
  split <;> split <;> omega

theorem clampPriority_idem {levels : Nat} (h : 0 < levels) (priority : Int) :
    clampPriority levels (clampPriority levels priority) = clampPriority levels priority := by
  obtain ⟨hnonneg, hlt⟩ := clampPriority_range h priority
  generalize clampPriority levels priority = clamped at hnonneg hlt ⊢
  simp only [clampPriority]
  rw [if_neg (by omega), if_neg (by omega)]

def submitted (sched : PsScheduler) (id job ud : UInt64) (priority tickets now : Int) :
    PsScheduler :=
  let lev := (clampPriority sched.levelCount priority).toNat
  { sched with
    jobs := sched.jobs ++ [newJob id job ud (clampPriority sched.levelCount priority) tickets now]
    queues := Function.update sched.queues lev
      ((sched.queues lev).push psMaxJobsPerLevel sched.jobs.length)
    totalSubmitted := sched.totalSubmitted + 1 }

theorem psSubmit_cases {sched : PsScheduler} (h : 0 < sched.levelCount) (id : UInt64)
    (job : Option UInt64) (ud : UInt64) (priority tickets now : Int) :
    (psSubmit sched id job ud priority tickets now).2 = sched ∨
      ∃ fn, job = some fn ∧ sched.jobs.length < psMaxJobs ∧
        (psSubmit sched id job ud priority tickets now).2 =
          submitted sched id fn ud priority tickets now := by
  cases job with
  | none => exact Or.inl rfl
  | some fn =>
      simp only [psSubmit]
      split
      · exact Or.inl rfl
      next hroom =>
        refine Or.inr ⟨fn, rfl, by omega, ?_⟩
        simp only [enqueueAtLevel, submitted, clampPriority_idem h]

theorem activeAt_submitted {sched : PsScheduler} {id job ud : UInt64}
    {priority tickets now : Int} {idx : Nat}
    (h : ActiveAt (submitted sched id job ud priority tickets now) idx) :
    ActiveAt sched idx ∨ idx = sched.jobs.length := by
  obtain ⟨found, hfound, hactive⟩ := h
  simp only [submitted] at hfound
  rcases Nat.lt_trichotomy idx sched.jobs.length with hlt | heq | hgt
  · rw [List.getElem?_append_left hlt] at hfound
    exact Or.inl ⟨found, hfound, hactive⟩
  · exact Or.inr heq
  · rw [List.getElem?_eq_none (by simp; omega)] at hfound
    cases hfound

theorem Queued.submitted {sched : PsScheduler} (h : Queued sched) (id job ud : UInt64)
    {priority : Int} (hfree : SlotFree sched priority) (tickets now : Int) :
    Queued (submitted sched id job ud priority tickets now) := by
  have hlev : (clampPriority sched.levelCount priority).toNat < sched.levelCount := by
    have := clampPriority_range h.levels priority
    omega
  have hlength : (SchedulerQueues.submitted sched id job ud priority tickets now).jobs.length =
      sched.jobs.length + 1 := by
    simp [SchedulerQueues.submitted]
  have hring := h.wellFormed (clampPriority sched.levelCount priority).toNat
  have hother : ∀ lev, lev ≠ (clampPriority sched.levelCount priority).toNat →
      (SchedulerQueues.submitted sched id job ud priority tickets now).queues lev =
        sched.queues lev :=
    fun lev hne => Function.update_of_ne hne _ _
  have hsame : (SchedulerQueues.submitted sched id job ud priority tickets now).queues
      (clampPriority sched.levelCount priority).toNat =
        (sched.queues (clampPriority sched.levelCount priority).toNat).push psMaxJobsPerLevel
          sched.jobs.length :=
    Function.update_self _ _ _
  refine ⟨h.levels, ?_, ?_, ?_⟩
  · intro lev
    by_cases hne : lev = (clampPriority sched.levelCount priority).toNat
    · rw [hne, hsame]
      exact hring.push _
    · rw [hother lev hne]
      exact h.wellFormed lev
  · intro lev idx hidx
    rw [hlength]
    by_cases hne : lev = (clampPriority sched.levelCount priority).toNat
    · rw [waiting, hne, hsame] at hidx
      rcases hring.of_mem_contents_push hidx with rfl | hold
      · omega
      · exact Nat.lt_succ_of_lt (h.known _ idx hold)
    · rw [waiting, hother lev hne] at hidx
      exact Nat.lt_succ_of_lt (h.known lev idx hidx)
  · intro idx hidx
    rcases activeAt_submitted hidx with hold | rfl
    · obtain ⟨lev, hlt, hmem⟩ := h.complete idx hold
      refine ⟨lev, hlt, ?_⟩
      by_cases hne : lev = (clampPriority sched.levelCount priority).toNat
      · rw [waiting, hne, hsame]
        rw [waiting, hne] at hmem
        apply hring.mem_contents_push hmem
        -- the overwritten index, if any, is not that of a waiting job
        rcases hfree with hroom | hdone
        · exact Or.inl hroom
        · right
          intro heq
          obtain ⟨old, hfound, hactive⟩ := hold
          rw [← heq, hfound] at hdone
          simp [hactive] at hdone
      · rw [waiting, hother lev hne]
        exact hmem
    · refine ⟨_, hlev, ?_⟩
      rw [waiting, hsame]
      exact hring.mem_contents_push_self _

/-! ## Dispatching -/

/-- The next job is the first one that waits in `order`; it stops waiting. -/
structure Dispatches (order : List Nat) (sched : PsScheduler) (job : PsJobEntry)
    (sched' : PsScheduler) (idx : Nat) : Prop where
  first : ∃ before after, order = before ++ idx :: after ∧ ∀ i ∈ before, ¬ ActiveAt sched i
  found : sched.jobs[idx]? = some job
  active : job.active = true
  jobs_eq : sched'.jobs = sched.jobs.modify idx deactivate

def withQueue (sched : PsScheduler) (lev : Nat) (queue : RingBuffer Nat) : PsScheduler :=
  { sched with queues := Function.update sched.queues lev queue }

theorem withQueue_self (sched : PsScheduler) (lev : Nat) :
    withQueue sched lev (sched.queues lev) = sched := by
  simp [withQueue]

theorem withQueue_withQueue (sched : PsScheduler) (lev : Nat) (queue queue' : RingBuffer Nat) :
    withQueue (withQueue sched lev queue) lev queue' = withQueue sched lev queue' := by
  simp [withQueue]

theorem waiting_withQueue_of_ne (sched : PsScheduler) {lev lev' : Nat} (h : lev' ≠ lev)
    (queue : RingBuffer Nat) : waiting (withQueue sched lev queue) lev' = waiting sched lev' := by
  simp [waiting, withQueue, h]

def LevelIdle (lev : Nat) (sched : PsScheduler) (result : Option PsJobEntry × PsScheduler) :
    Prop :=
  (∀ idx ∈ waiting sched lev, ¬ ActiveAt sched idx) ∧
    ∃ queue : RingBuffer Nat, queue.WellFormed psMaxJobsPerLevel ∧
      queue.contents psMaxJobsPerLevel = [] ∧ result = (none, withQueue sched lev queue)

def LevelPicks (lev : Nat) (sched : PsScheduler) (result : Option PsJobEntry × PsScheduler) :
    Prop :=
  ∃ (before : List Nat) (idx : Nat) (job : PsJobEntry) (queue : RingBuffer Nat),
    queue.WellFormed psMaxJobsPerLevel ∧
      waiting sched lev = before ++ idx :: queue.contents psMaxJobsPerLevel ∧
      (∀ i ∈ before, ¬ ActiveAt sched i) ∧ sched.jobs[idx]? = some job ∧ job.active = true ∧
      result = (some job, retire (withQueue sched lev queue) idx)

theorem levelIdle_of_empty {lev : Nat} {sched : PsScheduler}
    (hwf : (sched.queues lev).WellFormed psMaxJobsPerLevel)
    (hcount : (sched.queues lev).count = 0) : LevelIdle lev sched (none, sched) := by
  have hnil : waiting sched lev = [] := RingBuffer.contents_eq_nil_iff.mpr hcount
  refine ⟨?_, sched.queues lev, hwf, hnil, ?_⟩
  · rw [hnil]
    simp
  · rw [withQueue_self]

/-- A round that finds a job that does not wait any more leaves the rest to the next. -/
theorem scheduleLevel_skip {lev n : Nat} {sched : PsScheduler}
    (hcount : (sched.queues lev).count ≠ 0)
    (hskip : ¬ ActiveAt sched (sched.queues lev).front) :
    scheduleLevel lev (n + 1) sched = scheduleLevel lev n (dequeueFromLevel sched lev) := by
  rw [scheduleLevel, if_neg hcount]
  dsimp only
  split
  next => rfl
  next job hjob =>
    have hinactive : ¬ job.active = true := fun hactive => hskip ⟨job, hjob, hactive⟩
    rw [if_neg hinactive]

theorem scheduleLevel_spec (lev n : Nat) (sched : PsScheduler)
    (hwf : (sched.queues lev).WellFormed psMaxJobsPerLevel)
    (hn : (sched.queues lev).count ≤ n) :
    LevelIdle lev sched (scheduleLevel lev n sched) ∨
      LevelPicks lev sched (scheduleLevel lev n sched) := by
  induction n generalizing sched with
  | zero => exact Or.inl (levelIdle_of_empty hwf (by omega))
  | succ n ih =>
      by_cases hcount : (sched.queues lev).count = 0
      · rw [scheduleLevel, if_pos hcount]
        exact Or.inl (levelIdle_of_empty hwf hcount)
      · have hfront := hwf.contents_eq_front_cons hcount
        by_cases hactive : ActiveAt sched (sched.queues lev).front
        · obtain ⟨job, hjob, hactive⟩ := hactive
          refine Or.inr ⟨[], _, job, _, hwf.pop hcount, hfront, by simp, hjob, hactive, ?_⟩
          rw [scheduleLevel, if_neg hcount]
          have hjob' : (dequeueFromLevel sched lev).jobs[(sched.queues lev).front]? = some job :=
            hjob
          simp only [hjob', hactive, if_true]
          rfl
        · rw [scheduleLevel_skip hcount hactive]
          have hqueue : (dequeueFromLevel sched lev).queues lev =
              (sched.queues lev).pop psMaxJobsPerLevel := by
            simp [dequeueFromLevel]
          have hleft : ((sched.queues lev).pop psMaxJobsPerLevel).count ≤ n := by
            simp only [RingBuffer.pop]
            omega
          have hrest := ih (dequeueFromLevel sched lev) (by rw [hqueue]; exact hwf.pop hcount)
            (by rw [hqueue]; exact hleft)
          have hwaiting : waiting sched lev =
              (sched.queues lev).front :: waiting (dequeueFromLevel sched lev) lev := by
            rw [waiting, hfront, waiting, hqueue]
          rcases hrest with ⟨hidle, queue, hqwf, hempty, heq⟩ |
            ⟨before, idx, job, queue, hqwf, horder, hbefore, hjob, hjactive, heq⟩
          · left
            refine ⟨?_, queue, hqwf, hempty, ?_⟩
            · rw [hwaiting, List.forall_mem_cons]
              exact ⟨hactive, hidle⟩
            · rw [heq]
              exact congrArg (Prod.mk none) (withQueue_withQueue sched lev _ queue)
          · right
            refine ⟨(sched.queues lev).front :: before, idx, job, queue, hqwf, ?_, ?_, hjob,
              hjactive, ?_⟩
            · rw [hwaiting, horder]
              rfl
            · rw [List.forall_mem_cons]
              exact ⟨hactive, hbefore⟩
            · rw [heq]
              exact congrArg (fun sched' => (some job, retire sched' idx))
                (withQueue_withQueue sched lev _ queue)

def dispatchOrder (sched : PsScheduler) : List Nat :=
  (List.range sched.levelCount).flatMap (waiting sched)

def Schedules (order : List Nat) (sched : PsScheduler)
    (result : Option PsJobEntry × PsScheduler) : Prop :=
  (result.1 = none ∧ (∀ idx ∈ order, ¬ ActiveAt sched idx) ∧ result.2.jobs = sched.jobs) ∨
    ∃ job idx, result.1 = some job ∧ Dispatches order sched job result.2 idx

theorem Queued.of_levelIdle {sched : PsScheduler} (h : Queued sched) {lev : Nat}
    {queue : RingBuffer Nat} (hidle : ∀ idx ∈ waiting sched lev, ¬ ActiveAt sched idx)
    (hwf : queue.WellFormed psMaxJobsPerLevel)
    (hempty : queue.contents psMaxJobsPerLevel = []) : Queued (withQueue sched lev queue) := by
  refine h.of_replaced_queue rfl rfl rfl (fun _ hidx => hidx) hwf ?_ ?_
  · rw [hempty]
    simp
  · intro idx hidx hactive
    exact absurd hactive (hidle idx hidx)

theorem Queued.of_levelPicks {sched : PsScheduler} (h : Queued sched) {lev idx : Nat}
    {before : List Nat} {queue : RingBuffer Nat}
    (horder : waiting sched lev = before ++ idx :: queue.contents psMaxJobsPerLevel)
    (hbefore : ∀ i ∈ before, ¬ ActiveAt sched i) (hwf : queue.WellFormed psMaxJobsPerLevel) :
    Queued (Priority.retire (withQueue sched lev queue) idx) := by
  have hqueues : (Priority.retire (withQueue sched lev queue) idx).queues =
      Function.update sched.queues lev queue := rfl
  have hdone : ∀ i, ActiveAt (Priority.retire (withQueue sched lev queue) idx) i →
      ActiveAt sched i ∧ i ≠ idx := by
    intro i hi
    have hold : ActiveAt (withQueue sched lev queue) i :=
      activeAt_setJob (f := deactivate) (fun _ hf => nomatch hf) hi
    refine ⟨hold, ?_⟩
    rintro rfl
    obtain ⟨job, hjob, hactive⟩ := hi
    simp only [Priority.retire, Priority.setJob, List.getElem?_modify, if_true] at hjob
    obtain ⟨old, _, rfl⟩ := Option.map_eq_some_iff.mp hjob
    exact absurd hactive (by simp [deactivate])
  refine h.of_replaced_queue hqueues rfl ?_ ?_ hwf ?_ ?_
  · simp [Priority.retire, Priority.setJob, withQueue]
  · exact fun i hi => (hdone i hi).1
  · intro i hi
    rw [horder]
    simp [hi]
  · intro i hi hactive
    obtain ⟨hold, hne⟩ := hdone i hactive
    rw [horder, List.mem_append, List.mem_cons] at hi
    rcases hi with hmem | rfl | hmem
    · exact absurd hold (hbefore i hmem)
    · exact absurd rfl hne
    · exact hmem

theorem scheduleLevels_spec {levs : List Nat} (hnodup : levs.Nodup) {sched : PsScheduler}
    (h : Queued sched) :
    Queued (scheduleLevels levs sched).2 ∧
      (scheduleLevels levs sched).2.algorithm = sched.algorithm ∧
        Schedules (levs.flatMap (waiting sched)) sched (scheduleLevels levs sched) := by
  induction levs generalizing sched with
  | nil => exact ⟨h, rfl, Or.inl ⟨rfl, by simp, rfl⟩⟩
  | cons lev levs ih =>
      obtain ⟨hfresh, hrest⟩ := List.nodup_cons.mp hnodup
      rw [scheduleLevels, List.flatMap_cons]
      rcases scheduleLevel_spec lev _ sched (h.wellFormed lev) (Nat.le_refl _) with
        ⟨hidle, queue, hwf, hempty, heq⟩ |
        ⟨before, idx, job, queue, hwf, horder, hbefore, hjob, hactive, heq⟩
      · rw [heq]
        dsimp only
        obtain ⟨hqueued, halgo, hspec⟩ := ih hrest (h.of_levelIdle hidle hwf hempty)
        have hflat : levs.flatMap (waiting (withQueue sched lev queue)) =
            levs.flatMap (waiting sched) := by
          apply List.flatMap_congr
          intro lev' hlev'
          apply waiting_withQueue_of_ne
          rintro rfl
          exact hfresh hlev'
        rw [hflat] at hspec
        refine ⟨hqueued, halgo, ?_⟩
        rcases hspec with ⟨hnone, hall, hjobs⟩ | ⟨job, idx, hsome, hdispatch⟩
        · refine Or.inl ⟨hnone, ?_, hjobs⟩
          intro idx hidx
          rcases List.mem_append.mp hidx with hmem | hmem
          · exact hidle idx hmem
          · exact hall idx hmem
        · obtain ⟨before, after, horder, hbefore⟩ := hdispatch.first
          refine Or.inr ⟨job, idx, hsome, ⟨waiting sched lev ++ before, after, ?_, ?_⟩,
            hdispatch.found, hdispatch.active, hdispatch.jobs_eq⟩
          · rw [horder, List.append_assoc]
          · intro i hi
            rcases List.mem_append.mp hi with hmem | hmem
            · exact hidle i hmem
            · exact hbefore i hmem
      · rw [heq]
        refine ⟨h.of_levelPicks horder hbefore hwf, rfl, Or.inr ⟨job, idx, rfl, ?_⟩⟩
        refine ⟨⟨before, queue.contents psMaxJobsPerLevel ++ levs.flatMap (waiting sched), ?_,
          hbefore⟩, hjob, hactive, rfl⟩
        rw [horder, List.append_assoc, List.cons_append]

theorem psScheduleNext_spec {sched : PsScheduler} (h : Queued sched)
    (hmode : sched.algorithm ≠ .lottery) (now : Int) :
    Queued (psScheduleNext sched now).2 ∧
      (psScheduleNext sched now).2.algorithm = sched.algorithm ∧
        Schedules (dispatchOrder (autoAge sched now)) (autoAge sched now)
          (psScheduleNext sched now) := by
  have halgo : (autoAge sched now).algorithm = sched.algorithm := by
    unfold autoAge
    split <;> rfl
  have hspec := scheduleLevels_spec (List.nodup_range (n := (autoAge sched now).levelCount))
    (h.autoAge now)
  have heq : psScheduleNext sched now =
      scheduleLevels (List.range (autoAge sched now).levelCount) (autoAge sched now) := by
    unfold psScheduleNext
    dsimp only
    rw [halgo]
    cases hcase : sched.algorithm with
    | mlfq => rfl
    | fixed => rfl
    | lottery => exact absurd hcase hmode
  rw [heq, ← halgo]
  exact hspec

/-! ## Whole runs -/

def KeepsWaiting (sched : PsScheduler) : Op → Prop
  | .submit _ job _ priority _ _ =>
      job.isSome = true → sched.jobs.length < psMaxJobs → SlotFree sched priority
  | _ => True

instance (sched : PsScheduler) (priority : Int) : Decidable (SlotFree sched priority) :=
  inferInstanceAs (Decidable (_ ∨ _))

instance (sched : PsScheduler) : (op : Op) → Decidable (KeepsWaiting sched op)
  | .submit .. => inferInstanceAs (Decidable (_ → _ → _))
  | .cancel .. | .boostPriority .. | .restorePriority .. | .priorityInherit .. | .ageJobs ..
  | .scheduleNext .. => .isTrue trivial

/-- Every waiting job is in a queue, and the queues decide which one is next. -/
structure Ready (sched : PsScheduler) : Prop where
  queued : Queued sched
  mode : sched.algorithm ≠ .lottery

theorem Ready.of_setJob {sched : PsScheduler} (h : Ready sched) (idx : Nat)
    {f : PsJobEntry → PsJobEntry} (hf : ∀ job, (f job).active = job.active) :
    Ready (setJob sched idx f) :=
  ⟨h.queued.setJob idx fun job hactive => by rwa [hf] at hactive, h.mode⟩

theorem Ready.step {sched : PsScheduler} (h : Ready sched) {op : Op}
    (hop : KeepsWaiting sched op) : Ready (step sched op) := by
  cases op with
  | submit id job ud priority tickets now =>
      simp only [Priority.step]
      rcases psSubmit_cases h.queued.levels id job ud priority tickets now with
        heq | ⟨fn, rfl, hroom, heq⟩
      · rw [heq]
        exact h
      · rw [heq]
        exact ⟨h.queued.submitted id fn ud (hop rfl hroom) tickets now, h.mode⟩
  | cancel id =>
      simp only [Priority.step, psCancel]
      split
      · exact h
      · exact ⟨h.queued.retire _, h.mode⟩
  | boostPriority id newPriority =>
      simp only [Priority.step, psBoostPriority]
      split
      · exact h
      · split
        · exact h
        · exact h.of_setJob _ fun _ => rfl
  | restorePriority id =>
      simp only [Priority.step, psRestorePriority]
      split
      · exact h
      · exact h.of_setJob _ fun _ => rfl
  | priorityInherit holderId waiterId =>
      simp only [Priority.step, psPriorityInherit]
      split
      · split
        · split
          · exact h.of_setJob _ fun _ => rfl
          · exact h
        · exact h
      · exact h
  | ageJobs now => exact ⟨h.queued.psAgeJobs now, h.mode⟩
  | scheduleNext now =>
      obtain ⟨hqueued, halgo, _⟩ := psScheduleNext_spec h.queued h.mode now
      refine ⟨hqueued, ?_⟩
      simp only [Priority.step]
      rw [halgo]
      exact h.mode

theorem levelCount_psCreate (config : Option PsConfig) (now : Int) :
    0 < (psCreate config now).levelCount := by
  cases config with
  | none => simp [psCreate]
  | some config =>
      simp only [psCreate, psMaxPriorityLevels]
      split <;> omega

theorem psCreate_ready {config : Option PsConfig} {now : Int}
    (hmode : (psCreate config now).algorithm ≠ .lottery) : Ready (psCreate config now) := by
  have hjobs : (psCreate config now).jobs = [] := by cases config <;> rfl
  have hqueues : (psCreate config now).queues = fun _ => RingBuffer.empty 0 := by
    cases config <;> rfl
  refine ⟨⟨levelCount_psCreate config now, ?_, ?_, ?_⟩, hmode⟩
  · intro lev
    rw [hqueues]
    exact RingBuffer.empty_wellFormed (by decide) 0
  · intro lev idx hidx
    rw [waiting, hqueues] at hidx
    simp at hidx
  · intro idx hidx
    obtain ⟨job, hjob, _⟩ := hidx
    simp [hjobs] at hjob

/-!
# Dispatch and the priority of a job

A boost, an inheritance, a restoration and the aging change the priority of a job in the
table; its index stays in the queue of the level it was submitted at.  So the scheduler
dispatches a job of least priority exactly as far as the order of the queues agrees with
the priorities.
-/

section DispatchPriority

open MiniBackend.Lib.Runs MiniBackend.JobSystem.Priority

def waitingJob (sched : PsScheduler) (idx : Nat) : Option PsJobEntry :=
  sched.jobs[idx]?.filter PsJobEntry.active

def waitingJobs (sched : PsScheduler) : List PsJobEntry :=
  (dispatchOrder sched).filterMap (waitingJob sched)

def InQueueOrder (sched : PsScheduler) : Prop :=
  (waitingJobs sched).Pairwise fun job later => job.priority ≤ later.priority

instance (sched : PsScheduler) : Decidable (InQueueOrder sched) :=
  inferInstanceAs (Decidable ((waitingJobs sched).Pairwise _))

/-- A submission does not overwrite the index of a job that waits, and at a dispatch the
queues are in the order of the priorities, after the aging. -/
def OrderKept (sched : PsScheduler) (op : Op) : Prop :=
  KeepsWaiting sched op ∧
    match op with
    | .scheduleNext now => InQueueOrder (autoAge sched now)
    | _ => True

instance (sched : PsScheduler) : (op : Op) → Decidable (OrderKept sched op)
  | .scheduleNext now => inferInstanceAs (Decidable (_ ∧ InQueueOrder (autoAge sched now)))
  | .submit .. | .cancel .. | .boostPriority .. | .restorePriority .. | .priorityInherit ..
  | .ageJobs .. => inferInstanceAs (Decidable (KeepsWaiting sched _ ∧ True))

/-- The job that a dispatch returns has the least priority value of all active jobs, after
the aging. -/
def DispatchesLeast (sched : PsScheduler) : Op → Prop
  | .scheduleNext now => ∀ job ∈ (psScheduleNext sched now).1,
      ∀ other ∈ (autoAge sched now).jobs, other.active = true → job.priority ≤ other.priority
  | _ => True

instance (sched : PsScheduler) : (op : Op) → Decidable (DispatchesLeast sched op)
  | .scheduleNext now => inferInstanceAs (Decidable (∀ job ∈ (psScheduleNext sched now).1, _))
  | .submit .. | .cancel .. | .boostPriority .. | .restorePriority .. | .priorityInherit ..
  | .ageJobs .. => .isTrue trivial

theorem waitingJob_of_active {sched : PsScheduler} {idx : Nat} {job : PsJobEntry}
    (hjob : sched.jobs[idx]? = some job) (hactive : job.active = true) :
    waitingJob sched idx = some job := by
  simp [waitingJob, hjob, hactive]

theorem waitingJob_of_not_activeAt {sched : PsScheduler} {idx : Nat}
    (h : ¬ ActiveAt sched idx) : waitingJob sched idx = none := by
  unfold waitingJob
  cases hjob : sched.jobs[idx]? with
  | none => rfl
  | some job =>
      have hinactive : ¬ job.active = true := fun hactive => h ⟨job, hjob, hactive⟩
      simp [hinactive]

/-- In the order of the queues the first job that waits has the least priority value. -/
theorem Dispatches.least {sched sched' : PsScheduler} (h : Queued sched)
    (hordered : InQueueOrder sched) {job : PsJobEntry} {idx : Nat}
    (hdispatch : Dispatches (dispatchOrder sched) sched job sched' idx) {other : PsJobEntry}
    (hother : other ∈ sched.jobs) (hactive : other.active = true) :
    job.priority ≤ other.priority := by
  obtain ⟨before, after, horder, hbefore⟩ := hdispatch.first
  obtain ⟨i, hi⟩ := List.mem_iff_getElem?.mp hother
  have hskipped : before.filterMap (waitingJob sched) = [] := by
    apply List.filterMap_eq_nil_iff.mpr
    exact fun j hj => waitingJob_of_not_activeAt (hbefore j hj)
  have hjobs : waitingJobs sched = job :: after.filterMap (waitingJob sched) := by
    rw [waitingJobs, horder, List.filterMap_append, hskipped, List.nil_append,
      List.filterMap_cons_some (waitingJob_of_active hdispatch.found hdispatch.active)]
  obtain ⟨lev, hlev, hmem⟩ := h.complete i ⟨other, hi, hactive⟩
  have hwaits : other ∈ waitingJobs sched := by
    apply List.mem_filterMap.mpr
    refine ⟨i, ?_, waitingJob_of_active hi hactive⟩
    exact List.mem_flatMap.mpr ⟨lev, List.mem_range.mpr hlev, hmem⟩
  unfold InQueueOrder at hordered
  rw [hjobs] at hordered hwaits
  rcases List.mem_cons.mp hwaits with rfl | hlater
  · exact Int.le_refl _
  · exact List.rel_of_pairwise_cons hordered hlater

theorem Ready.dispatchesLeast {sched : PsScheduler} (h : Ready sched) {op : Op}
    (hop : OrderKept sched op) : DispatchesLeast sched op := by
  cases op with
  | scheduleNext now =>
      intro job hjob other hother hactive
      rcases (psScheduleNext_spec h.queued h.mode now).2.2 with
        ⟨hnone, _, _⟩ | ⟨job', idx, hsome, hdispatch⟩
      · rw [hnone] at hjob
        cases hjob
      · rw [hsome] at hjob
        cases hjob
        exact Dispatches.least (h.queued.autoAge now) hop.2 hdispatch hother hactive
  | submit id job ud priority tickets now => trivial
  | cancel id => trivial
  | boostPriority id newPriority => trivial
  | restorePriority id => trivial
  | priorityInherit holderId waiterId => trivial
  | ageJobs now => trivial

/-- As long as the queues are in the order of the priorities at each dispatch, every
dispatch returns a job of least priority value. -/
theorem dispatchesLeast_of_orderKept (config : Option PsConfig) (start : Int)
    (hmode : (psCreate config start).algorithm ≠ .lottery) (ops : List Op)
    (hkept : Always step OrderKept (psCreate config start) ops) :
    Always step DispatchesLeast (psCreate config start) ops := by
  apply always_of_invariant step _ _ (psCreate_ready hmode) hkept
  · exact fun sched op hsched hop => hsched.step hop.1
  · exact fun sched op hsched hop => Ready.dispatchesLeast hsched hop

/-- A boost that does not overtake anyone, and the aging of both jobs. -/
theorem dispatchesLeast_of_orderKept_boost :
    Always step DispatchesLeast (psCreate none 0)
      [.submit 1 (some 1) 0 1 1 0, .submit 2 (some 1) 0 2 1 0, .boostPriority 2 1,
        .scheduleNext 40, .scheduleNext 40] :=
  dispatchesLeast_of_orderKept none 0 (by decide) _ (by decide)

/-- Job 2 is boosted to the highest priority, and job 1 is dispatched before it. -/
theorem boosted_job_overtaken :
    ¬ Always step DispatchesLeast (psCreate none 0)
      [.submit 1 (some 1) 0 1 1 0, .submit 2 (some 1) 0 2 1 0, .boostPriority 2 0,
        .scheduleNext 0] := by
  decide

end DispatchPriority

end MiniBackend.JobSystem.Proofs.SchedulerQueues
