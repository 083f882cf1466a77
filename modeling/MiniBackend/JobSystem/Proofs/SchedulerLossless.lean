import MiniBackend.JobSystem.Proofs.SchedulerQueues
import Mathlib.Data.List.Nodup

/-!
# The priority scheduler loses no job and runs none twice

A ledger beside the scheduler records the ids that were dispatched and those that were
cancelled.  Their jobs are inactive entries of the table, so with distinct ids no id comes
up twice; and a dispatch that finds nothing finds the table without active entries, as
long as no submission overwrote the index of a waiting job.
-/

namespace MiniBackend.JobSystem.Proofs.SchedulerLossless

open MiniBackend.Lib.Runs MiniBackend.Lib.CArray MiniBackend.JobSystem.Priority
open MiniBackend.JobSystem.Proofs.SchedulerQueues

structure Ledger where
  returned : List UInt64
  cancelled : List UInt64
deriving DecidableEq

def note (ledger : Ledger) (sched : PsScheduler) : Op → Ledger
  | .cancel id =>
      if (psCancel sched id).1 = 0 then { ledger with cancelled := id :: ledger.cancelled }
      else ledger
  | .scheduleNext now =>
      match (psScheduleNext sched now).1 with
      | some job => { ledger with returned := job.id :: ledger.returned }
      | none => ledger
  | _ => ledger

/-- The ledger of a run from a new scheduler. -/
def ledgerOf (config : Option PsConfig) (start : Int) (ops : List Op) : Ledger :=
  observe step note ⟨[], []⟩ (psCreate config start) ops

/-- A dispatch returns 0 only when no job is active. -/
def EmptyHanded (sched : PsScheduler) : Op → Prop
  | .scheduleNext now => (psScheduleNext sched now).1 = none → psQueueSize sched = 0
  | _ => True

/-- The jobs that were accepted have distinct ids. -/
def DistinctIds (sched : PsScheduler) : Prop := (sched.jobs.map PsJobEntry.id).Nodup

instance (sched : PsScheduler) : Decidable (DistinctIds sched) :=
  inferInstanceAs (Decidable (sched.jobs.map PsJobEntry.id).Nodup)

instance (sched : PsScheduler) : (op : Op) → Decidable (EmptyHanded sched op)
  | .scheduleNext _ => inferInstanceAs (Decidable (_ → _))
  | .submit .. | .cancel .. | .boostPriority .. | .restorePriority .. | .priorityInherit ..
  | .ageJobs .. => .isTrue trivial

/-! ## How the table evolves -/

structure Evolves (jobs jobs' : List PsJobEntry) : Prop where
  ids : ∃ extra, jobs'.map PsJobEntry.id = jobs.map PsJobEntry.id ++ extra
  inactive : ∀ (i : Nat) (job : PsJobEntry), jobs[i]? = some job → job.active = false →
    ∃ job' : PsJobEntry, jobs'[i]? = some job' ∧ job'.id = job.id ∧ job'.active = false

theorem Evolves.refl (jobs : List PsJobEntry) : Evolves jobs jobs where
  ids := ⟨[], (List.append_nil _).symm⟩
  inactive := fun _ job hjob hinactive => ⟨job, hjob, rfl, hinactive⟩

theorem Evolves.trans {jobs jobs' jobs'' : List PsJobEntry} (h : Evolves jobs jobs')
    (h' : Evolves jobs' jobs'') : Evolves jobs jobs'' where
  ids := by
    obtain ⟨extra, hids⟩ := h.ids
    obtain ⟨extra', hids'⟩ := h'.ids
    exact ⟨extra ++ extra', by rw [hids', hids, List.append_assoc]⟩
  inactive := by
    intro i job hjob hinactive
    obtain ⟨job', hjob', hid, hinactive'⟩ := h.inactive i job hjob hinactive
    obtain ⟨job'', hjob'', hid', hinactive''⟩ := h'.inactive i job' hjob' hinactive'
    exact ⟨job'', hjob'', hid'.trans hid, hinactive''⟩

theorem evolves_modify (jobs : List PsJobEntry) (idx : Nat) {f : PsJobEntry → PsJobEntry}
    (hid : ∀ job, (f job).id = job.id)
    (hactive : ∀ job, job.active = false → (f job).active = false) :
    Evolves jobs (jobs.modify idx f) where
  ids := by
    refine ⟨[], ?_⟩
    rw [List.append_nil]
    exact map_modify_of_forall hid jobs idx
  inactive := by
    intro i job hjob hinactive
    rw [List.getElem?_modify, hjob]
    by_cases h : idx = i
    · exact ⟨f job, by simp [h], hid job, hactive job hinactive⟩
    · exact ⟨job, by simp [h], rfl, hinactive⟩

theorem evolves_map (jobs : List PsJobEntry) {f : PsJobEntry → PsJobEntry}
    (hid : ∀ job, (f job).id = job.id)
    (hactive : ∀ job, job.active = false → (f job).active = false) :
    Evolves jobs (jobs.map f) where
  ids := ⟨[], by simp [Function.comp_def, hid]⟩
  inactive := by
    intro i job hjob hinactive
    exact ⟨f job, by rw [List.getElem?_map, hjob]; rfl, hid job, hactive job hinactive⟩

theorem evolves_append (jobs : List PsJobEntry) (job : PsJobEntry) :
    Evolves jobs (jobs ++ [job]) where
  ids := ⟨[job.id], by simp⟩
  inactive := by
    intro i old hold hinactive
    have hlt := (List.getElem?_eq_some_iff.mp hold).1
    exact ⟨old, by rw [List.getElem?_append_left hlt, hold], rfl, hinactive⟩

theorem evolves_deactivate (jobs : List PsJobEntry) (idx : Nat) :
    Evolves jobs (jobs.modify idx deactivate) :=
  evolves_modify jobs idx (fun _ => rfl) fun _ _ => rfl

theorem evolves_psAgeJobs (sched : PsScheduler) (now : Int) :
    Evolves sched.jobs (psAgeJobs sched now).2.jobs := by
  apply evolves_map
  · intro job
    unfold ageJob
    split <;> rfl
  · intro job hinactive
    rw [ageJob_active]
    exact hinactive

theorem evolves_autoAge (sched : PsScheduler) (now : Int) :
    Evolves sched.jobs (autoAge sched now).jobs := by
  unfold autoAge
  split
  · exact evolves_psAgeJobs sched now
  · exact Evolves.refl sched.jobs

theorem Evolves.distinctIds {sched sched' : PsScheduler} (h : Evolves sched.jobs sched'.jobs)
    (hdistinct : DistinctIds sched') : DistinctIds sched := by
  obtain ⟨extra, hids⟩ := h.ids
  unfold DistinctIds at hdistinct ⊢
  rw [hids] at hdistinct
  exact (List.nodup_append.mp hdistinct).1

/-- A dispatch retires one job after the aging, or changes nothing more. -/
theorem evolves_psScheduleNext {sched : PsScheduler} (h : Ready sched) (now : Int) :
    Evolves sched.jobs (psScheduleNext sched now).2.jobs := by
  have haged := evolves_autoAge sched now
  rcases (psScheduleNext_spec h.queued h.mode now).2.2 with
    ⟨_, _, hjobs⟩ | ⟨job, idx, _, hdispatch⟩
  · rw [hjobs]
    exact haged
  · rw [hdispatch.jobs_eq]
    exact haged.trans (evolves_deactivate _ idx)

theorem evolves_step {sched : PsScheduler} (h : Ready sched) (op : Op) :
    Evolves sched.jobs (step sched op).jobs := by
  cases op with
  | submit id job ud priority tickets now =>
      simp only [step]
      rcases psSubmit_cases h.queued.levels id job ud priority tickets now with
        heq | ⟨fn, _, _, heq⟩
      · rw [heq]
        exact Evolves.refl _
      · rw [heq]
        exact evolves_append _ _
  | cancel id =>
      simp only [step, psCancel]
      split
      · exact Evolves.refl _
      · exact evolves_deactivate _ _
  | boostPriority id newPriority =>
      simp only [step, psBoostPriority]
      split
      · exact Evolves.refl _
      · split
        · exact Evolves.refl _
        · exact evolves_modify _ _ (fun _ => rfl) fun _ hinactive => hinactive
  | restorePriority id =>
      simp only [step, psRestorePriority]
      split
      · exact Evolves.refl _
      · exact evolves_modify _ _ (fun _ => rfl) fun _ hinactive => hinactive
  | priorityInherit holderId waiterId =>
      simp only [step, psPriorityInherit]
      split
      · split
        · split
          · exact evolves_modify _ _ (fun _ => rfl) fun _ hinactive => hinactive
          · exact Evolves.refl _
        · exact Evolves.refl _
      · exact Evolves.refl _
  | ageJobs now => exact evolves_psAgeJobs sched now
  | scheduleNext now => exact evolves_psScheduleNext h now

/-! ## The ledger -/

structure Recorded (jobs : List PsJobEntry) (ledger : Ledger) : Prop where
  nodup : (ledger.returned ++ ledger.cancelled).Nodup
  gone : ∀ id ∈ ledger.returned ++ ledger.cancelled, ∃ (i : Nat) (job : PsJobEntry),
    jobs[i]? = some job ∧ job.id = id ∧ job.active = false

theorem Recorded.of_evolves {jobs jobs' : List PsJobEntry} {ledger : Ledger}
    (h : Recorded jobs ledger) (hevolves : Evolves jobs jobs') : Recorded jobs' ledger where
  nodup := h.nodup
  gone := by
    intro id hid
    obtain ⟨i, job, hjob, hjid, hinactive⟩ := h.gone id hid
    obtain ⟨job', hjob', hid', hinactive'⟩ := hevolves.inactive i job hjob hinactive
    exact ⟨i, job', hjob', hid'.trans hjid, hinactive'⟩

theorem Recorded.fresh {jobs : List PsJobEntry} {ledger : Ledger} (h : Recorded jobs ledger)
    (hdistinct : (jobs.map PsJobEntry.id).Nodup) {idx : Nat} {job : PsJobEntry}
    (hjob : jobs[idx]? = some job) (hactive : job.active = true) :
    job.id ∉ ledger.returned ++ ledger.cancelled := by
  intro hmem
  obtain ⟨i, old, hold, hid, hinactive⟩ := h.gone job.id hmem
  have hidx : (jobs.map PsJobEntry.id)[idx]? = some job.id := by simp [hjob]
  have hi : (jobs.map PsJobEntry.id)[i]? = some job.id := by simp [hold, hid]
  obtain ⟨hlt, hget⟩ := List.getElem?_eq_some_iff.mp hidx
  obtain ⟨hlt', hget'⟩ := List.getElem?_eq_some_iff.mp hi
  have hsame : idx = i := (List.Nodup.getElem_inj_iff hdistinct).mp (hget.trans hget'.symm)
  rw [hsame, hold] at hjob
  cases hjob
  rw [hinactive] at hactive
  cases hactive

theorem gone_retired {jobs : List PsJobEntry} {idx : Nat} {job : PsJobEntry}
    (hjob : jobs[idx]? = some job) :
    (jobs.modify idx deactivate)[idx]? = some (deactivate job) := by
  rw [List.getElem?_modify, hjob]
  simp

theorem Recorded.dispatch {jobs : List PsJobEntry} {ledger : Ledger} (h : Recorded jobs ledger)
    (hdistinct : (jobs.map PsJobEntry.id).Nodup) {idx : Nat} {job : PsJobEntry}
    (hjob : jobs[idx]? = some job) (hactive : job.active = true) :
    Recorded (jobs.modify idx deactivate)
      { ledger with returned := job.id :: ledger.returned } where
  nodup := List.nodup_cons.mpr ⟨h.fresh hdistinct hjob hactive, h.nodup⟩
  gone := by
    intro id hid
    rcases List.mem_cons.mp hid with rfl | hold
    · exact ⟨idx, deactivate job, gone_retired hjob, rfl, rfl⟩
    · exact (h.of_evolves (evolves_deactivate jobs idx)).gone id hold

theorem Recorded.cancel {jobs : List PsJobEntry} {ledger : Ledger} (h : Recorded jobs ledger)
    (hdistinct : (jobs.map PsJobEntry.id).Nodup) {idx : Nat} {job : PsJobEntry}
    (hjob : jobs[idx]? = some job) (hactive : job.active = true) :
    Recorded (jobs.modify idx deactivate)
      { ledger with cancelled := job.id :: ledger.cancelled } := by
  have hperm : (ledger.returned ++ job.id :: ledger.cancelled).Perm
      (job.id :: (ledger.returned ++ ledger.cancelled)) := List.perm_middle
  refine ⟨?_, ?_⟩
  · rw [hperm.nodup_iff]
    exact List.nodup_cons.mpr ⟨h.fresh hdistinct hjob hactive, h.nodup⟩
  · intro id hid
    rw [hperm.mem_iff] at hid
    rcases List.mem_cons.mp hid with rfl | hold
    · exact ⟨idx, deactivate job, gone_retired hjob, rfl, rfl⟩
    · exact (h.of_evolves (evolves_deactivate jobs idx)).gone id hold

theorem psCancel_cases (sched : PsScheduler) (id : UInt64) :
    psCancel sched id = (-1, sched) ∨
      ∃ idx job, sched.jobs[idx]? = some job ∧ job.id = id ∧ job.active = true ∧
        psCancel sched id = (0, retire sched idx) := by
  unfold psCancel
  cases hfind : jobFind sched id with
  | none => exact Or.inl rfl
  | some idx =>
      obtain ⟨hlt, hfound, _⟩ := List.findIdx?_eq_some_iff_getElem.mp hfind
      simp only [Bool.and_eq_true, beq_iff_eq] at hfound
      exact Or.inr ⟨idx, sched.jobs[idx], List.getElem?_eq_getElem hlt, hfound.1, hfound.2, rfl⟩

structure Tracked (sched : PsScheduler) (ledger : Ledger) : Prop where
  ready : Ready sched
  recorded : DistinctIds sched → Recorded sched.jobs ledger

theorem Tracked.step {sched : PsScheduler} {ledger : Ledger} (h : Tracked sched ledger) {op : Op}
    (hop : KeepsWaiting sched op) : Tracked (step sched op) (note ledger sched op) := by
  refine ⟨h.ready.step hop, ?_⟩
  intro hdistinct'
  have hevolves := evolves_step h.ready op
  have hdistinct := hevolves.distinctIds hdistinct'
  have hrecorded := h.recorded hdistinct
  cases op with
  | cancel id =>
      simp only [Priority.step, note]
      rcases psCancel_cases sched id with heq | ⟨idx, job, hjob, rfl, hactive, heq⟩
      · rw [heq]
        exact hrecorded
      · rw [heq]
        exact hrecorded.cancel hdistinct hjob hactive
  | scheduleNext now =>
      have haged := evolves_autoAge sched now
      simp only [Priority.step, note] at hdistinct' ⊢
      rcases (psScheduleNext_spec h.ready.queued h.ready.mode now).2.2 with
        ⟨hnone, _, hjobs⟩ | ⟨job, idx, hsome, hdispatch⟩
      · rw [hnone, hjobs]
        exact hrecorded.of_evolves haged
      · have hagedIds : DistinctIds (autoAge sched now) := by
          apply Evolves.distinctIds _ hdistinct'
          rw [hdispatch.jobs_eq]
          exact evolves_deactivate _ idx
        rw [hsome, hdispatch.jobs_eq]
        exact (hrecorded.of_evolves haged).dispatch hagedIds hdispatch.found hdispatch.active
  | submit id job ud priority tickets now => exact hrecorded.of_evolves hevolves
  | boostPriority id newPriority => exact hrecorded.of_evolves hevolves
  | restorePriority id => exact hrecorded.of_evolves hevolves
  | priorityInherit holderId waiterId => exact hrecorded.of_evolves hevolves
  | ageJobs now => exact hrecorded.of_evolves hevolves

/-! ## Whole runs -/

theorem emptyHanded_of_ready {sched : PsScheduler} (h : Ready sched) (op : Op) :
    EmptyHanded sched op := by
  cases op with
  | scheduleNext now =>
      intro hnone
      have hqueued := h.queued.autoAge now
      rcases (psScheduleNext_spec h.queued h.mode now).2.2 with
        ⟨_, hidle, _⟩ | ⟨job, idx, hsome, _⟩
      · rw [psQueueSize, List.countP_eq_zero]
        intro job hjob hactive
        obtain ⟨idx, hidx⟩ := List.mem_iff_getElem?.mp hjob
        have hwaits : ActiveAt (autoAge sched now) idx := by
          unfold autoAge
          split
          · exact (activeAt_map rfl (ageJob_active sched now) idx).mpr ⟨job, hidx, hactive⟩
          · exact ⟨job, hidx, hactive⟩
        obtain ⟨lev, hlev, hmem⟩ := hqueued.complete idx hwaits
        refine hidle idx ?_ hwaits
        exact List.mem_flatMap.mpr ⟨lev, List.mem_range.mpr hlev, hmem⟩
      · rw [hnone] at hsome
        cases hsome
  | submit id job ud priority tickets now => trivial
  | cancel id => trivial
  | boostPriority id newPriority => trivial
  | restorePriority id => trivial
  | priorityInherit holderId waiterId => trivial
  | ageJobs now => trivial

/-- With distinct ids and no overwritten index of a waiting job, no id is dispatched twice
or after its cancellation, and a dispatch returns 0 only when nothing waits. -/
theorem lossless_of_keepsWaiting (config : Option PsConfig) (start : Int)
    (hmode : (psCreate config start).algorithm ≠ .lottery) (ops : List Op)
    (hids : DistinctIds (run step (psCreate config start) ops))
    (hkeeps : Always step KeepsWaiting (psCreate config start) ops) :
    (ledgerOf config start ops).returned.Nodup ∧
      (∀ id ∈ (ledgerOf config start ops).cancelled,
        id ∉ (ledgerOf config start ops).returned) ∧
      Always step EmptyHanded (psCreate config start) ops := by
  have hready := psCreate_ready hmode
  have hstart : Tracked (psCreate config start) ⟨[], []⟩ :=
    ⟨hready, fun _ => ⟨List.nodup_nil, fun _ hid => nomatch hid⟩⟩
  have htracked : Tracked (run step (psCreate config start) ops) (ledgerOf config start ops) := by
    apply observe_invariant step _ hstart hkeeps
    intro sched ledger op hsched hop
    exact hsched.step hop
  have hnodup := List.nodup_append.mp (htracked.recorded hids).nodup
  refine ⟨hnodup.1, ?_, ?_⟩
  · intro id hcancelled hreturned
    exact hnodup.2.2 id hreturned id hcancelled rfl
  · apply always_of_invariant step _ _ hready hkeeps
    · exact fun sched op hsched hop => hsched.step hop
    · exact fun sched op hsched _ => emptyHanded_of_ready hsched op

/-- Two jobs, one of them cancelled, and a dispatch too many. -/
def shortRun : List Op :=
  [.submit 1 (some 1) 0 2 1 0, .submit 2 (some 1) 0 0 1 0, .cancel 2, .scheduleNext 0,
    .scheduleNext 0]

theorem lossless_of_keepsWaiting_shortRun :
    (ledgerOf none 0 shortRun).returned.Nodup ∧
      (∀ id ∈ (ledgerOf none 0 shortRun).cancelled, id ∉ (ledgerOf none 0 shortRun).returned) ∧
      Always step EmptyHanded (psCreate none 0) shortRun :=
  lossless_of_keepsWaiting none 0 (by decide) shortRun (by decide) (by decide)

/-- As many jobs at the highest priority as a queue has slots, and one more, then as many
dispatches. -/
def crowdedLevel : List Op :=
  (List.range 65).map (fun i => .submit (UInt64.ofNat i) (some 1) 0 0 1 0) ++
    List.replicate 65 (.scheduleNext 0)

/-- The last submission overwrites the index of the first job, which is never dispatched:
the last dispatch returns 0 while it is active. -/
theorem first_job_lost :
    DistinctIds (run step (psCreate none 0) crowdedLevel) ∧
      ¬ Always step EmptyHanded (psCreate none 0) crowdedLevel := by
  decide +kernel

end MiniBackend.JobSystem.Proofs.SchedulerLossless
