import MiniBackend.JobSystem.Proofs.CronEarliest
import MiniBackend.Lib.Runs
import Mathlib.Data.List.Nodup

/-!
# When a callback is due

A trace beside the scheduler records when each job was last registered, activated or
fired, and every call of a callback.  A job that waits for a time later than that, at
which its expression matches, is called when it is due.  A registration or activation
that finds no fire time stores -1 all the same, and the next tick fires the job.
-/

namespace MiniBackend.JobSystem.Proofs.CronDue

open MiniBackend.Lib.CArray MiniBackend.Lib.CString MiniBackend.Lib.Calendar
open MiniBackend.Lib.ForwardSearch MiniBackend.Lib.Runs MiniBackend.JobSystem.Cron
open MiniBackend.JobSystem.Proofs.CronEarliest

/-! ## The calls of a run -/

structure Invocation where
  expr : CronExpression
  since : Int
  now : Int

/-- The expression matches a time after `since`, up to the tick. -/
def Due (inv : Invocation) : Prop :=
  ∃ t, inv.since < t ∧ t ≤ inv.now ∧ cronMatches inv.expr (localtime t) = true

/-- `since` is the time of the last registration, activation or fire of a job. -/
structure Trace where
  since : UInt64 → Int
  invocations : List Invocation

def storedExpression (sched : CronScheduler) (id : UInt64) (cronSpec : Option CStr)
    (cb : UInt64) : Option CronExpression :=
  if cb ≠ 0 ∧ sched.jobs.length < sched.maxJobs ∧ sched.jobs.any (hasId id) = false then
    cronSpec.bind cronParseExpression
  else none

def noteTick (tr : Trace) (sched : CronScheduler) (now : Int) (rounds : Nat) : Trace where
  since := fun id =>
    if sched.jobs.any fun job => hasId id job && fires now job then now else tr.since id
  invocations := tr.invocations ++
    (tickJobs rounds now sched.jobs).1.map fun job => ⟨job.expr, tr.since job.id, now⟩

def note (tr : Trace) : Option CronScheduler → Event → Trace
  | none, _ => tr
  | some sched, .register clock id cronSpec cb _ _ =>
      if (storedExpression sched id cronSpec cb).isSome then
        { tr with since := Function.update tr.since id clock }
      else tr
  | some _, .unregister _ => tr
  | some _, .activate clock id active =>
      if active then { tr with since := Function.update tr.since id clock } else tr
  | some sched, .tick now rounds => noteTick tr sched now rounds

/-- The trace of a run from a new scheduler. -/
def traceOf (maxJobs : Option Int) (events : List Event) : Trace :=
  observe step note ⟨fun _ => 0, []⟩ (some (cronSchedulerCreate maxJobs)) events

/-! ## The walk to the next fire time -/

def following (expr : CronExpression) (t : Int) : Int := mktime (advance expr (localtime t))

def FindsAt (expr : CronExpression) (fromTime : Int) (k : Nat) : Prop :=
  FirstAt (matchesAt expr) (following expr) (-1) maxIterations (fromTime + 1) k

def walk (expr : CronExpression) (fromTime : Int) (k : Nat) : Int :=
  (following expr)^[k] (fromTime + 1)

def FoundAfter (expr : CronExpression) (fromTime : Int) : Prop :=
  ∃ k, FindsAt expr fromTime k ∧ fromTime < walk expr fromTime k

theorem searchLoop_eq_walk (expr : CronExpression) (iter : Nat) (t : Int) :
    searchLoop expr iter (localtime t) =
      search (matchesAt expr) (following expr) (-1) iter t := by
  induction iter generalizing t with
  | zero => rfl
  | succ iter ih =>
      unfold searchLoop search
      rw [mktime_localtime, ih]
      rfl

theorem cronNextFireTime_of_findsAt {expr : CronExpression} {fromTime : Int} {k : Nat}
    (h : FindsAt expr fromTime k) : cronNextFireTime expr fromTime = walk expr fromTime k := by
  rw [cronNextFireTime, searchLoop_eq_walk]
  exact search_of_firstAt h

theorem exists_findsAt_of_ne {expr : CronExpression} {fromTime : Int}
    (h : cronNextFireTime expr fromTime ≠ -1) : ∃ k, FindsAt expr fromTime k := by
  rw [cronNextFireTime, searchLoop_eq_walk] at h
  exact exists_firstAt_or_search_eq_stop.resolve_right h

/-! ## What the calls do to the jobs -/

theorem cronUnregisterJob_jobs (sched : CronScheduler) (id : UInt64) :
    (cronUnregisterJob sched id).2.jobs.Subperm sched.jobs := by
  unfold cronUnregisterJob
  split
  next i hi =>
    obtain ⟨hlt, -⟩ := List.findIdx?_eq_some_iff_getElem.mp hi
    apply List.Subperm.trans (swapRemove_perm_eraseIdx hlt).subperm
    exact (List.eraseIdx_sublist sched.jobs i).subperm
  next => exact List.Subperm.refl _

/-- A registration appends a job, removes one, or changes nothing. -/
theorem cronRegisterJob_cases (sched : CronScheduler) (clock : Int) (id : UInt64)
    (cronSpec : Option CStr) (cb ud : UInt64) (catchUp : Bool) :
    (∃ expr, storedExpression sched id cronSpec cb = some expr ∧
      sched.jobs.any (hasId id) = false ∧
      (cronRegisterJob sched clock id cronSpec cb ud catchUp).2.jobs = sched.jobs ++
        [⟨id, expr, cb, ud, catchUp, 0, cronNextFireTime expr clock, true⟩]) ∨
    (storedExpression sched id cronSpec cb = none ∧
      (cronRegisterJob sched clock id cronSpec cb ud catchUp).2.jobs.Subperm sched.jobs) := by
  cases cronSpec with
  | none => exact Or.inr ⟨by simp [storedExpression], List.Subperm.refl _⟩
  | some spec =>
      unfold cronRegisterJob
      dsimp only
      by_cases hcb : cb = 0
      · rw [if_pos hcb]
        exact Or.inr ⟨by simp [storedExpression, hcb], List.Subperm.refl _⟩
      rw [if_neg hcb]
      by_cases hfull : sched.maxJobs ≤ sched.jobs.length
      · rw [if_pos hfull]
        exact Or.inr ⟨if_neg (by omega), List.Subperm.refl _⟩
      rw [if_neg hfull]
      by_cases hdup : sched.jobs.any (hasId id) = true
      · rw [if_pos hdup]
        exact Or.inr ⟨if_neg (by simp [hdup]), cronUnregisterJob_jobs sched id⟩
      rw [if_neg hdup]
      rw [Bool.not_eq_true] at hdup
      have hstored : storedExpression sched id (some spec) cb = cronParseExpression spec :=
        if_pos ⟨hcb, Nat.lt_of_not_le hfull, hdup⟩
      rw [hstored]
      cases hparse : cronParseExpression spec with
      | none => exact Or.inr ⟨rfl, List.Subperm.refl _⟩
      | some expr => exact Or.inl ⟨expr, rfl, hdup, rfl⟩

def tickedJob (now : Int) (job : CronJob) : CronJob :=
  if fires now job then fireJob now job else job

theorem tickJobs_jobs {rounds : Nat} {now : Int} {jobs jobs' : List CronJob}
    (h : (tickJobs rounds now jobs).2 = some jobs') : jobs' = jobs.map (tickedJob now) := by
  induction jobs generalizing jobs' with
  | nil => exact (Option.some.inj h).symm
  | cons job jobs ih =>
      unfold tickJobs at h
      rw [List.map_cons, tickedJob]
      split at h
      next hfires =>
        rw [if_pos hfires]
        split at h
        next => cases h
        next n hn =>
          obtain ⟨rest, hrest, rfl⟩ := Option.map_eq_some_iff.mp h
          rw [ih hrest]
      next hidle =>
        rw [if_neg hidle]
        obtain ⟨rest, hrest, rfl⟩ := Option.map_eq_some_iff.mp h
        rw [ih hrest]

/-- Only jobs that fire are called, also by a tick that does not return. -/
theorem mem_tickJobs_calls {rounds : Nat} {now : Int} {jobs : List CronJob} {job : CronJob}
    (h : job ∈ (tickJobs rounds now jobs).1) : job ∈ jobs ∧ fires now job = true := by
  induction jobs with
  | nil => exact absurd h List.not_mem_nil
  | cons first jobs ih =>
      unfold tickJobs at h
      split at h
      next hfires =>
        split at h
        next => exact absurd h List.not_mem_nil
        next n hn =>
          rcases List.mem_append.mp h with hfirst | hrest
          · rw [List.eq_of_mem_replicate hfirst]
            exact ⟨List.mem_cons_self, hfires⟩
          · exact ⟨List.mem_cons_of_mem first (ih hrest).1, (ih hrest).2⟩
      next => exact ⟨List.mem_cons_of_mem first (ih h).1, (ih h).2⟩

/-! ## Jobs that wait for a due time -/

/-- No two jobs have the same id, and an active job waits for a matching time that is
later than its last registration, activation or fire. -/
structure Waiting (since : UInt64 → Int) (jobs : List CronJob) : Prop where
  ids : (jobs.map CronJob.id).Nodup
  waits : ∀ job ∈ jobs, job.active = true →
    since job.id < job.nextFire ∧ cronMatches job.expr (localtime job.nextFire) = true

theorem FoundAfter.waits {expr : CronExpression} {fromTime : Int} (h : FoundAfter expr fromTime) :
    fromTime < cronNextFireTime expr fromTime ∧
      cronMatches expr (localtime (cronNextFireTime expr fromTime)) = true := by
  obtain ⟨k, hk, hlt⟩ := h
  rw [cronNextFireTime_of_findsAt hk]
  exact ⟨hlt, hk.holds⟩

theorem Waiting.subperm {since : UInt64 → Int} {jobs jobs' : List CronJob}
    (h : Waiting since jobs) (hsub : jobs'.Subperm jobs) : Waiting since jobs' where
  ids := by
    obtain ⟨jobs'', hperm, hsublist⟩ := hsub
    exact (hperm.map CronJob.id).nodup_iff.mp ((hsublist.map CronJob.id).nodup h.ids)
  waits := fun job hjob => h.waits job (hsub.subset hjob)

theorem Waiting.append {since : UInt64 → Int} {jobs : List CronJob} (h : Waiting since jobs)
    (job : CronJob) (hnew : jobs.any (hasId job.id) = false) {clock : Int}
    (hnext : clock < job.nextFire ∧ cronMatches job.expr (localtime job.nextFire) = true) :
    Waiting (Function.update since job.id clock) (jobs ++ [job]) := by
  have hne : ∀ old ∈ jobs, old.id ≠ job.id := by
    intro old hold heq
    have := List.any_eq_false.mp hnew old hold
    exact this (by simp [hasId, heq])
  refine ⟨?_, ?_⟩
  · rw [List.map_append, List.nodup_append]
    refine ⟨h.ids, by simp, ?_⟩
    intro a ha b hb
    obtain ⟨old, hold, rfl⟩ := List.mem_map.mp ha
    rw [List.map_singleton, List.mem_singleton] at hb
    rw [hb]
    exact hne old hold
  · intro x hx hactive
    rcases List.mem_append.mp hx with hold | hself
    · rw [Function.update_of_ne (hne x hold)]
      exact h.waits x hold hactive
    · rw [List.mem_singleton.mp hself, Function.update_self]
      exact hnext

theorem activate_id (clock : Int) (active : Bool) (job : CronJob) :
    (activate clock active job).id = job.id := by
  unfold activate
  split <;> rfl

theorem Waiting.update_eq_map {since : UInt64 → Int} {jobs : List CronJob}
    (h : Waiting since jobs) (id : UInt64) (f : CronJob → CronJob) :
    updateFirst (hasId id) f jobs = jobs.map fun job => if hasId id job then f job else job := by
  apply updateFirst_eq_map
  apply (List.pairwise_map.mp h.ids).imp
  intro a b hne ha
  rw [hasId, beq_iff_eq] at ha
  simpa [hasId, ← ha] using Ne.symm hne

theorem Waiting.cronActivateJob_jobs {since : UInt64 → Int} {sched : CronScheduler}
    (h : Waiting since sched.jobs) (clock : Int) (id : UInt64) (active : Bool) :
    (cronActivateJob sched clock id active).2.jobs =
      updateFirst (hasId id) (activate clock active) sched.jobs := by
  unfold cronActivateJob
  split
  next => rfl
  next hnone =>
    rw [Bool.not_eq_true, List.any_eq_false] at hnone
    have hsame : (sched.jobs.map fun job =>
        if hasId id job then activate clock active job else job) = sched.jobs.map fun job => job :=
      List.map_congr_left fun job hjob => if_neg (hnone job hjob)
    rw [h.update_eq_map, hsame, List.map_id']

theorem Waiting.activate {since : UInt64 → Int} {jobs : List CronJob} (h : Waiting since jobs)
    {clock : Int} {id : UInt64} {active : Bool}
    (hfound : active = true → ∀ job ∈ jobs, job.id = id → FoundAfter job.expr clock) :
    Waiting (if active then Function.update since id clock else since)
      (updateFirst (hasId id) (activate clock active) jobs) := by
  rw [h.update_eq_map]
  refine ⟨?_, ?_⟩
  · have hids : (CronJob.id ∘ fun job =>
        if hasId id job then Cron.activate clock active job else job) = CronJob.id := by
      funext job
      dsimp only [Function.comp]
      split
      · exact activate_id clock active job
      · rfl
    rw [List.map_map, hids]
    exact h.ids
  · intro x hx hactive
    obtain ⟨job, hjob, rfl⟩ := List.mem_map.mp hx
    by_cases hid : hasId id job = true
    · rw [if_pos hid] at hactive ⊢
      rw [hasId, beq_iff_eq] at hid
      cases active with
      | false => cases hactive
      | true =>
          have := (hfound rfl job hjob hid).waits
          subst hid
          simpa [Cron.activate] using this
    · rw [if_neg hid] at hactive ⊢
      rw [hasId, beq_iff_eq] at hid
      have hold := h.waits job hjob hactive
      cases active with
      | false => exact hold
      | true =>
          rw [if_pos rfl, Function.update_of_ne hid]
          exact hold

theorem Waiting.ticked {since : UInt64 → Int} {jobs : List CronJob} (h : Waiting since jobs)
    {now : Int} (hlater : ∀ job ∈ jobs, fires now job = true →
      ∀ k, FindsAt job.expr now k → now < walk job.expr now k) :
    Waiting (fun id => if jobs.any fun job => hasId id job && fires now job then now else since id)
      (jobs.map (tickedJob now)) := by
  have hid : ∀ job, (tickedJob now job).id = job.id := by
    intro job
    unfold tickedJob
    split <;> rfl
  have hany : ∀ job ∈ jobs, (jobs.any fun other => hasId job.id other && fires now other) =
      fires now job := by
    intro job hjob
    rw [Bool.eq_iff_iff, List.any_eq_true]
    constructor
    · rintro ⟨other, hother, hboth⟩
      rw [Bool.and_eq_true, hasId, beq_iff_eq] at hboth
      rw [← List.inj_on_of_nodup_map h.ids hother hjob hboth.1]
      exact hboth.2
    · intro hfires
      exact ⟨job, hjob, by simp [hasId, hfires]⟩
  refine ⟨?_, ?_⟩
  · rw [List.map_map, show CronJob.id ∘ tickedJob now = CronJob.id from funext hid]
    exact h.ids
  · intro x hx hactive
    obtain ⟨job, hjob, rfl⟩ := List.mem_map.mp hx
    rw [hid, hany job hjob]
    by_cases hfires : fires now job = true
    · rw [if_pos hfires]
      rw [tickedJob, if_pos hfires] at hactive ⊢
      have hne : cronNextFireTime job.expr now ≠ -1 := of_decide_eq_true hactive
      obtain ⟨k, hk⟩ := exists_findsAt_of_ne hne
      exact FoundAfter.waits ⟨k, hk, hlater job hjob hfires k hk⟩
    · rw [if_neg hfires]
      rw [tickedJob, if_neg hfires] at hactive ⊢
      exact h.waits job hjob hactive

/-! ## Seconds that are not negative -/

def SecondsNonneg (expr : CronExpression) : Prop := ∀ v ∈ (expr.fields .second).values, 0 ≤ v

instance (expr : CronExpression) : Decidable (SecondsNonneg expr) :=
  inferInstanceAs (Decidable (∀ v ∈ (expr.fields .second).values, 0 ≤ v))

theorem secondsNonneg_of_numbersInRange {spec : CStr} {expr : CronExpression}
    (hparse : cronParseExpression spec = some expr) (hnum : NumbersInRange spec) :
    SecondsNonneg expr :=
  fun v hv => (within_cronParseExpression hparse hnum (by decide) v hv).1

theorem headD_nonneg {l : List Int} (h : ∀ v ∈ l, 0 ≤ v) : 0 ≤ l.headD 0 := by
  cases l with
  | nil => exact Int.le_refl 0
  | cons v l => exact h v List.mem_cons_self

theorem cronFieldNext_lt {field : CronFieldDef} {val : Int} (h : 0 ≤ cronFieldNext field val) :
    val < cronFieldNext field val := by
  unfold cronFieldNext at h ⊢
  by_cases hany : field.type = .any
  · rw [if_pos hany]
    exact Int.lt_succ val
  · rw [if_neg hany] at h ⊢
    cases hfind : field.values.find? (val < ·) with
    | none =>
        rw [hfind] at h
        exact absurd h (by decide)
    | some v => simpa using List.find?_some hfind

structure SameHour (tm tm' : Tm) : Prop where
  hour : tm'.hour = tm.hour
  mday : tm'.mday = tm.mday
  mon : tm'.mon = tm.mon
  year : tm'.year = tm.year

theorem SameHour.mktime_eq {tm tm' : Tm} (h : SameHour tm tm') :
    mktime tm' = mktime tm + 60 * (tm'.min - tm.min) + (tm'.sec - tm.sec) := by
  unfold mktime
  rw [h.hour, h.mday, h.mon, h.year]
  omega

theorem carrySec_nextSecond_later {expr : CronExpression} (h : SecondsNonneg expr) {tm tm' : Tm}
    (htm : carrySec (nextSecond (expr.fields .second) tm) = tm') :
    SameHour tm tm' ∧ ((tm'.min = tm.min ∧ tm.sec < tm'.sec) ∨
      (tm.min < tm'.min ∧ tm'.min ≤ tm.min + 2 ∧ 0 ≤ tm'.sec)) := by
  subst htm
  unfold nextSecond
  split
  next hnone =>
    have hfirst : 0 ≤ cronFieldFirst (expr.fields .second) 0 := by
      unfold cronFieldFirst
      split
      · exact Int.le_refl 0
      · exact headD_nonneg h
    unfold carrySec
    split
    · exact ⟨⟨rfl, rfl, rfl, rfl⟩, Or.inr ⟨by dsimp only; omega, by dsimp only; omega, by simp⟩⟩
    · exact ⟨⟨rfl, rfl, rfl, rfl⟩, Or.inr ⟨by dsimp only; omega, by dsimp only; omega, hfirst⟩⟩
  next hsome =>
    have hnext := cronFieldNext_lt (Int.not_lt.mp hsome)
    unfold carrySec
    split
    · exact ⟨⟨rfl, rfl, rfl, rfl⟩, Or.inr ⟨by dsimp only; omega, by dsimp only; omega, by simp⟩⟩
    · exact ⟨⟨rfl, rfl, rfl, rfl⟩, Or.inl ⟨rfl, hnext⟩⟩

theorem lt_following {expr : CronExpression} (h : SecondsNonneg expr) (t : Int) :
    t < following expr t := by
  have hsec : (localtime t).sec ≤ 59 := by
    change t % 60 ≤ 59
    omega
  have hmin : (localtime t).min ≤ 59 := by
    change t / 60 % 60 ≤ 59
    omega
  have hhour : (localtime t).hour ≤ 23 := by
    change t / 3600 % 24 ≤ 23
    omega
  have hmday := localtime_mday_bounds t
  have hmon := localtime_mon_bounds t
  unfold following advance
  generalize htm : carrySec (nextSecond (expr.fields .second) (localtime t)) = tm
  obtain ⟨hsame, hlater⟩ := carrySec_nextSecond_later h htm
  have hvalue := hsame.mktime_eq
  rw [mktime_localtime] at hvalue
  obtain ⟨hhour₁, hmday₁, hmon₁, -⟩ := hsame
  obtain ⟨hmday₂, hmon₂, hhour₂⟩ := carryMin_frame tm
  obtain ⟨hmon₃, hmday₃⟩ := carryHour_frame (carryMin tm)
  have hmon₄ := carryMday_mon_le (carryHour (carryMin tm))
  rw [mktime_carryMon (by omega), mktime_carryMday (by omega), mktime_carryHour (by omega)]
  · -- a minute of 61 is cut to 60, which is still later
    unfold carryMin
    split
    · rw [mktime_carry_min]
      have hcut : mktime { tm with min := 60 } = mktime tm + 60 * (60 - tm.min) := by
        dsimp only [mktime]
        omega
      omega
    · omega
  · intro h32
    rw [hmon₃, hmon₂, hmon₁]
    exact localtime_mon_of_mday (by omega)

theorem lt_walk {expr : CronExpression} (h : SecondsNonneg expr) (fromTime : Int) (k : Nat) :
    fromTime < walk expr fromTime k := by
  unfold walk
  induction k with
  | zero => exact Int.lt_succ fromTime
  | succ k ih =>
      rw [Function.iterate_succ_apply']
      exact Int.lt_trans ih (lt_following h _)

theorem countMissed_returns {expr : CronExpression} (h : SecondsNonneg expr) {now : Int}
    {rounds : Nat} {next : Int} (hrounds : (now - next + 1).toNat < rounds) :
    ∃ n, countMissed expr now rounds next = some n := by
  induction rounds generalizing next with
  | zero => omega
  | succ rounds ih =>
      unfold countMissed
      split
      next hdue =>
        by_cases hstop : cronNextFireTime expr next = -1
        · obtain ⟨rounds, rfl⟩ : ∃ r, rounds = r + 1 := ⟨rounds - 1, by omega⟩
          exact ⟨1, by simp [countMissed, hstop]⟩
        · obtain ⟨k, hk⟩ := exists_findsAt_of_ne hstop
          have hafter : FoundAfter expr next := ⟨k, hk, lt_walk h next k⟩
          have hlater := hafter.waits.1
          obtain ⟨n, hn⟩ := @ih (cronNextFireTime expr next) (by omega)
          exact ⟨n + 1, by rw [hn]; rfl⟩
      next => exact ⟨0, rfl⟩

theorem tickJobs_returns {now : Int} {jobs : List CronJob}
    (h : ∀ job ∈ jobs, SecondsNonneg job.expr) :
    ∃ bound, ∀ rounds, bound ≤ rounds → ∃ jobs', (tickJobs rounds now jobs).2 = some jobs' := by
  induction jobs with
  | nil => exact ⟨0, fun _ _ => ⟨[], rfl⟩⟩
  | cons job jobs ih =>
      obtain ⟨bound, hbound⟩ := ih fun other hother => h other (List.mem_cons_of_mem job hother)
      let next := cronNextFireTime job.expr job.nextFire
      refine ⟨max bound ((now - next + 1).toNat + 1), ?_⟩
      intro rounds hrounds
      obtain ⟨jobs', hjobs⟩ := hbound rounds (by omega)
      obtain ⟨n, hn⟩ : ∃ n, callbackRuns rounds now job = some n := by
        unfold callbackRuns
        split
        · obtain ⟨n, hn⟩ := @countMissed_returns job.expr (h job List.mem_cons_self) now rounds next
            (by omega)
          exact ⟨n + 1, by rw [hn]; rfl⟩
        · exact ⟨1, rfl⟩
      unfold tickJobs
      split
      · rw [hn]
        exact ⟨fireJob now job :: jobs', by simp [hjobs]⟩
      · exact ⟨job :: jobs', by simp [hjobs]⟩

/-! ## Whole runs -/

/-- The walk from the clock of a registration that stores its job, and of an activation,
finds a later time; and where the walk of a job that fires finds one, it is later than the
tick. -/
def FindsTime : Option CronScheduler → Event → Prop
  | some sched, .register clock id cronSpec cb _ _ =>
      ∀ expr, storedExpression sched id cronSpec cb = some expr → FoundAfter expr clock
  | some sched, .activate clock id active =>
      active = true → ∀ job ∈ sched.jobs, job.id = id → FoundAfter job.expr clock
  | some sched, .tick now _ =>
      ∀ job ∈ sched.jobs, fires now job = true →
        ∀ k, FindsAt job.expr now k → now < walk job.expr now k
  | _, _ => True

structure Sound (sched : Option CronScheduler) (tr : Trace) : Prop where
  waiting : ∀ s, sched = some s → Waiting tr.since s.jobs
  due : ∀ inv ∈ tr.invocations, Due inv

theorem Waiting.due {since : UInt64 → Int} {jobs : List CronJob} (h : Waiting since jobs)
    {now : Int} {job : CronJob} (hjob : job ∈ jobs) (hfires : fires now job = true) :
    Due ⟨job.expr, since job.id, now⟩ := by
  rw [fires, Bool.and_eq_true, decide_eq_true_iff] at hfires
  obtain ⟨hlt, hmatch⟩ := h.waits job hjob hfires.1
  exact ⟨job.nextFire, hlt, hfires.2, hmatch⟩

theorem Sound.step {sched : Option CronScheduler} {tr : Trace} (h : Sound sched tr) {e : Event}
    (he : FindsTime sched e) : Sound (step sched e) (note tr sched e) := by
  cases sched with
  | none => exact h
  | some sched =>
      have hwaiting := h.waiting sched rfl
      cases e with
      | register clock id cronSpec cb ud catchUp =>
          simp only [Cron.step, note]
          rcases cronRegisterJob_cases sched clock id cronSpec cb ud catchUp with
            ⟨expr, hstored, hnew, hjobs⟩ | ⟨hstored, hjobs⟩
          · rw [hstored]
            refine ⟨?_, h.due⟩
            rintro s ⟨⟩
            rw [hjobs]
            exact hwaiting.append ⟨id, expr, cb, ud, catchUp, 0, _, true⟩ hnew
              (he expr hstored).waits
          · rw [hstored]
            refine ⟨?_, h.due⟩
            rintro s ⟨⟩
            exact hwaiting.subperm hjobs
      | unregister id =>
          refine ⟨?_, h.due⟩
          rintro s ⟨⟩
          exact hwaiting.subperm (cronUnregisterJob_jobs sched id)
      | activate clock id active =>
          have hnext := hwaiting.activate he
          rw [← hwaiting.cronActivateJob_jobs] at hnext
          cases active with
          | false =>
              refine ⟨?_, h.due⟩
              rintro s ⟨⟩
              exact hnext
          | true =>
              refine ⟨?_, h.due⟩
              rintro s ⟨⟩
              exact hnext
      | tick now rounds =>
          refine ⟨?_, ?_⟩
          · intro s hs
            obtain ⟨⟨fired, s'⟩, htick, rfl⟩ := Option.map_eq_some_iff.mp hs
            obtain ⟨jobs, hjobs, heq⟩ := Option.map_eq_some_iff.mp htick
            cases heq
            rw [tickJobs_jobs hjobs]
            exact hwaiting.ticked he
          · intro inv hinv
            rcases List.mem_append.mp hinv with hold | hnew
            · exact h.due inv hold
            · obtain ⟨job, hjob, rfl⟩ := List.mem_map.mp hnew
              obtain ⟨hmem, hfires⟩ := mem_tickJobs_calls hjob
              exact hwaiting.due hmem hfires

/-- In every run in which the fire times that are stored were found, each call of a callback
was due. -/
theorem callbacks_due (maxJobs : Option Int) (events : List Event)
    (h : Always step FindsTime (some (cronSchedulerCreate maxJobs)) events) :
    ∀ inv ∈ (traceOf maxJobs events).invocations, Due inv := by
  have hstart : Sound (some (cronSchedulerCreate maxJobs)) ⟨fun _ => 0, []⟩ := by
    refine ⟨?_, nofun⟩
    rintro s ⟨⟩
    exact ⟨List.nodup_nil, nofun⟩
  exact (observe_invariant step (fun _ _ _ hsound he => hsound.step he) hstart h).due

theorem findsTime_tick {sched : Option CronScheduler} {now : Int} {rounds : Nat}
    (h : ∀ s ∈ sched, ∀ job ∈ s.jobs, SecondsNonneg job.expr) :
    FindsTime sched (.tick now rounds) := by
  cases sched with
  | none => trivial
  | some sched => exact fun job hjob _ k _ => lt_walk (h sched rfl job hjob) now k

theorem foundAfter_of_matchesAt {expr : CronExpression} {clock : Int}
    (h : matchesAt expr (clock + 1) = true) : FoundAfter expr clock :=
  ⟨0, ⟨by decide, h, nofun, fun j _ hj => absurd hj (Nat.not_lt_zero j)⟩, Int.lt_succ clock⟩

/-- A job that fires every second, at two ticks. -/
def everySecond : List Event :=
  [.register 0 1 (some (lit "* * * * * *")) 7 0 true, .tick 3 10, .tick 4 10]

theorem callbacks_due_everySecond :
    (traceOf none everySecond).invocations.length = 4 ∧
      ∀ inv ∈ (traceOf none everySecond).invocations, Due inv := by
  refine ⟨by decide, callbacks_due none everySecond ⟨?_, ?_, ?_, trivial⟩⟩
  · intro expr hexpr
    have hmatch : (storedExpression (cronSchedulerCreate none) 1 (some (lit "* * * * * *")) 7).all
        (fun expr => matchesAt expr 1) = true := by decide
    rw [hexpr] at hmatch
    exact foundAfter_of_matchesAt hmatch
  · exact findsTime_tick (by decide)
  · exact findsTime_tick (by decide)

def february : CStr := lit "0 0 31 2 *"

theorem february_never_matches {expr : CronExpression}
    (h : cronParseExpression february = some expr) (t : Int) : matchesAt expr t = false := by
  have hfields : (cronParseExpression february).map
      (fun expr => (expr.fields .day, expr.fields .month)) =
        some (⟨.specific, [31]⟩, ⟨.specific, [2]⟩) := by decide +kernel
  rw [h] at hfields
  obtain ⟨hday, hmonth⟩ := Prod.mk.inj (Option.some.inj hfields)
  rw [← Bool.not_eq_true]
  intro hmatch
  have hall := List.all_eq_true.mp hmatch
  have hmday := hall .day (by decide)
  have hmon := hall .month (by decide)
  rw [hday] at hmday
  rw [hmonth] at hmon
  have h31 : (localtime t).mday = 31 := by simpa [cronFieldMatches, fieldValue] using hmday
  have h1 : (localtime t).mon + 1 = 2 := by simpa [cronFieldMatches, fieldValue] using hmon
  have hlong := localtime_mon_of_mday h31
  rw [show (localtime t).mon = 1 by omega] at hlong
  exact absurd hlong (by decide)

def februaryRun : List Event := [.register 10 1 (some february) 7 0 false, .tick 20 1]

/-- The job is called ten seconds after its registration. -/
theorem february_job_fires : ∃ inv ∈ (traceOf none februaryRun).invocations, ¬Due inv := by
  have hsome : (cronParseExpression february).isSome = true := by decide
  obtain ⟨expr, hexpr⟩ := Option.isSome_iff_exists.mp hsome
  have hnever := february_never_matches hexpr
  have hnext : cronNextFireTime expr 10 = -1 := by
    by_contra hne
    obtain ⟨k, hk⟩ := exists_findsAt_of_ne hne
    have := hk.holds
    rw [hnever] at this
    cases this
  refine ⟨⟨expr, 10, 20⟩, ?_, ?_⟩
  · simp [traceOf, februaryRun, observe, note, noteTick, step, cronRegisterJob, storedExpression,
      cronSchedulerCreate, cronMaxJobs, hexpr, tickJobs, fires, callbackRuns, hnext]
  · rintro ⟨t, -, -, hmatch⟩
    have htrue : matchesAt expr t = true := hmatch
    rw [hnever] at htrue
    cases htrue

end MiniBackend.JobSystem.Proofs.CronDue
