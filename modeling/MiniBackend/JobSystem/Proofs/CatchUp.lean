import MiniBackend.JobSystem.Proofs.CronDue
import Mathlib.Algebra.Order.BigOperators.Group.List
import Mathlib.Data.Int.ConditionallyCompleteOrder
import Mathlib.Data.Int.Interval

/-!
# Catch-up

A job that catches up is called once for each matching time since its fire time.  The calls of a
tick and the matching times from the new fire time on are together those from the old one on, so
it does not matter how the ticks are spaced.
-/

namespace MiniBackend.JobSystem.Proofs.CatchUp

open MiniBackend.Lib.Calendar MiniBackend.Lib.Runs MiniBackend.JobSystem.Cron
open MiniBackend.JobSystem.Proofs.CronEarliest MiniBackend.JobSystem.Proofs.CronDue

def FindsFirst (expr : CronExpression) (t : Int) : Prop :=
  cronNextFireTime expr t ≠ -1 ∧
    IsLeast {u | t < u ∧ matchesAt expr u = true} (cronNextFireTime expr t)

/-- The fire time was stored at some time, and from this time on the first matching times are
found. -/
def Scheduled (job : CronJob) : Prop :=
  ∃ clock, job.nextFire = cronNextFireTime job.expr clock ∧
    ∀ t, clock ≤ t → FindsFirst job.expr t

/-- The matching times from `lo` to `hi`. -/
noncomputable def matchingTimes (expr : CronExpression) (lo hi : Int) : Finset Int :=
  (Finset.Icc lo hi).filter fun t => matchesAt expr t = true

variable {expr : CronExpression} {job : CronJob} {now : Int} {rounds : Nat}

theorem mem_matchingTimes {lo hi t : Int} :
    t ∈ matchingTimes expr lo hi ↔ (lo ≤ t ∧ t ≤ hi) ∧ matchesAt expr t = true := by
  rw [matchingTimes, Finset.mem_filter, Finset.mem_Icc]

theorem matchingTimes_of_lt {lo hi : Int} (h : hi < lo) : matchingTimes expr lo hi = ∅ := by
  rw [matchingTimes, Finset.Icc_eq_empty (by omega), Finset.filter_empty]

theorem FindsFirst.lt {t : Int} (h : FindsFirst expr t) : t < cronNextFireTime expr t := h.2.1.1

theorem FindsFirst.matches {t : Int} (h : FindsFirst expr t) :
    matchesAt expr (cronNextFireTime expr t) = true := h.2.1.2

theorem FindsFirst.matchingTimes_eq {t : Int} (h : FindsFirst expr t) (hi : Int) :
    matchingTimes expr (t + 1) hi = matchingTimes expr (cronNextFireTime expr t) hi := by
  ext u
  rw [mem_matchingTimes, mem_matchingTimes]
  constructor
  · rintro ⟨⟨hlo, hhi⟩, hmatches⟩
    exact ⟨⟨h.2.2 ⟨by omega, hmatches⟩, hhi⟩, hmatches⟩
  · rintro ⟨⟨hlo, hhi⟩, hmatches⟩
    have hlt := h.lt
    exact ⟨⟨by omega, hhi⟩, hmatches⟩

theorem matchingTimes_split {lo mid hi : Int} (hlo : lo ≤ mid + 1) (hhi : mid ≤ hi) :
    (matchingTimes expr lo hi).card =
      (matchingTimes expr lo mid).card + (matchingTimes expr (mid + 1) hi).card := by
  have hdisjoint : Disjoint (matchingTimes expr lo mid) (matchingTimes expr (mid + 1) hi) := by
    rw [Finset.disjoint_left]
    intro u hleft hright
    rw [mem_matchingTimes] at hleft hright
    omega
  rw [← Finset.card_union_of_disjoint hdisjoint]
  congr 1
  ext u
  rw [Finset.mem_union, mem_matchingTimes, mem_matchingTimes, mem_matchingTimes, ← or_and_right]
  apply and_congr_left'
  omega

theorem matchingTimes_first {t hi : Int} (hmatches : matchesAt expr t = true) (hle : t ≤ hi) :
    (matchingTimes expr t hi).card = (matchingTimes expr (t + 1) hi).card + 1 := by
  have hself : matchingTimes expr t t = {t} := by
    rw [matchingTimes, Finset.Icc_self, Finset.filter_singleton, if_pos hmatches]
  rw [matchingTimes_split (by omega) hle, hself, Finset.card_singleton, Nat.add_comm]

/-! ## One tick of one job -/

theorem countMissed_eq {t : Int} (hfinds : ∀ u, t ≤ u → FindsFirst expr u)
    (hrounds : (now - t).toNat < rounds) :
    countMissed expr now rounds (cronNextFireTime expr t) =
      some (matchingTimes expr (t + 1) now).card := by
  induction rounds generalizing t with
  | zero => omega
  | succ rounds ih =>
      have hfirst := hfinds t le_rfl
      have hlt := hfirst.lt
      rw [countMissed, hfirst.matchingTimes_eq]
      split
      · next hmissed =>
          have hrest := ih (t := cronNextFireTime expr t) (fun u hu => hfinds u (hlt.le.trans hu))
            (by omega)
          rw [hrest, matchingTimes_first hfirst.matches hmissed.1]
          rfl
      · next hdone =>
          have hlate : now < cronNextFireTime expr t := by
            by_contra hle
            exact hdone ⟨by omega, hfirst.1⟩
          rw [matchingTimes_of_lt hlate, Finset.card_empty]

def runsAt (rounds : Nat) (now : Int) (job : CronJob) : Nat :=
  if fires now job then (callbackRuns rounds now job).getD 0 else 0

theorem Scheduled.finds (h : Scheduled job) {t : Int} (ht : job.nextFire ≤ t) :
    FindsFirst job.expr t := by
  obtain ⟨clock, hnext, hfinds⟩ := h
  have hlt := (hfinds clock le_rfl).lt
  exact hfinds t (by omega)

theorem Scheduled.matches (h : Scheduled job) : matchesAt job.expr job.nextFire = true := by
  obtain ⟨clock, hnext, hfinds⟩ := h
  rw [hnext]
  exact (hfinds clock le_rfl).matches

/-- A job that fires is called for its fire time and for those it missed. -/
theorem callbackRuns_eq (hscheduled : Scheduled job) (hcatch : job.catchUp = true)
    (hdue : job.nextFire ≤ now) (hrounds : (now - job.nextFire).toNat < rounds) :
    callbackRuns rounds now job = some (matchingTimes job.expr job.nextFire now).card := by
  have hmissed : countMissed job.expr now rounds (cronNextFireTime job.expr job.nextFire) =
      some (matchingTimes job.expr (job.nextFire + 1) now).card :=
    countMissed_eq (fun u hu => hscheduled.finds hu) hrounds
  rw [callbackRuns, if_pos hcatch, hmissed, matchingTimes_first hscheduled.matches hdue]
  rfl

structure CatchesUp (job : CronJob) : Prop where
  catchUp : job.catchUp = true
  active : job.active = true
  scheduled : Scheduled job

theorem fires_iff (h : CatchesUp job) : fires now job = true ↔ job.nextFire ≤ now := by
  simp [fires, h.active]

theorem CatchesUp.ticked (h : CatchesUp job) (now : Int) : CatchesUp (tickedJob now job) := by
  rw [tickedJob]
  split
  · next hfires =>
      have hfinds := h.scheduled.finds ((fires_iff h).mp hfires)
      refine ⟨h.catchUp, decide_eq_true hfinds.1, now, rfl, fun t ht => ?_⟩
      exact h.scheduled.finds (((fires_iff h).mp hfires).trans ht)
  · exact h

theorem CatchesUp.lt_nextFire (h : CatchesUp job) (now : Int) :
    now < (tickedJob now job).nextFire := by
  rw [tickedJob]
  split
  · next hfires => exact (h.scheduled.finds ((fires_iff h).mp hfires)).lt
  · next hidle =>
      rw [fires_iff h] at hidle
      omega

theorem CatchesUp.nextFire_le (h : CatchesUp job) (now : Int) :
    job.nextFire ≤ (tickedJob now job).nextFire := by
  rw [tickedJob]
  split
  · next hfires =>
      have hdue := (fires_iff h).mp hfires
      have hlt := (h.scheduled.finds hdue).lt
      exact hdue.trans hlt.le
  · exact le_rfl

/-- The calls of a tick, and the matching times from the new fire time on. -/
theorem runsAt_add (h : CatchesUp job) (hrounds : (now - job.nextFire).toNat < rounds) {u : Int}
    (hu : now ≤ u) :
    runsAt rounds now job +
        (matchingTimes job.expr (tickedJob now job).nextFire u).card =
      (matchingTimes job.expr job.nextFire u).card := by
  rw [runsAt, tickedJob]
  split
  · next hfires =>
      have hdue := (fires_iff h).mp hfires
      have hfinds := h.scheduled.finds hdue
      rw [callbackRuns_eq h.scheduled h.catchUp hdue hrounds, Option.getD_some]
      change _ + (matchingTimes job.expr (cronNextFireTime job.expr now) u).card = _
      rw [← hfinds.matchingTimes_eq, ← matchingTimes_split (by omega) hu]
  · exact Nat.zero_add _

/-! ## One tick -/

def Ready (rounds : Nat) (last : Int) (jobs : List CronJob) : Prop :=
  ∀ job ∈ jobs, job.catchUp = true → job.active = true →
    Scheduled job ∧ (last - job.nextFire).toNat < rounds

theorem tickedJob_id (now : Int) (job : CronJob) : (tickedJob now job).id = job.id := by
  rw [tickedJob]
  split <;> rfl

theorem tickedJob_catchUp (now : Int) (job : CronJob) :
    (tickedJob now job).catchUp = job.catchUp := by
  rw [tickedJob]
  split <;> rfl

theorem tickedJob_expr (now : Int) (job : CronJob) : (tickedJob now job).expr = job.expr := by
  rw [tickedJob]
  split <;> rfl

theorem active_of_tickedJob (h : (tickedJob now job).active = true) : job.active = true := by
  rw [tickedJob] at h
  split at h
  · next hfires => exact (Bool.and_eq_true_iff.mp hfires).1
  · exact h

variable {jobs : List CronJob} {last : Int}

theorem Ready.ticked (h : Ready rounds last jobs) (now : Int) :
    Ready rounds last (jobs.map (tickedJob now)) := by
  intro job hjob hcatch hactive
  obtain ⟨job, hold, rfl⟩ := List.mem_map.mp hjob
  rw [tickedJob_catchUp] at hcatch
  have hactive := active_of_tickedJob hactive
  obtain ⟨hscheduled, hrounds⟩ := h job hold hcatch hactive
  have hcatches : CatchesUp job := ⟨hcatch, hactive, hscheduled⟩
  have hle := hcatches.nextFire_le now
  exact ⟨(hcatches.ticked now).scheduled, by omega⟩

theorem tickJobs_eq (h : Ready rounds last jobs) (hnow : now ≤ last) :
    tickJobs rounds now jobs =
      (jobs.flatMap fun job => List.replicate (runsAt rounds now job) job,
        some (jobs.map (tickedJob now))) := by
  induction jobs with
  | nil => rfl
  | cons job jobs ih =>
      have hrest := ih fun other hother => h other (List.mem_cons_of_mem _ hother)
      rw [tickJobs, List.flatMap_cons, List.map_cons, hrest, runsAt, tickedJob]
      split
      · next hfires =>
          have hruns : ∃ n, callbackRuns rounds now job = some n := by
            have hfires := Bool.and_eq_true_iff.mp hfires
            by_cases hcatch : job.catchUp = true
            · obtain ⟨hscheduled, hrounds⟩ := h job List.mem_cons_self hcatch hfires.1
              exact ⟨_, callbackRuns_eq hscheduled hcatch (of_decide_eq_true hfires.2) (by omega)⟩
            · exact ⟨1, by rw [callbackRuns, if_neg hcatch]⟩
          obtain ⟨n, hn⟩ := hruns
          rw [hn]
          rfl
      · rfl

theorem countP_calls (hids : (jobs.map CronJob.id).Nodup) (hjob : job ∈ jobs) (n : CronJob → Nat) :
    (jobs.flatMap fun job => List.replicate (n job) job).countP (hasId job.id) = n job := by
  induction jobs with
  | nil => exact absurd hjob List.not_mem_nil
  | cons other jobs ih =>
      rw [List.map_cons, List.nodup_cons] at hids
      rw [List.flatMap_cons, List.countP_append, List.countP_replicate]
      rcases List.mem_cons.mp hjob with rfl | hjob
      · have hrest : (jobs.flatMap fun job => List.replicate (n job) job).countP (hasId job.id) =
            0 := by
          rw [List.countP_eq_zero]
          intro x hx hid
          obtain ⟨other, hother, hx⟩ := List.mem_flatMap.mp hx
          rw [List.eq_of_mem_replicate hx, hasId, beq_iff_eq] at hid
          exact hids.1 (hid ▸ List.mem_map_of_mem hother)
        rw [hrest, if_pos (by simp [hasId])]
        rfl
      · have hne : hasId job.id other = false := by
          rw [hasId, beq_eq_false_iff_ne]
          exact fun heq => hids.1 (heq ▸ List.mem_map_of_mem hjob)
        rw [if_neg (by simp [hne]), Nat.zero_add]
        exact ih hids.2 hjob

/-! ## Many ticks -/

def noteCalls (calls : List CronJob) : Option CronScheduler → Event → List CronJob
  | some sched, .tick now rounds => calls ++ (tickJobs rounds now sched.jobs).1
  | _, _ => calls

def ticksAt (rounds : Nat) (times : List Int) : List Event :=
  times.map fun now => .tick now rounds

/-- How often the callback of the job with the id is called by ticks at the times. -/
def callCount (rounds : Nat) (sched : CronScheduler) (times : List Int) (id : UInt64) : Nat :=
  (observe step noteCalls [] (some sched) (ticksAt rounds times)).countP (hasId id)

def tickedAt (times : List Int) (job : CronJob) : CronJob :=
  times.foldl (fun job now => tickedJob now job) job

theorem CatchesUp.tickedAt (h : CatchesUp job) (times : List Int) :
    CatchesUp (tickedAt times job) := by
  induction times generalizing job with
  | nil => exact h
  | cons now times ih => exact ih (h.ticked now)

/-- The calls of a run, and the matching times from the last fire time on. -/
theorem run_calls {times : List Int} {sched : CronScheduler} (calls : List CronJob)
    (hids : (sched.jobs.map CronJob.id).Nodup) (hready : Ready rounds last sched.jobs)
    (htimes : ∀ now ∈ times, now ≤ last) :
    (run step (some sched) (ticksAt rounds times)).isSome ∧
      ∀ job ∈ sched.jobs, job.catchUp = true → job.active = true →
        (observe step noteCalls calls (some sched) (ticksAt rounds times)).countP (hasId job.id) +
            (matchingTimes job.expr (tickedAt times job).nextFire last).card =
          calls.countP (hasId job.id) + (matchingTimes job.expr job.nextFire last).card := by
  induction times generalizing sched calls with
  | nil => exact ⟨rfl, fun _ _ _ _ => rfl⟩
  | cons now times ih =>
      have hnow := htimes now List.mem_cons_self
      have htick := tickJobs_eq hready hnow
      have hstep : step (some sched) (.tick now rounds) =
          some { sched with jobs := sched.jobs.map (tickedJob now) } := by
        rw [step, cronTick, htick]
        rfl
      have hids' : ((sched.jobs.map (tickedJob now)).map CronJob.id).Nodup := by
        rw [List.map_map, show CronJob.id ∘ tickedJob now = CronJob.id from
          funext (tickedJob_id now)]
        exact hids
      have hrest := @ih { sched with jobs := sched.jobs.map (tickedJob now) }
        (calls ++ (tickJobs rounds now sched.jobs).1) hids' (hready.ticked now)
        fun t ht => htimes t (List.mem_cons_of_mem _ ht)
      rw [ticksAt, List.map_cons, run_cons, observe, hstep]
      refine ⟨hrest.1, fun job hjob hcatch hactive => ?_⟩
      obtain ⟨hscheduled, hrounds⟩ := hready job hjob hcatch hactive
      have hcatches : CatchesUp job := ⟨hcatch, hactive, hscheduled⟩
      have hcount := hrest.2 (tickedJob now job) (List.mem_map_of_mem hjob)
        ((tickedJob_catchUp now job).trans hcatch) (hcatches.ticked now).active
      have hbound : (now - job.nextFire).toNat < rounds := by omega
      have hruns := runsAt_add hcatches hbound hnow
      rw [tickedJob_id, tickedJob_expr, htick, List.countP_append, countP_calls hids hjob] at hcount
      change _ +
        (matchingTimes job.expr (tickedAt times (tickedJob now job)).nextFire last).card = _
      rw [noteCalls, htick]
      exact hcount.trans (by omega)

/-- A job that catches up is called once for each matching time since its fire time, however the
ticks are spaced. -/
theorem calls_eq_matching_times {sched : CronScheduler}
    (hids : (sched.jobs.map CronJob.id).Nodup)
    (hjobs : ∀ job ∈ sched.jobs, job.catchUp = true → job.active = true → Scheduled job)
    {times : List Int} (htimes : (times ++ [last]).Pairwise (· ≤ ·)) :
    ∃ enough, ∀ rounds, enough ≤ rounds →
      (run step (some sched) (ticksAt rounds (times ++ [last]))).isSome ∧
        ∀ job ∈ sched.jobs, job.catchUp = true → job.active = true →
          callCount rounds sched (times ++ [last]) job.id =
            (matchingTimes job.expr job.nextFire last).card := by
  refine ⟨(sched.jobs.map fun job => (last - job.nextFire).toNat).sum + 1, fun rounds henough => ?_⟩
  have hready : Ready rounds last sched.jobs := by
    intro job hjob hcatch hactive
    refine ⟨hjobs job hjob hcatch hactive, ?_⟩
    have hle := List.le_sum_of_mem (List.mem_map_of_mem (f := fun job : CronJob =>
      (last - job.nextFire).toNat) hjob)
    omega
  have hlast : ∀ now ∈ times ++ [last], now ≤ last := by
    intro now hnow
    rcases List.mem_append.mp hnow with hnow | hnow
    · exact (List.pairwise_append.mp htimes).2.2 now hnow last (List.mem_singleton_self last)
    · exact (List.mem_singleton.mp hnow).le
  have hrun := run_calls [] hids hready hlast
  refine ⟨hrun.1, fun job hjob hcatch hactive => ?_⟩
  have hcount := hrun.2 job hjob hcatch hactive
  have hcatches : CatchesUp job := ⟨hcatch, hactive, hjobs job hjob hcatch hactive⟩
  have hafter : last < (tickedAt (times ++ [last]) job).nextFire := by
    rw [tickedAt, List.foldl_append]
    exact (hcatches.tickedAt times).lt_nextFire last
  rw [matchingTimes_of_lt hafter, Finset.card_empty, Nat.add_zero, List.countP_nil,
    Nat.zero_add] at hcount
  exact hcount

def wildcards : CronExpression := ⟨fun _ => ⟨.any, []⟩⟩

theorem findsFirst_wildcards {t : Int} (h : 0 ≤ t) : FindsFirst wildcards t := by
  have hmatches : ∀ u, matchesAt wildcards u = true := fun _ => rfl
  have hnext : cronNextFireTime wildcards t = t + 1 := by
    have hfirst : searchLoop wildcards (maxIterations - 1 + 1) (localtime (t + 1)) =
        mktime (localtime (t + 1)) := by
      rw [searchLoop]
      exact if_pos (hmatches (t + 1))
    exact hfirst.trans (mktime_localtime (t + 1))
  rw [FindsFirst, hnext]
  exact ⟨by omega, ⟨by omega, hmatches _⟩, fun u hu => hu.1⟩

/-- A scheduler with a job that was registered at time 0 and fires every second. -/
def eachSecond : CronScheduler :=
  ⟨[⟨7, wildcards, 1, 0, true, 0, cronNextFireTime wildcards 0, true⟩], 64⟩

theorem calls_eq_matching_times_eachSecond :
    ∃ enough, ∀ rounds, enough ≤ rounds →
      (run step (some eachSecond) (ticksAt rounds ([0, 2, 2] ++ [5]))).isSome ∧
        ∀ job ∈ eachSecond.jobs, job.catchUp = true → job.active = true →
          callCount rounds eachSecond ([0, 2, 2] ++ [5]) job.id =
            (matchingTimes job.expr job.nextFire 5).card := by
  apply calls_eq_matching_times
  · decide
  · intro job hjob _ _
    obtain rfl := List.mem_singleton.mp hjob
    exact ⟨0, rfl, fun t ht => findsFirst_wildcards ht⟩
  · decide

end MiniBackend.JobSystem.Proofs.CatchUp
