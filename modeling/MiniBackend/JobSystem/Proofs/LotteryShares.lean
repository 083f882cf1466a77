import MiniBackend.JobSystem.PriorityScheduler
import MiniBackend.Lib.Runs
import MiniBackend.Lib.WeightedDraw

/-!
# The shares of the lottery

The scan of the lottery draws by weight, where an active job weighs as many tickets as it has and
an inactive one nothing.  The drawn ticket lies below the total, so the scan always ends at a job.
-/

namespace MiniBackend.JobSystem.Proofs.LotteryShares

open MiniBackend.Lib.CArray MiniBackend.Lib.Runs MiniBackend.Lib.WeightedDraw
open MiniBackend.JobSystem.Priority

def weight (job : PsJobEntry) : Int := if job.active then job.tickets else 0

def weights (sched : PsScheduler) : List Int := sched.jobs.map weight

def totalTickets (sched : PsScheduler) : Int :=
  ((sched.jobs.filter PsJobEntry.active).map PsJobEntry.tickets).sum

/-- The index that is returned for a drawn ticket: that of the scan, or the last active one. -/
def selected (sched : PsScheduler) (winner : Int) : Option Nat :=
  (winnerFrom winner 0 0 sched.jobs).or (lastIndex PsJobEntry.active sched.jobs)

def nextSeed (seed : UInt32) : UInt32 := seed * 1664525 + 1013904223

def drawnTicket (sched : PsScheduler) (seed : UInt32) : Int :=
  ((nextSeed seed).toNat * totalTickets sched) / 2 ^ 32

theorem psLotterySelect_eq {sched : PsScheduler} (h : totalTickets sched ≠ 0) (seed : UInt32) :
    psLotterySelect sched seed = (selected sched (drawnTicket sched seed), nextSeed seed) := by
  unfold totalTickets at h
  rw [psLotterySelect, selected]
  dsimp only
  rw [if_neg h]
  split
  · next i hi =>
      have hi : winnerFrom (drawnTicket sched seed) 0 0 sched.jobs = some i := hi
      rw [hi]
      rfl
  · next hnone =>
      have hnone : winnerFrom (drawnTicket sched seed) 0 0 sched.jobs = none := hnone
      rw [hnone]
      rfl

/-! ## The scan -/

theorem totalTickets_eq (sched : PsScheduler) : totalTickets sched = (weights sched).sum := by
  rw [totalTickets, weights]
  induction sched.jobs with
  | nil => rfl
  | cons job jobs ih =>
      rw [List.filter_cons, List.map_cons, List.sum_cons, weight]
      split
      · rw [List.map_cons, List.sum_cons, ih]
      · rw [ih, Int.zero_add]

/-- Inactive jobs are skipped; this is what a job without tickets is too. -/
theorem winnerFrom_eq {winner acc : Int} (h : acc ≤ winner) (i : Nat) (jobs : List PsJobEntry) :
    winnerFrom winner i acc jobs = (draw (jobs.map weight) (winner - acc)).map (i + ·) := by
  induction jobs generalizing i acc with
  | nil => rfl
  | cons job jobs ih =>
      rw [winnerFrom, List.map_cons, draw, weight]
      by_cases hactive : job.active = true
      · rw [if_pos hactive, if_pos hactive]
        by_cases hwins : winner < acc + job.tickets
        · rw [if_pos hwins, if_pos (by omega)]
          rfl
        · rw [if_neg hwins, if_neg (by omega), ih (by omega), Option.map_map, Int.sub_sub]
          congr 1
          funext k
          exact (Nat.add_right_comm i 1 k).trans (Nat.add_assoc i k 1)
      · rw [if_neg hactive, if_neg hactive, if_neg (by omega), ih h, Option.map_map, Int.sub_zero]
        congr 1
        funext k
        exact (Nat.add_right_comm i 1 k).trans (Nat.add_assoc i k 1)

variable {sched : PsScheduler} {winner : Int}

theorem winnerFrom_eq_draw (h : 0 ≤ winner) :
    winnerFrom winner 0 0 sched.jobs = draw (weights sched) winner := by
  rw [winnerFrom_eq h, Int.sub_zero, weights]
  simp

theorem selected_eq_draw (hwinner : 0 ≤ winner) (hlt : winner < totalTickets sched) :
    selected sched winner = draw (weights sched) winner := by
  rw [totalTickets_eq] at hlt
  obtain ⟨i, hi⟩ := Option.isSome_iff_exists.mp (draw_isSome hwinner hlt)
  rw [selected, winnerFrom_eq_draw hwinner, hi]
  rfl

/-- A random number below 1, scaled by the total, lies below the total. -/
theorem drawnTicket_mem (h : 0 < totalTickets sched) (seed : UInt32) :
    0 ≤ drawnTicket sched seed ∧ drawnTicket sched seed < totalTickets sched := by
  have hseed : ((nextSeed seed).toNat : Int) < 2 ^ 32 := by
    exact_mod_cast (nextSeed seed).toNat_lt
  constructor
  · exact Int.ediv_nonneg (Int.mul_nonneg (Int.natCast_nonneg _) h.le) (by decide)
  · rw [drawnTicket]
    apply Int.ediv_lt_of_lt_mul (by decide)
    rw [Int.mul_comm (totalTickets sched)]
    exact Int.mul_lt_mul_of_pos_right hseed h

/-! ## The tickets of a run -/

def HaveTickets (jobs : List PsJobEntry) : Prop := ∀ job ∈ jobs, 0 < job.tickets

variable {jobs : List PsJobEntry} {f : PsJobEntry → PsJobEntry}

theorem HaveTickets.modify (h : HaveTickets jobs) (idx : Nat)
    (hf : ∀ job, (f job).tickets = job.tickets) : HaveTickets (jobs.modify idx f) := by
  intro job hjob
  obtain ⟨i, hi⟩ := List.mem_iff_getElem?.mp hjob
  rw [List.getElem?_modify] at hi
  obtain ⟨old, hold, rfl⟩ := Option.map_eq_some_iff.mp hi
  have hpos := h old (List.mem_of_getElem? hold)
  split
  · rw [hf]
    exact hpos
  · exact hpos

theorem HaveTickets.map (h : HaveTickets jobs) (hf : ∀ job, (f job).tickets = job.tickets) :
    HaveTickets (jobs.map f) := by
  intro job hjob
  obtain ⟨old, hold, rfl⟩ := List.mem_map.mp hjob
  rw [hf]
  exact h old hold

theorem HaveTickets.retire (h : HaveTickets sched.jobs) (idx : Nat) :
    HaveTickets (retire sched idx).jobs := h.modify idx fun _ => rfl

theorem ageJob_tickets (sched : PsScheduler) (now : Int) (job : PsJobEntry) :
    (ageJob sched now job).tickets = job.tickets := by
  rw [ageJob]
  split <;> rfl

theorem HaveTickets.autoAge (h : HaveTickets sched.jobs) (now : Int) :
    HaveTickets (autoAge sched now).jobs := by
  rw [Priority.autoAge]
  split
  · exact h.map (ageJob_tickets sched now)
  · exact h

theorem HaveTickets.scheduleLevel (h : HaveTickets sched.jobs) (lev n : Nat) :
    HaveTickets (scheduleLevel lev n sched).2.jobs := by
  induction n generalizing sched with
  | zero => exact h
  | succ n ih =>
      rw [Priority.scheduleLevel]
      split
      · exact h
      · have hrest : HaveTickets (dequeueFromLevel sched lev).jobs := h
        dsimp only
        split
        · exact ih hrest
        · split
          · exact hrest.retire _
          · exact ih hrest

theorem HaveTickets.scheduleLevels (h : HaveTickets sched.jobs) (levs : List Nat) :
    HaveTickets (scheduleLevels levs sched).2.jobs := by
  induction levs generalizing sched with
  | nil => exact h
  | cons lev levs ih =>
      have hlevel := h.scheduleLevel lev (sched.queues lev).count
      rw [Priority.scheduleLevels]
      split
      · next heq =>
          rw [heq] at hlevel
          exact hlevel
      · next heq =>
          rw [heq] at hlevel
          exact ih hlevel

theorem HaveTickets.psScheduleNext (h : HaveTickets sched.jobs) (now : Int) :
    HaveTickets (psScheduleNext sched now).2.jobs := by
  have haged := h.autoAge now
  rw [Priority.psScheduleNext]
  split
  · exact haged.scheduleLevels _
  · exact haged.scheduleLevels _
  · split
    · exact haged
    · exact haged.retire _

theorem HaveTickets.psSubmit (h : HaveTickets sched.jobs) (id : UInt64) (job : Option UInt64)
    (ud : UInt64) (priority tickets now : Int) :
    HaveTickets (psSubmit sched id job ud priority tickets now).2.jobs := by
  unfold Priority.psSubmit
  split
  · exact h
  · split
    · exact h
    · intro entry hentry
      rcases List.mem_append.mp hentry with hold | hnew
      · exact h entry hold
      · rw [List.mem_singleton.mp hnew, newJob]
        dsimp only
        split
        · assumption
        · decide

theorem HaveTickets.step (h : HaveTickets sched.jobs) (op : Op) :
    HaveTickets (step sched op).jobs := by
  cases op with
  | submit id job ud priority tickets now => exact h.psSubmit id job ud priority tickets now
  | cancel id =>
      rw [Priority.step, psCancel]
      split
      · exact h
      · exact h.retire _
  | boostPriority id newPriority =>
      rw [Priority.step, psBoostPriority]
      split
      · exact h
      · split
        · exact h
        · exact h.modify _ fun _ => rfl
  | restorePriority id =>
      rw [Priority.step, psRestorePriority]
      split
      · exact h
      · exact h.modify _ fun _ => rfl
  | priorityInherit holderId waiterId =>
      rw [Priority.step, psPriorityInherit]
      split
      · split
        · split
          · exact h.modify _ fun _ => rfl
          · exact h
        · exact h
      · exact h
  | ageJobs now => exact h.map (ageJob_tickets sched now)
  | scheduleNext now => exact h.psScheduleNext now

/-- The state of the scheduler after the operations. -/
def reached (config : Option PsConfig) (start : Int) (ops : List Op) : PsScheduler :=
  run step (psCreate config start) ops

theorem haveTickets_reached (config : Option PsConfig) (start : Int) (ops : List Op) :
    HaveTickets (reached config start ops).jobs := by
  apply run_keeps (I := fun sched : PsScheduler => HaveTickets sched.jobs) step
    fun sched op h => h.step op
  intro job hjob
  cases config <;> exact absurd hjob List.not_mem_nil

/-! ## The shares -/

theorem HaveTickets.weights_nonneg (h : HaveTickets sched.jobs) : ∀ w ∈ weights sched, 0 ≤ w := by
  intro w hw
  obtain ⟨job, hjob, rfl⟩ := List.mem_map.mp hw
  rw [weight]
  split
  · exact (h job hjob).le
  · exact le_rfl

theorem HaveTickets.card_selected (h : HaveTickets sched.jobs) {i : Nat} {job : PsJobEntry}
    (hi : sched.jobs[i]? = some job) :
    (((Finset.Ico 0 (totalTickets sched)).filter fun winner =>
      selected sched winner = some i).card : Int) = weight job := by
  have hweight : (weights sched)[i]? = some (weight job) := by
    rw [weights, List.getElem?_map, hi]
    rfl
  have hsame : ((Finset.Ico 0 (totalTickets sched)).filter fun winner =>
        selected sched winner = some i) =
      (Finset.Ico 0 (totalTickets sched)).filter fun winner =>
        draw (weights sched) winner = some i := by
    apply Finset.filter_congr
    intro winner hwinner
    rw [Finset.mem_Ico] at hwinner
    rw [selected_eq_draw hwinner.1 hwinner.2]
  rw [hsame, totalTickets_eq]
  exact card_draw h.weights_nonneg hweight

theorem HaveTickets.selected_active (h : HaveTickets sched.jobs) (hwinner : 0 ≤ winner)
    (hlt : winner < totalTickets sched) :
    ∃ i job, selected sched winner = some i ∧ sched.jobs[i]? = some job ∧ job.active = true := by
  have hdraw := selected_eq_draw hwinner hlt
  rw [totalTickets_eq] at hlt
  obtain ⟨i, hi⟩ := Option.isSome_iff_exists.mp (draw_isSome hwinner hlt)
  obtain ⟨w, hw, howns⟩ := (draw_eq_some_iff h.weights_nonneg hwinner).mp hi
  rw [weights, List.getElem?_map] at hw
  obtain ⟨job, hjob, rfl⟩ := Option.map_eq_some_iff.mp hw
  refine ⟨i, job, hdraw.trans hi, hjob, ?_⟩
  by_contra hinactive
  rw [weight, if_neg hinactive] at howns
  omega

/-- Each job is selected by as many of the tickets as it has while it is active, and by none after
that; the drawn ticket is one of them, so the scan finds its job. -/
structure Proportional (sched : PsScheduler) : Prop where
  card_selected : ∀ i job, sched.jobs[i]? = some job →
    (((Finset.Ico 0 (totalTickets sched)).filter fun winner =>
      selected sched winner = some i).card : Int) = if job.active then job.tickets else 0
  selected_active : ∀ winner, 0 ≤ winner → winner < totalTickets sched →
    ∃ i job, selected sched winner = some i ∧ sched.jobs[i]? = some job ∧ job.active = true
  draws : totalTickets sched ≠ 0 → ∀ seed,
    psLotterySelect sched seed = (selected sched (drawnTicket sched seed), nextSeed seed)
  drawn_nonneg : totalTickets sched ≠ 0 → ∀ seed, 0 ≤ drawnTicket sched seed
  drawn_lt : totalTickets sched ≠ 0 → ∀ seed, drawnTicket sched seed < totalTickets sched
  scan_isSome : totalTickets sched ≠ 0 → ∀ seed,
    (winnerFrom (drawnTicket sched seed) 0 0 sched.jobs).isSome

theorem HaveTickets.total_pos (h : HaveTickets sched.jobs) (hne : totalTickets sched ≠ 0) :
    0 < totalTickets sched := by
  have hnonneg := List.sum_nonneg h.weights_nonneg
  rw [← totalTickets_eq] at hnonneg
  omega

/-- The lottery is proportional in every state of a scheduler. -/
theorem lottery_proportional (config : Option PsConfig) (start : Int) (ops : List Op) :
    Proportional (reached config start ops) := by
  have h := haveTickets_reached config start ops
  constructor
  · exact fun i job => h.card_selected
  · exact fun winner => h.selected_active
  · exact psLotterySelect_eq
  · exact fun hne seed => (drawnTicket_mem (h.total_pos hne) seed).1
  · exact fun hne seed => (drawnTicket_mem (h.total_pos hne) seed).2
  · intro hne seed
    obtain ⟨hdrawn, hlt⟩ := drawnTicket_mem (h.total_pos hne) seed
    rw [totalTickets_eq] at hlt
    rw [winnerFrom_eq_draw hdrawn]
    exact draw_isSome hdrawn hlt

end MiniBackend.JobSystem.Proofs.LotteryShares
