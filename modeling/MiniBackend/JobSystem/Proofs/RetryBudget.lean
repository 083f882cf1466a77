import Mathlib.Tactic.Ring
import MiniBackend.JobSystem.TaskRetry
import MiniBackend.Lib.Runs

/-!
# The retry budget of a job

A ledger beside the retry state records what a job was granted and what it used.  The
code keeps no record of an execution: a task that is due stays due, and a report for a
job that is exhausted is treated as any other.  A caller that triggers once for each
granted retry, stops reporting errors at exhaustion and registers no job behind the end
of the array stays within the budget.
-/

namespace MiniBackend.JobSystem.Proofs.RetryBudget

open MiniBackend.Lib.CArray MiniBackend.Lib.Runs MiniBackend.JobSystem.Retry

structure Ledger where
  granted : Nat := 0
  executed : Nat := 0
  late : Nat := 0
  deadLetters : Nat := 0
  pending : Bool := false
  exhausted : Bool := false
deriving DecidableEq

structure Watched where
  retry : TaskRetry
  ledger : Ledger

def noteReport (ledger : Ledger) (before : TaskRetry) (result : Int) (after : TaskRetry)
    (job : UInt64) : Ledger :=
  { ledger with
    granted := if result = 1 then ledger.granted + 1 else ledger.granted
    pending := ledger.pending || result == 1
    deadLetters := ledger.deadLetters + (after.deadLetters.length - before.deadLetters.length)
    exhausted := ledger.exhausted || trIsExhausted after job }

def noteExecution (ledger : Ledger) : Ledger :=
  { ledger with
    executed := ledger.executed + 1
    late := if ledger.exhausted then ledger.late + 1 else ledger.late
    pending := false }

def note (job : UInt64) (tr : TaskRetry) (ledger : Ledger) : Op → Ledger
  | .reportResult jobId err now₁ now₂ now₃ =>
      let (result, after) := trReportResult tr jobId err now₁ now₂ now₃
      if jobId = job then noteReport ledger tr result after job else ledger
  | .triggerRetry jobId now =>
      if jobId = job ∧ (trTriggerRetry tr jobId now).isSome then noteExecution ledger
      else ledger
  | _ => ledger

def watch (job : UInt64) (s : Watched) (op : Op) : Option Watched :=
  (step s.retry op).map fun retry => ⟨retry, note job s.retry s.ledger op⟩

/-- At most one execution for each granted retry, at most `limit` of them, none after
exhaustion, and at most one dead letter. -/
structure BudgetRespected (limit : Int) (ledger : Ledger) : Prop where
  executed_le_granted : ledger.executed ≤ ledger.granted
  granted_le_limit : (ledger.granted : Int) ≤ limit
  none_late : ledger.late = 0
  one_dead_letter : ledger.deadLetters ≤ 1

instance (limit : Int) (ledger : Ledger) : Decidable (BudgetRespected limit ledger) :=
  decidable_of_iff
    (ledger.executed ≤ ledger.granted ∧ (ledger.granted : Int) ≤ limit ∧ ledger.late = 0 ∧
      ledger.deadLetters ≤ 1)
    ⟨fun ⟨h₁, h₂, h₃, h₄⟩ => ⟨h₁, h₂, h₃, h₄⟩, fun ⟨h₁, h₂, h₃, h₄⟩ => ⟨h₁, h₂, h₃, h₄⟩⟩

/-- A job that gets an entry of its own finds one of the array left. -/
def HasEntry (tr : TaskRetry) (jobId : UInt64) (task : Option UInt64) : Prop :=
  task.isSome → tr.entries.length < tr.capacity → trFind tr jobId = none →
    tr.entries.length < trDeadLetterMax

instance (tr : TaskRetry) (jobId : UInt64) (task : Option UInt64) :
    Decidable (HasEntry tr jobId task) :=
  inferInstanceAs (Decidable (_ → _ → _ → _))

/-- A trigger that finds the job due uses up a retry granted since its last execution,
no error that would be retried is reported for an exhausted job, and no entry is written
behind the end of the array. -/
def Orderly (job : UInt64) (s : Watched) : Op → Prop
  | .register jobId task _ _ _ => HasEntry s.retry jobId task
  | .reportResult jobId err _ _ _ =>
      jobId = job → trIsExhausted s.retry job = true →
        ((trFind s.retry job).all fun entry => !shouldRetryOn entry err) = true
  | .triggerRetry jobId now =>
      jobId = job → trCanRetry s.retry job now = true → s.ledger.pending = true
  | _ => True

instance (job : UInt64) (s : Watched) : (op : Op) → Decidable (Orderly job s op)
  | .register jobId task .. => inferInstanceAs (Decidable (HasEntry s.retry jobId task))
  | .reportResult .. => inferInstanceAs (Decidable (_ → _ → _))
  | .triggerRetry .. => inferInstanceAs (Decidable (_ → _ → _))
  | .setRetryOn .. | .setDeadLetter .. | .canRetry .. | .processDeadLetters => .isTrue trivial

/-- The operation registers the job again. -/
def Registers (job : UInt64) : Op → Prop
  | .register jobId _ _ _ _ => jobId = job
  | _ => False

instance (job : UInt64) : (op : Op) → Decidable (Registers job op)
  | .register jobId .. => inferInstanceAs (Decidable (jobId = job))
  | .reportResult .. | .triggerRetry .. | .setRetryOn .. | .setDeadLetter .. | .canRetry ..
  | .processDeadLetters => .isFalse id

/-! ## Finding an entry after an update -/

theorem trFind_congr {tr tr' : TaskRetry} (h : tr.entries = tr'.entries) (job : UInt64) :
    trFind tr job = trFind tr' job := by
  unfold trFind
  rw [h]

@[simp] theorem scheduleRetry_retryCount (seed : UInt32) (now₁ now₂ now₃ : Int) (entry : TrEntry) :
    (scheduleRetry seed now₁ now₂ now₃ entry).retryCount = entry.retryCount + 1 := rfl

theorem scheduleRetry_jobId (seed : UInt32) (now₁ now₂ now₃ : Int) {job : UInt64}
    (entry : TrEntry) (h : entry.jobId = job) :
    (scheduleRetry seed now₁ now₂ now₃ entry).jobId = job := h

theorem trFind_updateEntry (tr : TaskRetry) (job : UInt64) {f : TrEntry → TrEntry}
    (hf : ∀ entry, entry.jobId = job → (f entry).jobId = job) :
    trFind (updateEntry tr job f) job = (trFind tr job).map f := by
  apply find?_updateFirst
  intro entry hentry
  simp only [isJob, beq_iff_eq] at hentry ⊢
  exact hf entry hentry

theorem trFind_updateEntry_of_ne (tr : TaskRetry) {job id : UInt64} (hne : id ≠ job)
    {f : TrEntry → TrEntry} (hf : ∀ entry, entry.jobId = id → (f entry).jobId = id) :
    trFind (updateEntry tr id f) job = trFind tr job := by
  apply find?_updateFirst_of_disjoint
  intro entry hentry
  have hid : entry.jobId = id := by simpa [isJob] using hentry
  simp [isJob, hid, hf entry hid, hne]

/-! ## What a report does -/

/-- A report for a known job exhausts it, exhausts it with a dead letter (unless the list
is full), or grants one more retry. -/
theorem trReportResult_cases {tr : TaskRetry} {job : UInt64} {entry : TrEntry}
    (hfind : trFind tr job = some entry) (err : TrErrorCode) (now₁ now₂ now₃ : Int) :
    (shouldRetryOn entry err = false ∧
      trReportResult tr job err now₁ now₂ now₃ = (0, updateEntry tr job exhaust)) ∨
    (shouldRetryOn entry err = true ∧ entry.maxRetries ≤ entry.retryCount ∧
      trReportResult tr job err now₁ now₂ now₃ =
        (0, { updateEntry tr job exhaust with
          deadLetters := recordDeadLetter tr.deadLetters entry err now₁ })) ∨
    (entry.retryCount < entry.maxRetries ∧ shouldRetryOn entry err = true ∧
      trReportResult tr job err now₁ now₂ now₃ =
        (1, { updateEntry tr job (scheduleRetry tr.seed now₁ now₂ now₃) with
          seed := nextSeed tr.seed })) := by
  unfold trReportResult
  rw [hfind]
  dsimp only
  split
  next hno => exact Or.inl ⟨hno, rfl⟩
  next hyes =>
    have hretry : shouldRetryOn entry err = true := by simpa using hyes
    split
    next hmax => exact Or.inr (Or.inl ⟨hretry, hmax, rfl⟩)
    next hmax => exact Or.inr (Or.inr ⟨by omega, hretry, rfl⟩)

theorem length_recordDeadLetter (letters : List TrDeadLetter) (entry : TrEntry)
    (err : TrErrorCode) (now : Int) :
    (recordDeadLetter letters entry err now).length - letters.length ≤ 1 := by
  unfold recordDeadLetter
  split <;> simp

theorem trFind_trReportResult_of_ne {tr : TaskRetry} {job id : UInt64} (hne : id ≠ job)
    (err : TrErrorCode) (now₁ now₂ now₃ : Int) :
    trFind (trReportResult tr id err now₁ now₂ now₃).2 job = trFind tr job := by
  cases hfind : trFind tr id with
  | none => simp [trReportResult, hfind]
  | some entry =>
      rcases trReportResult_cases hfind err now₁ now₂ now₃ with
        ⟨_, heq⟩ | ⟨_, _, heq⟩ | ⟨_, _, heq⟩
      · rw [heq]
        exact trFind_updateEntry_of_ne tr hne fun _ h => h
      · have hentries : (trReportResult tr id err now₁ now₂ now₃).2.entries =
            (updateEntry tr id exhaust).entries := by
          rw [heq]
        rw [trFind_congr hentries]
        exact trFind_updateEntry_of_ne tr hne fun _ h => h
      · have hentries : (trReportResult tr id err now₁ now₂ now₃).2.entries =
            (updateEntry tr id (scheduleRetry tr.seed now₁ now₂ now₃)).entries := by
          rw [heq]
        rw [trFind_congr hentries]
        exact trFind_updateEntry_of_ne tr hne (scheduleRetry_jobId tr.seed now₁ now₂ now₃)

theorem isSome_trTriggerRetry (tr : TaskRetry) (job : UInt64) (now : Int) :
    (trTriggerRetry tr job now).isSome = trCanRetry tr job now := by
  unfold trTriggerRetry trCanRetry
  cases trFind tr job with
  | none => rfl
  | some entry =>
      dsimp only
      split
      next hex => simp [hex]
      next hex =>
        split
        next hdue => simp [hex, hdue]
        next hdue => simpa [hex] using Int.not_lt.mp hdue

/-! ## The ledger against the stored entry -/

structure Agrees (limit : Int) (ledger : Ledger) (entry : TrEntry) : Prop where
  limit_eq : entry.maxRetries = limit
  granted_eq : (ledger.granted : Int) = entry.retryCount
  granted_le : entry.retryCount ≤ limit
  executed_le : ledger.executed + (if ledger.pending then 1 else 0) ≤ ledger.granted
  none_late : ledger.late = 0
  exhausted_of_seen : ledger.exhausted = true → entry.exhausted = true
  letters_le : ledger.deadLetters ≤ if entry.exhausted then 1 else 0

def Kept (job : UInt64) (limit : Int) (s : Watched) : Prop :=
  ∃ entry, trFind s.retry job = some entry ∧ Agrees limit s.ledger entry

theorem Kept.budgetRespected {job : UInt64} {limit : Int} {s : Watched}
    (h : Kept job limit s) : BudgetRespected limit s.ledger := by
  obtain ⟨entry, _, hagrees⟩ := h
  have hexec := hagrees.executed_le
  have hletters := hagrees.letters_le
  exact {
    executed_le_granted := by omega
    granted_le_limit := by
      rw [hagrees.granted_eq]
      exact hagrees.granted_le
    none_late := hagrees.none_late
    one_dead_letter := by
      apply Nat.le_trans hletters
      split <;> omega }

theorem Agrees.of_fields {limit : Int} {ledger : Ledger} {entry entry' : TrEntry}
    (h : Agrees limit ledger entry) (hmax : entry'.maxRetries = entry.maxRetries)
    (hcount : entry'.retryCount = entry.retryCount)
    (hex : entry'.exhausted = entry.exhausted) : Agrees limit ledger entry' where
  limit_eq := hmax.trans h.limit_eq
  granted_eq := h.granted_eq.trans hcount.symm
  granted_le := by
    rw [hcount]
    exact h.granted_le
  executed_le := h.executed_le
  none_late := h.none_late
  exhausted_of_seen := by
    rw [hex]
    exact h.exhausted_of_seen
  letters_le := by
    rw [hex]
    exact h.letters_le

/-! ## One lemma for each call -/

theorem Kept.exhaust {job : UInt64} {limit : Int} {s : Watched} {entry : TrEntry}
    (hfind : trFind s.retry job = some entry) (h : Agrees limit s.ledger entry)
    {letters : List TrDeadLetter}
    (hletters : s.ledger.deadLetters + (letters.length - s.retry.deadLetters.length) ≤ 1) :
    Kept job limit
      ⟨{ updateEntry s.retry job exhaust with deadLetters := letters },
        noteReport s.ledger s.retry 0
          { updateEntry s.retry job exhaust with deadLetters := letters } job⟩ := by
  refine ⟨Retry.exhaust entry, ?_, ?_⟩
  · have := trFind_updateEntry s.retry job (f := Retry.exhaust) fun _ h => h
    rw [hfind] at this
    exact this
  · exact {
      limit_eq := h.limit_eq
      granted_eq := h.granted_eq
      granted_le := h.granted_le
      executed_le := by simpa [noteReport] using h.executed_le
      none_late := h.none_late
      exhausted_of_seen := fun _ => rfl
      letters_le := hletters }

theorem Kept.grant {job : UInt64} {limit : Int} {s : Watched} {entry : TrEntry}
    (hfind : trFind s.retry job = some entry) (h : Agrees limit s.ledger entry)
    (hbelow : entry.retryCount < entry.maxRetries) (hactive : entry.exhausted = false)
    (seed : UInt32) (now₁ now₂ now₃ : Int) :
    Kept job limit
      ⟨{ updateEntry s.retry job (scheduleRetry s.retry.seed now₁ now₂ now₃) with seed },
        noteReport s.ledger s.retry 1
          { updateEntry s.retry job (scheduleRetry s.retry.seed now₁ now₂ now₃) with seed }
          job⟩ := by
  have hfound : trFind (updateEntry s.retry job (scheduleRetry s.retry.seed now₁ now₂ now₃)) job =
      some (scheduleRetry s.retry.seed now₁ now₂ now₃ entry) := by
    rw [trFind_updateEntry s.retry job (scheduleRetry_jobId _ _ _ _), hfind]
    rfl
  refine ⟨_, hfound, ?_⟩
  have hgranted := h.granted_eq
  have hexec := h.executed_le
  have hlimit := h.limit_eq
  exact {
    limit_eq := h.limit_eq
    granted_eq := by simp [noteReport, hgranted]
    granted_le := by
      rw [scheduleRetry_retryCount]
      omega
    executed_le := by
      simp [noteReport]
      omega
    none_late := h.none_late
    exhausted_of_seen := by
      intro hseen
      have hfalse : trIsExhausted
          { updateEntry s.retry job (scheduleRetry s.retry.seed now₁ now₂ now₃) with seed }
          job = false := by
        have : trFind { updateEntry s.retry job
            (scheduleRetry s.retry.seed now₁ now₂ now₃) with seed } job = _ := hfound
        have hstill : (scheduleRetry s.retry.seed now₁ now₂ now₃ entry).exhausted = false := hactive
        simp [trIsExhausted, this, hstill]
      simp only [noteReport, hfalse, Bool.or_false] at hseen
      exact h.exhausted_of_seen hseen
    letters_le := by
      have hsame : (noteReport s.ledger s.retry 1
          { updateEntry s.retry job (scheduleRetry s.retry.seed now₁ now₂ now₃) with seed }
          job).deadLetters = s.ledger.deadLetters := by simp [noteReport, updateEntry]
      rw [hsame]
      exact h.letters_le }

theorem Kept.reportResult {job : UInt64} {limit : Int} {s : Watched} (h : Kept job limit s)
    {id : UInt64} {err : TrErrorCode} {now₁ now₂ now₃ : Int}
    (horder : Orderly job s (.reportResult id err now₁ now₂ now₃)) :
    ∃ s', watch job s (.reportResult id err now₁ now₂ now₃) = some s' ∧ Kept job limit s' := by
  refine ⟨_, rfl, ?_⟩
  obtain ⟨entry, hfind, hagrees⟩ := h
  by_cases hid : id = job
  · subst hid
    have hactive : shouldRetryOn entry err = true → entry.exhausted = false := by
      intro hretry
      by_contra hex
      have := horder rfl (by simpa [trIsExhausted, hfind] using hex)
      simp [hfind, hretry] at this
    simp only [note, if_true]
    rcases trReportResult_cases hfind err now₁ now₂ now₃ with
      ⟨_, heq⟩ | ⟨hretry, _, heq⟩ | ⟨hbelow, hretry, heq⟩
    · rw [heq]
      apply Kept.exhaust hfind hagrees
      have hletters := hagrees.letters_le
      have hone : (if entry.exhausted then 1 else 0) ≤ 1 := by split <;> omega
      omega
    · rw [heq]
      apply Kept.exhaust hfind hagrees
      have hletters := hagrees.letters_le
      have hgrow := length_recordDeadLetter s.retry.deadLetters entry err now₁
      simp [hactive hretry] at hletters
      omega
    · rw [heq]
      exact Kept.grant hfind hagrees hbelow (hactive hretry) (nextSeed s.retry.seed) now₁ now₂ now₃
  · refine ⟨entry, ?_, ?_⟩
    · exact (trFind_trReportResult_of_ne hid err now₁ now₂ now₃).trans hfind
    · simpa [note, hid] using hagrees

theorem Kept.triggerRetry {job : UInt64} {limit : Int} {s : Watched} (h : Kept job limit s)
    {id : UInt64} {now : Int} (horder : Orderly job s (.triggerRetry id now)) :
    ∃ s', watch job s (.triggerRetry id now) = some s' ∧ Kept job limit s' := by
  obtain ⟨entry, hfind, hagrees⟩ := h
  refine ⟨_, rfl, entry, hfind, ?_⟩
  simp only [note]
  split
  next hexec =>
    obtain ⟨rfl, hsome⟩ := hexec
    rw [isSome_trTriggerRetry] at hsome
    have hpending := horder rfl hsome
    have hactive : entry.exhausted = false := by
      simp [trCanRetry, hfind] at hsome
      exact hsome.1
    have hunseen : s.ledger.exhausted = false := by
      by_contra hseen
      have := hagrees.exhausted_of_seen (by simpa using hseen)
      simp [hactive] at this
    have hle := hagrees.executed_le
    simp only [hpending, if_true] at hle
    exact {
      limit_eq := hagrees.limit_eq
      granted_eq := hagrees.granted_eq
      granted_le := hagrees.granted_le
      executed_le := by simpa [noteExecution] using hle
      none_late := by simpa [noteExecution, hunseen] using hagrees.none_late
      exhausted_of_seen := hagrees.exhausted_of_seen
      letters_le := hagrees.letters_le }
  next => exact hagrees

/-- A registration within the array is carried out, and leaves the other jobs as they are. -/
theorem trRegister_of_hasEntry {tr : TaskRetry} {job id : UInt64} (hne : id ≠ job)
    {task : Option UInt64} (hentry : HasEntry tr id task) (ud : UInt64) (maxRetries : Int)
    (baseDelayMs : UInt64) :
    ∃ answer, trRegister tr id task ud maxRetries baseDelayMs = some answer ∧
      trFind answer.2 job = trFind tr job := by
  cases task with
  | none => exact ⟨_, rfl, rfl⟩
  | some task =>
      simp only [trRegister]
      split
      next => exact ⟨_, rfl, rfl⟩
      next hroom =>
        cases hfind : trFind tr id with
        | none =>
            have hfree := hentry rfl (Nat.not_le.1 hroom) hfind
            refine ⟨_, if_neg (Nat.not_le.2 hfree), ?_⟩
            simp [trFind, isJob, registerEntry, hne]
        | some entry => exact ⟨_, rfl, trFind_updateEntry_of_ne tr hne fun _ _ => rfl⟩

theorem Kept.updateEntry {job : UInt64} {limit : Int} {s : Watched} (h : Kept job limit s)
    (id : UInt64) {f : TrEntry → TrEntry} (hid : ∀ entry, (f entry).jobId = entry.jobId)
    (hmax : ∀ entry, (f entry).maxRetries = entry.maxRetries)
    (hcount : ∀ entry, (f entry).retryCount = entry.retryCount)
    (hex : ∀ entry, (f entry).exhausted = entry.exhausted) :
    Kept job limit ⟨updateEntry s.retry id f, s.ledger⟩ := by
  obtain ⟨entry, hfind, hagrees⟩ := h
  by_cases hne : id = job
  · subst hne
    refine ⟨f entry, ?_, hagrees.of_fields (hmax entry) (hcount entry) (hex entry)⟩
    rw [trFind_updateEntry s.retry id fun entry h => (hid entry).trans h, hfind]
    rfl
  · refine ⟨entry, ?_, hagrees⟩
    rw [trFind_updateEntry_of_ne s.retry hne fun entry h => (hid entry).trans h, hfind]

/-! ## Whole runs -/

theorem Kept.watch {job : UInt64} {limit : Int} {s : Watched} (h : Kept job limit s) {op : Op}
    (hfirst : ¬ Registers job op) (horder : Orderly job s op) :
    ∃ s', watch job s op = some s' ∧ Kept job limit s' := by
  cases op with
  | register id task ud maxRetries baseDelayMs =>
      obtain ⟨entry, hfind, hagrees⟩ := h
      obtain ⟨answer, heq, hsame⟩ :=
        trRegister_of_hasEntry hfirst horder ud maxRetries baseDelayMs
      refine ⟨⟨answer.2, s.ledger⟩, ?_, entry, hsame.trans hfind, hagrees⟩
      simp [RetryBudget.watch, Retry.step, heq, note]
  | setRetryOn id codes count =>
      refine ⟨_, rfl, ?_⟩
      simp only [note, trSetRetryOn]
      split
      · exact h
      · exact h.updateEntry id (fun _ => rfl) (fun _ => rfl) (fun _ => rfl) fun _ => rfl
  | setDeadLetter id cb ud =>
      refine ⟨_, rfl, ?_⟩
      simp only [note, trSetDeadLetter]
      split
      · exact h
      · exact h.updateEntry id (fun _ => rfl) (fun _ => rfl) (fun _ => rfl) fun _ => rfl
  | reportResult id err now₁ now₂ now₃ => exact h.reportResult horder
  | canRetry id now => exact ⟨_, rfl, h⟩
  | triggerRetry id now => exact h.triggerRetry horder
  | processDeadLetters => exact ⟨_, rfl, h⟩

theorem trRegister_kept {tr after : TaskRetry} {job : UInt64} {task : Option UInt64} {ud : UInt64}
    {maxRetries : Int} {baseDelayMs : UInt64}
    (hok : trRegister tr job task ud maxRetries baseDelayMs = some (0, after)) :
    Kept job (retryLimit maxRetries) ⟨after, {}⟩ := by
  have hagrees : ∀ (task : UInt64) (entry : TrEntry),
      Agrees (retryLimit maxRetries) {}
        (registerEntry job task ud maxRetries baseDelayMs entry) := by
    intro task entry
    have hlimit : 0 ≤ retryLimit maxRetries := by
      unfold retryLimit trMaxRetriesDefault
      split <;> omega
    exact ⟨rfl, rfl, hlimit, Nat.le_refl 0, rfl, (fun h => nomatch h), Nat.zero_le _⟩
  cases task with
  | none => simp [trRegister] at hok
  | some task =>
      simp only [trRegister] at hok
      split at hok
      next => simp at hok
      next =>
        cases hfind : trFind tr job with
        | none =>
            simp only [hfind] at hok
            split at hok
            next => cases hok
            next =>
              obtain rfl := (Prod.mk.inj (Option.some.inj hok)).2
              refine ⟨_, ?_, hagrees task zeroEntry⟩
              have hnone : tr.entries.find? (isJob job) = none := hfind
              simp [trFind, hnone, isJob, registerEntry]
        | some entry =>
            simp only [hfind] at hok
            obtain rfl := (Prod.mk.inj (Option.some.inj hok)).2
            refine ⟨_, ?_, hagrees task entry⟩
            rw [trFind_updateEntry tr job fun _ _ => rfl, hfind]
            rfl

/-- A job whose caller is orderly stays within its budget after its registration, whatever
happens to other jobs. -/
theorem budgetRespected_of_orderly (tr : TaskRetry) (job : UInt64) (task : Option UInt64)
    (ud : UInt64) (maxRetries : Int) (baseDelayMs : UInt64)
    {after : TaskRetry} (hok : trRegister tr job task ud maxRetries baseDelayMs = some (0, after))
    (ops : List Op) (hfirst : ∀ op ∈ ops, ¬ Registers job op)
    (horder : AlwaysOption (watch job) (Orderly job) ⟨after, {}⟩ ops) :
    ∃ s, runOption (watch job) ⟨after, {}⟩ ops = some s ∧
      BudgetRespected (retryLimit maxRetries) s.ledger := by
  obtain ⟨s, hrun, hkept⟩ := runOption_invariant (watch job)
    (fun s op (hs : Kept job (retryLimit maxRetries) s) hop => hs.watch hop.2 hop.1)
    (trRegister_kept hok) (horder.and_forall (watch job) hfirst)
  exact ⟨s, hrun, hkept.budgetRespected⟩

/-- The retry state in which job 1 is registered with a limit. -/
def oneJob (maxRetries : Int) : TaskRetry :=
  { taskRetryCreate 16 0 with
    entries := [registerEntry 1 7 0 maxRetries 100 zeroEntry] }

/-- Two granted retries, each used once, and one dead letter. -/
theorem budgetRespected_of_orderly_twoRetries :
    ∃ s, runOption (watch 1) ⟨oneJob 2, {}⟩
        [.reportResult 1 .timeout 0 0 0, .triggerRetry 1 5, .reportResult 1 .timeout 5 5 5,
          .triggerRetry 1 9, .reportResult 1 .timeout 9 9 9, .triggerRetry 1 20] = some s ∧
      BudgetRespected 2 s.ledger :=
  budgetRespected_of_orderly (taskRetryCreate 16 0) 1 (some 7) 0 2 100 (by decide) _ (by decide)
    (by decide)

/-- The task runs before any report, runs twice for one granted retry, and leaves two dead
letters, each in a run of its own. -/
theorem budget_exceeded :
    trRegister (taskRetryCreate 16 0) 1 (some 7) 0 1 100 = some (0, oneJob 1) ∧
    (∃ s, runOption (watch 1) ⟨oneJob 1, {}⟩ [.triggerRetry 1 0] = some s ∧
      ¬ BudgetRespected 1 s.ledger) ∧
    (∃ s, runOption (watch 1) ⟨oneJob 1, {}⟩
        [.reportResult 1 .timeout 0 0 0, .triggerRetry 1 9, .triggerRetry 1 9] = some s ∧
      ¬ BudgetRespected 1 s.ledger) ∧
    ∃ s, runOption (watch 1) ⟨oneJob 1, {}⟩
        [.reportResult 1 .timeout 0 0 0, .reportResult 1 .timeout 9 9 9,
          .reportResult 1 .timeout 9 9 9] = some s ∧
      ¬ BudgetRespected 1 s.ledger := by
  refine ⟨by decide, ?_, ?_, ?_⟩ <;> exact ⟨_, rfl, by decide⟩

/-!
# The delay before a retry

The doubling is capped in every round but not before the first one, and its first round can
overflow.  A negative jitter that is larger than the delay wraps around to a delay far above the
cap, and is cut down to it.
-/

section BackoffDelay

open MiniBackend.JobSystem.Retry

def cap : Nat := trMaxDelayMs.toNat

def delayOf (retryCount : Nat) (baseMs : UInt64) (useJitter : Bool) (seed : Option UInt32) : Nat :=
  (trCalcDelay retryCount baseMs useJitter seed).1.toNat

/-- The jitter that is drawn, if one is. -/
def drawn (useJitter : Bool) (seed : Option UInt32) : Option Int :=
  if useJitter then seed.map fun seed => jitterOf (nextSeed seed) else none

def formula (retryCount : Nat) (baseMs : UInt64) : Nat := min (baseMs.toNat * 2 ^ retryCount) cap

/-- The delay stays near the formula and within its bounds, and without jitter it grows. -/
structure NearFormula (retryCount : Nat) (baseMs : UInt64) (useJitter : Bool)
    (seed : Option UInt32) : Prop where
  near : ((delayOf retryCount baseMs useJitter seed : Int) - formula retryCount baseMs).natAbs ≤
    trMaxJitterMs.toNat
  le_cap : delayOf retryCount baseMs useJitter seed ≤ cap
  pos : (drawn useJitter seed).isSome → 1 ≤ delayOf retryCount baseMs useJitter seed
  grows : drawn useJitter seed = none → ∀ later, retryCount ≤ later →
    delayOf retryCount baseMs useJitter seed ≤ delayOf later baseMs useJitter seed

/-- Nothing wraps around: before the first round the base is at most the cap, in the first round it
doubles below `2 ^ 64`, and the jitter does not lead below zero or above `2 ^ 64`.  Where the first
round does wrap, what is left of the base may still lead to the cap. -/
def StaysInRange (retryCount base : Nat) : Option Int → Prop
  | none =>
      if retryCount = 0 then base ≤ cap
      else base < 2 ^ 63 ∨ cap ≤ (base - 2 ^ 63) * 2 ^ retryCount + trMaxJitterMs.toNat
  | some jitter =>
      if retryCount = 0 then 0 ≤ base + jitter ∧ base + jitter < 2 ^ 64
      else if base < 2 ^ 63 then 0 ≤ (base * 2 ^ retryCount : Nat) + jitter
      else ((base - 2 ^ 63) * 2 ^ retryCount : Nat) + jitter < 0 ∨
        cap ≤ ((base - 2 ^ 63) * 2 ^ retryCount : Nat) + jitter + trMaxJitterMs

/-! ## The doubling -/

theorem cap_eq : cap = 3600000 := rfl

theorem toNat_double (delay : UInt64) : (delay * 2).toNat = 2 * delay.toNat % 2 ^ 64 := by
  rw [UInt64.toNat_mul, Nat.mul_comm]
  rfl

theorem cap_lt_iff (delay : UInt64) : trMaxDelayMs < delay ↔ cap < delay.toNat := by
  rw [cap, ← UInt64.lt_iff_toNat_lt]

/-- The first round may wrap around; what is left is at most the cap, so the others do not. -/
theorem toNat_doubleDelay (n : Nat) (delay : UInt64) :
    (doubleDelay (n + 1) delay).toNat = min (2 * delay.toNat % 2 ^ 64 * 2 ^ n) cap := by
  induction n generalizing delay with
  | zero =>
      rw [← toNat_double, pow_zero, Nat.mul_one]
      by_cases hover : trMaxDelayMs < delay * 2
      · simp only [doubleDelay, if_pos hover]
        exact (Nat.min_eq_right (Nat.le_of_lt ((cap_lt_iff _).1 hover))).symm
      · simp only [doubleDelay, if_neg hover]
        exact (Nat.min_eq_left (Nat.le_of_not_lt (mt (cap_lt_iff _).2 hover))).symm
  | succ n ih =>
      rw [← toNat_double, doubleDelay]
      by_cases hover : trMaxDelayMs < delay * 2
      · rw [if_pos hover]
        have hlt := (cap_lt_iff _).1 hover
        have hpow : 1 ≤ 2 ^ (n + 1) := Nat.one_le_two_pow
        exact (Nat.min_eq_right (hlt.le.trans (Nat.le_mul_of_pos_right _ hpow))).symm
      · have hle := Nat.le_of_not_lt (mt (cap_lt_iff _).2 hover)
        have hsmall : 2 * (delay * 2).toNat < 2 ^ 64 := by
          rw [cap_eq] at hle
          omega
        rw [if_neg hover, ih, Nat.mod_eq_of_lt hsmall, pow_succ]
        ring_nf

theorem toNat_doubleDelay_of_lt {n base : Nat} {delay : UInt64} (hbase : delay.toNat = base)
    (hlt : base < 2 ^ 63) (hn : n ≠ 0) :
    (doubleDelay n delay).toNat = min (base * 2 ^ n) cap := by
  obtain ⟨n, rfl⟩ := Nat.exists_eq_add_one_of_ne_zero hn
  rw [toNat_doubleDelay, hbase, Nat.mod_eq_of_lt (by omega), pow_succ]
  ring_nf

theorem toNat_doubleDelay_of_ge {n base : Nat} {delay : UInt64} (hbase : delay.toNat = base)
    (hge : 2 ^ 63 ≤ base) (hn : n ≠ 0) :
    (doubleDelay n delay).toNat = min ((base - 2 ^ 63) * 2 ^ n) cap := by
  obtain ⟨n, rfl⟩ := Nat.exists_eq_add_one_of_ne_zero hn
  have hlt := delay.toNat_lt
  have hmod : 2 * base % 2 ^ 64 = 2 * (base - 2 ^ 63) := by omega
  rw [toNat_doubleDelay, hbase, hmod, pow_succ]
  ring_nf

theorem doubleDelay_mono (delay : UInt64) {n later : Nat} (hn : n ≠ 0) (hle : n ≤ later) :
    (doubleDelay n delay).toNat ≤ (doubleDelay later delay).toNat := by
  obtain ⟨n, rfl⟩ := Nat.exists_eq_add_one_of_ne_zero hn
  obtain ⟨later, rfl⟩ := Nat.exists_eq_add_one_of_ne_zero (show later ≠ 0 by omega)
  have hpow : 2 ^ n ≤ 2 ^ later := Nat.pow_le_pow_right (by omega) (by omega)
  rw [toNat_doubleDelay, toNat_doubleDelay]
  exact min_le_min_right _ (Nat.mul_le_mul_left _ hpow)

theorem formula_of_ge {n : Nat} {baseMs : UInt64} (hge : cap ≤ baseMs.toNat) :
    formula n baseMs = cap :=
  Nat.min_eq_right (hge.trans (Nat.le_mul_of_pos_right _ (Nat.two_pow_pos n)))

/-! ## The jitter -/

theorem jitterOf_bounds (seed : UInt32) :
    -trMaxJitterMs ≤ jitterOf seed ∧ jitterOf seed ≤ trMaxJitterMs := by
  have hseed := seed.toNat_lt
  have hjitter : trMaxJitterMs = 50 := rfl
  rw [jitterOf, hjitter]
  constructor
  · calc (-50 : Int) = Int.tdiv (-50 * 2 ^ 32) (2 ^ 32) := by decide
      _ ≤ _ := Int.tdiv_le_tdiv (by decide) (by omega)
  · calc Int.tdiv (seed.toNat * (50 * 2) - 50 * 2 ^ 32) (2 ^ 32)
        ≤ Int.tdiv (50 * 2 ^ 32) (2 ^ 32) := Int.tdiv_le_tdiv (by decide) (by omega)
      _ = 50 := by decide

theorem toNat_raised (sum : UInt64) : (if sum < 1 then 1 else sum).toNat = max sum.toNat 1 := by
  have hiff : sum < 1 ↔ sum.toNat < 1 := UInt64.lt_iff_toNat_lt
  by_cases hlow : sum < 1
  · rw [if_pos hlow]
    exact (Nat.max_eq_right (hiff.1 hlow).le).symm
  · rw [if_neg hlow]
    exact (Nat.max_eq_left (Nat.le_of_not_lt (mt hiff.2 hlow))).symm

theorem toNat_lowered (sum : UInt64) :
    (if trMaxDelayMs < sum then trMaxDelayMs else sum).toNat = min sum.toNat cap := by
  by_cases hover : trMaxDelayMs < sum
  · rw [if_pos hover]
    exact (Nat.min_eq_right ((cap_lt_iff _).1 hover).le).symm
  · rw [if_neg hover]
    exact (Nat.min_eq_left (Nat.le_of_not_lt (mt (cap_lt_iff _).2 hover))).symm

theorem toNat_addJitter (delay : UInt64) (jitter : Int) :
    (addJitter delay jitter).toNat =
      min (max ((delay.toNat + jitter) % 2 ^ 64).toNat 1) cap := by
  have hlt : ((delay.toNat + jitter) % 2 ^ 64).toNat < 2 ^ 64 := by omega
  have hval : (UInt64.ofNat ((delay.toNat + jitter) % 2 ^ 64).toNat).toNat =
      ((delay.toNat + jitter) % 2 ^ 64).toNat := UInt64.toNat_ofNat_of_lt hlt
  rw [addJitter, toNat_lowered, toNat_raised, hval]

theorem addJitter_bounds (delay : UInt64) (jitter : Int) :
    1 ≤ (addJitter delay jitter).toNat ∧ (addJitter delay jitter).toNat ≤ cap := by
  rw [toNat_addJitter, cap_eq]
  omega

/-! ## The delay -/

theorem delayOf_of_not_drawn {useJitter : Bool} {seed : Option UInt32}
    (hdrawn : drawn useJitter seed = none) (retryCount : Nat) (baseMs : UInt64) :
    delayOf retryCount baseMs useJitter seed = (doubleDelay retryCount baseMs).toNat := by
  cases seed with
  | none => rfl
  | some seed =>
      cases useJitter with
      | false => rfl
      | true => cases hdrawn

theorem delayOf_of_drawn {useJitter : Bool} {seed : Option UInt32} {jitter : Int}
    (hdrawn : drawn useJitter seed = some jitter) (retryCount : Nat) (baseMs : UInt64) :
    (-50 ≤ jitter ∧ jitter ≤ 50) ∧
      delayOf retryCount baseMs useJitter seed =
        (addJitter (doubleDelay retryCount baseMs) jitter).toNat := by
  cases seed with
  | none => cases useJitter <;> cases hdrawn
  | some seed =>
      cases useJitter with
      | false => cases hdrawn
      | true =>
          have hjitter : jitterOf (nextSeed seed) = jitter := Option.some.inj hdrawn
          rw [delayOf, trCalcDelay, if_pos rfl, hjitter, Int.toNat_natCast]
          exact ⟨hjitter ▸ jitterOf_bounds _, rfl⟩

theorem doubleDelay_zero (delay : UInt64) : doubleDelay 0 delay = delay := rfl

theorem formula_zero (baseMs : UInt64) : formula 0 baseMs = min baseMs.toNat cap := by
  rw [formula, pow_zero, Nat.mul_one]

theorem near_of_drawn_iff (retryCount : Nat) (baseMs : UInt64) {jitter : Int}
    (hlow : -50 ≤ jitter) (hhigh : jitter ≤ 50) :
    (((addJitter (doubleDelay retryCount baseMs) jitter).toNat : Int) -
        formula retryCount baseMs).natAbs ≤ 50 ↔
      StaysInRange retryCount baseMs.toNat (some jitter) := by
  rw [StaysInRange]
  by_cases hzero : retryCount = 0
  · subst hzero
    have hlt := baseMs.toNat_lt
    rw [if_pos rfl, doubleDelay_zero, formula_zero, toNat_addJitter, cap_eq]
    omega
  · rw [if_neg hzero, toNat_addJitter]
    by_cases hbase : baseMs.toNat < 2 ^ 63
    · rw [if_pos hbase, toNat_doubleDelay_of_lt rfl hbase hzero, formula, cap_eq]
      omega
    · have hcap : cap ≤ baseMs.toNat := by
        rw [cap_eq]
        omega
      have hmax : trMaxJitterMs = 50 := rfl
      rw [if_neg hbase, toNat_doubleDelay_of_ge rfl (by omega) hzero, formula_of_ge hcap, hmax,
        cap_eq]
      omega

theorem not_drawn_iff (retryCount : Nat) (baseMs : UInt64) :
    (((doubleDelay retryCount baseMs).toNat : Int) - formula retryCount baseMs).natAbs ≤ 50 ∧
        (doubleDelay retryCount baseMs).toNat ≤ cap ↔
      StaysInRange retryCount baseMs.toNat none := by
  rw [StaysInRange]
  by_cases hzero : retryCount = 0
  · subst hzero
    rw [if_pos rfl, doubleDelay_zero, formula_zero]
    omega
  · rw [if_neg hzero]
    by_cases hbase : baseMs.toNat < 2 ^ 63
    · rw [toNat_doubleDelay_of_lt rfl hbase hzero, formula, cap_eq]
      omega
    · have hcap : cap ≤ baseMs.toNat := by
        rw [cap_eq]
        omega
      have hmax : trMaxJitterMs = 50 := rfl
      rw [toNat_doubleDelay_of_ge rfl (by omega) hzero, formula_of_ge hcap, hmax, cap_eq]
      omega

theorem doubleDelay_grows {retryCount later : Nat} {baseMs : UInt64}
    (hrange : StaysInRange retryCount baseMs.toNat none) (hle : retryCount ≤ later) :
    (doubleDelay retryCount baseMs).toNat ≤ (doubleDelay later baseMs).toNat := by
  by_cases hzero : retryCount = 0
  · subst hzero
    by_cases hlater : later = 0
    · rw [hlater]
    · have hbase : baseMs.toNat ≤ cap := by
        rwa [StaysInRange, if_pos rfl] at hrange
      have hlt : baseMs.toNat < 2 ^ 63 := by
        rw [cap_eq] at hbase
        omega
      rw [doubleDelay_zero, toNat_doubleDelay_of_lt rfl hlt hlater]
      exact le_min (Nat.le_mul_of_pos_right _ (Nat.two_pow_pos later)) hbase
  · exact doubleDelay_mono baseMs hzero hle

theorem near_formula_iff (retryCount : Nat) (baseMs : UInt64) (useJitter : Bool)
    (seed : Option UInt32) :
    NearFormula retryCount baseMs useJitter seed ↔
      StaysInRange retryCount baseMs.toNat (drawn useJitter seed) := by
  cases hdrawn : drawn useJitter seed with
  | none =>
      have hdelay := delayOf_of_not_drawn hdrawn
      rw [← not_drawn_iff]
      constructor
      · intro hnear
        rw [← hdelay]
        exact ⟨hnear.near, hnear.le_cap⟩
      · intro hrange
        have hstays := (not_drawn_iff retryCount baseMs).1 hrange
        constructor
        · rw [hdelay]
          exact hrange.1
        · rw [hdelay]
          exact hrange.2
        · rw [hdrawn]
          exact fun hsome => absurd hsome (by decide)
        · intro _ later hle
          rw [hdelay, hdelay]
          exact doubleDelay_grows hstays hle
  | some jitter =>
      obtain ⟨⟨hlow, hhigh⟩, hdelay⟩ := delayOf_of_drawn hdrawn retryCount baseMs
      have hbounds := addJitter_bounds (doubleDelay retryCount baseMs) jitter
      rw [← near_of_drawn_iff retryCount baseMs hlow hhigh, ← hdelay]
      constructor
      · intro hnear
        exact hnear.near
      · intro hrange
        constructor
        · exact hrange
        · rw [hdelay]
          exact hbounds.2
        · intro _
          rw [hdelay]
          exact hbounds.1
        · rw [hdrawn]
          exact fun hnone => absurd hnone (by simp)

/-- A base of ten milliseconds, less a jitter of twenty-six, makes an hour. -/
theorem negative_jitter_wraps : ¬ NearFormula 0 10 true (some 0) := by
  intro hnear
  have hdelay : delayOf 0 10 true (some 0) = 3600000 := by decide
  have hformula : formula 0 10 = 10 := by decide
  have hdiff := hnear.near
  rw [hdelay, hformula] at hdiff
  exact absurd hdiff (by decide)

end BackoffDelay

end MiniBackend.JobSystem.Proofs.RetryBudget
