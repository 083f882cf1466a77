import MiniBackend.Arch.SagaOrch
import Mathlib.Data.List.Range
import Mathlib.Data.List.Nodup

/-!
# When a saga is atomic

The steps run forwards up to the first one that fails for good, and then backwards.  On the
way back each compensation is called once: a step whose compensation failed is no longer
`completed`, so the round that tries it again passes it over.
-/

namespace MiniBackend.Arch.Proofs.SagaAtomicity

open MiniBackend.Arch.Saga

def FailsForGood (step : SagaStep) : Prop :=
  ∀ n ≤ step.maxRetries.toNat, step.execute n ≠ 0

instance decidableFailsForGood (step : SagaStep) : Decidable (FailsForGood step) :=
  inferInstanceAs (Decidable (∀ n ≤ step.maxRetries.toNat, step.execute n ≠ 0))

def failsForGood (steps : List SagaStep) (i : Nat) : Bool :=
  steps[i]?.any fun step => FailsForGood step

def hasCompensation (steps : List SagaStep) (i : Nat) : Bool :=
  (steps[i]?.bind (·.compensate)).isSome

def compensatesAtOnce (steps : List SagaStep) (i : Nat) : Bool :=
  (steps[i]?.bind (·.compensate)).any fun compensate => compensate 0 = 0

/-- As in a saga that was created and filled with steps. -/
structure Fresh (saga : SagaInstance) : Prop where
  retries : ∀ step ∈ saga.steps, step.retryCount = 0
  start : saga.currentStep = 0
  status : saga.status = .running
  calls : saga.calls = []

/-- What a saga with these steps is expected to leave behind. -/
structure Atomic (steps : List SagaStep) (saga : SagaInstance) : Prop where
  ends : (saga.status = .completed ∧ ∀ i < steps.length, i ∈ done saga.calls) ∨
    (saga.status = .compensated ∧
      ∀ i ∈ done saga.calls, hasCompensation steps i = true → i ∈ undone saga.calls)
  reversed : (attempts saga.calls).Pairwise fun i j =>
    i = j ∨ [j, i].Sublist (done saga.calls)
  once : (undone saga.calls).Nodup

/-- If a step fails for good, each earlier step is undone by the first call of its
compensation. -/
def UndoneAtOnce (steps : List SagaStep) : Prop :=
  ∀ f < steps.length, failsForGood steps f = true → (∀ i < f, failsForGood steps i = false) →
    ∀ i < f, hasCompensation steps i = true → compensatesAtOnce steps i = true

instance decidableUndoneAtOnce (steps : List SagaStep) : Decidable (UndoneAtOnce steps) :=
  inferInstanceAs (Decidable (∀ f < steps.length, _ → _ → ∀ i < f, _ → _))

/-! ## Forwards -/

structure Ran (i : Nat) (saga saga' : SagaInstance) : Prop where
  length_eq : saga'.steps.length = saga.steps.length
  others : ∀ j, j ≠ i → saga'.steps[j]? = saga.steps[j]?
  attempts_eq : attempts saga'.calls = attempts saga.calls
  undone_eq : undone saga'.calls = undone saga.calls
  executions_eq : ∀ j, j ≠ i → executions saga'.calls j = executions saga.calls j

theorem Ran.trans {i : Nat} {saga mid saga' : SagaInstance} (h : Ran i saga mid)
    (h' : Ran i mid saga') : Ran i saga saga' where
  length_eq := h'.length_eq.trans h.length_eq
  others j hj := (h'.others j hj).trans (h.others j hj)
  attempts_eq := h'.attempts_eq.trans h.attempts_eq
  undone_eq := h'.undone_eq.trans h.undone_eq
  executions_eq j hj := (h'.executions_eq j hj).trans (h.executions_eq j hj)

theorem ran_set {i : Nat} {saga : SagaInstance} {step : SagaStep} {result : Int}
    {status : SagaStatus} {currentStep : Nat} :
    Ran i saga ⟨saga.steps.set i step, currentStep, status,
      saga.calls ++ [.executed i result]⟩ where
  length_eq := List.length_set
  others j hj := List.getElem?_set_ne (Ne.symm hj)
  attempts_eq := by simp [attempts]
  undone_eq := by simp [undone]
  executions_eq j hj := by simp [executions, Ne.symm hj]

theorem executions_executed (calls : List Call) (i : Nat) (result : Int) :
    executions (calls ++ [.executed i result]) i = executions calls i + 1 := by
  simp [executions]

theorem done_executed (calls : List Call) (i : Nat) {result : Int} :
    done (calls ++ [.executed i result]) =
      done calls ++ if result = 0 then [i] else [] := by
  by_cases h : result = 0
  · simp [done, h]
  · simp [done, h]

theorem executeStep_spec {fuel i : Nat} {saga : SagaInstance} {step : SagaStep}
    (hstep : saga.steps[i]? = some step)
    (hcount : executions saga.calls i = step.retryCount)
    (hfuel : (step.maxRetries - step.retryCount).toNat < fuel) :
    ∃ result saga', sagaOrchExecuteStep fuel saga i = some (result, saga') ∧ Ran i saga saga' ∧
      ((result = 0 ∧
          (∃ n ≥ step.retryCount, n ≤ max step.retryCount step.maxRetries.toNat ∧
            step.execute n = 0) ∧
          done saga'.calls = done saga.calls ++ [i] ∧
          ∃ r, saga'.steps[i]? = some { step with status := .completed, retryCount := r }) ∨
        (result ≠ 0 ∧
          (∀ n ≥ step.retryCount, n ≤ step.maxRetries.toNat → step.execute n ≠ 0) ∧
          done saga'.calls = done saga.calls ∧
          ∃ r, saga'.steps[i]? = some { step with status := .failed, retryCount := r })) := by
  have hi : i < saga.steps.length := (List.getElem?_eq_some_iff.mp hstep).1
  induction fuel generalizing saga step with
  | zero => exact absurd hfuel (Nat.not_lt_zero _)
  | succ fuel ih =>
      rw [sagaOrchExecuteStep, hstep]
      simp only [hcount]
      by_cases hresult : step.execute step.retryCount = 0
      · rw [if_pos hresult]
        refine ⟨_, _, rfl, ran_set, Or.inl ⟨hresult, ?_, ?_, step.retryCount, ?_⟩⟩
        · exact ⟨step.retryCount, le_rfl, Nat.le_max_left _ _, hresult⟩
        · rw [done_executed, if_pos hresult]
        · exact List.getElem?_set_self hi
      · rw [if_neg hresult]
        by_cases hretry : sagaStepCanRetry step = true
        · rw [if_pos hretry]
          have hlt : (step.retryCount : Int) < step.maxRetries := of_decide_eq_true hretry
          let next : SagaStep :=
            { step with status := .executing, retryCount := step.retryCount + 1 }
          let mid : SagaInstance := { saga with
            steps := saga.steps.set i next
            calls := saga.calls ++ [.executed i (step.execute step.retryCount)] }
          have hnext : mid.steps[i]? = some next := List.getElem?_set_self hi
          have hran : Ran i saga mid := ran_set
          have hcalls : executions mid.calls i = next.retryCount := by
            rw [executions_executed, hcount]
          have hdone : done mid.calls = done saga.calls := by
            rw [done_executed, if_neg hresult, List.append_nil]
          obtain ⟨result, saga', hrun, hran', hcases⟩ := ih hnext hcalls
            (by simp only [next]; omega) (hran.length_eq ▸ hi)
          refine ⟨result, saga', hrun, hran.trans hran', ?_⟩
          rcases hcases with ⟨hzero, ⟨n, hn, hle, hn0⟩, hdone', hlast⟩ |
            ⟨hne, hall, hdone', hlast⟩
          · refine Or.inl ⟨hzero, ⟨n, ?_, ?_, hn0⟩, hdone'.trans (by rw [hdone]), hlast⟩
            · exact Nat.le_of_succ_le hn
            · simp only [next] at hle
              omega
          · refine Or.inr ⟨hne, ?_, hdone'.trans hdone, hlast⟩
            intro n hn hle
            rcases Nat.eq_or_lt_of_le hn with rfl | hlt'
            · exact hresult
            · exact hall n hlt' hle
        · rw [if_neg hretry]
          have hge : step.maxRetries ≤ step.retryCount := by
            simpa [sagaStepCanRetry] using hretry
          refine ⟨_, _, rfl, ran_set, Or.inr ⟨hresult, ?_, ?_, step.retryCount, ?_⟩⟩
          · intro n hn hle
            have heq : n = step.retryCount := by omega
            rw [heq]
            exact hresult
          · rw [done_executed, if_neg hresult, List.append_nil]
          · exact List.getElem?_set_self hi

structure Forward (steps : List SagaStep) (i : Nat) (saga : SagaInstance) : Prop where
  length_eq : saga.steps.length = steps.length
  finished : ∀ j < i, ∀ step ∈ steps[j]?,
    ∃ r, saga.steps[j]? = some { step with status := .completed, retryCount := r }
  waiting : ∀ j ≥ i, saga.steps[j]? = steps[j]?
  untried : ∀ j ≥ i, executions saga.calls j = 0
  done_eq : done saga.calls = List.range i
  attempts_eq : attempts saga.calls = []
  undone_eq : undone saga.calls = []
  succeeded : ∀ j < i, failsForGood steps j = false

theorem Forward.step {steps : List SagaStep} {i : Nat} {saga : SagaInstance} {step : SagaStep}
    (h : Forward steps i saga) (hfresh : step.retryCount = 0) (hstep : steps[i]? = some step) :
    ∃ result saga', sagaOrchExecuteStep (retryDepth saga i) saga i = some (result, saga') ∧
      ((result = 0 ∧ Forward steps (i + 1) saga') ∨
        (result ≠ 0 ∧ failsForGood steps i = true ∧
          (∃ r, saga'.steps[i]? = some { step with status := .failed, retryCount := r }) ∧
          Ran i saga saga' ∧ done saga'.calls = List.range i)) := by
  have hi : saga.steps[i]? = some step := (h.waiting i le_rfl).trans hstep
  have hcount : executions saga.calls i = step.retryCount := by
    rw [h.untried i le_rfl, hfresh]
  have hdepth : (step.maxRetries - step.retryCount).toNat < retryDepth saga i := by
    rw [retryDepth, hi]
    exact Nat.lt_succ_self _
  obtain ⟨result, saga', hrun, hran, hcases⟩ := executeStep_spec hi hcount hdepth
  refine ⟨result, saga', hrun, ?_⟩
  rcases hcases with ⟨hzero, ⟨n, _, hn, hn0⟩, hdone, r, hlast⟩ | ⟨hne, hall, hdone, hlast⟩
  · refine Or.inl ⟨hzero, ⟨hran.length_eq.trans h.length_eq, ?_, ?_, ?_, ?_, ?_, ?_, ?_⟩⟩
    · intro j hj step' hstep'
      rcases Nat.lt_succ_iff_lt_or_eq.mp hj with hlt | rfl
      · rw [hran.others j (Nat.ne_of_lt hlt)]
        exact h.finished j hlt step' hstep'
      · rw [hstep] at hstep'
        cases hstep'
        exact ⟨r, hlast⟩
    · intro j hj
      rw [hran.others j (Nat.ne_of_gt hj)]
      exact h.waiting j (Nat.le_of_succ_le hj)
    · intro j hj
      rw [hran.executions_eq j (Nat.ne_of_gt hj)]
      exact h.untried j (Nat.le_of_succ_le hj)
    · rw [hdone, h.done_eq, List.range_succ]
    · exact hran.attempts_eq.trans h.attempts_eq
    · exact hran.undone_eq.trans h.undone_eq
    · intro j hj
      rcases Nat.lt_succ_iff_lt_or_eq.mp hj with hlt | rfl
      · exact h.succeeded j hlt
      · have hnot : ¬ FailsForGood step := by
          intro hfails
          apply hfails n _ hn0
          rw [hfresh] at hn
          omega
        simp [failsForGood, hstep, hnot]
  · refine Or.inr ⟨hne, ?_, hlast, hran, hdone.trans h.done_eq⟩
    have hfails : FailsForGood step := by
      intro n hn
      apply hall n _ hn
      rw [hfresh]
      exact Nat.zero_le n
    simp [failsForGood, hstep, hfails]

/-! ## Backwards -/

structure Backward (steps : List SagaStep) (f i : Nat) (saga : SagaInstance) : Prop where
  finished : ∀ j < i, ∃ step r, steps[j]? = some step ∧
    saga.steps[j]? = some { step with status := .completed, retryCount := r }
  done_eq : done saga.calls = List.range f
  attempts_eq : attempts saga.calls =
    ((List.range' i (f - i)).filter (hasCompensation steps)).reverse
  undone_eq : undone saga.calls =
    ((List.range' i (f - i)).filter (compensatesAtOnce steps)).reverse

theorem range'_succ_left {i f : Nat} (h : i < f) :
    List.range' i (f - i) = i :: List.range' (i + 1) (f - (i + 1)) := by
  have hlength : f - i = (f - (i + 1)) + 1 := by omega
  rw [hlength, List.range'_succ]

theorem filter_reverse_succ {i f : Nat} (h : i < f) (p : Nat → Bool) :
    ((List.range' i (f - i)).filter p).reverse =
      ((List.range' (i + 1) (f - (i + 1))).filter p).reverse ++ if p i then [i] else [] := by
  rw [range'_succ_left h, List.filter_cons]
  cases p i <;> simp

theorem done_compensated (calls : List Call) (i : Nat) (result : Int) :
    done (calls ++ [.compensated i result]) = done calls := by
  simp [done]

theorem attempts_compensated (calls : List Call) (i : Nat) (result : Int) :
    attempts (calls ++ [.compensated i result]) = attempts calls ++ [i] := by
  simp [attempts]

theorem undone_compensated (calls : List Call) (i : Nat) (result : Int) :
    undone (calls ++ [.compensated i result]) =
      undone calls ++ if result = 0 then [i] else [] := by
  by_cases h : result = 0
  · simp [undone, h]
  · simp [undone, h]

theorem Backward.skip {steps : List SagaStep} {f i : Nat} {saga : SagaInstance}
    (h : Backward steps f (i + 1) saga) (hi : i < f) (hnone : hasCompensation steps i = false) :
    Backward steps f i saga := by
  have hnot : compensatesAtOnce steps i = false := by
    unfold hasCompensation at hnone
    unfold compensatesAtOnce
    rw [Option.isSome_eq_false_iff, Option.isNone_iff_eq_none] at hnone
    rw [hnone]
    rfl
  refine ⟨fun j hj => h.finished j (Nat.lt_succ_of_lt hj), h.done_eq, ?_, ?_⟩
  · rw [filter_reverse_succ hi, hnone, h.attempts_eq]
    simp
  · rw [filter_reverse_succ hi, hnot, h.undone_eq]
    simp

theorem Backward.call {steps : List SagaStep} {f i : Nat} {saga : SagaInstance}
    {step tried : SagaStep} {compensate : Nat → Int} (h : Backward steps f (i + 1) saga)
    (hi : i < f) (hstep : steps[i]? = some step) (hcomp : step.compensate = some compensate) :
    Backward steps f i { saga with
      steps := saga.steps.set i tried
      calls := saga.calls ++ [.compensated i (compensate 0)] } := by
  have hhas : hasCompensation steps i = true := by simp [hasCompensation, hstep, hcomp]
  have honce : compensatesAtOnce steps i = decide (compensate 0 = 0) := by
    simp [compensatesAtOnce, hstep, hcomp]
  refine ⟨?_, ?_, ?_, ?_⟩
  · intro j hj
    obtain ⟨step', r, hstep', hsaga⟩ := h.finished j (Nat.lt_succ_of_lt hj)
    refine ⟨step', r, hstep', ?_⟩
    exact (List.getElem?_set_ne (Nat.ne_of_gt hj)).trans hsaga
  · exact (done_compensated ..).trans h.done_eq
  · rw [filter_reverse_succ hi, hhas, ← h.attempts_eq]
    exact attempts_compensated ..
  · rw [filter_reverse_succ hi, honce, ← h.undone_eq]
    simpa using undone_compensated saga.calls i (compensate 0)

theorem compensateLoop_spec {steps : List SagaStep} {f i fuel : Nat} {saga : SagaInstance}
    (h : Backward steps f i saga) (hif : i ≤ f) (hfuel : 2 * i < fuel) :
    ∃ saga', compensateLoop fuel saga i = some saga' ∧ Backward steps f 0 saga' := by
  induction i generalizing saga fuel with
  | zero =>
      obtain ⟨fuel, rfl⟩ := Nat.exists_eq_succ_of_ne_zero (Nat.ne_of_gt hfuel)
      exact ⟨saga, rfl, h⟩
  | succ i ih =>
      obtain ⟨fuel, rfl⟩ : ∃ n, fuel = n + 2 := ⟨fuel - 2, by omega⟩
      obtain ⟨step, r, hstep, hsaga⟩ := h.finished i (Nat.lt_succ_self i)
      rw [compensateLoop, hsaga]
      dsimp only
      cases hcomp : step.compensate with
      | none =>
          have hnone : hasCompensation steps i = false := by
            simp [hasCompensation, hstep, hcomp]
          exact ih (h.skip hif hnone) (Nat.le_of_succ_le hif) (by omega)
      | some compensate =>
          have hcount : compensations saga.calls i = 0 := by
            rw [compensations, h.attempts_eq, List.count_eq_zero]
            simp
          have hi : i < saga.steps.length := (List.getElem?_eq_some_iff.mp hsaga).1
          dsimp only
          rw [hcount]
          by_cases hresult : compensate 0 = 0
          · rw [if_pos hresult]
            exact ih (h.call hif hstep hcomp) (Nat.le_of_succ_le hif) (by omega)
          · rw [if_neg hresult]
            split
            · -- the step is no longer `completed`, and the next round does nothing
              rw [compensateLoop, List.getElem?_set_self hi]
              exact ih (h.call hif hstep hcomp) (Nat.le_of_succ_le hif) (by omega)
            · exact ih (h.call hif hstep hcomp) (Nat.le_of_succ_le hif) (by omega)

/-! ## The whole saga -/

inductive Ends (steps : List SagaStep) (saga : SagaInstance) : Prop
  | completed : saga.status = .completed → Forward steps steps.length saga → Ends steps saga
  | compensated (f : Nat) : f < steps.length → failsForGood steps f = true →
      (∀ i < f, failsForGood steps i = false) → saga.status = .compensated →
      Backward steps f 0 saga → Ends steps saga

theorem compensate_spec {steps : List SagaStep} {f r : Nat} {saga saga' : SagaInstance}
    {step : SagaStep} (h : Forward steps f saga) (hstep : steps[f]? = some step)
    (hfailed : saga'.steps[f]? = some { step with status := .failed, retryCount := r })
    (hran : Ran f saga saga') (hdone : done saga'.calls = List.range f) :
    ∃ last, sagaOrchCompensate saga' f = some last ∧ last.status = .compensated ∧
      Backward steps f 0 last := by
  have hf : f < saga'.steps.length := (List.getElem?_eq_some_iff.mp hfailed).1
  let start : SagaInstance := { saga' with status := .compensating }
  have hback : Backward steps f f start := by
    refine ⟨?_, hdone, ?_, ?_⟩
    · intro j hj
      have hlt : j < steps.length :=
        Nat.lt_trans hj (List.getElem?_eq_some_iff.mp hstep).1
      obtain ⟨q, hq⟩ := h.finished j hj steps[j] (List.getElem?_eq_getElem hlt)
      exact ⟨steps[j], q, List.getElem?_eq_getElem hlt, (hran.others j (Nat.ne_of_lt hj)).trans hq⟩
    · rw [Nat.sub_self]
      exact hran.attempts_eq.trans h.attempts_eq
    · rw [Nat.sub_self]
      exact hran.undone_eq.trans h.undone_eq
  have hfuel : 2 * f < 2 * f + 2 := by omega
  obtain ⟨last, hloop, hlast⟩ := compensateLoop_spec hback le_rfl hfuel
  have hfirst : compensateLoop (2 * (f + 1) + 1) start (f + 1) = some last := by
    rw [compensateLoop, hfailed]
    exact hloop
  refine ⟨{ last with status := .compensated }, ?_, rfl,
    hlast.finished, hlast.done_eq, hlast.attempts_eq, hlast.undone_eq⟩
  rw [sagaOrchCompensate, if_neg (Nat.not_le_of_lt hf)]
  exact congrArg (Option.map _) hfirst

theorem executeLoop_spec {steps : List SagaStep} (hfresh : ∀ step ∈ steps, step.retryCount = 0)
    {n i : Nat} {saga : SagaInstance} (h : Forward steps i saga) (hn : i + n = steps.length) :
    ∃ result saga', executeLoop (List.range' i n) saga = some (result, saga') ∧
      Ends steps saga' := by
  induction n generalizing i saga with
  | zero =>
      refine ⟨0, { saga with status := .completed }, rfl, .completed rfl ?_⟩
      have hi : i = steps.length := by omega
      rw [← hi]
      exact ⟨h.length_eq, h.finished, h.waiting, h.untried, h.done_eq, h.attempts_eq,
        h.undone_eq, h.succeeded⟩
  | succ n ih =>
      have hi : i < steps.length := by omega
      have hstep : steps[i]? = some steps[i] := List.getElem?_eq_getElem hi
      obtain ⟨result, saga', hrun, hcases⟩ := h.step (hfresh _ (List.getElem_mem hi)) hstep
      rw [List.range'_succ, executeLoop, hrun, Option.bind_some]
      dsimp only
      rcases hcases with ⟨rfl, hnext⟩ | ⟨hne, hfails, ⟨r, hfailed⟩, hran, hdone⟩
      · rw [if_neg (fun hzero => hzero rfl)]
        exact ih hnext (by omega)
      · rw [if_pos hne]
        obtain ⟨last, hcomp, hstatus, hback⟩ := compensate_spec h hstep hfailed hran hdone
        rw [hcomp]
        exact ⟨result, last, rfl, .compensated i hi hfails h.succeeded hstatus hback⟩

theorem Fresh.forward {saga : SagaInstance} (h : Fresh saga) : Forward saga.steps 0 saga where
  length_eq := rfl
  finished _ hj := absurd hj (Nat.not_lt_zero _)
  waiting _ _ := rfl
  untried j _ := by rw [h.calls]; rfl
  done_eq := by rw [h.calls]; rfl
  attempts_eq := by rw [h.calls]; rfl
  undone_eq := by rw [h.calls]; rfl
  succeeded _ hj := absurd hj (Nat.not_lt_zero _)

theorem sublist_range_of_lt {f i j : Nat} (hj : j < i) (hi : i < f) :
    [j, i].Sublist (List.range f) := by
  have hsplit : List.range i ++ List.range' i (f - i) = List.range f := by
    have happend := @List.range'_append_1 0 i (f - i)
    rw [Nat.zero_add, Nat.add_sub_cancel' (Nat.le_of_lt hi)] at happend
    rw [List.range_eq_range', List.range_eq_range']
    exact happend
  have hlast : i ∈ List.range' i (f - i) := List.mem_range'_1.mpr (by omega)
  rw [← hsplit]
  exact (List.singleton_sublist.mpr (List.mem_range.mpr hj)).append
    (List.singleton_sublist.mpr hlast)

/-- On the way back each step is called at most once, the last one first. -/
theorem Backward.orders {steps : List SagaStep} {f : Nat} {saga : SagaInstance}
    (h : Backward steps f 0 saga) :
    ((attempts saga.calls).Pairwise fun i j => i = j ∨ [j, i].Sublist (done saga.calls)) ∧
      (undone saga.calls).Nodup := by
  rw [h.attempts_eq, h.undone_eq, h.done_eq, Nat.sub_zero, ← List.range_eq_range']
  constructor
  · apply List.pairwise_reverse.mpr
    have hlt : ((List.range f).filter (hasCompensation steps)).Pairwise (· < ·) :=
      List.pairwise_lt_range.sublist List.filter_sublist
    apply hlt.imp_of_mem
    intro j i _ hi hji
    exact Or.inr (sublist_range_of_lt hji (List.mem_range.mp (List.mem_filter.mp hi).1))
  · exact List.nodup_reverse.mpr (List.nodup_range.filter _)

theorem Ends.atomic_iff {steps : List SagaStep} {saga : SagaInstance} (h : Ends steps saga) :
    Atomic steps saga ↔ UndoneAtOnce steps := by
  cases h with
  | completed hstatus hforward =>
      constructor
      · intro _ f hf hfails
        rw [hforward.succeeded f hf] at hfails
        contradiction
      · intro _
        refine ⟨Or.inl ⟨hstatus, ?_⟩, ?_, ?_⟩
        · intro i hi
          rw [hforward.done_eq]
          exact List.mem_range.mpr hi
        · rw [hforward.attempts_eq]
          exact .nil
        · rw [hforward.undone_eq]
          exact .nil
  | compensated f hf hfails hfirst hstatus hback =>
      have hundone : ∀ i, i ∈ undone saga.calls ↔ i < f ∧ compensatesAtOnce steps i = true := by
        intro i
        rw [hback.undone_eq]
        simp
      constructor
      · intro hatomic g hg hgfails hgfirst i hi hhas
        -- there is only one first step that fails for good
        have hgf : g = f := by
          rcases Nat.lt_trichotomy g f with hlt | heq | hgt
          · rw [hfirst g hlt] at hgfails
            contradiction
          · exact heq
          · rw [hgfirst f hgt] at hfails
            contradiction
        subst hgf
        rcases hatomic.ends with ⟨hcompleted, _⟩ | ⟨_, hall⟩
        · rw [hstatus] at hcompleted
          contradiction
        · have hmem : i ∈ done saga.calls := by
            rw [hback.done_eq]
            exact List.mem_range.mpr hi
          exact ((hundone i).mp (hall i hmem hhas)).2
      · intro hundoes
        refine ⟨Or.inr ⟨hstatus, ?_⟩, hback.orders.1, hback.orders.2⟩
        intro i hi hhas
        rw [hback.done_eq, List.mem_range] at hi
        exact (hundone i).mpr ⟨hi, hundoes f hf hfails hfirst i hi hhas⟩

/-- What is added to a new saga is fresh, as long as its steps are. -/
theorem fresh_addSteps {steps : List SagaStep} (hsteps : ∀ step ∈ steps, step.retryCount = 0)
    {saga : SagaInstance} (h : Fresh saga) : Fresh (sagaOrchAddSteps saga steps).2 := by
  induction steps generalizing saga with
  | nil => exact h
  | cons step steps ih =>
      rw [List.forall_mem_cons] at hsteps
      rw [sagaOrchAddSteps, sagaOrchAddStep]
      by_cases hfull : sagaMaxSteps ≤ saga.steps.length
      · rw [if_pos hfull]
        exact h
      · rw [if_neg hfull]
        apply ih hsteps.2
        refine ⟨?_, h.start, h.status, h.calls⟩
        intro step' hmem
        cases List.mem_append.mp hmem with
        | inl hold => exact h.retries step' hold
        | inr hnew =>
            rw [List.mem_singleton.mp hnew]
            exact hsteps.1

theorem fresh_create : Fresh sagaOrchCreate where
  retries _ h := absurd h List.not_mem_nil
  start := rfl
  status := rfl
  calls := rfl

/-- A saga comes to an end, and it is atomic exactly when no compensation that is needed fails
at its first call. -/
theorem execute_atomic_iff {saga : SagaInstance} (h : Fresh saga) :
    ∃ result saga', sagaOrchExecute saga = some (result, saga') ∧
      (Atomic saga.steps saga' ↔ UndoneAtOnce saga.steps) := by
  obtain ⟨result, saga', hrun, hends⟩ := executeLoop_spec h.retries h.forward
    (Nat.zero_add saga.steps.length)
  refine ⟨result, saga', ?_, hends.atomic_iff⟩
  rw [sagaOrchExecute, h.start, Nat.sub_zero]
  exact hrun

/-- The second step always fails, and the compensation of the first one succeeds when it is
called for the `n`-th time, counted from 0. -/
def chargeThenShip (n : Nat) : SagaInstance :=
  (sagaOrchAddSteps sagaOrchCreate
    [sagaStepCreate (fun _ => 0) (some fun call => if n ≤ call then 0 else -1) 3,
      sagaStepCreate (fun _ => -1) none 1]).2

theorem fresh_chargeThenShip (n : Nat) : Fresh (chargeThenShip n) :=
  fresh_addSteps (by simp [sagaStepCreate]) fresh_create

theorem execute_atomic_iff_chargeThenShip :
    UndoneAtOnce (chargeThenShip 0).steps ∧
      ∃ result saga', sagaOrchExecute (chargeThenShip 0) = some (result, saga') ∧
        (Atomic (chargeThenShip 0).steps saga' ↔ UndoneAtOnce (chargeThenShip 0).steps) :=
  ⟨by decide, execute_atomic_iff (fresh_chargeThenShip 0)⟩

/-- One failure of a compensation that has two retries left is enough: it is not tried again,
and the saga is called compensated. -/
theorem charge_not_undone :
    ∃ saga', sagaOrchExecute (chargeThenShip 1) = some (-1, saga') ∧
      saga'.status = .compensated ∧ done saga'.calls = [0] ∧
      attempts saga'.calls = [0] ∧ undone saga'.calls = [] ∧
      ¬ Atomic (chargeThenShip 1).steps saga' := by
  refine ⟨(sagaOrchExecute (chargeThenShip 1)).get rfl |>.2, rfl, rfl, rfl, rfl, rfl, ?_⟩
  intro hatomic
  rcases hatomic.ends with ⟨hcompleted, _⟩ | ⟨_, hall⟩
  · exact absurd hcompleted (by decide)
  · exact absurd (hall 0 (by decide) rfl) (by decide)

end MiniBackend.Arch.Proofs.SagaAtomicity
