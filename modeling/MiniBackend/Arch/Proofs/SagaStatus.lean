import MiniBackend.Arch.Proofs.SagaAtomicity
import MiniBackend.Lib.Runs

/-!
# What the status of a saga says

Between the calls a saga is running and untouched, or it has completed with all its steps, or
it is compensated.  Three of the four entry points look at the status first.
`saga_orch_execute` does not, and takes a compensated saga forwards again.
-/

namespace MiniBackend.Arch.Proofs.SagaStatus

open MiniBackend.Arch.Saga MiniBackend.Arch.Proofs.SagaAtomicity
open MiniBackend.Lib.CString MiniBackend.Lib.Runs

def Truthful (saga : SagaInstance) : Prop :=
  saga.status = .completed → ∀ step ∈ saga.steps, step.status = .completed

def Frozen (saga saga' : SagaInstance) : Prop :=
  sagaIsTerminal saga = true → saga'.status = saga.status ∧ saga'.calls = saga.calls

/-- What is asked of a call on the orchestrator. -/
def StatusHolds (orch : SagaOrchestrator) (op : Op) : Prop :=
  ∀ next ∈ step orch op,
    (∀ active ∈ next.activeSagas, Truthful active.saga) ∧
      List.Forall₂ (fun active active' => Frozen active.saga active'.saga)
        orch.activeSagas next.activeSagas

/-- A compensated saga is not executed again. -/
def NotReexecuted (orch : SagaOrchestrator) (op : Op) : Prop :=
  ∀ i, op = .execute i → ∀ active ∈ orch.activeSagas[i]?, active.saga.status ≠ .compensated

theorem notReexecuted_of_ne {op : Op} (orch : SagaOrchestrator) (h : ∀ i, op ≠ .execute i) :
    NotReexecuted orch op :=
  fun i hop => absurd hop (h i)

inductive Settled (saga : SagaInstance) : Prop
  | untouched : saga.status = .running → saga.currentStep = 0 → Settled saga
  | completed : saga.status = .completed → saga.currentStep = saga.steps.length →
      (∀ step ∈ saga.steps, step.status = .completed) → Settled saga
  | compensated : saga.status = .compensated → Settled saga

theorem Settled.truthful {saga : SagaInstance} (h : Settled saga) : Truthful saga := by
  intro hcompleted
  cases h with
  | untouched hstatus => rw [hstatus] at hcompleted; contradiction
  | completed _ _ hsteps => exact hsteps
  | compensated hstatus => rw [hstatus] at hcompleted; contradiction

/-! ## A step, with its retries -/

structure StepDone (i : Nat) (saga : SagaInstance) (result : Int) (saga' : SagaInstance) :
    Prop where
  length_eq : saga'.steps.length = saga.steps.length
  others : ∀ j, j ≠ i → saga'.steps[j]? = saga.steps[j]?
  called : saga.calls.length < saga'.calls.length
  finished : result = 0 → saga'.currentStep = i + 1 ∧
    ∀ step ∈ saga'.steps[i]?, step.status = .completed

theorem executeStep_done {fuel i : Nat} {saga : SagaInstance} {step : SagaStep}
    (hstep : saga.steps[i]? = some step)
    (hfuel : (step.maxRetries - step.retryCount).toNat < fuel) :
    ∃ result saga', sagaOrchExecuteStep fuel saga i = some (result, saga') ∧
      StepDone i saga result saga' := by
  have hi : i < saga.steps.length := (List.getElem?_eq_some_iff.mp hstep).1
  induction fuel generalizing saga step with
  | zero => exact absurd hfuel (Nat.not_lt_zero _)
  | succ fuel ih =>
      rw [sagaOrchExecuteStep, hstep]
      dsimp only
      have hset : ∀ {tried : SagaStep} (j : Nat), j ≠ i →
          (saga.steps.set i tried)[j]? = saga.steps[j]? :=
        fun j hj => List.getElem?_set_ne (Ne.symm hj)
      have hcalled : ∀ call : Call, saga.calls.length < (saga.calls ++ [call]).length := by simp
      by_cases hresult : step.execute (executions saga.calls i) = 0
      · rw [if_pos hresult]
        refine ⟨_, _, rfl, List.length_set, hset, hcalled _, fun _ => ⟨rfl, ?_⟩⟩
        intro step' hstep'
        rw [List.getElem?_set_self hi] at hstep'
        rw [← Option.some.inj hstep']
      · rw [if_neg hresult]
        by_cases hretry : sagaStepCanRetry step = true
        · rw [if_pos hretry]
          have hlt : (step.retryCount : Int) < step.maxRetries := of_decide_eq_true hretry
          let next : SagaStep :=
            { step with status := .executing, retryCount := step.retryCount + 1 }
          let mid : SagaInstance := { saga with
            steps := saga.steps.set i next
            calls := saga.calls ++ [.executed i (step.execute (executions saga.calls i))] }
          have hnext : mid.steps[i]? = some next := List.getElem?_set_self hi
          obtain ⟨result, saga', hrun, hdone⟩ := ih hnext (by simp only [next]; omega)
            (List.getElem?_eq_some_iff.mp hnext).1
          refine ⟨result, saga', hrun, ?_, ?_, ?_, hdone.finished⟩
          · exact hdone.length_eq.trans List.length_set
          · intro j hj
            exact (hdone.others j hj).trans (hset j hj)
          · exact Nat.lt_trans (hcalled _) hdone.called
        · rw [if_neg hretry]
          exact ⟨_, _, rfl, List.length_set, hset, hcalled _, fun h => absurd h hresult⟩

theorem retryDepth_spec {i : Nat} {saga : SagaInstance} (hi : i < saga.steps.length) :
    ∃ result saga', sagaOrchExecuteStep (retryDepth saga i) saga i = some (result, saga') ∧
      StepDone i saga result saga' := by
  have hstep : saga.steps[i]? = some saga.steps[i] := List.getElem?_eq_getElem hi
  apply executeStep_done hstep
  rw [retryDepth, hstep]
  exact Nat.lt_succ_self _

/-! ## The way back -/

/-- A round that calls nothing moves on, and so does the round after a call. -/
theorem compensateLoop_total {fuel i : Nat} {saga : SagaInstance} (hi : i ≤ saga.steps.length)
    (hfuel : 2 * i < fuel) :
    ∃ saga', compensateLoop fuel saga i = some saga' ∧
      saga.calls.length ≤ saga'.calls.length := by
  induction i generalizing saga fuel with
  | zero =>
      obtain ⟨fuel, rfl⟩ := Nat.exists_eq_succ_of_ne_zero (Nat.ne_of_gt hfuel)
      exact ⟨saga, rfl, le_rfl⟩
  | succ i ih =>
      obtain ⟨fuel, rfl⟩ : ∃ n, fuel = n + 2 := ⟨fuel - 2, by omega⟩
      have hmore : ∀ {fuel : Nat} {tried : SagaStep} {call : Call}, 2 * i < fuel →
          ∃ saga', compensateLoop fuel { saga with
            steps := saga.steps.set i tried
            calls := saga.calls ++ [call] } i = some saga' ∧
            saga.calls.length ≤ saga'.calls.length := by
        intro fuel tried call hfuel
        let mid : SagaInstance := { saga with
          steps := saga.steps.set i tried
          calls := saga.calls ++ [call] }
        have hlength : i ≤ mid.steps.length := by
          simp only [mid, List.length_set]
          omega
        obtain ⟨saga', hrun, hcalls⟩ := ih hlength hfuel
        refine ⟨saga', hrun, Nat.le_trans ?_ hcalls⟩
        simp [mid]
      rw [compensateLoop, List.getElem?_eq_getElem hi]
      dsimp only
      split
      · split
        · exact hmore (by omega)
        · split
          · -- the step is no longer `completed`, and the next round does nothing
            rw [compensateLoop, List.getElem?_set_self hi]
            exact hmore (by omega)
          · exact hmore (by omega)
      · exact ih (Nat.le_of_succ_le hi) (by omega)

theorem compensate_total (saga : SagaInstance) (i : Nat) :
    ∃ saga', sagaOrchCompensate saga i = some saga' ∧ saga'.status = .compensated ∧
      saga.calls.length ≤ saga'.calls.length := by
  let back : SagaInstance := { saga with status := .compensating }
  have hstart : (if saga.steps.length ≤ i then saga.steps.length else i + 1) ≤
      back.steps.length := by
    simp only [back]
    split <;> omega
  obtain ⟨saga', hrun, hcalls⟩ := compensateLoop_total hstart (Nat.lt_succ_self _)
  refine ⟨{ saga' with status := .compensated }, ?_, rfl, hcalls⟩
  rw [sagaOrchCompensate, hrun]
  rfl

/-! ## The way forwards -/

structure LoopDone (i : Nat) (saga saga' : SagaInstance) : Prop where
  settled : (∀ j < i, ∀ step ∈ saga.steps[j]?, step.status = .completed) → Settled saga'
  progress : saga'.status = .completed ∨ saga.calls.length < saga'.calls.length

theorem executeLoop_done {n i : Nat} {saga : SagaInstance} (hn : i + n = saga.steps.length)
    (hcurrent : saga.currentStep = i) :
    ∃ result saga', executeLoop (List.range' i n) saga = some (result, saga') ∧
      LoopDone i saga saga' := by
  induction n generalizing i saga with
  | zero =>
      refine ⟨0, { saga with status := .completed }, rfl, ?_, Or.inl rfl⟩
      intro hbelow
      refine .completed rfl (hcurrent.trans hn) ?_
      intro step hmem
      obtain ⟨j, hj⟩ := List.mem_iff_getElem?.mp hmem
      have hlt : j < saga.steps.length := (List.getElem?_eq_some_iff.mp hj).1
      exact hbelow j (by omega) step hj
  | succ n ih =>
      have hi : i < saga.steps.length := by omega
      obtain ⟨result, mid, hrun, hdone⟩ := retryDepth_spec hi
      rw [List.range'_succ, executeLoop, hrun, Option.bind_some]
      dsimp only
      by_cases hresult : result = 0
      · rw [if_neg (fun h => h hresult)]
        obtain ⟨hnext, hstep⟩ := hdone.finished hresult
        have hrest : i + 1 + n = mid.steps.length := by
          rw [hdone.length_eq]
          omega
        obtain ⟨last, saga', hloop, hlast⟩ := ih hrest hnext
        refine ⟨last, saga', hloop, ?_, ?_⟩
        · intro hbelow
          apply hlast.settled
          intro j hj step hmem
          rcases Nat.lt_succ_iff_lt_or_eq.mp hj with hlt | rfl
          · rw [hdone.others j (Nat.ne_of_lt hlt)] at hmem
            exact hbelow j hlt step hmem
          · exact hstep step hmem
        · cases hlast.progress with
          | inl hcompleted => exact Or.inl hcompleted
          | inr hcalls => exact Or.inr (Nat.lt_trans hdone.called hcalls)
      · rw [if_pos hresult]
        obtain ⟨saga', hback, hstatus, hcalls⟩ := compensate_total mid i
        rw [hback]
        refine ⟨result, saga', rfl, fun _ => .compensated hstatus, Or.inr ?_⟩
        exact Nat.lt_of_lt_of_le hdone.called hcalls

theorem execute_nothing_left {saga : SagaInstance} (h : saga.steps.length ≤ saga.currentStep) :
    sagaOrchExecute saga = some (0, { saga with status := .completed }) := by
  rw [sagaOrchExecute, Nat.sub_eq_zero_of_le h, List.range'_zero, executeLoop]

theorem execute_done (saga : SagaInstance) :
    ∃ result saga', sagaOrchExecute saga = some (result, saga') ∧
      (Settled saga → saga.status ≠ .compensated → Settled saga' ∧ Frozen saga saga') ∧
      (saga'.status = .completed ∨ saga.calls.length < saga'.calls.length) := by
  by_cases hlength : saga.steps.length ≤ saga.currentStep
  · refine ⟨0, _, execute_nothing_left hlength, ?_, Or.inl rfl⟩
    intro hsettled hcompensated
    cases hsettled with
    | untouched hstatus hcurrent =>
        have hnil : saga.steps = [] := List.eq_nil_of_length_eq_zero (by omega)
        constructor
        · refine .completed rfl (by simp [hcurrent, hnil]) ?_
          simp [hnil]
        · intro hterminal
          rw [sagaIsTerminal, hstatus] at hterminal
          contradiction
    | completed hstatus hcurrent hsteps =>
        exact ⟨.completed rfl hcurrent hsteps, fun _ => ⟨hstatus.symm, rfl⟩⟩
    | compensated hstatus => exact absurd hstatus hcompensated
  · have hrest := Nat.add_sub_of_le (Nat.le_of_not_le hlength)
    obtain ⟨result, saga', hrun, hdone⟩ := executeLoop_done hrest rfl
    refine ⟨result, saga', hrun, ?_, hdone.progress⟩
    intro hsettled hcompensated
    cases hsettled with
    | untouched hstatus hcurrent =>
        constructor
        · apply hdone.settled
          intro j hj
          omega
        · intro hterminal
          rw [sagaIsTerminal, hstatus] at hterminal
          contradiction
    | completed _ hcurrent => exact absurd hcurrent.ge hlength
    | compensated hstatus => exact absurd hstatus hcompensated

/-! ## The entry points -/

structure Handled (saga saga' : SagaInstance) : Prop where
  settled : Settled saga → Settled saga'
  frozen : Settled saga → Frozen saga saga'

theorem Handled.refl (saga : SagaInstance) : Handled saga saga :=
  ⟨id, fun _ _ => ⟨rfl, rfl⟩⟩

theorem execute_handled {saga : SagaInstance} (h : saga.status ≠ .compensated) :
    ∃ result saga', sagaOrchExecute saga = some (result, saga') ∧ Handled saga saga' := by
  obtain ⟨result, saga', hrun, hdone, -⟩ := execute_done saga
  exact ⟨result, saga', hrun, fun hs => (hdone hs h).1, fun hs => (hdone hs h).2⟩

theorem resume_handled (saga : SagaInstance) :
    ∃ result saga', sagaOrchResume saga = some (result, saga') ∧ Handled saga saga' := by
  rw [sagaOrchResume]
  by_cases hrunning : saga.status = .running
  · rw [if_neg (fun h => h hrunning)]
    apply execute_handled
    rw [hrunning]
    decide
  · rw [if_pos hrunning]
    exact ⟨-1, saga, rfl, .refl saga⟩

theorem tickSaga_handled (active : ActiveSaga) :
    ∃ active', tickSaga active = some active' ∧ Handled active.saga active'.saga := by
  rw [tickSaga]
  by_cases hterminal : sagaIsTerminal active.saga = true
  · rw [if_pos hterminal]
    exact ⟨active, rfl, .refl _⟩
  · rw [if_neg hterminal]
    have hstatus : active.saga.status ≠ .compensated := by
      intro hcompensated
      rw [sagaIsTerminal, hcompensated] at hterminal
      contradiction
    obtain ⟨result, saga', hrun, hhandled⟩ := execute_handled hstatus
    rw [hrun]
    exact ⟨{ active with saga := saga' }, rfl, hhandled⟩

theorem cancel_handled (saga : SagaInstance) :
    ∃ result saga', cancelSaga saga = some (result, saga') ∧ Handled saga saga' := by
  rw [cancelSaga]
  by_cases hterminal : sagaIsTerminal saga = true
  · rw [if_pos hterminal]
    exact ⟨-2, saga, rfl, .refl saga⟩
  · rw [if_neg hterminal]
    obtain ⟨saga', hrun, hstatus, -⟩ := compensate_total saga saga.currentStep
    rw [hrun]
    exact ⟨0, saga', rfl, fun _ => .compensated hstatus, fun _ h => absurd h hterminal⟩

/-! ## The orchestrator -/

def AllHandled (orch next : SagaOrchestrator) : Prop :=
  List.Forall₂ (fun active active' => Handled active.saga active'.saga)
    orch.activeSagas next.activeSagas

theorem AllHandled.refl (orch : SagaOrchestrator) : AllHandled orch orch :=
  List.forall₂_same.mpr fun active _ => Handled.refl active.saga

theorem forall₂_set {α : Type*} {R : α → α → Prop} (hrefl : ∀ a, R a a) {l : List α} {i : Nat}
    {a b : α} (ha : l[i]? = some a) (hab : R a b) : List.Forall₂ R l (l.set i b) := by
  induction l generalizing i with
  | nil => exact .nil
  | cons c l ih =>
      cases i with
      | zero =>
          rw [List.getElem?_cons_zero, Option.some.injEq] at ha
          exact .cons (ha ▸ hab) (List.forall₂_same.mpr fun d _ => hrefl d)
      | succ i => exact .cons (hrefl c) (ih ha)

theorem call_handled (orch : SagaOrchestrator) (i : Nat)
    {f : SagaInstance → Option (Int × SagaInstance)}
    (hf : ∀ active ∈ orch.activeSagas[i]?, ∃ result saga',
      f active.saga = some (result, saga') ∧ Handled active.saga saga') :
    ∃ result next, orch.call i f = some (result, next) ∧ AllHandled orch next := by
  rw [SagaOrchestrator.call]
  cases hactive : orch.activeSagas[i]? with
  | none => exact ⟨0, orch, rfl, .refl orch⟩
  | some active =>
      obtain ⟨result, saga', hrun, hhandled⟩ := hf active hactive
      dsimp only
      rw [hrun]
      refine ⟨result, _, rfl, ?_⟩
      exact forall₂_set (fun active => Handled.refl active.saga) hactive hhandled

theorem tick_handled (orch : SagaOrchestrator) :
    ∃ next, sagaOrchestratorTick orch = some next ∧ AllHandled orch next := by
  have hloop : ∀ l : List ActiveSaga, ∃ l', l.mapM tickSaga = some l' ∧
      List.Forall₂ (fun active active' => Handled active.saga active'.saga) l l' := by
    intro l
    induction l with
    | nil => exact ⟨[], rfl, .nil⟩
    | cons active l ih =>
        obtain ⟨active', hrun, hhandled⟩ := tickSaga_handled active
        obtain ⟨l', hrest, hall⟩ := ih
        refine ⟨active' :: l', ?_, .cons hhandled hall⟩
        rw [List.mapM_cons, hrun, hrest]
        rfl
  obtain ⟨l', hrun, hall⟩ := hloop orch.activeSagas
  refine ⟨⟨l'⟩, ?_, hall⟩
  rw [sagaOrchestratorTick, hrun]
  rfl

theorem step_handled {orch : SagaOrchestrator} {op : Op} (h : NotReexecuted orch op) :
    ∃ next, step orch op = some next ∧ AllHandled orch next := by
  cases op with
  | execute i =>
      obtain ⟨result, next, hrun, hall⟩ := call_handled orch i
        fun active hactive => execute_handled (h i rfl active hactive)
      exact ⟨next, by rw [step, hrun]; rfl, hall⟩
  | resume i =>
      obtain ⟨result, next, hrun, hall⟩ := call_handled orch i
        fun active _ => resume_handled active.saga
      exact ⟨next, by rw [step, hrun]; rfl, hall⟩
  | tick => exact tick_handled orch
  | cancel sagaId =>
      rw [step, sagaOrchestratorCancel]
      cases sagaOrchestratorFind orch sagaId with
      | none => exact ⟨orch, rfl, .refl orch⟩
      | some i =>
          obtain ⟨result, next, hrun, hall⟩ := call_handled orch i
            fun active _ => cancel_handled active.saga
          exact ⟨next, by dsimp only; rw [hrun]; rfl, hall⟩

theorem call_total (orch : SagaOrchestrator) (i : Nat)
    {f : SagaInstance → Option (Int × SagaInstance)}
    (hf : ∀ saga, ∃ result saga', f saga = some (result, saga')) :
    ∃ result next, orch.call i f = some (result, next) := by
  rw [SagaOrchestrator.call]
  cases orch.activeSagas[i]? with
  | none => exact ⟨0, orch, rfl⟩
  | some active =>
      obtain ⟨result, saga', hrun⟩ := hf active.saga
      dsimp only
      rw [hrun]
      exact ⟨result, _, rfl⟩

theorem step_total (orch : SagaOrchestrator) (op : Op) : ∃ next, step orch op = some next := by
  cases op with
  | execute i =>
      obtain ⟨result, next, hrun⟩ := call_total orch i fun saga => by
        obtain ⟨result, saga', hrun, -⟩ := execute_done saga
        exact ⟨result, saga', hrun⟩
      exact ⟨next, by rw [step, hrun]; rfl⟩
  | resume i =>
      have hnot : NotReexecuted orch (.resume i) := notReexecuted_of_ne orch (fun _ => nofun)
      obtain ⟨next, hrun, -⟩ := step_handled hnot
      exact ⟨next, hrun⟩
  | tick =>
      have hnot : NotReexecuted orch (.tick) := notReexecuted_of_ne orch (fun _ => nofun)
      obtain ⟨next, hrun, -⟩ := step_handled hnot
      exact ⟨next, hrun⟩
  | cancel sagaId =>
      have hnot : NotReexecuted orch (.cancel sagaId) := notReexecuted_of_ne orch (fun _ => nofun)
      obtain ⟨next, hrun, -⟩ := step_handled hnot
      exact ⟨next, hrun⟩

/-! ## Runs -/

def AllSettled (orch : SagaOrchestrator) : Prop :=
  ∀ active ∈ orch.activeSagas, Settled active.saga

theorem AllHandled.allSettled {orch next : SagaOrchestrator} (h : AllHandled orch next)
    (hsettled : AllSettled orch) : AllSettled next := by
  have hboth := (List.forall₂_and_left _ _).mpr ⟨hsettled, h⟩
  have hnext : List.Forall₂ (fun active' _ => Settled active'.saga ∧ True)
      next.activeSagas orch.activeSagas :=
    (hboth.imp fun _ _ hpair => ⟨hpair.2.settled hpair.1, trivial⟩).flip
  exact ((List.forall₂_and_left _ _).mp hnext).1

theorem AllHandled.frozen {orch next : SagaOrchestrator} (h : AllHandled orch next)
    (hsettled : AllSettled orch) :
    List.Forall₂ (fun active active' => Frozen active.saga active'.saga)
      orch.activeSagas next.activeSagas := by
  have hboth := (List.forall₂_and_left _ _).mpr ⟨hsettled, h⟩
  exact hboth.imp fun _ _ hpair => hpair.2.frozen hpair.1

theorem statusHolds_of_notReexecuted {orch : SagaOrchestrator} {op : Op}
    (hsettled : AllSettled orch) (h : NotReexecuted orch op) : StatusHolds orch op := by
  obtain ⟨next, hrun, hall⟩ := step_handled h
  intro next' hnext
  have heq : next = next' := Option.some.inj (hrun.symm.trans hnext)
  rw [← heq]
  constructor
  · intro active hactive
    exact (hall.allSettled hsettled active hactive).truthful
  · exact hall.frozen hsettled

/-- A compensated saga that is executed again becomes completed, or calls a function. -/
theorem notReexecuted_of_statusHolds {orch : SagaOrchestrator} {op : Op}
    (h : StatusHolds orch op) : NotReexecuted orch op := by
  intro i hop active hactive hcompensated
  rw [hop] at h
  obtain ⟨result, saga', hrun, -, hprogress⟩ := execute_done active.saga
  have hstep : step orch (.execute i) =
      some ⟨orch.activeSagas.set i { active with saga := saga' }⟩ := by
    rw [step, SagaOrchestrator.call, hactive]
    dsimp only
    rw [hrun]
    rfl
  have hi : i < orch.activeSagas.length := (List.getElem?_eq_some_iff.mp hactive).1
  have hfrozen := (h _ hstep).2.get hi (by rw [List.length_set]; exact hi)
  simp only [List.get_eq_getElem, List.getElem_set_self] at hfrozen
  rw [(List.getElem?_eq_some_iff.mp hactive).2] at hfrozen
  obtain ⟨hstatus, hcalls⟩ := hfrozen (by rw [sagaIsTerminal, hcompensated]; rfl)
  cases hprogress with
  | inl hcompleted =>
      rw [hcompleted, hcompensated] at hstatus
      contradiction
  | inr hmore =>
      rw [hcalls] at hmore
      exact Nat.lt_irrefl _ hmore

/-- A saga as `saga_orch_create` and `saga_orch_add_steps` leave it. -/
def Created (saga : SagaInstance) : Prop :=
  ∃ steps, saga = (sagaOrchAddSteps sagaOrchCreate steps).2

theorem settled_addSteps (steps : List SagaStep) {saga : SagaInstance}
    (hstatus : saga.status = .running) (hcurrent : saga.currentStep = 0) :
    Settled (sagaOrchAddSteps saga steps).2 := by
  induction steps generalizing saga with
  | nil => exact .untouched hstatus hcurrent
  | cons step steps ih =>
      rw [sagaOrchAddSteps, sagaOrchAddStep]
      by_cases hfull : sagaMaxSteps ≤ saga.steps.length
      · rw [if_pos hfull]
        exact .untouched hstatus hcurrent
      · rw [if_neg hfull]
        exact ih hstatus hcurrent

/-- In every run of calls all calls return, and the statuses of the sagas tell the truth exactly
when no compensated saga is executed again. -/
theorem statusHolds_iff {orch : SagaOrchestrator}
    (h : ∀ active ∈ orch.activeSagas, Created active.saga) (ops : List Op) :
    (∃ last, runOption step orch ops = some last) ∧
      (AlwaysOption step StatusHolds orch ops ↔ AlwaysOption step NotReexecuted orch ops) := by
  refine ⟨runOption_total step step_total orch ops, ?_, ?_⟩
  · intro hholds
    exact alwaysOption_of_invariant (I := fun _ => True) step (fun _ _ _ _ _ _ => trivial)
      (fun _ _ _ => notReexecuted_of_statusHolds) trivial hholds
  · intro hnot
    have hsettled : AllSettled orch := by
      intro active hactive
      obtain ⟨steps, hsteps⟩ := h active hactive
      rw [hsteps]
      exact settled_addSteps steps rfl rfl
    refine alwaysOption_of_invariant (I := AllSettled) step ?_ ?_ hsettled hnot
    · intro orch op next horch hop hrun
      obtain ⟨next', hrun', hall⟩ := step_handled hop
      have heq : next' = next := Option.some.inj (hrun'.symm.trans hrun)
      rw [← heq]
      exact hall.allSettled horch
    · intro orch op
      exact statusHolds_of_notReexecuted

def orderId : CStr := lit "SAGA-0000000001-0001"

/-- An order whose second step fails for good the first two times. -/
def orderSagas : SagaOrchestrator :=
  sagaOrchestratorEnqueue ⟨[]⟩ ⟨orderId, (sagaOrchAddSteps sagaOrchCreate
    [sagaStepCreate (fun _ => 0) (some fun _ => 0) 3,
      sagaStepCreate (fun call => if 2 ≤ call then 0 else -1) none 0]).2⟩

theorem statusHolds_iff_orderSagas :
    AlwaysOption step NotReexecuted orderSagas [.tick, .resume 0, .cancel orderId] ∧
      (∃ last, runOption step orderSagas [.tick, .resume 0, .cancel orderId] = some last) ∧
      (AlwaysOption step StatusHolds orderSagas [.tick, .resume 0, .cancel orderId] ↔
        AlwaysOption step NotReexecuted orderSagas [.tick, .resume 0, .cancel orderId]) := by
  refine ⟨?_, statusHolds_iff ?_ _⟩
  · exact ⟨notReexecuted_of_ne _ fun _ => nofun, fun _ _ => ⟨notReexecuted_of_ne _ fun _ => nofun,
      fun _ _ => ⟨notReexecuted_of_ne _ fun _ => nofun, fun _ _ => trivial⟩⟩⟩
  · intro active hactive
    rw [orderSagas, sagaOrchestratorEnqueue, List.nil_append, List.mem_singleton] at hactive
    rw [hactive]
    exact ⟨_, rfl⟩

/-- A compensated saga is executed twice more.  Its second step returns 0 at last, and the saga is
completed while its first step is compensated. -/
theorem compensated_executed_again :
    (∃ active, (runOption step orderSagas [.tick, .execute 0, .execute 0]).map
        (·.activeSagas) = some [active] ∧
      active.saga.status = .completed ∧
      active.saga.steps.map (·.status) = [.compensated, .completed] ∧
      active.saga.calls = [.executed 0 0, .executed 1 (-1), .compensated 0 0,
        .executed 1 (-1), .executed 1 0]) ∧
      ¬ AlwaysOption step StatusHolds orderSagas [.tick, .execute 0, .execute 0] := by
  refine ⟨⟨_, rfl, rfl, rfl, rfl⟩, ?_⟩
  intro h
  have hlast := ((h.2 _ rfl).2 _ rfl).1
  have htruthful := (hlast _ rfl).1 _ List.mem_cons_self rfl _ List.mem_cons_self
  exact absurd htruthful (by decide)

end MiniBackend.Arch.Proofs.SagaStatus
