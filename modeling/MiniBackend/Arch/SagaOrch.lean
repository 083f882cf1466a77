import MiniBackend.Lib.CString

/-!
# `saga_orch.c`

Orchestrated sagas.  The functions of a step work on the context and the data of the saga, so
a call of them is given by what it returns: `execute n` is the result of the call number `n` of
the function, counted from 0.  The calls that were made are on record in the saga.
The orchestrator keeps sagas under their ids; an id is not checked to be new, and the first
saga that has it is the one that is found.
-/

namespace MiniBackend.Arch.Saga

open MiniBackend.Lib.CString

inductive SagaStepStatus
  | pending
  | executing
  | completed
  | compensating
  | compensated
  | failed
deriving DecidableEq

/-- `compensate` is `none` for a null pointer. -/
structure SagaStep where
  execute : Nat → Int
  compensate : Option (Nat → Int)
  status : SagaStepStatus
  retryCount : Nat
  maxRetries : Int

inductive SagaStatus
  | running
  | completed
  | compensating
  | compensated
  | failed
deriving DecidableEq

/-- A call of a function of step `i`, with its result. -/
inductive Call
  | executed (i : Nat) (result : Int)
  | compensated (i : Nat) (result : Int)
deriving DecidableEq

structure SagaInstance where
  steps : List SagaStep
  currentStep : Nat
  status : SagaStatus
  calls : List Call

/-- The steps whose `execute` returned 0, in this order. -/
def done (calls : List Call) : List Nat :=
  calls.filterMap fun
    | .executed i 0 => some i
    | _ => none

def attempts (calls : List Call) : List Nat :=
  calls.filterMap fun
    | .compensated i _ => some i
    | _ => none

def undone (calls : List Call) : List Nat :=
  calls.filterMap fun
    | .compensated i 0 => some i
    | _ => none

def executions (calls : List Call) (i : Nat) : Nat :=
  calls.countP fun
    | .executed j _ => j == i
    | _ => false

/-- How often `compensate` of step `i` was called. -/
def compensations (calls : List Call) (i : Nat) : Nat := (attempts calls).count i

def sagaMaxSteps : Nat := 20

def sagaStepCreate (execute : Nat → Int) (compensate : Option (Nat → Int)) (maxRetries : Int) :
    SagaStep :=
  ⟨execute, compensate, .pending, 0, maxRetries⟩

def sagaStepCanRetry (step : SagaStep) : Bool := step.retryCount < step.maxRetries

def sagaOrchCreate : SagaInstance := ⟨[], 0, .running, []⟩

def sagaOrchAddStep (saga : SagaInstance) (step : SagaStep) : Int × SagaInstance :=
  if sagaMaxSteps ≤ saga.steps.length then (-1, saga)
  else (0, { saga with steps := saga.steps ++ [step] })

def sagaOrchAddSteps (saga : SagaInstance) : List SagaStep → Int × SagaInstance
  | [] => (0, saga)
  | step :: steps =>
      let (result, saga) := sagaOrchAddStep saga step
      if result ≠ 0 then (-1, saga) else sagaOrchAddSteps saga steps

/-- `none` when more than `fuel` calls are nested. -/
def sagaOrchExecuteStep : Nat → SagaInstance → Nat → Option (Int × SagaInstance)
  | 0, _, _ => none
  | fuel + 1, saga, i =>
      match saga.steps[i]? with
      | none => some (-1, saga)
      | some step =>
          let result := step.execute (executions saga.calls i)
          let calls := saga.calls ++ [.executed i result]
          if result = 0 then
            some (result, { saga with
              steps := saga.steps.set i { step with status := .completed }
              currentStep := i + 1
              calls := calls })
          else if sagaStepCanRetry step then
            sagaOrchExecuteStep fuel { saga with
              steps := saga.steps.set i
                { step with status := .executing, retryCount := step.retryCount + 1 }
              calls := calls } i
          else
            some (result, { saga with
              steps := saga.steps.set i { step with status := .failed }
              status := .failed
              calls := calls })

/-- The loop of `saga_orch_compensate` in front of step `i - 1`; it is over when `i` is 0. -/
def compensateLoop : Nat → SagaInstance → Nat → Option SagaInstance
  | 0, _, _ => none
  | _ + 1, saga, 0 => some saga
  | fuel + 1, saga, i + 1 =>
      match saga.steps[i]? with
      | none => none
      | some step =>
          match step.status, step.compensate with
          | .completed, some compensate =>
              let result := compensate (compensations saga.calls i)
              let calls := saga.calls ++ [.compensated i result]
              if result = 0 then
                compensateLoop fuel { saga with
                  steps := saga.steps.set i { step with status := .compensated }
                  calls := calls } i
              else
                let step :=
                  { step with status := .compensating, retryCount := step.retryCount + 1 }
                let saga := { saga with steps := saga.steps.set i step, calls := calls }
                -- `i++` takes back the `i--` at the end of the round.
                if sagaStepCanRetry step then compensateLoop fuel saga (i + 1)
                else compensateLoop fuel saga i
          | _, _ => compensateLoop fuel saga i

/-- A round per step, and one more for each that is tried again. -/
def sagaOrchCompensate (saga : SagaInstance) (failedStepIndex : Nat) : Option SagaInstance :=
  let start := if saga.steps.length ≤ failedStepIndex then saga.steps.length
    else failedStepIndex + 1
  (compensateLoop (2 * start + 1) { saga with status := .compensating } start).map
    ({ · with status := .compensated })

/-- How deep `saga_orch_execute_step` can call itself. -/
def retryDepth (saga : SagaInstance) (i : Nat) : Nat :=
  match saga.steps[i]? with
  | none => 1
  | some step => (step.maxRetries - step.retryCount).toNat + 1

/-- The loop of `saga_orch_execute` over the steps that are left. -/
def executeLoop : List Nat → SagaInstance → Option (Int × SagaInstance)
  | [], saga => some (0, { saga with status := .completed })
  | i :: is, saga =>
      (sagaOrchExecuteStep (retryDepth saga i) saga i).bind fun (result, saga) =>
        if result ≠ 0 then (sagaOrchCompensate saga i).map fun saga => (result, saga)
        else executeLoop is saga

def sagaOrchExecute (saga : SagaInstance) : Option (Int × SagaInstance) :=
  executeLoop (List.range' saga.currentStep (saga.steps.length - saga.currentStep)) saga

def sagaOrchResume (saga : SagaInstance) : Option (Int × SagaInstance) :=
  if saga.status ≠ .running then some (-1, saga) else sagaOrchExecute saga

def sagaIsTerminal (saga : SagaInstance) : Bool :=
  saga.status = .completed || saga.status = .compensated || saga.status = .failed

structure ActiveSaga where
  sagaId : CStr
  saga : SagaInstance

structure SagaOrchestrator where
  activeSagas : List ActiveSaga

def sagaOrchestratorEnqueue (orch : SagaOrchestrator) (active : ActiveSaga) : SagaOrchestrator :=
  ⟨orch.activeSagas ++ [active]⟩

def tickSaga (active : ActiveSaga) : Option ActiveSaga :=
  if sagaIsTerminal active.saga then some active
  else (sagaOrchExecute active.saga).map fun (_, saga) => { active with saga := saga }

def sagaOrchestratorTick (orch : SagaOrchestrator) : Option SagaOrchestrator :=
  (orch.activeSagas.mapM tickSaga).map SagaOrchestrator.mk

def sagaOrchestratorFind (orch : SagaOrchestrator) (sagaId : CStr) : Option Nat :=
  orch.activeSagas.findIdx? (·.sagaId == sagaId)

def SagaOrchestrator.call (orch : SagaOrchestrator) (i : Nat)
    (f : SagaInstance → Option (Int × SagaInstance)) : Option (Int × SagaOrchestrator) :=
  match orch.activeSagas[i]? with
  | none => some (0, orch)
  | some active =>
      (f active.saga).map fun (result, saga) =>
        (result, ⟨orch.activeSagas.set i { active with saga := saga }⟩)

/-- What `saga_orchestrator_cancel` does to the saga that it found. -/
def cancelSaga (saga : SagaInstance) : Option (Int × SagaInstance) :=
  if sagaIsTerminal saga then some (-2, saga)
  else (sagaOrchCompensate saga saga.currentStep).map fun saga => (0, saga)

def sagaOrchestratorCancel (orch : SagaOrchestrator) (sagaId : CStr) :
    Option (Int × SagaOrchestrator) :=
  match sagaOrchestratorFind orch sagaId with
  | none => some (-1, orch)
  | some i => orch.call i cancelSaga

/-- The calls of a program that holds an orchestrator and pointers to its sagas. -/
inductive Op
  | execute (i : Nat)
  | resume (i : Nat)
  | tick
  | cancel (sagaId : CStr)

def step (orch : SagaOrchestrator) : Op → Option SagaOrchestrator
  | .execute i => (orch.call i sagaOrchExecute).map Prod.snd
  | .resume i => (orch.call i sagaOrchResume).map Prod.snd
  | .tick => sagaOrchestratorTick orch
  | .cancel sagaId => (sagaOrchestratorCancel orch sagaId).map Prod.snd

end MiniBackend.Arch.Saga
