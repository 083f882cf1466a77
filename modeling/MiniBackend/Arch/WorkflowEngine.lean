import MiniBackend.Lib.CString

/-!
# `workflow_engine.c`

Workflows as state machines with guards and actions on the data of an instance, and the
approval workflow.  The data are of any type; contexts are part of the guards and actions, and
what an action returns is not looked at.
-/

namespace MiniBackend.Arch.Workflow

open MiniBackend.Lib.CString

def workflowStateLen : Nat := 64
def workflowEventLen : Nat := 64
def workflowMaxStates : Nat := 32
def workflowMaxTrans : Nat := 64
def workflowMaxActions : Nat := 16

structure WorkflowState (D : Type) where
  name : CStr
  isInitial : Bool
  isFinal : Bool
  onEntry : List (D → D)
  onExit : List (D → D)

/-- `guard` is `none` for a null pointer. -/
structure WorkflowTransition (D : Type) where
  sourceState : CStr
  targetState : CStr
  event : CStr
  guard : Option (D → Bool)
  onTransition : List (D → D)

structure WorkflowDefinition (D : Type) where
  states : List (WorkflowState D)
  transitions : List (WorkflowTransition D)

structure WorkflowInstance (D : Type) where
  currentState : CStr
  previousState : CStr
  data : D
  isCompleted : Bool

variable {D : Type}

def workflowDefine : WorkflowDefinition D := ⟨[], []⟩

def workflowAddState (wf : WorkflowDefinition D) (name : CStr) (initial final : Bool) :
    Int × WorkflowDefinition D :=
  if workflowMaxStates ≤ wf.states.length then (-1, wf)
  else
    (0, { wf with states :=
      wf.states ++ [⟨strncpy name (workflowStateLen - 1), initial, final, [], []⟩] })

def workflowFindState (wf : WorkflowDefinition D) (name : CStr) : Option (WorkflowState D) :=
  wf.states.find? (·.name == name)

def workflowFindTransition (wf : WorkflowDefinition D) (source event : CStr) :
    Option (WorkflowTransition D) :=
  wf.transitions.find? fun t => t.sourceState == source && t.event == event

/-- Write to the state that `workflow_find_state` finds. -/
def modifyState (name : CStr) (f : WorkflowState D → WorkflowState D) :
    List (WorkflowState D) → List (WorkflowState D)
  | [] => []
  | s :: states => if s.name == name then f s :: states else s :: modifyState name f states

def workflowAddStateEntryAction (wf : WorkflowDefinition D) (stateName : CStr)
    (action : D → D) : Int × WorkflowDefinition D :=
  match workflowFindState wf stateName with
  | none => (-1, wf)
  | some s =>
      if workflowMaxActions ≤ s.onEntry.length then (-1, wf)
      else
        let addAction (s : WorkflowState D) := { s with onEntry := s.onEntry ++ [action] }
        (0, { wf with states := modifyState stateName addAction wf.states })

def workflowAddTransition (wf : WorkflowDefinition D) (source target event : CStr) :
    Int × WorkflowDefinition D :=
  if workflowMaxTrans ≤ wf.transitions.length then (-1, wf)
  else
    (0, { wf with transitions := wf.transitions ++
      [⟨strncpy source (workflowStateLen - 1), strncpy target (workflowStateLen - 1),
        strncpy event (workflowEventLen - 1), none, []⟩] })

def workflowAddGuardedTransition (wf : WorkflowDefinition D) (source target event : CStr)
    (guard : Option (D → Bool)) : Int × WorkflowDefinition D :=
  let added := workflowAddTransition wf source target event
  if added.1 ≠ 0 then added
  else
    (0, { added.2 with transitions :=
      added.2.transitions.modify (added.2.transitions.length - 1) ({ · with guard := guard }) })

def workflowInitialState (wf : WorkflowDefinition D) : Option CStr :=
  (wf.states.find? (·.isInitial)).map (·.name)

/-- `none` when there is no initial state, whose name is then read through a null pointer. -/
def workflowInstanceCreate (wf : WorkflowDefinition D) (data : D) : Option (WorkflowInstance D) :=
  (workflowInitialState wf).map fun initial =>
    ⟨strncpy initial (workflowStateLen - 1), [], data, false⟩

def executeActions (actions : List (D → D)) (data : D) : D :=
  actions.foldl (fun data action => action data) data

def workflowInstanceSendEvent (inst : WorkflowInstance D) (wf : WorkflowDefinition D)
    (event : CStr) : Int × WorkflowInstance D :=
  if inst.isCompleted then (-1, inst)
  else
    match workflowFindTransition wf inst.currentState event with
    | none => (-2, inst)
    | some t =>
        let guardPassed := t.guard.elim true fun guard => guard inst.data
        if !guardPassed then (-3, inst)
        else
          let previousState := strncpy inst.currentState (workflowStateLen - 1)
          let data :=
            match workflowFindState wf inst.currentState with
            | some src => executeActions src.onExit inst.data
            | none => inst.data
          let data := executeActions t.onTransition data
          let currentState := strncpy t.targetState (workflowStateLen - 1)
          match workflowFindState wf currentState with
          | some dst =>
              (0, ⟨currentState, previousState, executeActions dst.onEntry data,
                inst.isCompleted || dst.isFinal⟩)
          | none => (0, ⟨currentState, previousState, data, inst.isCompleted⟩)

def workflowIsFinalState (wf : WorkflowDefinition D) (name : CStr) : Bool :=
  (workflowFindState wf name).any (·.isFinal)

/-! ## The approval workflow -/

inductive ApprovalState
  | draft
  | pendingApproval
  | approved
  | rejected
  | revisionRequested
deriving DecidableEq

structure ApprovalRequestData where
  state : ApprovalState
  revisionCount : Nat
deriving DecidableEq

/-- The action prints the request. -/
def apprLogAction (req : ApprovalRequestData) : ApprovalRequestData := req

def workflowCreateApprovalWorkflow : WorkflowDefinition ApprovalRequestData :=
  let wf := workflowDefine
  let wf := (workflowAddState wf (lit "draft") true false).2
  let wf := (workflowAddState wf (lit "pending_approval") false false).2
  let wf := (workflowAddState wf (lit "approved") false true).2
  let wf := (workflowAddState wf (lit "rejected") false true).2
  let wf := (workflowAddState wf (lit "revision_requested") false false).2
  let wf := (workflowAddStateEntryAction wf (lit "pending_approval") apprLogAction).2
  let wf := (workflowAddStateEntryAction wf (lit "approved") apprLogAction).2
  let wf := (workflowAddStateEntryAction wf (lit "rejected") apprLogAction).2
  let wf := (workflowAddTransition wf (lit "draft") (lit "pending_approval") (lit "submit")).2
  let wf := (workflowAddTransition wf (lit "pending_approval") (lit "approved")
    (lit "approve")).2
  let wf := (workflowAddTransition wf (lit "pending_approval") (lit "rejected") (lit "reject")).2
  let wf := (workflowAddTransition wf (lit "pending_approval") (lit "revision_requested")
    (lit "request_revision")).2
  (workflowAddTransition wf (lit "revision_requested") (lit "pending_approval")
    (lit "resubmit")).2

/-- A call that writes the state of the request, changes its count, and then sends the event. -/
def approvalRequest (state : ApprovalState) (count : Nat → Nat) (event : CStr)
    (inst : WorkflowInstance ApprovalRequestData) (wf : WorkflowDefinition ApprovalRequestData) :
    Int × WorkflowInstance ApprovalRequestData :=
  let req : ApprovalRequestData :=
    { inst.data with state := state, revisionCount := count inst.data.revisionCount }
  workflowInstanceSendEvent { inst with data := req } wf event

def approvalRequestSubmit := approvalRequest .pendingApproval id (lit "submit")
def approvalRequestApprove := approvalRequest .approved id (lit "approve")
def approvalRequestReject := approvalRequest .rejected id (lit "reject")
def approvalRequestRequestRevision :=
  approvalRequest .revisionRequested (· + 1) (lit "request_revision")
def approvalRequestResubmit := approvalRequest .pendingApproval id (lit "resubmit")

end MiniBackend.Arch.Workflow
