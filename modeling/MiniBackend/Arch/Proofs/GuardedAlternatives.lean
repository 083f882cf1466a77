import MiniBackend.Arch.WorkflowEngine
import MiniBackend.Lib.Runs

/-!
# Guarded alternatives

The engine finds one transition, the first of its state and event, and looks at no guard but
this one's.  A later alternative is taken into account by nobody.
-/

namespace MiniBackend.Arch.Proofs.GuardedAlternatives

open MiniBackend.Lib.CString MiniBackend.Lib.Runs MiniBackend.Arch.Workflow

variable {D : Type}

/-- A transition from the state of the instance on the event. -/
def isAlternative (inst : WorkflowInstance D) (event : CStr) (t : WorkflowTransition D) : Bool :=
  t.sourceState == inst.currentState && t.event == event

/-- A transition without a guard is always open. -/
def guardPasses (inst : WorkflowInstance D) (t : WorkflowTransition D) : Bool :=
  t.guard.elim true fun guard => guard inst.data

def dataAfter (wf : WorkflowDefinition D) (inst : WorkflowInstance D) (t : WorkflowTransition D) :
    D :=
  let exit := (workflowFindState wf inst.currentState).elim [] (·.onExit)
  let entry := (workflowFindState wf (strncpy t.targetState (workflowStateLen - 1))).elim []
    (·.onEntry)
  executeActions (exit ++ t.onTransition ++ entry) inst.data

def taken (wf : WorkflowDefinition D) (inst : WorkflowInstance D) (t : WorkflowTransition D) :
    WorkflowInstance D where
  currentState := strncpy t.targetState (workflowStateLen - 1)
  previousState := strncpy inst.currentState (workflowStateLen - 1)
  data := dataAfter wf inst t
  isCompleted := workflowIsFinalState wf (strncpy t.targetState (workflowStateLen - 1))

/-- The first open alternative is taken, and a refusal says what was missing and changes
nothing. -/
def Honoured (wf : WorkflowDefinition D) (inst : WorkflowInstance D) (event : CStr) : Prop :=
  let sent := workflowInstanceSendEvent inst wf event
  (∀ t, wf.transitions.find? (fun t => isAlternative inst event t && guardPasses inst t) = some t →
      sent = (0, taken wf inst t)) ∧
    (sent.1 = -3 → (∃ t ∈ wf.transitions, isAlternative inst event t = true) ∧
      ∀ t ∈ wf.transitions, isAlternative inst event t = true → guardPasses inst t = false) ∧
    (sent.1 = -2 → ∀ t ∈ wf.transitions, isAlternative inst event t = false) ∧
    (sent.1 < 0 → sent.2 = inst) ∧
    (sent.2.isCompleted = true ↔
      sent.1 = 0 ∧ workflowIsFinalState wf sent.2.currentState = true)

/-- The first alternative is open, or no alternative is. -/
def FirstDecides (wf : WorkflowDefinition D) (inst : WorkflowInstance D) (event : CStr) : Prop :=
  ∀ t, wf.transitions.find? (isAlternative inst event) = some t → guardPasses inst t = true ∨
    ∀ other ∈ wf.transitions, isAlternative inst event other = true →
      guardPasses inst other = false

/-! ## One event -/

theorem executeActions_append (actions more : List (D → D)) (data : D) :
    executeActions (actions ++ more) data = executeActions more (executeActions actions data) :=
  List.foldl_append

theorem sendEvent_eq (wf : WorkflowDefinition D) {inst : WorkflowInstance D} (event : CStr)
    (hopen : inst.isCompleted = false) :
    workflowInstanceSendEvent inst wf event =
      (wf.transitions.find? (isAlternative inst event)).elim (-2, inst) fun t =>
        if guardPasses inst t then (0, taken wf inst t) else (-3, inst) := by
  have hfind : workflowFindTransition wf inst.currentState event =
      wf.transitions.find? (isAlternative inst event) := rfl
  unfold workflowInstanceSendEvent
  rw [hopen, hfind]
  cases wf.transitions.find? (isAlternative inst event) with
  | none => rfl
  | some t =>
      dsimp only [Option.elim_some]
      cases hguard : guardPasses inst t with
      | false =>
          have hfails : (t.guard.elim true fun guard => guard inst.data) = false := hguard
          rw [hfails]
          rfl
      | true =>
          have hpasses : (t.guard.elim true fun guard => guard inst.data) = true := hguard
          rw [hpasses]
          unfold taken dataAfter workflowIsFinalState
          rw [executeActions_append, executeActions_append]
          cases workflowFindState wf inst.currentState <;>
            cases workflowFindState wf (strncpy t.targetState (workflowStateLen - 1)) <;> rfl

theorem completed_iff_entered_final (wf : WorkflowDefinition D) {inst : WorkflowInstance D}
    (event : CStr) (hopen : inst.isCompleted = false) :
    (workflowInstanceSendEvent inst wf event).2.isCompleted = true ↔
      (workflowInstanceSendEvent inst wf event).1 = 0 ∧ workflowIsFinalState wf
        (workflowInstanceSendEvent inst wf event).2.currentState = true := by
  rw [sendEvent_eq wf event hopen]
  cases wf.transitions.find? (isAlternative inst event) with
  | none => simp [hopen]
  | some t =>
      cases hguard : guardPasses inst t with
      | false => simp [hguard, hopen]
      | true => simp [hguard, taken]

theorem find?_open_of_first {wf : WorkflowDefinition D} {inst : WorkflowInstance D} {event : CStr}
    {t : WorkflowTransition D}
    (hfirst : wf.transitions.find? (isAlternative inst event) = some t)
    (hguard : guardPasses inst t = true) :
    wf.transitions.find? (fun t => isAlternative inst event t && guardPasses inst t) = some t := by
  rw [List.find?_eq_some_iff_append] at hfirst ⊢
  obtain ⟨halternative, front, back, hsplit, hfront⟩ := hfirst
  refine ⟨by rw [halternative, hguard]; rfl, front, back, hsplit, ?_⟩
  intro other hother
  rw [Bool.not_and, hfront other hother, Bool.true_or]

theorem honoured_of_open {wf : WorkflowDefinition D} {inst : WorkflowInstance D} {event : CStr}
    {t : WorkflowTransition D} (hopen : inst.isCompleted = false)
    (hfirst : wf.transitions.find? (isAlternative inst event) = some t)
    (hguard : guardPasses inst t = true) : Honoured wf inst event := by
  have hsent := sendEvent_eq wf event hopen
  rw [hfirst, Option.elim_some, if_pos hguard] at hsent
  have hcompleted := completed_iff_entered_final wf event hopen
  unfold Honoured
  rw [hsent] at hcompleted ⊢
  dsimp only
  refine ⟨?_, fun h => absurd h (by decide), fun h => absurd h (by decide),
    fun h => absurd h (by decide), hcompleted⟩
  intro other hother
  rw [find?_open_of_first hfirst hguard, Option.some_inj] at hother
  rw [hother]

theorem honoured_of_closed_iff {wf : WorkflowDefinition D} {inst : WorkflowInstance D}
    {event : CStr} {t : WorkflowTransition D} (hopen : inst.isCompleted = false)
    (hfirst : wf.transitions.find? (isAlternative inst event) = some t)
    (hguard : guardPasses inst t = false) :
    Honoured wf inst event ↔ ∀ other ∈ wf.transitions, isAlternative inst event other = true →
      guardPasses inst other = false := by
  have hsent := sendEvent_eq wf event hopen
  rw [hfirst, Option.elim_some, hguard, if_neg Bool.false_ne_true] at hsent
  have hcompleted := completed_iff_entered_final wf event hopen
  unfold Honoured
  rw [hsent] at hcompleted ⊢
  constructor
  · intro hhonoured
    exact (hhonoured.2.1 rfl).2
  · intro hclosed
    dsimp only
    refine ⟨?_, ?_, fun h => absurd h (by decide), fun _ => rfl, hcompleted⟩
    · intro other hother
      have hmem := List.mem_of_find?_eq_some hother
      have hboth := List.find?_some hother
      rw [Bool.and_eq_true] at hboth
      rw [hclosed other hmem hboth.1] at hboth
      cases hboth.2
    · intro _
      exact ⟨⟨t, List.mem_of_find?_eq_some hfirst, List.find?_some hfirst⟩, hclosed⟩

/-- The alternatives are honoured exactly when the first one decides. -/
theorem honoured_iff_firstDecides (wf : WorkflowDefinition D) {inst : WorkflowInstance D}
    (event : CStr) (hopen : inst.isCompleted = false) :
    Honoured wf inst event ↔ FirstDecides wf inst event := by
  unfold FirstDecides
  cases hfirst : wf.transitions.find? (isAlternative inst event) with
  | none =>
      have hnone := List.find?_eq_none.mp hfirst
      have hsent := sendEvent_eq wf event hopen
      rw [hfirst, Option.elim_none] at hsent
      have hcompleted := completed_iff_entered_final wf event hopen
      have hhonoured : Honoured wf inst event := by
        unfold Honoured
        rw [hsent] at hcompleted ⊢
        dsimp only
        refine ⟨?_, fun h => absurd h (by decide), fun _ t ht => by simpa using hnone t ht,
          fun _ => rfl, hcompleted⟩
        intro t ht
        have hboth := List.find?_some ht
        rw [Bool.and_eq_true] at hboth
        exact absurd hboth.1 (hnone t (List.mem_of_find?_eq_some ht))
      exact iff_of_true hhonoured fun t ht => nomatch ht
  | some t =>
      cases hguard : guardPasses inst t with
      | true =>
          apply iff_of_true (honoured_of_open hopen hfirst hguard)
          intro other hother
          rw [Option.some_inj] at hother
          exact Or.inl (hother ▸ hguard)
      | false =>
          rw [honoured_of_closed_iff hopen hfirst hguard]
          constructor
          · intro hclosed other _
            exact Or.inr hclosed
          · intro hdecides
            apply (hdecides t rfl).resolve_left
            rw [hguard]
            exact Bool.false_ne_true

/-- A review of an amount: large ones are escalated, and all others are approved. -/
def reviewWorkflow : WorkflowDefinition Nat :=
  let wf := workflowDefine
  let wf := (workflowAddState wf (lit "review") true false).2
  let wf := (workflowAddState wf (lit "escalated") false false).2
  let wf := (workflowAddState wf (lit "approved") false true).2
  let wf := (workflowAddGuardedTransition wf (lit "review") (lit "escalated") (lit "decide")
    (some fun amount => decide (1000 < amount))).2
  (workflowAddTransition wf (lit "review") (lit "approved") (lit "decide")).2

def inReview (amount : Nat) : WorkflowInstance Nat := ⟨lit "review", [], amount, false⟩

theorem honoured_iff_firstDecides_review :
    Honoured reviewWorkflow (inReview 2000) (lit "decide") ↔
      FirstDecides reviewWorkflow (inReview 2000) (lit "decide") :=
  honoured_iff_firstDecides reviewWorkflow (lit "decide") rfl

/-- A small amount is not approved, though the second alternative has no guard. -/
theorem second_alternative_ignored :
    workflowInstanceCreate reviewWorkflow 5 = some (inReview 5) ∧
      (reviewWorkflow.transitions.map fun t =>
        (isAlternative (inReview 5) (lit "decide") t, guardPasses (inReview 5) t)) =
          [(true, false), (true, true)] ∧
      workflowInstanceSendEvent (inReview 5) reviewWorkflow (lit "decide") = (-3, inReview 5) ∧
      ¬Honoured reviewWorkflow (inReview 5) (lit "decide") := by
  refine ⟨rfl, by decide, rfl, ?_⟩
  intro hhonoured
  have hclosed := (hhonoured.2.1 rfl).2 _ (List.mem_of_getElem? (i := 1) rfl) (by decide)
  cases hclosed

/-! ## Runs -/

structure Progress (D : Type) where
  inst : WorkflowInstance D
  entered : Option CStr

def progress (wf : WorkflowDefinition D) (p : Progress D) (event : CStr) : Progress D :=
  let sent := workflowInstanceSendEvent p.inst wf event
  ⟨sent.2, if sent.1 = 0 then some sent.2.currentState else p.entered⟩

theorem completed_iff_last_final (wf : WorkflowDefinition D) {data : D} {inst : WorkflowInstance D}
    (hcreate : workflowInstanceCreate wf data = some inst) (events : List CStr) :
    let after := run (progress wf) ⟨inst, none⟩ events
    after.inst.isCompleted = after.entered.any (workflowIsFinalState wf) := by
  apply run_keeps (I := fun p : Progress D =>
    p.inst.isCompleted = p.entered.any (workflowIsFinalState wf))
  · intro p event hkept
    cases hopen : p.inst.isCompleted with
    | true =>
        have hsent : workflowInstanceSendEvent p.inst wf event = (-1, p.inst) := by
          rw [workflowInstanceSendEvent, if_pos hopen]
        rw [progress, hsent]
        exact hkept
    | false =>
        have hcompleted := completed_iff_entered_final wf event hopen
        have hsent := sendEvent_eq wf event hopen
        unfold progress
        dsimp only
        split
        · rename_i hzero
          rw [Bool.eq_iff_iff, hcompleted, Option.any_some]
          exact and_iff_right hzero
        · rename_i hrefused
          rw [← hkept, hopen, Bool.eq_false_iff]
          exact fun hnow => hrefused (hcompleted.mp hnow).1
  · obtain ⟨initial, -, rfl⟩ := Option.map_eq_some_iff.mp hcreate
    rfl

/-!
# When an approval request agrees with its workflow

The request has its own copy of the state, which each call writes before the engine looks at
the event.  A refused event leaves the engine where it was and the copy where it should not be.
-/

section ApprovalRecord

open MiniBackend.Arch.Workflow MiniBackend.Lib.CString MiniBackend.Lib.Runs

def stateName : ApprovalState → CStr
  | .draft => lit "draft"
  | .pendingApproval => lit "pending_approval"
  | .approved => lit "approved"
  | .rejected => lit "rejected"
  | .revisionRequested => lit "revision_requested"

inductive Call
  | submit
  | approve
  | reject
  | requestRevision
  | resubmit
deriving DecidableEq

def Call.run : Call → WorkflowInstance ApprovalRequestData →
    WorkflowDefinition ApprovalRequestData → Int × WorkflowInstance ApprovalRequestData
  | .submit => approvalRequestSubmit
  | .approve => approvalRequestApprove
  | .reject => approvalRequestReject
  | .requestRevision => approvalRequestRequestRevision
  | .resubmit => approvalRequestResubmit

def Call.writes : Call → ApprovalState
  | .submit => .pendingApproval
  | .approve => .approved
  | .reject => .rejected
  | .requestRevision => .revisionRequested
  | .resubmit => .pendingApproval

def Call.event : Call → CStr
  | .submit => lit "submit"
  | .approve => lit "approve"
  | .reject => lit "reject"
  | .requestRevision => lit "request_revision"
  | .resubmit => lit "resubmit"

def approvalWorkflow : WorkflowDefinition ApprovalRequestData := workflowCreateApprovalWorkflow

/-- An instance, and how many requests for a revision it has accepted. -/
structure Approval where
  inst : WorkflowInstance ApprovalRequestData
  revisions : Nat

def step (s : Approval) (call : Call) : Approval :=
  let (result, inst) := call.run s.inst approvalWorkflow
  ⟨inst, if call = .requestRevision ∧ result = 0 then s.revisions + 1 else s.revisions⟩

/-- What is asked of a call. -/
structure CallHolds (s : Approval) (call : Call) : Prop where
  denotes : (step s call).inst.currentState = stateName (step s call).inst.data.state
  counts : (step s call).inst.data.revisionCount = (step s call).revisions
  unchanged : (call.run s.inst approvalWorkflow).1 ≠ 0 →
    (call.run s.inst approvalWorkflow).2 = s.inst

def Accepts (inst : WorkflowInstance ApprovalRequestData) (call : Call) : Prop :=
  inst.isCompleted = false ∧
    (workflowFindTransition approvalWorkflow inst.currentState call.event).isSome = true

/-- The event is accepted, or the call has nothing to write. -/
def AcceptedOrIdle (s : Approval) (call : Call) : Prop :=
  Accepts s.inst call ∨ (call ≠ .requestRevision ∧ s.inst.data.state = call.writes)

instance decidableAccepts (inst : WorkflowInstance ApprovalRequestData) (call : Call) :
    Decidable (Accepts inst call) :=
  inferInstanceAs (Decidable (_ ∧ _))

instance decidableAcceptedOrIdle (s : Approval) (call : Call) :
    Decidable (AcceptedOrIdle s call) :=
  inferInstanceAs (Decidable (_ ∨ _))

/-! ## The wrappers -/

def Call.write (call : Call) (req : ApprovalRequestData) : ApprovalRequestData :=
  ⟨call.writes, if call = .requestRevision then req.revisionCount + 1 else req.revisionCount⟩

theorem run_eq_sendEvent (call : Call) (inst : WorkflowInstance ApprovalRequestData) :
    call.run inst approvalWorkflow = workflowInstanceSendEvent
      { inst with data := call.write inst.data } approvalWorkflow call.event := by
  cases call <;> rfl

theorem run_refused {call : Call} {inst : WorkflowInstance ApprovalRequestData}
    (h : ¬ Accepts inst call) :
    (call.run inst approvalWorkflow).1 ≠ 0 ∧
      (call.run inst approvalWorkflow).2 = { inst with data := call.write inst.data } := by
  rw [run_eq_sendEvent, workflowInstanceSendEvent]
  by_cases hcompleted : inst.isCompleted = true
  · rw [if_pos hcompleted]
    exact ⟨show (-1 : Int) ≠ 0 by decide, rfl⟩
  · rw [if_neg hcompleted]
    have hnone : workflowFindTransition approvalWorkflow inst.currentState call.event = none := by
      rw [← Option.not_isSome_iff_eq_none]
      intro hsome
      exact h ⟨Bool.eq_false_iff.mpr hcompleted, hsome⟩
    rw [hnone]
    exact ⟨show (-2 : Int) ≠ 0 by decide, rfl⟩

def isFinal : ApprovalState → Bool
  | .approved | .rejected => true
  | _ => false

theorem sendEvent_accepted {state : ApprovalState} {call : Call}
    (h : (workflowFindTransition approvalWorkflow (stateName state) call.event).isSome = true)
    (previous : CStr) (req : ApprovalRequestData) :
    workflowInstanceSendEvent ⟨stateName state, previous, req, false⟩ approvalWorkflow
        call.event =
      (0, ⟨stateName call.writes, stateName state, req, isFinal call.writes⟩) := by
  cases state <;> cases call <;> first | exact absurd h (by decide) | rfl

/-! ## Runs -/

structure Agrees (s : Approval) : Prop where
  denotes : s.inst.currentState = stateName s.inst.data.state
  completed : s.inst.isCompleted = isFinal s.inst.data.state
  counts : s.inst.data.revisionCount = s.revisions

theorem step_accepted {s : Approval} {call : Call} (h : Agrees s) (haccepts : Accepts s.inst call) :
    CallHolds s call ∧ Agrees (step s call) := by
  obtain ⟨⟨current, previous, req, completed⟩, revisions⟩ := s
  obtain ⟨hcompleted, hfind⟩ := haccepts
  have hdenotes : current = stateName req.state := h.denotes
  rw [hdenotes] at hfind
  have hrun : call.run ⟨current, previous, req, completed⟩ approvalWorkflow =
      (0, ⟨stateName call.writes, stateName req.state, call.write req, isFinal call.writes⟩) := by
    rw [run_eq_sendEvent, hdenotes]
    have hfalse : completed = false := hcompleted
    rw [hfalse]
    exact sendEvent_accepted hfind previous (call.write req)
  have hcounts : req.revisionCount = revisions := h.counts
  have hnext : Agrees (step ⟨⟨current, previous, req, completed⟩, revisions⟩ call) := by
    rw [step, hrun]
    refine ⟨rfl, rfl, ?_⟩
    simp only [Call.write, hcounts, and_true]
  refine ⟨⟨hnext.denotes, hnext.counts, ?_⟩, hnext⟩
  intro hne
  rw [hrun] at hne
  contradiction

theorem step_idle {s : Approval} {call : Call} (h : Agrees s) (hrefuses : ¬ Accepts s.inst call)
    (hne : call ≠ .requestRevision) (hsame : s.inst.data.state = call.writes) :
    CallHolds s call ∧ Agrees (step s call) := by
  obtain ⟨-, hinst⟩ := run_refused hrefuses
  have hdata : call.write s.inst.data = s.inst.data := by
    rw [Call.write, if_neg hne, ← hsame]
  rw [hdata] at hinst
  have hstep : step s call = s := by
    change Approval.mk (call.run s.inst approvalWorkflow).2 (if call = .requestRevision ∧ _ then _
      else _) = s
    rw [hinst, if_neg (fun h => hne h.1)]
  refine ⟨⟨?_, ?_, fun _ => hinst⟩, ?_⟩
  · rw [hstep]
    exact h.denotes
  · rw [hstep]
    exact h.counts
  · rw [hstep]
    exact h

theorem step_agrees {s : Approval} {call : Call} (h : Agrees s) (hcall : AcceptedOrIdle s call) :
    CallHolds s call ∧ Agrees (step s call) := by
  by_cases haccepts : Accepts s.inst call
  · exact step_accepted h haccepts
  · cases hcall with
    | inl haccepts' => exact absurd haccepts' haccepts
    | inr hidle => exact step_idle h haccepts hidle.1 hidle.2

theorem acceptedOrIdle_of_callHolds {s : Approval} {call : Call} (h : CallHolds s call) :
    AcceptedOrIdle s call := by
  by_cases haccepts : Accepts s.inst call
  · exact Or.inl haccepts
  · obtain ⟨hne, hinst⟩ := run_refused haccepts
    have hsame : call.write s.inst.data = s.inst.data := by
      have hunchanged := h.unchanged hne
      rw [hinst] at hunchanged
      exact congrArg WorkflowInstance.data hunchanged
    right
    constructor
    · intro hrevision
      have hcount := congrArg ApprovalRequestData.revisionCount hsame
      rw [Call.write, if_pos hrevision] at hcount
      exact Nat.succ_ne_self _ hcount
    · exact (congrArg ApprovalRequestData.state hsame).symm

/-- In a run of calls on a new request, the request agrees with its workflow exactly when every
call is accepted or has nothing to write. -/
theorem record_agrees_iff {inst : WorkflowInstance ApprovalRequestData}
    (h : workflowInstanceCreate approvalWorkflow ⟨.draft, 0⟩ = some inst) (calls : List Call) :
    Always step CallHolds ⟨inst, 0⟩ calls ↔ Always step AcceptedOrIdle ⟨inst, 0⟩ calls := by
  have hstart : Agrees ⟨inst, 0⟩ := by
    rw [← Option.some.inj h]
    exact ⟨rfl, rfl, rfl⟩
  constructor
  · intro hholds
    exact always_of_invariant (I := fun _ => True) step (fun _ _ _ _ => trivial)
      (fun _ _ _ => acceptedOrIdle_of_callHolds) trivial hholds
  · intro hcalls
    exact always_of_invariant (I := Agrees) step (fun _ _ hs hp => (step_agrees hs hp).2)
      (fun _ _ hs hp => (step_agrees hs hp).1) hstart hcalls

def newRequest : WorkflowInstance ApprovalRequestData := ⟨lit "draft", [], ⟨.draft, 0⟩, false⟩

theorem record_agrees_iff_newRequest :
    Always step AcceptedOrIdle ⟨newRequest, 0⟩ [.submit, .requestRevision, .resubmit, .approve] ∧
      (Always step CallHolds ⟨newRequest, 0⟩ [.submit, .requestRevision, .resubmit, .approve] ↔
        Always step AcceptedOrIdle ⟨newRequest, 0⟩
          [.submit, .requestRevision, .resubmit, .approve]) :=
  ⟨by decide, record_agrees_iff rfl _⟩

/-- A draft that is approved without a submission is refused, and its record says approved. -/
theorem approve_draft :
    (Call.run .approve newRequest approvalWorkflow).1 = -2 ∧
      (Call.run .approve newRequest approvalWorkflow).2.data.state = .approved ∧
      (Call.run .approve newRequest approvalWorkflow).2.currentState = lit "draft" ∧
      ¬ Always step CallHolds ⟨newRequest, 0⟩ [.approve] := by
  refine ⟨rfl, rfl, rfl, ?_⟩
  intro h
  exact absurd h.1.denotes (by decide)

end ApprovalRecord

end MiniBackend.Arch.Proofs.GuardedAlternatives
