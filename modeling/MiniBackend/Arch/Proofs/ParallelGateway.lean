import MiniBackend.Arch.BpmnModel
import MiniBackend.Lib.TokenGame
import Mathlib.Logic.Function.Iterate

/-!
# What a parallel join does

A parallel gateway passes every token on as it comes, so a join does not wait: each branch of a
fork goes through it alone, and what follows the join is executed once for each branch.  A
process comes to its end, and it is completed when its last token has reached the end event.
-/

namespace MiniBackend.Arch.Proofs.ParallelGateway

open MiniBackend.Arch.Bpmn MiniBackend.Lib.CString MiniBackend.Lib.TokenGame

variable {D : Type}

/-! ## The engine as a token game -/

def isTask (type : BPMNNodeType) : Bool :=
  type = .userTask || type = .serviceTask || type = .scriptTask

def places (tokens : List BPMNToken) : List NodeId := (tokens.filter (·.active)).map (·.nodeId)

def enter (process : BPMNProcess D) (id : NodeId) : List NodeId :=
  if isEnd process id then [] else [id]

def own (process : BPMNProcess D) (id : NodeId) : List NodeId :=
  match bpmnProcessFindNode process id with
  | some node => if isTask node.type then [id] else []
  | none => []

def next (process : BPMNProcess D) (id : NodeId) : Option (List NodeId) :=
  match bpmnProcessFindNode process id with
  | none => none
  | some node =>
      match node.outgoing with
      | [] => none
      | flow :: flows =>
          if node.type = .startEvent ∨ isTask node.type then
            some (enter process flow.targetNodeId)
          else if node.type = .parallelGateway ∧
              ∀ other ∈ flows, isEnd process other.targetNodeId = false then
            some (enter process flow.targetNodeId ++ flows.map (·.targetNodeId))
          else none

theorem places_append (tokens tokens' : List BPMNToken) :
    places (tokens ++ tokens') = places tokens ++ places tokens' := by
  simp [places]

structure Visited (process : BPMNProcess D) (ps : List NodeId) (inst : BPMNProcessInstance D)
    (token' : BPMNToken) (inst' : BPMNProcessInstance D) : Prop where
  active : token'.active = true
  tokens : ∃ more, inst'.tokens = more ++ inst.tokens ∧
    (enter process token'.nodeId ++ places more).Perm ps
  count : inst.tokenCount ≤ inst'.tokenCount
  completed : inst'.isCompleted = inst.isCompleted
  terminated : inst'.isTerminated = inst.isTerminated

theorem findNode_id {process : BPMNProcess D} {id : NodeId} {node : BPMNNode D}
    (h : bpmnProcessFindNode process id = some node) : node.id = id := by
  have hbeq := List.find?_some h
  exact eq_of_beq hbeq

theorem foldl_followFlows (inst : BPMNProcessInstance D) (flows : List BPMNSequenceFlow) :
    ∃ inst', flows.foldl (fun inst flow =>
        { inst with
          tokens := bpmnTokenCreate flow.targetNodeId :: inst.tokens
          tokenCount := inst.tokenCount + 1 }) inst = inst' ∧
      inst'.tokens = (flows.map fun flow => bpmnTokenCreate flow.targetNodeId).reverse ++
        inst.tokens ∧
      inst.tokenCount ≤ inst'.tokenCount ∧ inst'.isCompleted = inst.isCompleted ∧
      inst'.isTerminated = inst.isTerminated ∧ inst'.executed = inst.executed := by
  induction flows generalizing inst with
  | nil => exact ⟨inst, rfl, rfl, le_rfl, rfl, rfl, rfl⟩
  | cons flow flows ih =>
      obtain ⟨inst', hfold, htokens, hcount, hcompleted, hterminated, hexecuted⟩ := ih
        { inst with
          tokens := bpmnTokenCreate flow.targetNodeId :: inst.tokens
          tokenCount := inst.tokenCount + 1 }
      refine ⟨inst', hfold, ?_, Nat.le_of_succ_le hcount, hcompleted, hterminated, hexecuted⟩
      rw [htokens, List.map_cons, List.reverse_cons, List.append_assoc]
      rfl

theorem visited_move {process : BPMNProcess D} {inst inst' : BPMNProcessInstance D}
    {token : BPMNToken} (id : NodeId) (hactive : token.active = true)
    (htokens : inst'.tokens = inst.tokens) (hcount : inst'.tokenCount = inst.tokenCount)
    (hcompleted : inst'.isCompleted = inst.isCompleted)
    (hterminated : inst'.isTerminated = inst.isTerminated) :
    Visited process (enter process id) inst { token with nodeId := id } inst' where
  active := hactive
  tokens := by
    refine ⟨[], htokens, ?_⟩
    rw [places, List.filter_nil, List.map_nil, List.append_nil]
  count := hcount.ge
  completed := hcompleted
  terminated := hterminated

theorem visited_split {process : BPMNProcess D} {token : BPMNToken}
    (inst : BPMNProcessInstance D) (flow : BPMNSequenceFlow) (flows : List BPMNSequenceFlow)
    (hactive : token.active = true) :
    ∃ token' inst', followFlows token inst (flow :: flows) = (token', inst') ∧
      inst'.executed = inst.executed ∧
      Visited process (enter process flow.targetNodeId ++ flows.map (·.targetNodeId)) inst token'
        inst' := by
  obtain ⟨inst', hfold, htokens, hcount, hcompleted, hterminated, hexecuted⟩ :=
    foldl_followFlows inst flows
  refine ⟨{ token with nodeId := flow.targetNodeId }, inst', ?_, hexecuted, hactive,
    ⟨_, htokens, ?_⟩, hcount, hcompleted, hterminated⟩
  · rw [followFlows, hfold]
  · apply List.Perm.append_left
    have hplaces : places (flows.map fun flow => bpmnTokenCreate flow.targetNodeId).reverse =
        (flows.map (·.targetNodeId)).reverse := by
      simp [places, bpmnTokenCreate, List.filter_map, Function.comp_def]
    rw [hplaces]
    exact List.reverse_perm _

theorem executeNode_visited {process : BPMNProcess D} (inst : BPMNProcessInstance D)
    {token : BPMNToken} {ps : List NodeId} (hactive : token.active = true)
    (hnext : next process token.nodeId = some ps) :
    ∃ token' inst', executeNode process inst token = (0, token', inst') ∧
      inst'.executed = inst.executed ++ own process token.nodeId ∧
      Visited process ps inst token' inst' := by
  unfold next at hnext
  rw [executeNode, own]
  cases hfind : bpmnProcessFindNode process token.nodeId with
  | none =>
      rw [hfind] at hnext
      contradiction
  | some node =>
      rw [hfind] at hnext
      have hid := findNode_id hfind
      dsimp only at hnext ⊢
      cases hout : node.outgoing with
      | nil =>
          rw [hout] at hnext
          contradiction
      | cons flow flows =>
          rw [hout] at hnext
          dsimp only at hnext
          have hfirst : followFirst node token = { token with nodeId := flow.targetNodeId } := by
            rw [followFirst, hout]
          cases htype : node.type with
          | startEvent =>
              rw [htype, if_pos (Or.inl rfl), Option.some.injEq] at hnext
              rw [List.isEmpty_cons, hfirst, ← hnext]
              refine ⟨_, inst, rfl, ?_, visited_move _ hactive rfl rfl rfl rfl⟩
              exact (List.append_nil _).symm
          | userTask =>
              have htask : isTask .userTask = true := rfl
              rw [htype, if_pos (Or.inr htask), Option.some.injEq] at hnext
              rw [hfirst, ← hnext]
              refine ⟨_, _, rfl, ?_, visited_move _ hactive rfl rfl rfl rfl⟩
              rw [callTask, hid]
              rfl
          | serviceTask =>
              have htask : isTask .serviceTask = true := rfl
              rw [htype, if_pos (Or.inr htask), Option.some.injEq] at hnext
              rw [hfirst, ← hnext]
              refine ⟨_, _, rfl, ?_, visited_move _ hactive rfl rfl rfl rfl⟩
              rw [callTask, hid]
              rfl
          | scriptTask =>
              have htask : isTask .scriptTask = true := rfl
              rw [htype, if_pos (Or.inr htask), Option.some.injEq] at hnext
              rw [hfirst, ← hnext]
              refine ⟨_, _, rfl, ?_, visited_move _ hactive rfl rfl rfl rfl⟩
              rw [callTask, hid]
              rfl
          | parallelGateway =>
              rw [htype, if_neg (by decide)] at hnext
              by_cases hothers : ∀ other ∈ flows, isEnd process other.targetNodeId = false
              · rw [if_pos ⟨rfl, hothers⟩, Option.some.injEq] at hnext
                obtain ⟨token', inst', hsplit, hexecuted, hvisited⟩ :=
                  visited_split inst flow flows hactive
                rw [bpmnEvaluateGatewayParallel, hout, hsplit, ← hnext]
                refine ⟨token', inst', rfl, ?_, hvisited⟩
                rw [hexecuted]
                exact (List.append_nil _).symm
              · rw [if_neg (fun h => hothers h.2)] at hnext
                contradiction
          | _ =>
              rw [htype] at hnext
              simp [isTask] at hnext

theorem passLoop_round {process : BPMNProcess D} {rest : List BPMNToken} {pss : List (List NodeId)}
    (h : List.Forall₂ (fun p ps => next process p = some ps) (places rest) pss)
    (inst : BPMNProcessInstance D) :
    ∃ inst', passLoop process rest inst = (0, inst') ∧
      (places inst'.tokens).Perm (places inst.tokens ++ pss.flatten) ∧
      inst'.executed = inst.executed ++ (places rest).flatMap (own process) ∧
      inst.tokenCount ≤ inst'.tokenCount ∧ inst'.isCompleted = inst.isCompleted ∧
      inst'.isTerminated = inst.isTerminated := by
  induction rest generalizing inst pss with
  | nil =>
      cases h
      refine ⟨inst, rfl, ?_, ?_, le_rfl, rfl, rfl⟩
      · rw [List.flatten_nil, List.append_nil]
      · exact (List.append_nil _).symm
  | cons token rest ih =>
      rw [passLoop]
      by_cases hactive : token.active = true
      · have hplaces : places (token :: rest) = token.nodeId :: places rest := by
          simp [places, hactive]
        rw [hplaces] at h ⊢
        cases h with
        | @cons _ ps _ pss hnext hrest =>
            obtain ⟨token', mid, hvisit, hdone, hvisited⟩ :=
              executeNode_visited inst hactive hnext
            obtain ⟨more, hmore, hps⟩ := hvisited.tokens
            rw [if_pos hactive, hvisit]
            dsimp only
            rw [if_neg (fun h => h rfl)]
            let last : BPMNToken :=
              if isEnd process token'.nodeId then { token' with active := false } else token'
            have hlast : places [last] = enter process token'.nodeId := by
              simp only [last, enter]
              split
              · rfl
              · simp [places, hvisited.active]
            obtain ⟨inst', hrun, hperm, hexecuted, hcount, hcompleted, hterminated⟩ :=
              ih hrest { mid with tokens := mid.tokens ++ [last] }
            refine ⟨inst', hrun, hperm.trans ?_, ?_, hvisited.count.trans hcount,
              hcompleted.trans hvisited.completed, hterminated.trans hvisited.terminated⟩
            · rw [List.flatten_cons, ← List.append_assoc]
              apply List.Perm.append_right
              rw [places_append, hmore, places_append, hlast, List.append_assoc]
              apply List.perm_append_comm.trans
              rw [List.append_assoc]
              exact hps.append_left _
            · rw [hexecuted, List.flatMap_cons, ← List.append_assoc]
              exact congrArg (· ++ _) hdone
      · have hplaces : places (token :: rest) = places rest := by
          simp [places, hactive]
        rw [hplaces] at h ⊢
        rw [if_neg hactive]
        obtain ⟨inst', hrun, hperm, hexecuted, hcount, hcompleted, hterminated⟩ :=
          ih h { inst with tokens := inst.tokens ++ [token] }
        refine ⟨inst', hrun, ?_, hexecuted, hcount, hcompleted, hterminated⟩
        have hsame : places (inst.tokens ++ [token]) = places inst.tokens := by
          rw [places_append]
          simp [places, hactive]
        rwa [hsame] at hperm

/-! ## Runs -/

/-- An instance that is on its way, and will have executed `total`. -/
structure Playing (process : BPMNProcess D) (k : Nat) (total : List NodeId)
    (inst : BPMNProcessInstance D) : Prop where
  running : inst.isCompleted = false ∧ inst.isTerminated = false
  count : 0 < inst.tokenCount
  alive : places inst.tokens ≠ []
  future : ∃ l, Futures (own process) (next process) k (places inst.tokens) l ∧
    (inst.executed ++ l).Perm total

/-- An instance whose tokens are gone. -/
structure Done (total : List NodeId) (inst : BPMNProcessInstance D) : Prop where
  completed : inst.isCompleted = true
  drained : places inst.tokens = []
  executed : inst.executed.Perm total

theorem places_eq_nil_iff {tokens : List BPMNToken} :
    places tokens = [] ↔ tokens.countP (·.active) = 0 := by
  rw [places, List.map_eq_nil_iff, List.countP_eq_length_filter, List.length_eq_zero_iff]

theorem executeStep_playing {process : BPMNProcess D} {k : Nat} {total : List NodeId}
    {inst : BPMNProcessInstance D} (h : Playing process (k + 1) total inst) :
    ∃ inst', bpmnProcessExecuteStep process inst = (0, inst') ∧
      (Playing process k total inst' ∨ Done total inst') := by
  obtain ⟨l, hfuture, htotal⟩ := h.future
  obtain ⟨pss, hpss, l', hrest, hperm⟩ := hfuture.round
  obtain ⟨inst', hrun, hplaces, hexecuted, hcount, hcompleted, hterminated⟩ :=
    passLoop_round hpss { inst with tokens := [] }
  have hfuture' : Futures (own process) (next process) k (places inst'.tokens) l' :=
    hrest.perm_left hplaces.symm
  have htotal' : (inst'.executed ++ l').Perm total := by
    rw [hexecuted, List.append_assoc]
    exact (hperm.append_left _).trans htotal
  have hcount' : 0 < inst'.tokenCount := h.count.trans_le hcount
  have hrunning : (inst.isCompleted || inst.isTerminated) = false := by
    rw [h.running.1, h.running.2]
    rfl
  rw [bpmnProcessExecuteStep, hrunning, if_neg (by decide), hrun]
  dsimp only
  rw [if_neg (fun h => h rfl)]
  by_cases hnone : places inst'.tokens = []
  · rw [if_pos ⟨places_eq_nil_iff.mp hnone, hcount'⟩]
    refine ⟨_, rfl, Or.inr ⟨rfl, hnone, ?_⟩⟩
    rw [hnone, futures_nil] at hfuture'
    rwa [hfuture', List.append_nil] at htotal'
  · rw [if_neg (fun h => hnone (places_eq_nil_iff.mpr h.1))]
    refine ⟨inst', rfl, Or.inl ⟨⟨?_, ?_⟩, hcount', hnone, l', hfuture', htotal'⟩⟩
    · exact hcompleted.trans h.running.1
    · exact hterminated.trans h.running.2

/-- The instance after `n` steps. -/
def steps (process : BPMNProcess D) (n : Nat) (inst : BPMNProcessInstance D) :
    BPMNProcessInstance D :=
  (fun inst => (bpmnProcessExecuteStep process inst).2)^[n] inst

theorem steps_succ (process : BPMNProcess D) (n : Nat) (inst : BPMNProcessInstance D) :
    steps process (n + 1) inst = steps process n (bpmnProcessExecuteStep process inst).2 :=
  Function.iterate_succ_apply ..

theorem Done.steps {process : BPMNProcess D} {total : List NodeId} {inst : BPMNProcessInstance D}
    (h : Done total inst) (n : Nat) : steps process n inst = inst := by
  have hstep : bpmnProcessExecuteStep process inst = (-1, inst) := by
    rw [bpmnProcessExecuteStep, h.completed, Bool.true_or, if_pos rfl]
  induction n with
  | zero => rfl
  | succ n ih => rw [steps_succ, hstep, ih]

/-- An instance that is on its way gets to its end, and nothing is missing there. -/
theorem Playing.run {process : BPMNProcess D} {k : Nat} {total : List NodeId}
    {inst : BPMNProcessInstance D} (h : Playing process k total inst) :
    Done total (steps process k inst) ∧ bpmnProcessRun process inst k = (0, steps process k inst) ∧
      ∀ n, (steps process n inst).isCompleted = true → Done total (steps process n inst) := by
  induction k generalizing inst with
  | zero =>
      obtain ⟨l, hfuture, -⟩ := h.future
      exact absurd (futures_zero hfuture) h.alive
  | succ k ih =>
      obtain ⟨inst', hstep, hnext⟩ := executeStep_playing h
      rw [steps_succ, bpmnProcessRun, hstep]
      dsimp only
      rw [if_neg (fun h => h rfl)]
      have hlater : ∀ n, (steps process n inst).isCompleted = true →
          (∀ n, (steps process n inst').isCompleted = true → Done total (steps process n inst')) →
          Done total (steps process n inst) := by
        intro n hcompleted hinst'
        cases n with
        | zero =>
            rw [show steps process 0 inst = inst from rfl, h.running.1] at hcompleted
            contradiction
        | succ n =>
            rw [steps_succ, hstep] at hcompleted ⊢
            exact hinst' n hcompleted
      cases hnext with
      | inl hplaying =>
          obtain ⟨hdone, hrun, hall⟩ := ih hplaying
          rw [hplaying.running.1, hplaying.running.2, Bool.or_self, if_neg (by decide)]
          exact ⟨hdone, hrun, fun n hcompleted => hlater n hcompleted hall⟩
      | inr hdone =>
          rw [hdone.steps, hdone.completed, Bool.true_or, if_pos rfl]
          refine ⟨hdone, rfl, fun n hcompleted => hlater n hcompleted ?_⟩
          intro n _
          rw [hdone.steps]
          exact hdone

/-! ## Forks and joins -/

def Chain (process : BPMNProcess D) : NodeId → List NodeId → NodeId → Prop
  | first, [], last => first = last
  | first, task :: tasks, last => first = task ∧ ∃ node flow,
      bpmnProcessFindNode process task = some node ∧ isTask node.type = true ∧
        node.outgoing = [flow] ∧ Chain process flow.targetNodeId tasks last

/-- The tasks of a process with one fork: in front of it, in its branches, and after the join. -/
structure Shape where
  pre : List NodeId
  branches : List (List NodeId)
  post : List NodeId

def Leads (process : BPMNProcess D) (node : BPMNNode D) (tasks : List NodeId) (split : NodeId) :
    Prop :=
  (node.type = .startEvent ∧ ∃ flow, node.outgoing = [flow] ∧
      Chain process flow.targetNodeId tasks split) ∨
    Chain process node.id tasks split

/-- A process whose start leads to a parallel gateway, with two or more branches to one parallel
gateway, and from there to an end event. -/
structure ForkJoin (process : BPMNProcess D) (shape : Shape) (split join finish : NodeId) :
    Prop where
  start : ∃ node, startNode process = some node ∧
    bpmnProcessFindNode process node.id = some node ∧ Leads process node shape.pre split
  split : ∃ node, bpmnProcessFindNode process split = some node ∧ node.type = .parallelGateway ∧
    List.Forall₂ (fun flow branch => Chain process flow.targetNodeId branch join) node.outgoing
      shape.branches
  many : 2 ≤ shape.branches.length
  join : ∃ node flow, bpmnProcessFindNode process join = some node ∧
    node.type = .parallelGateway ∧ node.outgoing = [flow] ∧
    Chain process flow.targetNodeId shape.post finish
  finish : isEnd process finish = true
  nodup : (shape.pre ++ (shape.branches.flatten ++ shape.post)).Nodup

def Shape.total (shape : Shape) : List NodeId :=
  shape.pre ++ shape.branches.flatMap (· ++ shape.post)

theorem enter_of_type {process : BPMNProcess D} {id : NodeId} {node : BPMNNode D}
    (hfind : bpmnProcessFindNode process id = some node) (htype : node.type ≠ .endEvent) :
    enter process id = [id] := by
  rw [enter, isEnd, hfind, Option.any_some, if_neg]
  simpa using htype

theorem chain_futures {process : BPMNProcess D} {first last : NodeId} {tasks : List NodeId}
    (h : Chain process first tasks last) {k : Nat} {l : List NodeId}
    (hlast : Futures (own process) (next process) k (enter process last) l) :
    Futures (own process) (next process) (k + tasks.length) (enter process first) (tasks ++ l) := by
  induction tasks generalizing first with
  | nil =>
      rw [Chain] at h
      rwa [h]
  | cons task tasks ih =>
      obtain ⟨rfl, node, flow, hfind, htask, hout, hchain⟩ := h
      have hend : node.type ≠ .endEvent := by
        intro htype
        rw [htype] at htask
        contradiction
      have hown : own process first = [first] := by
        rw [own, hfind]
        exact if_pos htask
      have hnext : next process first = some (enter process flow.targetNodeId) := by
        rw [next, hfind]
        dsimp only
        rw [hout]
        exact if_pos (Or.inr htask)
      rw [enter_of_type hfind hend]
      apply futures_singleton
      rw [List.length_cons, ← Nat.add_assoc, future_succ]
      refine ⟨_, hnext, _, ih hchain, ?_⟩
      rw [hown]
      exact .refl _

theorem parallel_next {process : BPMNProcess D} {id : NodeId} {node : BPMNNode D}
    {flow : BPMNSequenceFlow} {flows : List BPMNSequenceFlow}
    (hfind : bpmnProcessFindNode process id = some node) (htype : node.type = .parallelGateway)
    (hout : node.outgoing = flow :: flows)
    (hothers : ∀ other ∈ flows, isEnd process other.targetNodeId = false) :
    own process id = [] ∧
      next process id = some (enter process flow.targetNodeId ++ flows.map (·.targetNodeId)) := by
  have htask : isTask node.type = false := by
    rw [htype]
    rfl
  constructor
  · rw [own, hfind]
    exact if_neg (by simp [htask])
  · rw [next, hfind]
    dsimp only
    rw [hout]
    dsimp only
    rw [if_neg (by rw [htask, htype]; decide), if_pos ⟨htype, hothers⟩]

theorem chain_enter {process : BPMNProcess D} {first last : NodeId} {tasks : List NodeId}
    (h : Chain process first tasks last) (hlast : isEnd process last = false) :
    isEnd process first = false := by
  cases tasks with
  | nil =>
      rw [Chain] at h
      rwa [h]
  | cons task tasks =>
      obtain ⟨rfl, node, flow, hfind, htask, -⟩ := h
      rw [isEnd, hfind, Option.any_some, beq_eq_false_iff_ne]
      intro htype
      rw [htype] at htask
      contradiction

theorem branches_futures {process : BPMNProcess D} {join : NodeId} {k : Nat} {l : List NodeId}
    {flows : List BPMNSequenceFlow} {branches : List (List NodeId)}
    (h : List.Forall₂ (fun flow branch => Chain process flow.targetNodeId branch join) flows
      branches)
    (hjoin : isEnd process join = false)
    (hlast : Futures (own process) (next process) k [join] l) :
    (∀ flow ∈ flows, isEnd process flow.targetNodeId = false) ∧
      Futures (own process) (next process) (k + branches.flatten.length)
        (flows.map (·.targetNodeId)) (branches.flatMap (· ++ l)) := by
  have henter : ∀ id, isEnd process id = false → enter process id = [id] := by
    intro id hid
    rw [enter, hid]
    rfl
  induction h with
  | nil => exact ⟨nofun, futures_nil.mpr rfl⟩
  | @cons flow branch flows branches hchain _ ih =>
      obtain ⟨hall, hrest⟩ := ih
      have hfirst := chain_enter hchain hjoin
      have hlast' : Futures (own process) (next process) k (enter process join) l := by
        rw [henter join hjoin]
        exact hlast
      have hbranch := chain_futures hchain hlast'
      rw [henter _ hfirst] at hbranch
      refine ⟨List.forall_mem_cons.mpr ⟨hfirst, hall⟩, ?_⟩
      rw [List.flatten_cons, List.length_append]
      exact (hbranch.mono (by omega)).append (hrest.mono (by omega))

theorem ForkJoin.futures {process : BPMNProcess D} {shape : Shape} {split join finish : NodeId}
    (h : ForkJoin process shape split join finish) :
    ∃ node k, startNode process = some node ∧
      Futures (own process) (next process) k [node.id] shape.total := by
  -- from the join to the end
  obtain ⟨joinNode, joinFlow, hjoin, hjoinType, hjoinOut, hpost⟩ := h.join
  have hfinish : Futures (own process) (next process) 0 (enter process finish) [] := by
    rw [enter, h.finish, if_pos rfl]
    exact futures_nil.mpr rfl
  have hpost' := chain_futures hpost hfinish
  have hnone : ∀ other ∈ ([] : List BPMNSequenceFlow),
      isEnd process other.targetNodeId = false := nofun
  obtain ⟨hjoinOwn, hjoinNext⟩ := parallel_next hjoin hjoinType hjoinOut hnone
  have hjoinEnd : isEnd process join = false := by
    rw [isEnd, hjoin, Option.any_some, hjoinType]
    rfl
  have hjoinFuture : Futures (own process) (next process) (0 + shape.post.length + 1) [join]
      shape.post := by
    apply futures_singleton
    rw [future_succ]
    refine ⟨_, hjoinNext, shape.post, ?_, ?_⟩
    · rw [List.map_nil, List.append_nil]
      rwa [List.append_nil] at hpost'
    · rw [hjoinOwn, List.nil_append]
  -- the branches
  obtain ⟨splitNode, hsplit, hsplitType, hbranches⟩ := h.split
  obtain ⟨hnoEnd, hbranchFutures⟩ := branches_futures hbranches hjoinEnd hjoinFuture
  obtain ⟨flow, flows, hout⟩ : ∃ flow flows, splitNode.outgoing = flow :: flows := by
    apply List.exists_cons_of_ne_nil
    intro hnil
    have hlength := hbranches.length_eq
    rw [hnil] at hlength
    have hmany := h.many
    rw [← hlength] at hmany
    contradiction
  rw [hout] at hbranchFutures hnoEnd
  obtain ⟨hfirstEnd, hothers⟩ := List.forall_mem_cons.mp hnoEnd
  obtain ⟨hsplitOwn, hsplitNext⟩ := parallel_next hsplit hsplitType hout hothers
  have hsplitFuture := future_succ.mpr ⟨_, hsplitNext, shape.branches.flatMap (· ++ shape.post),
    by rw [enter, hfirstEnd]; exact hbranchFutures, by rw [hsplitOwn, List.nil_append]⟩
  -- from the start to the split
  have hsplitEnd : isEnd process split = false := by
    rw [isEnd, hsplit, Option.any_some, hsplitType]
    rfl
  obtain ⟨startNode, hstart, hstartFind, ⟨hstartType, startFlow, hstartOut, hpre⟩ | hpre⟩ := h.start
  · have hpre' := chain_futures hpre
      (by rw [enter, hsplitEnd]; exact futures_singleton hsplitFuture)
    have hstartNext : next process startNode.id = some (enter process startFlow.targetNodeId) := by
      rw [next, hstartFind]
      dsimp only
      rw [hstartOut]
      exact if_pos (Or.inl hstartType)
    have hstartOwn : own process startNode.id = [] := by
      rw [own, hstartFind]
      exact if_neg (by rw [hstartType]; decide)
    refine ⟨startNode, _, hstart, futures_singleton (future_succ.mpr ⟨_, hstartNext, _, hpre', ?_⟩)⟩
    rw [hstartOwn, List.nil_append]
    exact .refl _
  · have hpre' := chain_futures hpre
      (by rw [enter, hsplitEnd]; exact futures_singleton hsplitFuture)
    rw [enter, chain_enter hpre hsplitEnd] at hpre'
    exact ⟨startNode, _, hstart, hpre'⟩

/-! ## What is asked of a run -/

def StartsAfter (shape : Shape) (executed : List NodeId) : Prop :=
  ∀ before task after, executed = before ++ task :: after → task ∈ shape.post →
    ∀ other ∈ shape.branches.flatten, other ∈ before

structure ParallelHolds (process : BPMNProcess D) (shape : Shape) (inst : BPMNProcessInstance D) :
    Prop where
  ends : ∃ n, (steps process n inst).isCompleted = true
  once : ∀ n, (steps process n inst).isCompleted = true →
    ∀ task ∈ shape.branches.flatten ++ shape.post, (steps process n inst).executed.count task = 1
  after : ∀ n, StartsAfter shape (steps process n inst).executed
  drained : ∀ n, (steps process n inst).isCompleted = true →
    ∀ token ∈ (steps process n inst).tokens, token.active = false

theorem count_total (shape : Shape) (task : NodeId) :
    shape.total.count task = shape.pre.count task + (shape.branches.flatten.count task +
      shape.branches.length * shape.post.count task) := by
  rw [Shape.total, List.count_append]
  congr 1
  induction shape.branches with
  | nil => simp
  | cons branch branches ih =>
      rw [List.flatMap_cons, List.count_append, List.count_append, ih, List.flatten_cons,
        List.count_append, List.length_cons, Nat.succ_mul]
      omega

/-- Every task after the join is executed once for each branch, and the others once. -/
theorem ForkJoin.count {process : BPMNProcess D} {shape : Shape} {split join finish : NodeId}
    (h : ForkJoin process shape split join finish) :
    (∀ task ∈ shape.branches.flatten, shape.total.count task = 1) ∧
      ∀ task ∈ shape.post, shape.total.count task = shape.branches.length := by
  obtain ⟨-, hlater, hpre⟩ := List.nodup_append.mp h.nodup
  obtain ⟨hbranches, hpost, hapart⟩ := List.nodup_append.mp hlater
  constructor
  · intro task htask
    have hnotPre : task ∉ shape.pre := fun hmem =>
      hpre task hmem task (List.mem_append_left _ htask) rfl
    have hnotPost : task ∉ shape.post := fun hmem => hapart task htask task hmem rfl
    rw [count_total, List.count_eq_zero.mpr hnotPre, List.count_eq_zero.mpr hnotPost,
      List.count_eq_one_of_mem hbranches htask, Nat.mul_zero]
  · intro task htask
    have hnotPre : task ∉ shape.pre := fun hmem =>
      hpre task hmem task (List.mem_append_right _ htask) rfl
    have hnotBranch : task ∉ shape.branches.flatten := fun hmem =>
      hapart task hmem task htask rfl
    rw [count_total, List.count_eq_zero.mpr hnotPre, List.count_eq_zero.mpr hnotBranch,
      List.count_eq_one_of_mem hpost htask]
    omega

theorem Done.inactive {total : List NodeId} {inst : BPMNProcessInstance D} (h : Done total inst) :
    ∀ token ∈ inst.tokens, token.active = false := by
  have hnone := places_eq_nil_iff.mp h.drained
  rw [List.countP_eq_zero] at hnone
  intro token hmem
  exact Bool.eq_false_iff.mpr (hnone token hmem)

theorem ForkJoin.playing {process : BPMNProcess D} {shape : Shape} {split join finish : NodeId}
    (h : ForkJoin process shape split join finish) {before : BPMNProcess D} {data : D}
    {inst : BPMNProcessInstance D}
    (hstart : bpmnProcessStart before data = some (process, inst)) :
    ∃ k, Playing process k shape.total inst := by
  obtain ⟨node, k, hnode, hfuture⟩ := h.futures
  rw [bpmnProcessStart] at hstart
  split at hstart
  · contradiction
  · dsimp only at hstart
    rw [Option.some.injEq, Prod.mk.injEq] at hstart
    have hsame : startNode before = startNode process := by
      rw [← hstart.1]
      rfl
    rw [hsame, hnode] at hstart
    rw [← hstart.2]
    refine ⟨k, ⟨rfl, rfl⟩, Nat.one_pos, List.cons_ne_nil _ _, shape.total, hfuture, ?_⟩
    rw [List.nil_append]

/-- A process with a fork comes to its end, with no token left; its tasks are executed as often
as they should exactly when no task follows the join. -/
theorem parallel_holds_iff {process before : BPMNProcess D} {shape : Shape}
    {split join finish : NodeId} (h : ForkJoin process shape split join finish) {data : D}
    {inst : BPMNProcessInstance D}
    (hstart : bpmnProcessStart before data = some (process, inst)) :
    ParallelHolds process shape inst ↔ shape.post = [] := by
  obtain ⟨k, hplaying⟩ := h.playing hstart
  obtain ⟨hdone, -, hall⟩ := hplaying.run
  obtain ⟨hbranch, hpost⟩ := h.count
  constructor
  · intro hholds
    apply List.eq_nil_iff_forall_not_mem.mpr
    intro task htask
    have honce := hholds.once k hdone.completed task (List.mem_append_right _ htask)
    rw [hdone.executed.count_eq, hpost task htask] at honce
    have hmany := h.many
    omega
  · intro hnil
    refine ⟨⟨k, hdone.completed⟩, ?_, ?_, ?_⟩
    · intro n hcompleted task htask
      rw [hnil, List.append_nil] at htask
      rw [(hall n hcompleted).executed.count_eq]
      exact hbranch task htask
    · intro n before task after _ htask
      rw [hnil] at htask
      contradiction
    · intro n hcompleted
      exact (hall n hcompleted).inactive

def build (nodes : List (BPMNNode D)) (flows : List (CStr × CStr)) : BPMNProcess D :=
  flows.foldl (fun process flow => (bpmnProcessAddFlow process (bpmnFlowCreate flow.1 flow.2)).2)
    (nodes.foldl (fun process node => (bpmnProcessAddNode process node).2) bpmnProcessCreate)

def taskA : CStr := lit "pack"
def taskB : CStr := lit "invoice"
def taskC : CStr := lit "ship"

def orderNodes : List (BPMNNode Nat) :=
  [bpmnNodeCreate (lit "start") .startEvent, bpmnNodeCreate (lit "fork") .parallelGateway,
    { bpmnNodeCreate taskA .serviceTask with serviceFn := some (· + 1) },
    { bpmnNodeCreate taskB .scriptTask with scriptFn := some (· + 1) },
    bpmnNodeCreate (lit "join") .parallelGateway,
    { bpmnNodeCreate taskC .serviceTask with serviceFn := some (· + 100) },
    bpmnNodeCreate (lit "end") .endEvent]

def forkFlows : List (CStr × CStr) :=
  [(lit "start", lit "fork"), (lit "fork", taskA), (lit "fork", taskB), (taskA, lit "join"),
    (taskB, lit "join")]

/-- Nothing follows the join. -/
def packed : BPMNProcess Nat := build orderNodes (forkFlows ++ [(lit "join", lit "end")])

/-- The order is shipped after the join. -/
def shipped : BPMNProcess Nat :=
  build orderNodes (forkFlows ++ [(lit "join", taskC), (taskC, lit "end")])

theorem forkJoin_packed (n : Nat) : ForkJoin { packed with instanceCount := n }
    ⟨[], [[nodeId taskA], [nodeId taskB]], []⟩ (nodeId (lit "fork")) (nodeId (lit "join"))
    (nodeId (lit "end")) where
  start := ⟨_, rfl, rfl, Or.inl ⟨rfl, _, rfl, rfl⟩⟩
  split := ⟨_, rfl, rfl, .cons ⟨rfl, _, _, rfl, rfl, rfl, rfl⟩
    (.cons ⟨rfl, _, _, rfl, rfl, rfl, rfl⟩ .nil)⟩
  many := by decide
  join := ⟨_, _, rfl, rfl, rfl, rfl⟩
  finish := rfl
  nodup := by decide

theorem parallel_holds_iff_packed :
    ∃ inst, bpmnProcessStart packed 0 = some ({ packed with instanceCount := 1 }, inst) ∧
      (ParallelHolds { packed with instanceCount := 1 } ⟨[], [[nodeId taskA], [nodeId taskB]], []⟩
        inst ↔ ([] : List NodeId) = []) :=
  ⟨_, rfl, parallel_holds_iff (forkJoin_packed 1) (rfl : bpmnProcessStart packed 0 = _)⟩

/-- The order is shipped twice. -/
theorem shipped_twice :
    ∃ inst, bpmnProcessStart shipped 0 = some ({ shipped with instanceCount := 1 }, inst) ∧
      (steps { shipped with instanceCount := 1 } 5 inst).executed =
        [nodeId taskB, nodeId taskA, nodeId taskC, nodeId taskC] ∧
      ¬ ParallelHolds { shipped with instanceCount := 1 }
        ⟨[], [[nodeId taskA], [nodeId taskB]], [nodeId taskC]⟩ inst := by
  refine ⟨_, rfl, by decide, ?_⟩
  intro h
  have honce := h.once 5 (by decide) (nodeId taskC) (by decide)
  exact absurd honce (by decide)

end MiniBackend.Arch.Proofs.ParallelGateway
