import MiniBackend.Lib.CString

/-!
# `bpmn_model.c`

Processes as graphs of nodes, and instances as lists of tokens.  The functions of the tasks
work on the data of the process, of any type.  Clock readings, names and token ids are left
out; the tasks that were executed are on record in the instance.
-/

namespace MiniBackend.Arch.Bpmn

open MiniBackend.Lib.CString

def bpmnIdLen : Nat := 64
def bpmnMaxNodes : Nat := 128
def bpmnMaxFlows : Nat := 256
def bpmnMaxInstances : Nat := 32

/-- An id as the array of a node, a flow or a token holds it. -/
abbrev NodeId := Field bpmnIdLen

def nodeId (text : CStr) : NodeId :=
  ⟨strncpy text (bpmnIdLen - 1), Nat.lt_succ_of_le (List.length_take_le _ _)⟩

inductive BPMNNodeType
  | startEvent
  | endEvent
  | userTask
  | serviceTask
  | scriptTask
  | exclusiveGateway
  | parallelGateway
  | inclusiveGateway
  | intermediateTimer
  | subProcess
deriving DecidableEq

structure BPMNSequenceFlow where
  sourceNodeId : NodeId
  targetNodeId : NodeId
  conditionExpression : CStr
  isDefault : Bool
deriving DecidableEq

/-- The functions are `none` for null pointers; what they return is not looked at. -/
structure BPMNNode (D : Type) where
  id : NodeId
  type : BPMNNodeType
  incoming : List BPMNSequenceFlow
  outgoing : List BPMNSequenceFlow
  serviceFn : Option (D → D)
  scriptFn : Option (D → D)

structure BPMNToken where
  nodeId : NodeId
  active : Bool
deriving DecidableEq

structure BPMNProcessInstance (D : Type) where
  tokens : List BPMNToken
  tokenCount : Nat
  processData : D
  isCompleted : Bool
  isTerminated : Bool
  executed : List NodeId

structure BPMNProcess (D : Type) where
  nodes : List (BPMNNode D)
  flows : List BPMNSequenceFlow
  startNodeId : NodeId
  instanceCount : Nat

variable {D : Type}

def bpmnNodeCreate (id : CStr) (type : BPMNNodeType) : BPMNNode D :=
  ⟨nodeId id, type, [], [], none, none⟩

def bpmnFlowCreate (source target : CStr) : BPMNSequenceFlow :=
  ⟨nodeId source, nodeId target, [], false⟩

def bpmnProcessCreate : BPMNProcess D := ⟨[], [], nodeId [], 0⟩

def bpmnProcessAddNode (process : BPMNProcess D) (node : BPMNNode D) : Int × BPMNProcess D :=
  if bpmnMaxNodes ≤ process.nodes.length then (-1, process)
  else (0, { process with nodes := process.nodes ++ [node] })

def bpmnProcessFindNode (process : BPMNProcess D) (id : NodeId) : Option (BPMNNode D) :=
  process.nodes.find? (·.id == id)

def bpmnProcessFindNodeByType (process : BPMNProcess D) (type : BPMNNodeType) :
    Option (BPMNNode D) :=
  process.nodes.find? (·.type == type)

/-- Write to the node that `bpmn_process_find_node` finds. -/
def modifyNode (id : NodeId) (f : BPMNNode D → BPMNNode D) : List (BPMNNode D) → List (BPMNNode D)
  | [] => []
  | node :: nodes => if node.id == id then f node :: nodes else node :: modifyNode id f nodes

def bpmnProcessAddFlow (process : BPMNProcess D) (flow : BPMNSequenceFlow) :
    Int × BPMNProcess D :=
  if bpmnMaxFlows ≤ process.flows.length then (-1, process)
  else
    let nodes := modifyNode flow.sourceNodeId
      (fun node => { node with outgoing := node.outgoing ++ [flow] }) process.nodes
    let nodes := modifyNode flow.targetNodeId
      (fun node => { node with incoming := node.incoming ++ [flow] }) nodes
    (0, { process with nodes := nodes, flows := process.flows ++ [flow] })

def bpmnTokenCreate (nodeId : NodeId) : BPMNToken := ⟨nodeId, true⟩

/-- Where `bpmn_process_start` puts the first token. -/
def startNode (process : BPMNProcess D) : Option (BPMNNode D) :=
  match bpmnProcessFindNodeByType process .startEvent with
  | some node => some node
  | none => bpmnProcessFindNode process process.startNodeId

/-- The instance with the process that counts it. -/
def bpmnProcessStart (process : BPMNProcess D) (data : D) :
    Option (BPMNProcess D × BPMNProcessInstance D) :=
  if bpmnMaxInstances ≤ process.instanceCount then none
  else
    let inst : BPMNProcessInstance D := ⟨[], 0, data, false, false, []⟩
    let inst :=
      match startNode process with
      | some node => { inst with tokens := bpmnTokenCreate node.id :: inst.tokens, tokenCount := 1 }
      | none => inst
    some ({ process with instanceCount := process.instanceCount + 1 }, inst)

def bpmnEvaluateGatewayExclusive (gateway : BPMNNode D) : Option BPMNSequenceFlow :=
  match gateway.outgoing.find? fun flow => flow.isDefault || !flow.conditionExpression.isEmpty with
  | some flow => some flow
  | none => gateway.outgoing.head?

def bpmnEvaluateGatewayParallel (gateway : BPMNNode D) : List BPMNSequenceFlow := gateway.outgoing

/-- As many flows as have a condition or are the default, or all when there are none: the first
ones. -/
def bpmnEvaluateGatewayInclusive (gateway : BPMNNode D) : List BPMNSequenceFlow :=
  let count := gateway.outgoing.countP fun flow =>
    !flow.conditionExpression.isEmpty || flow.isDefault
  gateway.outgoing.take (if count = 0 then gateway.outgoing.length else count)

/-- The token takes the first flow, and each other flow gets a new token at the head of the
list. -/
def followFlows (token : BPMNToken) (inst : BPMNProcessInstance D) :
    List BPMNSequenceFlow → BPMNToken × BPMNProcessInstance D
  | [] => (token, inst)
  | flow :: flows =>
      ({ token with nodeId := flow.targetNodeId },
        flows.foldl (fun inst flow =>
          { inst with
            tokens := bpmnTokenCreate flow.targetNodeId :: inst.tokens
            tokenCount := inst.tokenCount + 1 }) inst)

/-- The token goes along the first outgoing flow, if there is one. -/
def followFirst (node : BPMNNode D) (token : BPMNToken) : BPMNToken :=
  match node.outgoing with
  | [] => token
  | flow :: _ => { token with nodeId := flow.targetNodeId }

/-- Call the function of a task, and put the task on record. -/
def callTask (inst : BPMNProcessInstance D) (id : NodeId) (fn : Option (D → D)) :
    BPMNProcessInstance D :=
  { inst with
    processData := fn.elim inst.processData fun f => f inst.processData
    executed := inst.executed ++ [id] }

def executeNode (process : BPMNProcess D) (inst : BPMNProcessInstance D) (token : BPMNToken) :
    Int × BPMNToken × BPMNProcessInstance D :=
  match bpmnProcessFindNode process token.nodeId with
  | none => (-1, token, inst)
  | some node =>
      match node.type with
      | .startEvent | .endEvent =>
          if node.outgoing.isEmpty then (0, token, { inst with isCompleted := true })
          else (0, followFirst node token, inst)
      | .userTask | .serviceTask =>
          (0, followFirst node token, callTask inst node.id node.serviceFn)
      | .scriptTask => (0, followFirst node token, callTask inst node.id node.scriptFn)
      | .exclusiveGateway =>
          match bpmnEvaluateGatewayExclusive node with
          | some flow => (0, { token with nodeId := flow.targetNodeId }, inst)
          | none =>
              match node.outgoing.find? (·.isDefault) with
              | some flow => (0, { token with nodeId := flow.targetNodeId }, inst)
              | none => (0, token, inst)
      | .parallelGateway => (0, followFlows token inst (bpmnEvaluateGatewayParallel node))
      | .inclusiveGateway => (0, followFlows token inst (bpmnEvaluateGatewayInclusive node))
      | .intermediateTimer | .subProcess => (0, token, inst)

def isEnd (process : BPMNProcess D) (id : NodeId) : Bool :=
  (bpmnProcessFindNode process id).any (·.type == .endEvent)

/-- The first loop of `bpmn_process_execute_step`.  The list of the instance has the tokens in
front of the remaining ones; new tokens come to its head and are not visited. -/
def passLoop (process : BPMNProcess D) :
    List BPMNToken → BPMNProcessInstance D → Int × BPMNProcessInstance D
  | [], inst => (0, inst)
  | token :: rest, inst =>
      if token.active then
        let (rc, token, inst) := executeNode process inst token
        if rc ≠ 0 then (rc, { inst with tokens := inst.tokens ++ token :: rest })
        else
          let token := if isEnd process token.nodeId then { token with active := false } else token
          passLoop process rest { inst with tokens := inst.tokens ++ [token] }
      else passLoop process rest { inst with tokens := inst.tokens ++ [token] }

def bpmnProcessExecuteStep (process : BPMNProcess D) (inst : BPMNProcessInstance D) :
    Int × BPMNProcessInstance D :=
  if inst.isCompleted || inst.isTerminated then (-1, inst)
  else
    let (rc, inst) := passLoop process inst.tokens { inst with tokens := [] }
    if rc ≠ 0 then (rc, inst)
    else
      let activeCount := inst.tokens.countP (·.active)
      if activeCount = 0 ∧ 0 < inst.tokenCount then (0, { inst with isCompleted := true })
      else (0, inst)

def bpmnProcessRun (process : BPMNProcess D) (inst : BPMNProcessInstance D) :
    Nat → Int × BPMNProcessInstance D
  | 0 => (0, inst)
  | maxSteps + 1 =>
      let (rc, inst) := bpmnProcessExecuteStep process inst
      if rc ≠ 0 then (rc, inst)
      else if inst.isCompleted || inst.isTerminated then (0, inst)
      else bpmnProcessRun process inst maxSteps

end MiniBackend.Arch.Bpmn
