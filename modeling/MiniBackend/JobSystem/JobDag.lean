import MiniBackend.Lib.CString
import MiniBackend.Lib.CArray
import MiniBackend.Lib.StableSort
import Mathlib.Logic.Function.Basic

/-!
# `job_dag.c`

The graph of jobs: an array of nodes, each with the index lists of its incoming and
outgoing edges and its two degree counters.  The graph pointer and the result
pointers are taken to be non-null.  `in_count` and `out_count` are the lengths of the
index lists; `scheduled_at`, `started_at` and `userdata` are never used.
-/

namespace MiniBackend.JobSystem.JobDag

open MiniBackend.Lib.CString MiniBackend.Lib.CArray MiniBackend.Lib.StableSort

def jdagMaxNodes : Nat := 128
def jdagMaxName : Nat := 64

inductive JdagNodeState
  | pending | ready | running | completed | failed | skipped
deriving DecidableEq

structure JdagNode where
  id : UInt64
  name : CStr
  state : JdagNodeState
  indegree : Int
  outdegree : Int
  inEdges : List Nat
  outEdges : List Nat
  priority : Int
  completedAt : Int
deriving DecidableEq

/-- Only the first `nodeCount` entries of `nodes` are in use. -/
structure Jdag where
  nodes : Nat → JdagNode
  nodeCount : Nat
  maxNodes : Nat
  edgeCount : Int

def zeroNode : JdagNode where
  id := 0
  name := []
  state := .pending
  indegree := 0
  outdegree := 0
  inEdges := []
  outEdges := []
  priority := 0
  completedAt := 0

def jdagCreate (maxNodes : Int) : Jdag where
  nodes := fun _ => zeroNode
  nodeCount := 0
  maxNodes := if 0 < maxNodes ∧ maxNodes ≤ jdagMaxNodes then maxNodes.toNat else jdagMaxNodes
  edgeCount := 0

def setNode (dag : Jdag) (i : Nat) (node : JdagNode) : Jdag :=
  { dag with nodes := Function.update dag.nodes i node }

/-- The index of the node with this id; `none` stands for -1. -/
def jdagFindNode (dag : Jdag) (id : UInt64) : Option Nat :=
  findIndex (fun i => (dag.nodes i).id == id) dag.nodeCount

def newNode (id : UInt64) (name : Option CStr) (priority : Int) : JdagNode :=
  { zeroNode with
    id
    priority
    name := match name with
      | some name => strncpy name (jdagMaxName - 1)
      | none => snprintf (lit "node_" ++ decimal id.toNat) jdagMaxName }

def jdagAddNode (dag : Jdag) (id : UInt64) (name : Option CStr) (priority : Int) : Int × Jdag :=
  if dag.maxNodes ≤ dag.nodeCount then (-2, dag)
  else if (jdagFindNode dag id).isSome then (-3, dag)
  else
    let dag' := setNode dag dag.nodeCount (newNode id name priority)
    (dag.nodeCount, { dag' with nodeCount := dag.nodeCount + 1 })

/-! ## Edges -/

/-- One edge of the breadth-first scan; `none` is the early return of 1. -/
def visitEdge (target : Nat) (st : (Nat → Bool) × List Nat) (v : Nat) :
    Option ((Nat → Bool) × List Nat) :=
  if v = target then none
  else if st.1 v then some st
  else some (Function.update st.1 v true, st.2 ++ [v])

/-- The loop of the breadth-first scan.  The queue array has `JDAG_MAX_NODES` places,
so no more nodes than that are ever taken from it. -/
def reachesLoop (dag : Jdag) (target : Nat) : Nat → (Nat → Bool) → List Nat → Bool
  | _, _, [] => false
  | 0, _, _ :: _ => false
  | fuel + 1, visited, u :: queue =>
      match (dag.nodes u).outEdges.foldlM (visitEdge target) (visited, queue) with
      | none => true
      | some (visited, queue) => reachesLoop dag target fuel visited queue

def jdagWouldCreateCycle (dag : Jdag) (fromId toId : UInt64) : Int :=
  match jdagFindNode dag fromId, jdagFindNode dag toId with
  | some fromIdx, some toIdx =>
      if fromIdx = toIdx then 1
      else if reachesLoop dag fromIdx jdagMaxNodes (Function.update (fun _ => false) toIdx true)
          [toIdx] then 1
      else 0
  | _, _ => 0

def addOut (node : JdagNode) (ti : Nat) : JdagNode :=
  { node with outEdges := node.outEdges ++ [ti], outdegree := node.outdegree + 1 }

def addIn (node : JdagNode) (fi : Nat) : JdagNode :=
  { node with inEdges := node.inEdges ++ [fi], indegree := node.indegree + 1 }

def linkNodes (dag : Jdag) (fi ti : Nat) : Jdag :=
  let dag' := setNode dag fi (addOut (dag.nodes fi) ti)
  let dag'' := setNode dag' ti (addIn (dag'.nodes ti) fi)
  { dag'' with edgeCount := dag.edgeCount + 1 }

def jdagAddEdge (dag : Jdag) (fromId toId : UInt64) : Int × Jdag :=
  match jdagFindNode dag fromId, jdagFindNode dag toId with
  | some fi, some ti =>
      if fi = ti then (-3, dag)
      else if (dag.nodes fi).outEdges.contains ti then (-4, dag)
      else if jdagWouldCreateCycle dag fromId toId ≠ 0 then (-5, dag)
      else if jdagMaxNodes ≤ (dag.nodes fi).outEdges.length then (-6, dag)
      else if jdagMaxNodes ≤ (dag.nodes ti).inEdges.length then (-6, dag)
      else (0, linkNodes dag fi ti)
  | _, _ => (-2, dag)

/-- The first loop of `jdag_remove_edge`: the last entry moves into the hole. -/
def dropOut (node : JdagNode) (ti : Nat) : JdagNode :=
  if node.outEdges.contains ti then
    { node with
      outEdges := swapRemove node.outEdges (node.outEdges.idxOf ti)
      outdegree := node.outdegree - 1 }
  else node

def dropIn (node : JdagNode) (fi : Nat) : JdagNode :=
  if node.inEdges.contains fi then
    { node with
      inEdges := swapRemove node.inEdges (node.inEdges.idxOf fi)
      indegree := node.indegree - 1 }
  else node

/-- `edge_count` goes down whether or not the edge was there. -/
def unlinkNodes (dag : Jdag) (fi ti : Nat) : Jdag :=
  let dag' := setNode dag fi (dropOut (dag.nodes fi) ti)
  let dag'' := setNode dag' ti (dropIn (dag'.nodes ti) fi)
  { dag'' with edgeCount := dag.edgeCount - 1 }

def jdagRemoveEdge (dag : Jdag) (fromId toId : UInt64) : Int × Jdag :=
  match jdagFindNode dag fromId, jdagFindNode dag toId with
  | some fi, some ti => (0, unlinkNodes dag fi ti)
  | _, _ => (-2, dag)

/-! ## Removing a node -/

/-- One iteration of the loop that removes all edges of node `idx`. -/
def isolateStep (id : UInt64) (idx : Nat) (dag : Jdag) (i : Nat) : Jdag :=
  if i = idx then dag
  else
    let dag' := (jdagRemoveEdge dag (dag.nodes i).id id).2
    (jdagRemoveEdge dag' id (dag'.nodes i).id).2

def isolate (dag : Jdag) (id : UInt64) (idx : Nat) : Jdag :=
  (List.range dag.nodeCount).foldl (isolateStep id idx) dag

def renumber (last idx : Nat) (node : JdagNode) : JdagNode :=
  { node with
    inEdges := node.inEdges.map fun x => if x = last then idx else x
    outEdges := node.outEdges.map fun x => if x = last then idx else x }

/-- The last node moves to `idx`, and every used node is renumbered. -/
def compact (dag : Jdag) (idx : Nat) : Jdag :=
  let last := dag.nodeCount - 1
  let moved := Function.update dag.nodes idx (dag.nodes last)
  { dag with
    nodes := fun i => if i < last then renumber last idx (moved i) else moved i
    nodeCount := last }

def jdagRemoveNode (dag : Jdag) (id : UInt64) : Int × Jdag :=
  match jdagFindNode dag id with
  | none => (-1, dag)
  | some idx => (0, compact (isolate dag id idx) idx)

/-! ## Topological sorts -/

def kahnRelax (st : (Nat → Int) × List Nat) (v : Nat) : (Nat → Int) × List Nat :=
  let d := st.1 v - 1
  (Function.update st.1 v d, if d = 0 then st.2 ++ [v] else st.2)

/-- `result` is what has been written so far; `JDAG_MAX_NODES` bounds the queue. -/
def kahnLoop (dag : Jdag) : Nat → (Nat → Int) → List Nat → List UInt64 → List UInt64
  | _, _, [], result => result
  | 0, _, _ :: _, result => result
  | fuel + 1, indegree, u :: queue, result =>
      let st := (dag.nodes u).outEdges.foldl kahnRelax (indegree, queue)
      kahnLoop dag fuel st.1 st.2 (result ++ [(dag.nodes u).id])

/-- The return value and the entries written to `result`. -/
def jdagTopologicalSortKahn (dag : Jdag) (max : Int) : Int × List UInt64 :=
  if max < dag.nodeCount then (-1, [])
  else
    let indegree := fun i => (dag.nodes i).indegree
    let sources := (List.range dag.nodeCount).filter fun i => indegree i = 0
    let result := kahnLoop dag jdagMaxNodes indegree sources []
    if result.length = dag.nodeCount then (result.length, result) else (-2, result)

inductive Color
  | white | gray | black
deriving DecidableEq

/-- `result` is what `*pos` and the entries after it hold.  A call marks its node
before it recurses, so the recursion is never deeper than the number of nodes. -/
def dfsVisit (dag : Jdag) : Nat → Nat → (Nat → Color) × List UInt64 →
    (Nat → Color) × List UInt64
  | 0, _, st => st
  | fuel + 1, u, st =>
      let st' := (dag.nodes u).outEdges.foldl
        (fun st v => if st.1 v = .white then dfsVisit dag fuel v st else st)
        (Function.update st.1 u .gray, st.2)
      (Function.update st'.1 u .black, (dag.nodes u).id :: st'.2)

def jdagTopologicalSortDfs (dag : Jdag) (max : Int) : Int × List UInt64 :=
  if max < dag.nodeCount then (-1, [])
  else
    let st := (List.range dag.nodeCount).foldl
      (fun st i => if st.1 i = .white then dfsVisit dag jdagMaxNodes i st else st)
      ((fun _ => .white), [])
    (dag.nodeCount, st.2)

/-! ## The cycle check -/

def dfsCycleDetect (dag : Jdag) : Nat → Nat → (Nat → Color) → Option (Nat → Color)
  | 0, _, color => some color
  | fuel + 1, u, color =>
      ((dag.nodes u).outEdges.foldlM
        (fun color v =>
          if color v = .gray then none
          else if color v = .white then dfsCycleDetect dag fuel v color
          else some color)
        (Function.update color u .gray)).map fun color => Function.update color u .black

def jdagHasCycle (dag : Jdag) : Int :=
  if dag.nodeCount = 0 then 0
  else
    let colors := (List.range dag.nodeCount).foldlM
      (fun color i =>
        if color i = .white then dfsCycleDetect dag jdagMaxNodes i color else some color)
      fun _ => Color.white
    if colors.isNone then 1 else 0

/-! ## Longest paths -/

structure Relaxed where
  dist : Nat → Nat
  indegree : Nat → Int
  queue : List Nat

def relaxEdge (u : Nat) (st : Relaxed) (v : Nat) : Relaxed :=
  let d := st.indegree v - 1
  { dist := if st.dist v < st.dist u + 1 then Function.update st.dist v (st.dist u + 1)
      else st.dist
    indegree := Function.update st.indegree v d
    queue := if d = 0 then st.queue ++ [v] else st.queue }

/-- The loop that `jdag_critical_path_length` and `jdag_get_levels` share: the distances at its end
and the greatest one that a node had when it was taken from the queue. -/
def relaxLoop (dag : Jdag) : Nat → Relaxed → Nat → (Nat → Nat) × Nat
  | 0, st, maxDist => (st.dist, maxDist)
  | fuel + 1, st, maxDist =>
      match st.queue with
      | [] => (st.dist, maxDist)
      | u :: queue =>
          relaxLoop dag fuel ((dag.nodes u).outEdges.foldl (relaxEdge u) { st with queue })
            (if maxDist < st.dist u then st.dist u else maxDist)

def relaxAll (dag : Jdag) (first : Nat) : (Nat → Nat) × Nat :=
  let indegree := fun i => (dag.nodes i).indegree
  let sources := (List.range dag.nodeCount).filter fun i => indegree i = 0
  relaxLoop dag jdagMaxNodes
    ⟨fun i => if i < dag.nodeCount ∧ indegree i = 0 then first else 0, indegree, sources⟩ 0

def jdagCriticalPathLength (dag : Jdag) : Nat :=
  if dag.nodeCount = 0 then 0 else (relaxAll dag 1).2

/-- `level_boundaries[0]` up to `level_boundaries[max_level]`, which two loops fill one after the
other. -/
def levelBoundaries (levelCounts : Nat → Nat) (maxLevel : Nat) : Nat → Nat :=
  let sums := (List.range (maxLevel + 1)).foldl
    (fun st i => (Function.update st.1 i (st.2 + levelCounts i), st.2 + levelCounts i))
    ((fun _ => 0 : Nat → Nat), 0)
  (List.range maxLevel).foldl
    (fun boundaries i => Function.update boundaries (i + 1) (boundaries i + levelCounts (i + 1)))
    (Function.update sums.1 0 (levelCounts 0))

/-- The return value, the entries written to `result` and those written to `level_boundaries`. -/
def jdagGetLevels (dag : Jdag) (max : Int) : Int × List UInt64 × List Nat :=
  if max < dag.nodeCount then (-1, [], [])
  else
    let relaxed := relaxAll dag 0
    let dist := relaxed.1
    let maxLevel := relaxed.2
    let levelBoundaries := levelBoundaries (counts dist dag.nodeCount) maxLevel
    let nextPos := fun i => if i = 0 then 0 else levelBoundaries (i - 1)
    let result := (place dist (fun i => (dag.nodes i).id) dag.nodeCount nextPos fun _ => 0).2
    (maxLevel + 1, (List.range dag.nodeCount).map result,
      (List.range (maxLevel + 1)).map levelBoundaries)

/-! ## Execution -/

def jdagGetReadyNodes (dag : Jdag) (max : Int) : List UInt64 :=
  (((List.range dag.nodeCount).filter fun i =>
    (dag.nodes i).state = .pending ∧ (dag.nodes i).indegree = 0).map
      fun i => (dag.nodes i).id).take max.toNat

def lowered (node : JdagNode) : JdagNode := { node with indegree := node.indegree - 1 }

def completed (node : JdagNode) (now : Int) : JdagNode :=
  { node with state := .completed, completedAt := now }

def withState (node : JdagNode) (state : JdagNodeState) : JdagNode := { node with state }

def lowerIndegree (dag : Jdag) (succ : Nat) : Jdag :=
  if 0 < (dag.nodes succ).indegree then setNode dag succ (lowered (dag.nodes succ)) else dag

def jdagMarkCompleted (dag : Jdag) (id : UInt64) (now : Int) : Int × Jdag :=
  match jdagFindNode dag id with
  | none => (-1, dag)
  | some idx =>
      (0, (dag.nodes idx).outEdges.foldl lowerIndegree
        (setNode dag idx (completed (dag.nodes idx) now)))

def skipNode (dag : Jdag) (succ : Nat) : Jdag :=
  if (dag.nodes succ).state = .pending then setNode dag succ (withState (dag.nodes succ) .skipped)
  else dag

def jdagMarkFailed (dag : Jdag) (id : UInt64) : Int × Jdag :=
  match jdagFindNode dag id with
  | none => (-1, dag)
  | some idx =>
      (0, (dag.nodes idx).outEdges.foldl skipNode
        (setNode dag idx (withState (dag.nodes idx) .failed)))

/-! ## Runs -/

/-- The calls that build the graph and the calls that execute it. -/
inductive Op
  | addNode (id : UInt64) (name : Option CStr) (priority : Int)
  | removeNode (id : UInt64)
  | addEdge (fromId toId : UInt64)
  | removeEdge (fromId toId : UInt64)
  | markCompleted (id : UInt64) (now : Int)
  | markFailed (id : UInt64)
  | getReadyNodes (max : Int)
deriving DecidableEq

def step (dag : Jdag) : Op → Jdag
  | .addNode id name priority => (jdagAddNode dag id name priority).2
  | .removeNode id => (jdagRemoveNode dag id).2
  | .addEdge fromId toId => (jdagAddEdge dag fromId toId).2
  | .removeEdge fromId toId => (jdagRemoveEdge dag fromId toId).2
  | .markCompleted id now => (jdagMarkCompleted dag id now).2
  | .markFailed id => (jdagMarkFailed dag id).2
  | .getReadyNodes _ => dag

/-- The calls that change which nodes and edges there are. -/
def Op.Structural : Op → Prop
  | .addNode .. | .removeNode _ | .addEdge .. | .removeEdge .. => True
  | .markCompleted .. | .markFailed _ | .getReadyNodes _ => False

end MiniBackend.JobSystem.JobDag
