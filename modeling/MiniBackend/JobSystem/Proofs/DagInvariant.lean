import MiniBackend.JobSystem.JobDag
import MiniBackend.Lib.Runs
import Mathlib.Data.List.Nodup
import Mathlib.Data.List.Perm.Basic

/-!
# The representation invariant of the job graph

Every edge is stored twice, as an index in the outgoing list of its source and as an
index in the incoming list of its target.  `Represents dag E` says that both sets of
lists describe the same relation `E` between indices.  Each operation of the source
is shown to turn a representation of `E` into one of an explicit new relation.
-/

namespace MiniBackend.JobSystem.Proofs.DagInvariant

open MiniBackend.Lib MiniBackend.Lib.CArray MiniBackend.Lib.Runs MiniBackend.JobSystem.JobDag

/-! ## Representation of a relation -/

structure Represents (dag : Jdag) (E : Nat → Nat → Prop) : Prop where
  out_nodup : ∀ u < dag.nodeCount, (dag.nodes u).outEdges.Nodup
  mem_out : ∀ u < dag.nodeCount, ∀ v, v ∈ (dag.nodes u).outEdges ↔ E u v
  in_nodup : ∀ v < dag.nodeCount, (dag.nodes v).inEdges.Nodup
  mem_in : ∀ v < dag.nodeCount, ∀ u, u ∈ (dag.nodes v).inEdges ↔ E u v
  bounded : ∀ u v, E u v → u < dag.nodeCount ∧ v < dag.nodeCount ∧ u ≠ v

structure Indexed (dag : Jdag) : Prop where
  maxNodes_le : dag.maxNodes ≤ jdagMaxNodes
  count_le : dag.nodeCount ≤ dag.maxNodes
  id_injective : ∀ u < dag.nodeCount, ∀ v < dag.nodeCount,
    (dag.nodes u).id = (dag.nodes v).id → u = v

def Adj (dag : Jdag) (u v : Nat) : Prop := u < dag.nodeCount ∧ v ∈ (dag.nodes u).outEdges

/-- An edge between two ids. -/
def Edge (dag : Jdag) (a b : UInt64) : Prop :=
  ∃ u v, Adj dag u v ∧ (dag.nodes u).id = a ∧ (dag.nodes v).id = b

theorem Represents.congr {dag : Jdag} {E E' : Nat → Nat → Prop} (h : Represents dag E)
    (hE : ∀ u v, E u v ↔ E' u v) : Represents dag E' := by
  have heq : E = E' := funext fun u => funext fun v => propext (hE u v)
  exact heq ▸ h

theorem Represents.adj_iff {dag : Jdag} {E : Nat → Nat → Prop} (h : Represents dag E)
    {u v : Nat} : Adj dag u v ↔ E u v := by
  constructor
  · rintro ⟨hu, hv⟩
    exact (h.mem_out u hu v).mp hv
  · intro huv
    have hu := (h.bounded u v huv).1
    exact ⟨hu, (h.mem_out u hu v).mpr huv⟩

/-- Only the number of nodes and the edge lists matter. -/
theorem Represents.frame {dag dag' : Jdag} {E : Nat → Nat → Prop} (h : Represents dag E)
    (hcount : dag'.nodeCount = dag.nodeCount)
    (hout : ∀ u, (dag'.nodes u).outEdges = (dag.nodes u).outEdges)
    (hin : ∀ u, (dag'.nodes u).inEdges = (dag.nodes u).inEdges) : Represents dag' E where
  out_nodup u hu := by
    rw [hout]
    exact h.out_nodup u (hcount ▸ hu)
  mem_out u hu v := by
    rw [hout]
    exact h.mem_out u (hcount ▸ hu) v
  in_nodup v hv := by
    rw [hin]
    exact h.in_nodup v (hcount ▸ hv)
  mem_in v hv u := by
    rw [hin]
    exact h.mem_in v (hcount ▸ hv) u
  bounded u v huv := by
    rw [hcount]
    exact h.bounded u v huv

theorem Indexed.frame {dag dag' : Jdag} (h : Indexed dag)
    (hmax : dag'.maxNodes = dag.maxNodes) (hcount : dag'.nodeCount = dag.nodeCount)
    (hid : ∀ u, (dag'.nodes u).id = (dag.nodes u).id) : Indexed dag' where
  maxNodes_le := hmax ▸ h.maxNodes_le
  count_le := by
    rw [hmax, hcount]
    exact h.count_le
  id_injective u hu v hv huv := by
    rw [hid, hid] at huv
    exact h.id_injective u (hcount ▸ hu) v (hcount ▸ hv) huv

theorem jdagFindNode_eq_some {dag : Jdag} {id : UInt64} {i : Nat}
    (h : jdagFindNode dag id = some i) : i < dag.nodeCount ∧ (dag.nodes i).id = id := by
  obtain ⟨hid, hi, -⟩ := findIndex_eq_some.mp h
  exact ⟨hi, by simpa using hid⟩

theorem jdagFindNode_eq_none {dag : Jdag} {id : UInt64} (h : jdagFindNode dag id = none)
    {i : Nat} (hi : i < dag.nodeCount) : (dag.nodes i).id ≠ id := by
  simpa using findIndex_eq_none.mp h i hi

/-- Ids are distinct, so the search finds every node under its own id. -/
theorem Indexed.find_self {dag : Jdag} (h : Indexed dag) {i : Nat} (hi : i < dag.nodeCount) :
    jdagFindNode dag (dag.nodes i).id = some i := by
  cases hfind : jdagFindNode dag (dag.nodes i).id with
  | none => exact absurd rfl (jdagFindNode_eq_none hfind hi)
  | some j =>
      obtain ⟨hj, hid⟩ := jdagFindNode_eq_some hfind
      rw [h.id_injective j hj i hi hid]

/-! ## Creating the graph and adding a node -/

theorem indexed_jdagCreate (maxNodes : Int) : Indexed (jdagCreate maxNodes) where
  maxNodes_le := by
    simp only [jdagCreate]
    split
    · omega
    · exact Nat.le_refl _
  count_le := Nat.zero_le _
  id_injective u hu := absurd hu (Nat.not_lt_zero u)

theorem represents_jdagCreate (maxNodes : Int) :
    Represents (jdagCreate maxNodes) fun _ _ => False where
  out_nodup u hu := absurd hu (Nat.not_lt_zero u)
  mem_out u hu := absurd hu (Nat.not_lt_zero u)
  in_nodup u hu := absurd hu (Nat.not_lt_zero u)
  mem_in u hu := absurd hu (Nat.not_lt_zero u)
  bounded _ _ := False.elim

theorem nodes_setNode (dag : Jdag) (i : Nat) (node : JdagNode) (u : Nat) :
    (setNode dag i node).nodes u = if u = i then node else dag.nodes u :=
  Function.update_apply dag.nodes i node u

def appended (dag : Jdag) (node : JdagNode) : Jdag :=
  { setNode dag dag.nodeCount node with nodeCount := dag.nodeCount + 1 }

theorem nodes_appended_of_lt {dag : Jdag} (node : JdagNode) {u : Nat} (hu : u < dag.nodeCount) :
    (appended dag node).nodes u = dag.nodes u := by
  show (setNode dag dag.nodeCount node).nodes u = dag.nodes u
  rw [nodes_setNode, if_neg (by omega)]

theorem nodes_appended_last (dag : Jdag) (node : JdagNode) :
    (appended dag node).nodes dag.nodeCount = node := by
  show (setNode dag dag.nodeCount node).nodes dag.nodeCount = node
  rw [nodes_setNode, if_pos rfl]

/-- A node is refused, or put at the end under an id that was not in use. -/
theorem jdagAddNode_cases (dag : Jdag) (id : UInt64) (name : Option CString.CStr)
    (priority : Int) :
    ((jdagAddNode dag id name priority).1 < 0 ∧ (jdagAddNode dag id name priority).2 = dag) ∨
      (dag.nodeCount < dag.maxNodes ∧ jdagFindNode dag id = none ∧
        jdagAddNode dag id name priority =
          ((dag.nodeCount : Int), appended dag (newNode id name priority))) := by
  unfold jdagAddNode
  split
  · exact .inl ⟨by simp, rfl⟩
  · next hroom =>
      split
      · exact .inl ⟨by simp, rfl⟩
      · next hnew => exact .inr ⟨by omega, by simpa using hnew, rfl⟩

theorem Represents.appended {dag : Jdag} {E : Nat → Nat → Prop} (h : Represents dag E)
    {node : JdagNode} (hout : node.outEdges = []) (hin : node.inEdges = []) :
    Represents (appended dag node) E := by
  have hcases : ∀ u < dag.nodeCount + 1, u < dag.nodeCount ∨ u = dag.nodeCount := by
    intro u hu
    omega
  have hnone : ∀ u v, E u v → u ≠ dag.nodeCount ∧ v ≠ dag.nodeCount := by
    intro u v huv
    have := h.bounded u v huv
    omega
  constructor
  · intro u hu
    obtain hlt | rfl := hcases u hu
    · rw [nodes_appended_of_lt node hlt]
      exact h.out_nodup u hlt
    · rw [nodes_appended_last, hout]
      exact List.nodup_nil
  · intro u hu v
    obtain hlt | rfl := hcases u hu
    · rw [nodes_appended_of_lt node hlt]
      exact h.mem_out u hlt v
    · rw [nodes_appended_last, hout]
      exact iff_of_false List.not_mem_nil fun huv => (hnone _ _ huv).1 rfl
  · intro v hv
    obtain hlt | rfl := hcases v hv
    · rw [nodes_appended_of_lt node hlt]
      exact h.in_nodup v hlt
    · rw [nodes_appended_last, hin]
      exact List.nodup_nil
  · intro v hv u
    obtain hlt | rfl := hcases v hv
    · rw [nodes_appended_of_lt node hlt]
      exact h.mem_in v hlt u
    · rw [nodes_appended_last, hin]
      exact iff_of_false List.not_mem_nil fun huv => (hnone _ _ huv).2 rfl
  · intro u v huv
    have := h.bounded u v huv
    exact ⟨Nat.lt_succ_of_lt this.1, Nat.lt_succ_of_lt this.2.1, this.2.2⟩

theorem Indexed.appended {dag : Jdag} (h : Indexed dag) {node : JdagNode}
    (hroom : dag.nodeCount < dag.maxNodes) (hnew : jdagFindNode dag node.id = none) :
    Indexed (appended dag node) where
  maxNodes_le := h.maxNodes_le
  count_le := hroom
  id_injective u hu v hv huv := by
    have hcases : ∀ w < dag.nodeCount + 1, w < dag.nodeCount ∨ w = dag.nodeCount := by
      intro w hw
      omega
    obtain hlt | rfl := hcases u hu
    · rw [nodes_appended_of_lt node hlt] at huv
      obtain hlt' | rfl := hcases v hv
      · rw [nodes_appended_of_lt node hlt'] at huv
        exact h.id_injective u hlt v hlt' huv
      · rw [nodes_appended_last] at huv
        exact absurd huv (jdagFindNode_eq_none hnew hlt)
    · rw [nodes_appended_last] at huv
      obtain hlt' | rfl := hcases v hv
      · rw [nodes_appended_of_lt node hlt'] at huv
        exact absurd huv.symm (jdagFindNode_eq_none hnew hlt')
      · rfl

/-! ## Adding an edge -/

section Link

variable (dag : Jdag) (fi ti u : Nat)

theorem id_linkNodes : ((linkNodes dag fi ti).nodes u).id = (dag.nodes u).id := by
  simp only [linkNodes, nodes_setNode]
  split_ifs <;> simp_all [addOut, addIn]

theorem state_linkNodes : ((linkNodes dag fi ti).nodes u).state = (dag.nodes u).state := by
  simp only [linkNodes, nodes_setNode]
  split_ifs <;> simp_all [addOut, addIn]

theorem outEdges_linkNodes : ((linkNodes dag fi ti).nodes u).outEdges =
    if u = fi then (dag.nodes fi).outEdges ++ [ti] else (dag.nodes u).outEdges := by
  simp only [linkNodes, nodes_setNode]
  split_ifs <;> simp_all [addOut, addIn]

theorem inEdges_linkNodes : ((linkNodes dag fi ti).nodes u).inEdges =
    if u = ti then (dag.nodes ti).inEdges ++ [fi] else (dag.nodes u).inEdges := by
  simp only [linkNodes, nodes_setNode]
  split_ifs <;> simp_all [addOut, addIn]

theorem indegree_linkNodes : ((linkNodes dag fi ti).nodes u).indegree =
    if u = ti then (dag.nodes ti).indegree + 1 else (dag.nodes u).indegree := by
  simp only [linkNodes, nodes_setNode]
  split_ifs <;> simp_all [addOut, addIn]

theorem outdegree_linkNodes : ((linkNodes dag fi ti).nodes u).outdegree =
    if u = fi then (dag.nodes fi).outdegree + 1 else (dag.nodes u).outdegree := by
  simp only [linkNodes, nodes_setNode]
  split_ifs <;> simp_all [addOut, addIn]

end Link

theorem Indexed.linkNodes {dag : Jdag} (h : Indexed dag) (fi ti : Nat) :
    Indexed (linkNodes dag fi ti) := h.frame rfl rfl (id_linkNodes dag fi ti)

theorem Represents.linkNodes {dag : Jdag} {E : Nat → Nat → Prop} (h : Represents dag E)
    {fi ti : Nat} (hfi : fi < dag.nodeCount) (hti : ti < dag.nodeCount) (hne : fi ≠ ti)
    (hnew : ¬E fi ti) :
    Represents (linkNodes dag fi ti) fun u v => E u v ∨ (u = fi ∧ v = ti) := by
  constructor
  · intro u hu
    rw [outEdges_linkNodes]
    split
    · rw [List.nodup_append_comm, List.singleton_append, List.nodup_cons, h.mem_out fi hfi]
      exact ⟨hnew, h.out_nodup fi hfi⟩
    · exact h.out_nodup u hu
  · intro u hu v
    rw [outEdges_linkNodes]
    split
    · next hufi =>
        subst hufi
        rw [List.mem_append, List.mem_singleton, h.mem_out u hu]
        simp
    · next hufi =>
        rw [h.mem_out u hu]
        simp [hufi]
  · intro v hv
    rw [inEdges_linkNodes]
    split
    · rw [List.nodup_append_comm, List.singleton_append, List.nodup_cons, h.mem_in ti hti]
      exact ⟨hnew, h.in_nodup ti hti⟩
    · exact h.in_nodup v hv
  · intro v hv u
    rw [inEdges_linkNodes]
    split
    · next hvti =>
        subst hvti
        rw [List.mem_append, List.mem_singleton, h.mem_in v hv]
        simp
    · next hvti =>
        rw [h.mem_in v hv]
        simp [hvti]
  · rintro u v (huv | ⟨rfl, rfl⟩)
    · exact h.bounded u v huv
    · exact ⟨hfi, hti, hne⟩

/-! ## Removing an edge -/

theorem outEdges_dropOut_perm (node : JdagNode) (ti : Nat) :
    (dropOut node ti).outEdges.Perm (node.outEdges.erase ti) := by
  unfold dropOut
  split
  · next hmem => exact swapRemove_perm_erase (by simpa using hmem)
  · next hmem => rw [List.erase_of_not_mem (by simpa using hmem)]

theorem inEdges_dropIn_perm (node : JdagNode) (fi : Nat) :
    (dropIn node fi).inEdges.Perm (node.inEdges.erase fi) := by
  unfold dropIn
  split
  · next hmem => exact swapRemove_perm_erase (by simpa using hmem)
  · next hmem => rw [List.erase_of_not_mem (by simpa using hmem)]

section Drop

variable (node : JdagNode) (i : Nat)

@[simp] theorem dropOut_id : (dropOut node i).id = node.id := by
  unfold dropOut; split <;> rfl

@[simp] theorem dropIn_id : (dropIn node i).id = node.id := by
  unfold dropIn; split <;> rfl

@[simp] theorem dropOut_state : (dropOut node i).state = node.state := by
  unfold dropOut; split <;> rfl

@[simp] theorem dropIn_state : (dropIn node i).state = node.state := by
  unfold dropIn; split <;> rfl

@[simp] theorem dropOut_inEdges : (dropOut node i).inEdges = node.inEdges := by
  unfold dropOut; split <;> rfl

@[simp] theorem dropIn_outEdges : (dropIn node i).outEdges = node.outEdges := by
  unfold dropIn; split <;> rfl

@[simp] theorem dropOut_indegree : (dropOut node i).indegree = node.indegree := by
  unfold dropOut; split <;> rfl

@[simp] theorem dropIn_outdegree : (dropIn node i).outdegree = node.outdegree := by
  unfold dropIn; split <;> rfl

theorem dropOut_outdegree : (dropOut node i).outdegree =
    if i ∈ node.outEdges then node.outdegree - 1 else node.outdegree := by
  simp only [dropOut, List.contains_iff_mem]
  split <;> rfl

theorem dropIn_indegree : (dropIn node i).indegree =
    if i ∈ node.inEdges then node.indegree - 1 else node.indegree := by
  simp only [dropIn, List.contains_iff_mem]
  split <;> rfl

end Drop

/-- What the two writes leave in node `u`, also when they are to the same node. -/
theorem nodes_unlinkNodes (dag : Jdag) (fi ti u : Nat) :
    (unlinkNodes dag fi ti).nodes u =
      if u = ti then dropIn (if u = fi then dropOut (dag.nodes u) ti else dag.nodes u) fi
      else if u = fi then dropOut (dag.nodes u) ti else dag.nodes u := by
  simp only [unlinkNodes, nodes_setNode]
  split_ifs <;> simp_all

theorem id_unlinkNodes (dag : Jdag) (fi ti u : Nat) :
    ((unlinkNodes dag fi ti).nodes u).id = (dag.nodes u).id := by
  rw [nodes_unlinkNodes]
  split_ifs <;> simp

theorem state_unlinkNodes (dag : Jdag) (fi ti u : Nat) :
    ((unlinkNodes dag fi ti).nodes u).state = (dag.nodes u).state := by
  rw [nodes_unlinkNodes]
  split_ifs <;> simp

theorem outEdges_unlinkNodes (dag : Jdag) (fi ti u : Nat) :
    ((unlinkNodes dag fi ti).nodes u).outEdges =
      if u = fi then (dropOut (dag.nodes u) ti).outEdges else (dag.nodes u).outEdges := by
  rw [nodes_unlinkNodes]
  split_ifs <;> simp

theorem outdegree_unlinkNodes (dag : Jdag) (fi ti u : Nat) :
    ((unlinkNodes dag fi ti).nodes u).outdegree =
      if u = fi then (dropOut (dag.nodes u) ti).outdegree else (dag.nodes u).outdegree := by
  rw [nodes_unlinkNodes]
  split_ifs <;> simp

theorem inEdges_unlinkNodes (dag : Jdag) (fi ti u : Nat) :
    ((unlinkNodes dag fi ti).nodes u).inEdges =
      if u = ti then (dropIn (dag.nodes u) fi).inEdges else (dag.nodes u).inEdges := by
  rw [nodes_unlinkNodes]
  split_ifs
  · simp [dropIn, apply_ite JdagNode.inEdges]
  · simp
  · simp
  · rfl

theorem indegree_unlinkNodes (dag : Jdag) (fi ti u : Nat) :
    ((unlinkNodes dag fi ti).nodes u).indegree =
      if u = ti then (dropIn (dag.nodes u) fi).indegree else (dag.nodes u).indegree := by
  rw [nodes_unlinkNodes]
  split_ifs <;> simp [dropIn_indegree]

theorem Indexed.unlinkNodes {dag : Jdag} (h : Indexed dag) (fi ti : Nat) :
    Indexed (unlinkNodes dag fi ti) := h.frame rfl rfl (id_unlinkNodes dag fi ti)

theorem Represents.unlinkNodes {dag : Jdag} {E : Nat → Nat → Prop} (h : Represents dag E)
    (fi ti : Nat) :
    Represents (unlinkNodes dag fi ti) fun u v => E u v ∧ ¬(u = fi ∧ v = ti) := by
  constructor
  · intro u hu
    rw [outEdges_unlinkNodes]
    split
    · rw [(outEdges_dropOut_perm _ ti).nodup_iff]
      exact (h.out_nodup u hu).erase ti
    · exact h.out_nodup u hu
  · intro u hu v
    rw [outEdges_unlinkNodes]
    split
    · next hufi =>
        rw [(outEdges_dropOut_perm _ ti).mem_iff, (h.out_nodup u hu).mem_erase_iff,
          h.mem_out u hu]
        simp [hufi, and_comm]
    · next hufi =>
        rw [h.mem_out u hu]
        simp [hufi]
  · intro v hv
    rw [inEdges_unlinkNodes]
    split
    · rw [(inEdges_dropIn_perm _ fi).nodup_iff]
      exact (h.in_nodup v hv).erase fi
    · exact h.in_nodup v hv
  · intro v hv u
    rw [inEdges_unlinkNodes]
    split
    · next hvti =>
        rw [(inEdges_dropIn_perm _ fi).mem_iff, (h.in_nodup v hv).mem_erase_iff,
          h.mem_in v hv]
        simp [hvti, and_comm]
    · next hvti =>
        rw [h.mem_in v hv]
        simp [hvti]
  · rintro u v ⟨huv, -⟩
    exact h.bounded u v huv

/-! ## The degree counters -/

/-- `indegree` counts the predecessors that are not completed yet, `outdegree` all
successors. -/
structure Counted (dag : Jdag) : Prop where
  indegree_eq : ∀ v < dag.nodeCount, (dag.nodes v).indegree =
    (dag.nodes v).inEdges.countP fun u => (dag.nodes u).state ≠ .completed
  outdegree_eq : ∀ u < dag.nodeCount, (dag.nodes u).outdegree = (dag.nodes u).outEdges.length

theorem counted_jdagCreate (maxNodes : Int) : Counted (jdagCreate maxNodes) where
  indegree_eq u hu := absurd hu (Nat.not_lt_zero u)
  outdegree_eq u hu := absurd hu (Nat.not_lt_zero u)

theorem Counted.appended {dag : Jdag} {E : Nat → Nat → Prop} (h : Counted dag)
    (hrep : Represents dag E) (id : UInt64) (name : Option CString.CStr) (priority : Int) :
    Counted (appended dag (newNode id name priority)) := by
  have hcases : ∀ u < dag.nodeCount + 1, u < dag.nodeCount ∨ u = dag.nodeCount := by
    intro u hu
    omega
  constructor
  · intro v hv
    obtain hlt | rfl := hcases v hv
    · rw [nodes_appended_of_lt _ hlt, h.indegree_eq v hlt]
      congr 1
      refine List.countP_congr fun u hu => ?_
      rw [nodes_appended_of_lt _ (hrep.bounded u v ((hrep.mem_in v hlt u).mp hu)).1]
    · rw [nodes_appended_last]
      rfl
  · intro u hu
    obtain hlt | rfl := hcases u hu
    · rw [nodes_appended_of_lt _ hlt]
      exact h.outdegree_eq u hlt
    · rw [nodes_appended_last]
      rfl

theorem Counted.linkNodes {dag : Jdag} (h : Counted dag) {fi ti : Nat}
    (hfi : fi < dag.nodeCount) (hti : ti < dag.nodeCount)
    (hlive : (dag.nodes fi).state ≠ .completed) : Counted (linkNodes dag fi ti) := by
  constructor
  · intro v hv
    simp only [state_linkNodes, indegree_linkNodes, inEdges_linkNodes]
    split
    · rw [List.countP_append, h.indegree_eq ti hti]
      simp [hlive]
    · exact h.indegree_eq v hv
  · intro u hu
    simp only [outdegree_linkNodes, outEdges_linkNodes]
    split
    · rw [h.outdegree_eq fi hfi, List.length_append]
      simp
    · exact h.outdegree_eq u hu

theorem countP_erase_eq {p : Nat → Bool} {l : List Nat} {a : Nat} (ha : a ∈ l)
    (hp : p a = true) : (l.erase a).countP p + 1 = l.countP p := by
  rw [(List.perm_cons_erase ha).countP_eq p, List.countP_cons_of_pos hp]

theorem Counted.unlinkNodes {dag : Jdag} (h : Counted dag) {fi ti : Nat}
    (hlive : fi ∈ (dag.nodes ti).inEdges → (dag.nodes fi).state ≠ .completed) :
    Counted (unlinkNodes dag fi ti) := by
  constructor
  · intro v hv
    simp only [state_unlinkNodes, indegree_unlinkNodes, inEdges_unlinkNodes]
    split
    · next hvti =>
        subst hvti
        rw [(inEdges_dropIn_perm _ fi).countP_eq, dropIn_indegree, h.indegree_eq v hv]
        split
        · next hmem =>
            rw [← countP_erase_eq hmem (by simpa using hlive hmem)]
            omega
        · next hmem => rw [List.erase_of_not_mem hmem]
    · exact h.indegree_eq v hv
  · intro u hu
    simp only [outdegree_unlinkNodes, outEdges_unlinkNodes]
    split
    · rw [(outEdges_dropOut_perm _ ti).length_eq, dropOut_outdegree, h.outdegree_eq u hu]
      split
      · next hmem =>
          rw [List.length_erase_of_mem hmem]
          have := List.length_pos_of_mem hmem
          omega
      · next hmem => rw [List.erase_of_not_mem hmem]
    · exact h.outdegree_eq u hu

/-! ## Removing all edges of a node -/

structure SameNodes (dag dag' : Jdag) : Prop where
  count : dag'.nodeCount = dag.nodeCount
  maxNodes : dag'.maxNodes = dag.maxNodes
  id : ∀ u, (dag'.nodes u).id = (dag.nodes u).id
  state : ∀ u, (dag'.nodes u).state = (dag.nodes u).state

theorem SameNodes.refl (dag : Jdag) : SameNodes dag dag :=
  ⟨rfl, rfl, fun _ => rfl, fun _ => rfl⟩

theorem SameNodes.unlinkNodes {dag dag' : Jdag} (h : SameNodes dag dag') (fi ti : Nat) :
    SameNodes dag (unlinkNodes dag' fi ti) where
  count := h.count
  maxNodes := h.maxNodes
  id u := by rw [id_unlinkNodes, h.id]
  state u := by rw [state_unlinkNodes, h.state]

theorem SameNodes.indexed {dag dag' : Jdag} (h : SameNodes dag dag') (hidx : Indexed dag) :
    Indexed dag' := hidx.frame h.maxNodes h.count h.id

theorem isolateStep_eq {dag : Jdag} (h : Indexed dag) {idx i : Nat}
    (hidx : idx < dag.nodeCount) (hi : i < dag.nodeCount) (hne : i ≠ idx) :
    isolateStep (dag.nodes idx).id idx dag i =
      unlinkNodes (unlinkNodes dag i idx) idx i := by
  have h' : Indexed (unlinkNodes dag i idx) := h.unlinkNodes i idx
  have hfirst : jdagRemoveEdge dag (dag.nodes i).id (dag.nodes idx).id =
      (0, unlinkNodes dag i idx) := by
    rw [jdagRemoveEdge, h.find_self hi, h.find_self hidx]
  have hidx' : jdagFindNode (unlinkNodes dag i idx) (dag.nodes idx).id = some idx := by
    rw [← id_unlinkNodes dag i idx idx]
    exact h'.find_self hidx
  have hsecond : jdagRemoveEdge (unlinkNodes dag i idx) (dag.nodes idx).id
      ((unlinkNodes dag i idx).nodes i).id =
        (0, unlinkNodes (unlinkNodes dag i idx) idx i) := by
    rw [jdagRemoveEdge, hidx', h'.find_self hi]
  rw [isolateStep, if_neg hne, hfirst]
  dsimp only
  rw [hsecond]

/-- The loop invariant: after `k` iterations no edge joins `idx` to an index below `k`. -/
theorem isolate_prefix {dag : Jdag} {E : Nat → Nat → Prop} (hidx : Indexed dag)
    (hrep : Represents dag E) {idx : Nat} (hlt : idx < dag.nodeCount) {k : Nat}
    (hk : k ≤ dag.nodeCount) :
    SameNodes dag ((List.range k).foldl (isolateStep (dag.nodes idx).id idx) dag) ∧
      Represents ((List.range k).foldl (isolateStep (dag.nodes idx).id idx) dag)
        (fun u v => E u v ∧ ¬(u < k ∧ v = idx) ∧ ¬(u = idx ∧ v < k)) ∧
      (Counted dag → (∀ u < dag.nodeCount, (dag.nodes u).state ≠ .completed) →
        Counted ((List.range k).foldl (isolateStep (dag.nodes idx).id idx) dag)) := by
  induction k with
  | zero => exact ⟨SameNodes.refl dag, hrep.congr (by simp), fun h _ => h⟩
  | succ k ih =>
      obtain ⟨hsame, hrep', hcounted⟩ := ih (by omega)
      rw [List.range_succ, List.foldl_append, List.foldl_cons, List.foldl_nil]
      generalize (List.range k).foldl (isolateStep (dag.nodes idx).id idx) dag = dag' at *
      by_cases hki : k = idx
      · -- no node has an edge to itself
        subst hki
        rw [isolateStep, if_pos rfl]
        refine ⟨hsame, hrep'.congr fun u v => ?_, hcounted⟩
        constructor
        · rintro ⟨huv, hu, hv⟩
          have := (hrep.bounded u v huv).2.2
          exact ⟨huv, by omega, by omega⟩
        · rintro ⟨huv, hu, hv⟩
          exact ⟨huv, by omega, by omega⟩
      · have hk' : k < dag'.nodeCount := by rw [hsame.count]; omega
        have hlt' : idx < dag'.nodeCount := by rw [hsame.count]; omega
        rw [← hsame.id idx, isolateStep_eq (hsame.indexed hidx) hlt' hk' hki]
        refine ⟨(hsame.unlinkNodes k idx).unlinkNodes idx k,
          ((hrep'.unlinkNodes k idx).unlinkNodes idx k).congr fun u v => ?_, fun hc hlive => ?_⟩
        · constructor
          · rintro ⟨⟨⟨huv, hu, hv⟩, h1⟩, h2⟩
            exact ⟨huv, by omega, by omega⟩
          · rintro ⟨huv, hu, hv⟩
            exact ⟨⟨⟨huv, by omega, by omega⟩, by omega⟩, by omega⟩
        · have hlive' : ∀ u < dag.nodeCount, (dag'.nodes u).state ≠ .completed := by
            intro u hu
            rw [hsame.state]
            exact hlive u hu
          refine ((hcounted hc hlive).unlinkNodes fun _ => hlive' k (by omega)).unlinkNodes
            fun _ => ?_
          rw [state_unlinkNodes]
          exact hlive' idx hlt

theorem isolate_spec {dag : Jdag} {E : Nat → Nat → Prop} (hidx : Indexed dag)
    (hrep : Represents dag E) {idx : Nat} (hlt : idx < dag.nodeCount) :
    SameNodes dag (isolate dag (dag.nodes idx).id idx) ∧
      Represents (isolate dag (dag.nodes idx).id idx)
        (fun u v => E u v ∧ u ≠ idx ∧ v ≠ idx) ∧
      (Counted dag → (∀ u < dag.nodeCount, (dag.nodes u).state ≠ .completed) →
        Counted (isolate dag (dag.nodes idx).id idx)) := by
  obtain ⟨hsame, hrep', hcounted⟩ := isolate_prefix hidx hrep hlt (Nat.le_refl _)
  refine ⟨hsame, hrep'.congr fun u v => ?_, hcounted⟩
  constructor
  · rintro ⟨huv, hu, hv⟩
    have := hrep.bounded u v huv
    exact ⟨huv, by omega, by omega⟩
  · rintro ⟨huv, hu, hv⟩
    exact ⟨huv, by omega, by omega⟩

/-! ## Compacting the array -/

def origin (last idx u : Nat) : Nat := if u = idx then last else u

theorem nodes_compact (dag : Jdag) {idx u : Nat} (hu : u < dag.nodeCount - 1) :
    (compact dag idx).nodes u =
      renumber (dag.nodeCount - 1) idx (dag.nodes (origin (dag.nodeCount - 1) idx u)) := by
  simp only [compact, if_pos hu, Function.update_apply, origin]
  split <;> rfl

/-- The renumbering of the edge lists undoes the move. -/
theorem renumber_origin {last : Nat} (idx : Nat) {u : Nat} (hu : u < last) :
    (if origin last idx u = last then idx else origin last idx u) = u := by
  unfold origin
  split_ifs <;> omega

theorem origin_renumber (last : Nat) {idx x : Nat} (hx : x ≠ idx) :
    origin last idx (if x = last then idx else x) = x := by
  unfold origin
  split_ifs <;> omega

theorem mem_renumbered {last idx : Nat} {l : List Nat} (hl : ∀ x ∈ l, x ≤ last ∧ x ≠ idx)
    {v : Nat} (hidx : idx ≤ last) :
    v ∈ l.map (fun x => if x = last then idx else x) ↔
      v < last ∧ origin last idx v ∈ l := by
  rw [List.mem_map]
  constructor
  · rintro ⟨x, hx, rfl⟩
    rw [origin_renumber last (hl x hx).2]
    refine ⟨?_, hx⟩
    have := hl x hx
    split_ifs <;> omega
  · rintro ⟨hv, hmem⟩
    exact ⟨_, hmem, renumber_origin idx hv⟩

theorem nodup_renumbered {last idx : Nat} {l : List Nat} (hl : ∀ x ∈ l, x ≠ idx)
    (hnodup : l.Nodup) : (l.map fun x => if x = last then idx else x).Nodup := by
  refine hnodup.map_on fun x hx y hy hxy => ?_
  rw [← origin_renumber last (hl x hx), hxy, origin_renumber last (hl y hy)]

theorem origin_lt {n idx u : Nat} (hu : u < n - 1) : origin (n - 1) idx u < n := by
  unfold origin
  split_ifs <;> omega

/-- Compacting an array in which `idx` has no edges relabels the graph. -/
theorem Represents.compact {dag : Jdag} {E : Nat → Nat → Prop} (h : Represents dag E)
    {idx : Nat} (hidx : idx < dag.nodeCount) (hfree : ∀ u v, E u v → u ≠ idx ∧ v ≠ idx) :
    Represents (compact dag idx) fun u v => u < dag.nodeCount - 1 ∧ v < dag.nodeCount - 1 ∧
      E (origin (dag.nodeCount - 1) idx u) (origin (dag.nodeCount - 1) idx v) := by
  have hout : ∀ u < dag.nodeCount, ∀ x ∈ (dag.nodes u).outEdges,
      x ≤ dag.nodeCount - 1 ∧ x ≠ idx := by
    intro u hu x hx
    have hE := (h.mem_out u hu x).mp hx
    have := h.bounded u x hE
    exact ⟨by omega, (hfree u x hE).2⟩
  have hin : ∀ v < dag.nodeCount, ∀ x ∈ (dag.nodes v).inEdges,
      x ≤ dag.nodeCount - 1 ∧ x ≠ idx := by
    intro v hv x hx
    have hE := (h.mem_in v hv x).mp hx
    have := h.bounded x v hE
    exact ⟨by omega, (hfree x v hE).1⟩
  constructor
  · intro u hu
    rw [nodes_compact dag hu]
    exact nodup_renumbered (fun x hx => (hout _ (origin_lt hu) x hx).2)
      (h.out_nodup _ (origin_lt hu))
  · intro u hu v
    have hu' : u < dag.nodeCount - 1 := hu
    rw [nodes_compact dag hu, renumber, mem_renumbered (hout _ (origin_lt hu)) (by omega),
      h.mem_out _ (origin_lt hu)]
    simp [hu']
  · intro v hv
    rw [nodes_compact dag hv]
    exact nodup_renumbered (fun x hx => (hin _ (origin_lt hv) x hx).2)
      (h.in_nodup _ (origin_lt hv))
  · intro v hv u
    have hv' : v < dag.nodeCount - 1 := hv
    rw [nodes_compact dag hv, renumber, mem_renumbered (hin _ (origin_lt hv)) (by omega),
      h.mem_in _ (origin_lt hv)]
    simp [hv']
  · rintro u v ⟨hu, hv, huv⟩
    refine ⟨hu, hv, ?_⟩
    rintro rfl
    exact (h.bounded _ _ huv).2.2 rfl

theorem origin_injective {n idx u v : Nat} (hu : u < n - 1) (hv : v < n - 1)
    (h : origin (n - 1) idx u = origin (n - 1) idx v) : u = v := by
  rw [← renumber_origin idx hu, h, renumber_origin idx hv]

theorem Indexed.compact {dag : Jdag} (h : Indexed dag) {idx : Nat} :
    Indexed (compact dag idx) where
  maxNodes_le := h.maxNodes_le
  count_le := by
    have := h.count_le
    show dag.nodeCount - 1 ≤ dag.maxNodes
    omega
  id_injective u hu v hv huv := by
    rw [nodes_compact dag hu, nodes_compact dag hv] at huv
    exact origin_injective hu hv (h.id_injective _ (origin_lt hu) _ (origin_lt hv) huv)

theorem Counted.compact {dag : Jdag} {E : Nat → Nat → Prop} (h : Counted dag)
    (hrep : Represents dag E) {idx : Nat} (hidx : idx < dag.nodeCount)
    (hfree : ∀ u v, E u v → u ≠ idx ∧ v ≠ idx) : Counted (compact dag idx) := by
  constructor
  · intro v hv
    have hv' : v < dag.nodeCount - 1 := hv
    rw [nodes_compact dag hv, renumber]
    dsimp only
    rw [h.indegree_eq _ (origin_lt hv), List.countP_map]
    congr 1
    refine List.countP_congr fun x hx => ?_
    have hE := (hrep.mem_in _ (origin_lt hv) x).mp hx
    have hx' := hrep.bounded _ _ hE
    have hne := (hfree _ _ hE).1
    -- the renumbered reference points to the same node
    have hlt : (if x = dag.nodeCount - 1 then idx else x) < dag.nodeCount - 1 := by
      split_ifs <;> omega
    rw [Function.comp_apply, nodes_compact dag hlt, origin_renumber _ hne]
    rfl
  · intro u hu
    rw [nodes_compact dag hu, renumber]
    dsimp only
    rw [List.length_map]
    exact h.outdegree_eq _ (origin_lt hu)

/-! ## Removing a node -/

structure Linked (dag : Jdag) : Prop where
  indexed : Indexed dag
  represents : Represents dag (Adj dag)

theorem Represents.linked {dag : Jdag} {E : Nat → Nat → Prop} (h : Represents dag E)
    (hidx : Indexed dag) : Linked dag :=
  ⟨hidx, h.congr fun _ _ => h.adj_iff.symm⟩

theorem Linked.out_lt {dag : Jdag} (h : Linked dag) {u : Nat} (hu : u < dag.nodeCount) :
    ∀ v ∈ (dag.nodes u).outEdges, v < dag.nodeCount :=
  fun v hv => (h.represents.bounded u v ⟨hu, hv⟩).2.1

theorem linked_jdagCreate (maxNodes : Int) : Linked (jdagCreate maxNodes) :=
  (represents_jdagCreate maxNodes).linked (indexed_jdagCreate maxNodes)

/-- Removal of a node that is there, in terms of the old indices. -/
theorem jdagRemoveNode_spec {dag : Jdag} (h : Linked dag) {id : UInt64} {idx : Nat}
    (hfind : jdagFindNode dag id = some idx) :
    Indexed (jdagRemoveNode dag id).2 ∧
      (jdagRemoveNode dag id).2.nodeCount = dag.nodeCount - 1 ∧
      (∀ u < dag.nodeCount - 1, ((jdagRemoveNode dag id).2.nodes u).id =
        (dag.nodes (origin (dag.nodeCount - 1) idx u)).id ∧
        ((jdagRemoveNode dag id).2.nodes u).state =
        (dag.nodes (origin (dag.nodeCount - 1) idx u)).state) ∧
      Represents (jdagRemoveNode dag id).2 (fun u v =>
        u < dag.nodeCount - 1 ∧ v < dag.nodeCount - 1 ∧
        Adj dag (origin (dag.nodeCount - 1) idx u) (origin (dag.nodeCount - 1) idx v) ∧
        origin (dag.nodeCount - 1) idx u ≠ idx ∧ origin (dag.nodeCount - 1) idx v ≠ idx) ∧
      (Counted dag → (∀ u < dag.nodeCount, (dag.nodes u).state ≠ .completed) →
        Counted (jdagRemoveNode dag id).2) := by
  obtain ⟨hlt, rfl⟩ := jdagFindNode_eq_some hfind
  obtain ⟨hsame, hrep, hcounted⟩ := isolate_spec h.indexed h.represents hlt
  have hremove : (jdagRemoveNode dag (dag.nodes idx).id).2 =
      compact (isolate dag (dag.nodes idx).id idx) idx := by
    rw [jdagRemoveNode, hfind]
  rw [hremove]
  have hfree : ∀ u v, Adj dag u v ∧ u ≠ idx ∧ v ≠ idx → u ≠ idx ∧ v ≠ idx :=
    fun u v huv => huv.2
  have hlt' : idx < (isolate dag (dag.nodes idx).id idx).nodeCount := by
    rw [hsame.count]
    exact hlt
  refine ⟨(hsame.indexed h.indexed).compact, ?_, fun u hu => ?_, ?_, fun hc hlive => ?_⟩
  · show (isolate dag (dag.nodes idx).id idx).nodeCount - 1 = dag.nodeCount - 1
    rw [hsame.count]
  · rw [← hsame.count] at hu ⊢
    rw [nodes_compact _ hu]
    exact ⟨hsame.id _, hsame.state _⟩
  · have hcompact := hrep.compact hlt' hfree
    rw [hsame.count] at hcompact
    exact hcompact
  · exact (hcounted hc hlive).compact hrep hlt' hfree

theorem Linked.removeNode {dag : Jdag} (h : Linked dag) (id : UInt64) :
    Linked (jdagRemoveNode dag id).2 := by
  cases hfind : jdagFindNode dag id with
  | none =>
      rw [jdagRemoveNode, hfind]
      exact h
  | some idx =>
      obtain ⟨hidx, -, -, hrep, -⟩ := jdagRemoveNode_spec h hfind
      exact hrep.linked hidx

/-- The edges that are left are those that did not touch the removed id. -/
theorem edge_jdagRemoveNode {dag : Jdag} (h : Linked dag) (id a b : UInt64) :
    Edge (jdagRemoveNode dag id).2 a b ↔ Edge dag a b ∧ a ≠ id ∧ b ≠ id := by
  cases hfind : jdagFindNode dag id with
  | none =>
      have hsame : (jdagRemoveNode dag id).2 = dag := by rw [jdagRemoveNode, hfind]
      rw [hsame]
      refine ⟨fun hedge => ⟨hedge, ?_⟩, fun hedge => hedge.1⟩
      obtain ⟨u, v, huv, rfl, rfl⟩ := hedge
      have hlt := h.represents.bounded u v huv
      exact ⟨jdagFindNode_eq_none hfind hlt.1, jdagFindNode_eq_none hfind hlt.2.1⟩
  | some idx =>
      obtain ⟨-, -, hid, hrep, -⟩ := jdagRemoveNode_spec h hfind
      obtain ⟨hlt, rfl⟩ := jdagFindNode_eq_some hfind
      constructor
      · rintro ⟨u, v, huv, rfl, rfl⟩
        obtain ⟨hu, hv, hadj, hune, hvne⟩ := hrep.adj_iff.mp huv
        rw [(hid u hu).1, (hid v hv).1]
        have hbound := h.represents.bounded _ _ hadj
        exact ⟨⟨_, _, hadj, rfl, rfl⟩,
          fun heq => hune (h.indexed.id_injective _ hbound.1 _ hlt heq),
          fun heq => hvne (h.indexed.id_injective _ hbound.2.1 _ hlt heq)⟩
      · rintro ⟨⟨u, v, huv, rfl, rfl⟩, hune, hvne⟩
        have hbound := h.represents.bounded u v huv
        have hu : u ≠ idx := fun heq => hune (heq ▸ rfl)
        have hv : v ≠ idx := fun heq => hvne (heq ▸ rfl)
        have hu' : (if u = dag.nodeCount - 1 then idx else u) < dag.nodeCount - 1 := by
          split_ifs <;> omega
        have hv' : (if v = dag.nodeCount - 1 then idx else v) < dag.nodeCount - 1 := by
          split_ifs <;> omega
        refine ⟨_, _, hrep.adj_iff.mpr ⟨hu', hv', ?_⟩, ?_, ?_⟩
        · rw [origin_renumber _ hu, origin_renumber _ hv]
          exact ⟨huv, hu, hv⟩
        · rw [(hid _ hu').1, origin_renumber _ hu]
        · rw [(hid _ hv').1, origin_renumber _ hv]

/-! ## One call -/

/-- An edge is refused with a negative code, or the two nodes are linked. -/
theorem jdagAddEdge_cases (dag : Jdag) (fromId toId : UInt64) :
    ((jdagAddEdge dag fromId toId).1 < 0 ∧ (jdagAddEdge dag fromId toId).2 = dag) ∨
      ∃ fi ti, jdagFindNode dag fromId = some fi ∧ jdagFindNode dag toId = some ti ∧
        fi ≠ ti ∧ ti ∉ (dag.nodes fi).outEdges ∧ jdagWouldCreateCycle dag fromId toId = 0 ∧
        jdagAddEdge dag fromId toId = (0, linkNodes dag fi ti) := by
  unfold jdagAddEdge
  split
  · next fi ti hfi hti =>
      split
      · exact .inl ⟨by simp, rfl⟩
      · next hne =>
          split
          · exact .inl ⟨by simp, rfl⟩
          · next hnew =>
              split
              · exact .inl ⟨by simp, rfl⟩
              · next hcycle =>
                  split
                  · exact .inl ⟨by simp, rfl⟩
                  · split
                    · exact .inl ⟨by simp, rfl⟩
                    · exact .inr ⟨fi, ti, hfi, hti, hne, by simpa using hnew,
                        by simpa using hcycle, rfl⟩
  · exact .inl ⟨by simp, rfl⟩

theorem jdagRemoveEdge_cases (dag : Jdag) (fromId toId : UInt64) :
    (jdagRemoveEdge dag fromId toId).2 = dag ∨
      ∃ fi ti, jdagFindNode dag fromId = some fi ∧ jdagFindNode dag toId = some ti ∧
        (jdagRemoveEdge dag fromId toId).2 = unlinkNodes dag fi ti := by
  unfold jdagRemoveEdge
  split
  · next fi ti hfi hti => exact .inr ⟨fi, ti, hfi, hti, rfl⟩
  · exact .inl rfl

theorem Linked.addNode {dag : Jdag} (h : Linked dag) (id : UInt64)
    (name : Option CString.CStr) (priority : Int) :
    Linked (jdagAddNode dag id name priority).2 := by
  obtain ⟨-, heq⟩ | ⟨hroom, hnew, heq⟩ := jdagAddNode_cases dag id name priority
  · rw [heq]
    exact h
  · rw [heq]
    exact (h.represents.appended rfl rfl).linked (h.indexed.appended hroom hnew)

theorem Linked.addEdge {dag : Jdag} (h : Linked dag) (fromId toId : UInt64) :
    Linked (jdagAddEdge dag fromId toId).2 := by
  obtain ⟨-, heq⟩ | ⟨fi, ti, hfi, hti, hne, hnew, -, heq⟩ := jdagAddEdge_cases dag fromId toId
  · rw [heq]
    exact h
  · rw [heq]
    exact (h.represents.linkNodes (jdagFindNode_eq_some hfi).1 (jdagFindNode_eq_some hti).1 hne
      fun hadj => hnew hadj.2).linked (h.indexed.linkNodes fi ti)

theorem Linked.removeEdge {dag : Jdag} (h : Linked dag) (fromId toId : UInt64) :
    Linked (jdagRemoveEdge dag fromId toId).2 := by
  obtain heq | ⟨fi, ti, -, -, heq⟩ := jdagRemoveEdge_cases dag fromId toId
  · rw [heq]
    exact h
  · rw [heq]
    exact (h.represents.unlinkNodes fi ti).linked (h.indexed.unlinkNodes fi ti)

structure SameEdges (dag dag' : Jdag) : Prop where
  count : dag'.nodeCount = dag.nodeCount
  maxNodes : dag'.maxNodes = dag.maxNodes
  id : ∀ u, (dag'.nodes u).id = (dag.nodes u).id
  outEdges : ∀ u, (dag'.nodes u).outEdges = (dag.nodes u).outEdges
  inEdges : ∀ u, (dag'.nodes u).inEdges = (dag.nodes u).inEdges

theorem SameEdges.refl (dag : Jdag) : SameEdges dag dag :=
  ⟨rfl, rfl, fun _ => rfl, fun _ => rfl, fun _ => rfl⟩

theorem SameEdges.trans {dag dag' dag'' : Jdag} (h : SameEdges dag dag')
    (h' : SameEdges dag' dag'') : SameEdges dag dag'' where
  count := h'.count.trans h.count
  maxNodes := h'.maxNodes.trans h.maxNodes
  id u := (h'.id u).trans (h.id u)
  outEdges u := (h'.outEdges u).trans (h.outEdges u)
  inEdges u := (h'.inEdges u).trans (h.inEdges u)

theorem SameEdges.linked {dag dag' : Jdag} (h : SameEdges dag dag') (hlinked : Linked dag) :
    Linked dag' :=
  (hlinked.represents.frame h.count h.outEdges h.inEdges).linked
    (hlinked.indexed.frame h.maxNodes h.count h.id)

/-- Writes that keep the id and the lists of one node. -/
theorem sameEdges_setNode {dag : Jdag} {i : Nat} {node : JdagNode}
    (hid : node.id = (dag.nodes i).id) (hout : node.outEdges = (dag.nodes i).outEdges)
    (hin : node.inEdges = (dag.nodes i).inEdges) : SameEdges dag (setNode dag i node) := by
  refine ⟨rfl, rfl, fun u => ?_, fun u => ?_, fun u => ?_⟩ <;>
    rw [nodes_setNode] <;> split <;> simp_all

theorem sameEdges_foldl {f : Jdag → Nat → Jdag} (hf : ∀ dag i, SameEdges dag (f dag i))
    (l : List Nat) (dag : Jdag) : SameEdges dag (l.foldl f dag) := by
  induction l generalizing dag with
  | nil => exact SameEdges.refl dag
  | cons i l ih => exact (hf dag i).trans (ih (f dag i))

theorem sameEdges_lowerIndegree (dag : Jdag) (succ : Nat) :
    SameEdges dag (lowerIndegree dag succ) := by
  unfold lowerIndegree
  split
  · exact sameEdges_setNode rfl rfl rfl
  · exact SameEdges.refl dag

theorem sameEdges_skipNode (dag : Jdag) (succ : Nat) : SameEdges dag (skipNode dag succ) := by
  unfold skipNode
  split
  · exact sameEdges_setNode rfl rfl rfl
  · exact SameEdges.refl dag

theorem sameEdges_jdagMarkCompleted (dag : Jdag) (id : UInt64) (now : Int) :
    SameEdges dag (jdagMarkCompleted dag id now).2 := by
  unfold jdagMarkCompleted
  split
  · exact SameEdges.refl dag
  · next idx _ =>
      have hset : SameEdges dag (setNode dag idx (completed (dag.nodes idx) now)) :=
        sameEdges_setNode rfl rfl rfl
      exact hset.trans (sameEdges_foldl sameEdges_lowerIndegree _ _)

theorem sameEdges_jdagMarkFailed (dag : Jdag) (id : UInt64) :
    SameEdges dag (jdagMarkFailed dag id).2 := by
  unfold jdagMarkFailed
  split
  · exact SameEdges.refl dag
  · next idx _ =>
      have hset : SameEdges dag (setNode dag idx (withState (dag.nodes idx) .failed)) :=
        sameEdges_setNode rfl rfl rfl
      exact hset.trans (sameEdges_foldl sameEdges_skipNode _ _)

/-- Every call keeps the two families of edge lists consistent. -/
theorem linked_step (dag : Jdag) (op : Op) (h : Linked dag) : Linked (step dag op) := by
  cases op with
  | addNode id name priority => exact h.addNode id name priority
  | removeNode id => exact h.removeNode id
  | addEdge fromId toId => exact h.addEdge fromId toId
  | removeEdge fromId toId => exact h.removeEdge fromId toId
  | markCompleted id now => exact (sameEdges_jdagMarkCompleted dag id now).linked h
  | markFailed id => exact (sameEdges_jdagMarkFailed dag id).linked h
  | getReadyNodes max => exact h

/-! ## Runs -/

structure Fresh (dag : Jdag) : Prop where
  linked : Linked dag
  counted : Counted dag
  notCompleted : ∀ u < dag.nodeCount, (dag.nodes u).state ≠ .completed

theorem fresh_jdagCreate (maxNodes : Int) : Fresh (jdagCreate maxNodes) :=
  ⟨linked_jdagCreate maxNodes, counted_jdagCreate maxNodes,
    fun u hu => absurd hu (Nat.not_lt_zero u)⟩

theorem Fresh.addNode {dag : Jdag} (h : Fresh dag) (id : UInt64)
    (name : Option CString.CStr) (priority : Int) :
    Fresh (jdagAddNode dag id name priority).2 := by
  refine ⟨h.linked.addNode id name priority, ?_, ?_⟩
  · obtain ⟨-, heq⟩ | ⟨-, -, heq⟩ := jdagAddNode_cases dag id name priority
    · rw [heq]
      exact h.counted
    · rw [heq]
      exact h.counted.appended h.linked.represents id name priority
  · obtain ⟨-, heq⟩ | ⟨-, -, heq⟩ := jdagAddNode_cases dag id name priority
    · rw [heq]
      exact h.notCompleted
    · rw [heq]
      intro u hu
      obtain hlt | rfl : u < dag.nodeCount ∨ u = dag.nodeCount := by
        have : u < dag.nodeCount + 1 := hu
        omega
      · rw [nodes_appended_of_lt _ hlt]
        exact h.notCompleted u hlt
      · rw [nodes_appended_last]
        simp [newNode, zeroNode]

theorem Fresh.removeNode {dag : Jdag} (h : Fresh dag) (id : UInt64) :
    Fresh (jdagRemoveNode dag id).2 := by
  cases hfind : jdagFindNode dag id with
  | none =>
      rw [jdagRemoveNode, hfind]
      exact h
  | some idx =>
      obtain ⟨-, hcount, hstate, -, hcounted⟩ := jdagRemoveNode_spec h.linked hfind
      refine ⟨h.linked.removeNode id, hcounted h.counted h.notCompleted, fun u hu => ?_⟩
      rw [hcount] at hu
      rw [(hstate u hu).2]
      exact h.notCompleted _ (origin_lt hu)

theorem Fresh.addEdge {dag : Jdag} (h : Fresh dag) (fromId toId : UInt64) :
    Fresh (jdagAddEdge dag fromId toId).2 := by
  obtain ⟨-, heq⟩ | ⟨fi, ti, hfi, hti, -, -, -, heq⟩ := jdagAddEdge_cases dag fromId toId
  · rw [heq]
    exact h
  · refine ⟨h.linked.addEdge fromId toId, ?_, ?_⟩
    · rw [heq]
      have hfi' := (jdagFindNode_eq_some hfi).1
      exact h.counted.linkNodes hfi' (jdagFindNode_eq_some hti).1 (h.notCompleted fi hfi')
    · rw [heq]
      intro u hu
      rw [state_linkNodes]
      exact h.notCompleted u hu

theorem Fresh.removeEdge {dag : Jdag} (h : Fresh dag) (fromId toId : UInt64) :
    Fresh (jdagRemoveEdge dag fromId toId).2 := by
  obtain heq | ⟨fi, ti, hfi, -, heq⟩ := jdagRemoveEdge_cases dag fromId toId
  · rw [heq]
    exact h
  · refine ⟨h.linked.removeEdge fromId toId, ?_, ?_⟩
    · rw [heq]
      exact h.counted.unlinkNodes fun _ => h.notCompleted fi (jdagFindNode_eq_some hfi).1
    · rw [heq]
      intro u hu
      rw [state_unlinkNodes]
      exact h.notCompleted u hu

theorem fresh_step (dag : Jdag) (op : Op) (h : Fresh dag) (hop : op.Structural) :
    Fresh (step dag op) := by
  cases op with
  | addNode id name priority => exact h.addNode id name priority
  | removeNode id => exact h.removeNode id
  | addEdge fromId toId => exact h.addEdge fromId toId
  | removeEdge fromId toId => exact h.removeEdge fromId toId
  | markCompleted id now => exact hop.elim
  | markFailed id => exact hop.elim
  | getReadyNodes max => exact hop.elim

theorem fresh_run (maxNodes : Int) {ops : List Op} (hops : ∀ op ∈ ops, op.Structural) :
    Fresh (run step (jdagCreate maxNodes) ops) :=
  run_invariant step fresh_step (fresh_jdagCreate maxNodes)
    (always_of_forall step (fun _ _ h => h) hops _)

theorem linked_run (maxNodes : Int) (ops : List Op) :
    Linked (run step (jdagCreate maxNodes) ops) :=
  run_keeps step linked_step (linked_jdagCreate maxNodes) ops

/-- What a client of the graph relies on, in terms of the arrays alone. -/
structure WellFormed (dag : Jdag) : Prop where
  id_injective : ∀ u < dag.nodeCount, ∀ v < dag.nodeCount,
    (dag.nodes u).id = (dag.nodes v).id → u = v
  out_valid : ∀ u < dag.nodeCount, ∀ v ∈ (dag.nodes u).outEdges, v < dag.nodeCount ∧ v ≠ u
  in_valid : ∀ u < dag.nodeCount, ∀ v ∈ (dag.nodes u).inEdges, v < dag.nodeCount ∧ v ≠ u
  out_nodup : ∀ u < dag.nodeCount, (dag.nodes u).outEdges.Nodup
  in_nodup : ∀ u < dag.nodeCount, (dag.nodes u).inEdges.Nodup
  mem_out_iff_mem_in : ∀ u < dag.nodeCount, ∀ v < dag.nodeCount,
    v ∈ (dag.nodes u).outEdges ↔ u ∈ (dag.nodes v).inEdges
  indegree_eq : ∀ u < dag.nodeCount, (dag.nodes u).indegree = (dag.nodes u).inEdges.length
  outdegree_eq : ∀ u < dag.nodeCount, (dag.nodes u).outdegree = (dag.nodes u).outEdges.length

theorem Fresh.indegree_eq_length {dag : Jdag} (h : Fresh dag) {v : Nat}
    (hv : v < dag.nodeCount) : (dag.nodes v).indegree = (dag.nodes v).inEdges.length := by
  rw [h.counted.indegree_eq v hv, List.countP_eq_length.mpr]
  intro u hu
  have hadj := (h.linked.represents.mem_in v hv u).mp hu
  simpa using h.notCompleted u hadj.1

theorem Fresh.wellFormed {dag : Jdag} (h : Fresh dag) : WellFormed dag where
  id_injective := h.linked.indexed.id_injective
  out_valid u hu v hv := by
    have hbound := h.linked.represents.bounded u v ((h.linked.represents.mem_out u hu v).mp hv)
    exact ⟨hbound.2.1, hbound.2.2.symm⟩
  in_valid u hu v hv := by
    have hbound := h.linked.represents.bounded v u ((h.linked.represents.mem_in u hu v).mp hv)
    exact ⟨hbound.1, hbound.2.2⟩
  out_nodup := h.linked.represents.out_nodup
  in_nodup := h.linked.represents.in_nodup
  mem_out_iff_mem_in u hu v hv := by
    rw [h.linked.represents.mem_out u hu v, h.linked.represents.mem_in v hv u]
  indegree_eq u hu := h.indegree_eq_length hu
  outdegree_eq := h.counted.outdegree_eq

/-- Every sequence of structural calls keeps the representation, and the removal of a
node leaves exactly the edges that did not touch it. -/
theorem structural_run_wellFormed (maxNodes : Int) {ops : List Op}
    (hops : ∀ op ∈ ops, op.Structural) :
    WellFormed (run step (jdagCreate maxNodes) ops) ∧
      ∀ id a b, Edge (jdagRemoveNode (run step (jdagCreate maxNodes) ops) id).2 a b ↔
        Edge (run step (jdagCreate maxNodes) ops) a b ∧ a ≠ id ∧ b ≠ id :=
  ⟨(fresh_run maxNodes hops).wellFormed,
    edge_jdagRemoveNode (fresh_run maxNodes hops).linked⟩

/-- A diamond whose first node is removed again, with one removal of an absent edge. -/
def diamondRun : List Op :=
  [.addNode 1 none 0, .addNode 2 none 0, .addNode 3 none 0, .addNode 4 none 0,
    .addEdge 1 2, .addEdge 1 3, .addEdge 2 4, .addEdge 3 4, .removeEdge 2 3, .removeNode 1]

theorem structural_run_wellFormed_diamond :
    (∀ op ∈ diamondRun, op.Structural) ∧ WellFormed (run step (jdagCreate 8) diamondRun) := by
  have hops : ∀ op ∈ diamondRun, op.Structural := by simp [diamondRun, Op.Structural]
  exact ⟨hops, (structural_run_wellFormed 8 hops).1⟩

end MiniBackend.JobSystem.Proofs.DagInvariant
