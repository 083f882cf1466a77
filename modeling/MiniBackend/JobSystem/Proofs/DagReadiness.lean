import MiniBackend.JobSystem.Proofs.DagInvariant

/-!
# Readiness over whole executions

A node is handed out as ready when its `indegree` is zero, so the counter has to be
the number of predecessors that are not completed.  Calls that complete a node twice,
fail a completed node, or add or remove an edge that leaves a completed node move the
counter without moving that number; every other call keeps the two equal.
-/

namespace MiniBackend.JobSystem.Proofs.DagReadiness

open MiniBackend.Lib MiniBackend.Lib.Runs MiniBackend.JobSystem.JobDag
open MiniBackend.JobSystem.Proofs.DagInvariant

/-- The counters are right, and what `jdag_get_ready_nodes` hands out is pending with
all predecessors completed. -/
def ReadinessSafe (dag : Jdag) : Prop :=
  (∀ v < dag.nodeCount, (dag.nodes v).indegree =
      (dag.nodes v).inEdges.countP fun u => (dag.nodes u).state ≠ .completed) ∧
    ∀ max, ∀ id ∈ jdagGetReadyNodes dag max, ∃ v < dag.nodeCount, (dag.nodes v).id = id ∧
      (dag.nodes v).state = .pending ∧
      ∀ u ∈ (dag.nodes v).inEdges, (dag.nodes u).state = .completed

def Op.Executes : Op → Prop
  | .addEdge .. | .removeEdge .. | .markCompleted .. | .markFailed _ | .getReadyNodes _ => True
  | .addNode .. | .removeNode _ => False

instance : DecidablePred Op.Executes := fun op =>
  match op with
  | .addEdge .. | .removeEdge .. | .markCompleted .. | .markFailed _ | .getReadyNodes _ =>
      .isTrue trivial
  | .addNode .. | .removeNode _ => .isFalse id

/-- The call does not move a counter for an edge that leaves a completed node. -/
def KeepsCounts (dag : Jdag) : Op → Prop
  | .markCompleted id _ => ∀ idx ∈ jdagFindNode dag id, (dag.nodes idx).state = .completed →
      ∀ v ∈ (dag.nodes idx).outEdges, (dag.nodes v).indegree ≤ 0
  | .markFailed id => ∀ idx ∈ jdagFindNode dag id, (dag.nodes idx).state = .completed →
      (dag.nodes idx).outEdges = []
  | .addEdge fromId toId => ∀ fi ∈ jdagFindNode dag fromId, ∀ ti ∈ jdagFindNode dag toId,
      fi ≠ ti → ti ∉ (dag.nodes fi).outEdges → jdagWouldCreateCycle dag fromId toId = 0 →
      (dag.nodes fi).state ≠ .completed
  | .removeEdge fromId toId => ∀ fi ∈ jdagFindNode dag fromId, ∀ ti ∈ jdagFindNode dag toId,
      ti ∈ (dag.nodes fi).outEdges → (dag.nodes fi).state ≠ .completed
  | .addNode .. | .removeNode _ | .getReadyNodes _ => True

instance (dag : Jdag) (op : Op) : Decidable (KeepsCounts dag op) :=
  match op with
  | .markCompleted id _ => inferInstanceAs (Decidable (∀ idx ∈ jdagFindNode dag id,
      (dag.nodes idx).state = .completed →
      ∀ v ∈ (dag.nodes idx).outEdges, (dag.nodes v).indegree ≤ 0))
  | .markFailed id => inferInstanceAs (Decidable (∀ idx ∈ jdagFindNode dag id,
      (dag.nodes idx).state = .completed → (dag.nodes idx).outEdges = []))
  | .addEdge fromId toId => inferInstanceAs (Decidable (∀ fi ∈ jdagFindNode dag fromId,
      ∀ ti ∈ jdagFindNode dag toId, fi ≠ ti → ti ∉ (dag.nodes fi).outEdges →
      jdagWouldCreateCycle dag fromId toId = 0 → (dag.nodes fi).state ≠ .completed))
  | .removeEdge fromId toId => inferInstanceAs (Decidable (∀ fi ∈ jdagFindNode dag fromId,
      ∀ ti ∈ jdagFindNode dag toId, ti ∈ (dag.nodes fi).outEdges →
      (dag.nodes fi).state ≠ .completed))
  | .addNode .. | .removeNode _ | .getReadyNodes _ => .isTrue trivial

/-! ## The loops over the successors -/

theorem nodes_foldl_lowerIndegree {l : List Nat} (hl : l.Nodup) (dag : Jdag) (v : Nat) :
    (l.foldl lowerIndegree dag).nodes v =
      if v ∈ l ∧ 0 < (dag.nodes v).indegree then lowered (dag.nodes v) else dag.nodes v := by
  induction l generalizing dag with
  | nil => simp
  | cons w l ih =>
      obtain ⟨hw, hl⟩ := List.nodup_cons.mp hl
      have hstep : (lowerIndegree dag w).nodes v =
          if v = w ∧ 0 < (dag.nodes w).indegree then lowered (dag.nodes v) else dag.nodes v := by
        unfold lowerIndegree
        split
        · rw [nodes_setNode]
          by_cases hvw : v = w <;> simp_all
        · simp_all
      rw [List.foldl_cons, ih hl, hstep]
      by_cases hvw : v = w
      · subst hvw
        simp [hw]
      · simp [hvw]

theorem foldl_skipNode (l : List Nat) (dag : Jdag) (v : Nat) :
    (((l.foldl skipNode dag).nodes v).state = .completed ↔ (dag.nodes v).state = .completed) ∧
      ((l.foldl skipNode dag).nodes v).indegree = (dag.nodes v).indegree ∧
      ((l.foldl skipNode dag).nodes v).outdegree = (dag.nodes v).outdegree := by
  induction l generalizing dag with
  | nil => simp
  | cons w l ih =>
      obtain ⟨hstate, hin, hout⟩ := ih (skipNode dag w)
      have hstep : (((skipNode dag w).nodes v).state = .completed ↔
          (dag.nodes v).state = .completed) ∧
          ((skipNode dag w).nodes v).indegree = (dag.nodes v).indegree ∧
          ((skipNode dag w).nodes v).outdegree = (dag.nodes v).outdegree := by
        unfold skipNode
        split
        · next hpending =>
            rw [nodes_setNode]
            by_cases hvw : v = w
            · simp [hvw, withState, hpending]
            · simp [hvw]
        · simp
      rw [List.foldl_cons]
      exact ⟨hstate.trans hstep.1, hin.trans hstep.2.1, hout.trans hstep.2.2⟩

/-! ## One call -/

theorem countP_complete {l : List Nat} (hl : l.Nodup) (state : Nat → JdagNodeState) (idx : Nat) :
    ((l.countP (fun u => (if u = idx then .completed else state u) ≠ .completed) : Nat) : Int) =
      if idx ∈ l ∧ state idx ≠ .completed then
        (l.countP (fun u => state u ≠ .completed) : Int) - 1
      else l.countP fun u => state u ≠ .completed := by
  by_cases hmem : idx ∈ l
  · have hrest : (l.erase idx).countP
        (fun u => decide ((if u = idx then .completed else state u) ≠ .completed)) =
          (l.erase idx).countP fun u => decide (state u ≠ .completed) := by
      refine List.countP_congr fun u hu => ?_
      rw [if_neg (hl.mem_erase_iff.mp hu).1]
    rw [(List.perm_cons_erase hmem).countP_eq, (List.perm_cons_erase hmem).countP_eq,
      List.countP_cons, List.countP_cons, hrest]
    by_cases hstate : state idx = .completed
    · simp [hstate]
    · simp [hmem, hstate]
  · rw [if_neg fun h => hmem h.1]
    congr 1
    refine List.countP_congr fun u hu => ?_
    have hne : u ≠ idx := fun heq => hmem (heq ▸ hu)
    rw [if_neg hne]

theorem jdagMarkCompleted_spec {dag : Jdag} (hlinked : Linked dag) {id : UInt64} {idx : Nat}
    (hfind : jdagFindNode dag id = some idx) (now : Int) (v : Nat) :
    ((jdagMarkCompleted dag id now).2.nodes v).state =
        (if v = idx then .completed else (dag.nodes v).state) ∧
      ((jdagMarkCompleted dag id now).2.nodes v).indegree =
        (if v ∈ (dag.nodes idx).outEdges ∧ 0 < (dag.nodes v).indegree then
          (dag.nodes v).indegree - 1
        else (dag.nodes v).indegree) ∧
      ((jdagMarkCompleted dag id now).2.nodes v).outdegree = (dag.nodes v).outdegree := by
  have hidx := (jdagFindNode_eq_some hfind).1
  have hself : idx ∉ (dag.nodes idx).outEdges :=
    fun hmem => (hlinked.represents.bounded idx idx ⟨hidx, hmem⟩).2.2 rfl
  rw [jdagMarkCompleted, hfind]
  dsimp only
  rw [nodes_foldl_lowerIndegree (hlinked.represents.out_nodup idx hidx), nodes_setNode]
  by_cases hv : v = idx
  · simp [hv, hself, completed]
  · rw [if_neg hv, if_neg hv]
    split
    · exact ⟨rfl, rfl, rfl⟩
    · exact ⟨rfl, rfl, rfl⟩

theorem counted_jdagMarkCompleted {dag : Jdag} (hlinked : Linked dag) (h : Counted dag)
    {id : UInt64} {now : Int} (hkeep : KeepsCounts dag (.markCompleted id now)) :
    Counted (jdagMarkCompleted dag id now).2 := by
  cases hfind : jdagFindNode dag id with
  | none =>
      rw [jdagMarkCompleted, hfind]
      exact h
  | some idx =>
      have hrep := hlinked.represents
      have hidx := (jdagFindNode_eq_some hfind).1
      have hspec := jdagMarkCompleted_spec hlinked hfind now
      have hsame := sameEdges_jdagMarkCompleted dag id now
      constructor
      · intro v hv
        rw [hsame.count] at hv
        simp only [hsame.inEdges v, fun u => (hspec u).1]
        rw [(hspec v).2.1, countP_complete (hrep.in_nodup v hv)]
        have hcount := h.indegree_eq v hv
        have hiff : v ∈ (dag.nodes idx).outEdges ↔ idx ∈ (dag.nodes v).inEdges := by
          rw [hrep.mem_out idx hidx, hrep.mem_in v hv]
        rw [← hcount]
        refine if_congr ?_ rfl rfl
        rw [hiff]
        refine and_congr_right fun hmem => ?_
        by_cases hstate : (dag.nodes idx).state = .completed
        · -- a repeated completion finds nothing left to lower
          have hle := hkeep idx hfind hstate v (hiff.mpr hmem)
          exact iff_of_false (by omega) fun hne => hne hstate
        · refine iff_of_true ?_ hstate
          rw [hcount, Int.natCast_pos, List.countP_pos_iff]
          exact ⟨idx, hmem, by simpa using hstate⟩
      · intro u hu
        rw [hsame.count] at hu
        rw [hsame.outEdges u, ← h.outdegree_eq u hu]
        exact (hspec u).2.2

theorem counted_jdagMarkFailed {dag : Jdag} (hlinked : Linked dag) (h : Counted dag)
    {id : UInt64} (hkeep : KeepsCounts dag (.markFailed id)) :
    Counted (jdagMarkFailed dag id).2 := by
  cases hfind : jdagFindNode dag id with
  | none =>
      rw [jdagMarkFailed, hfind]
      exact h
  | some idx =>
      have hrep := hlinked.represents
      have hidx := (jdagFindNode_eq_some hfind).1
      have hsame := sameEdges_jdagMarkFailed dag id
      have hspec : ∀ v, (((jdagMarkFailed dag id).2.nodes v).state = .completed ↔
          v ≠ idx ∧ (dag.nodes v).state = .completed) ∧
          ((jdagMarkFailed dag id).2.nodes v).indegree = (dag.nodes v).indegree ∧
          ((jdagMarkFailed dag id).2.nodes v).outdegree = (dag.nodes v).outdegree := by
        intro v
        rw [jdagMarkFailed, hfind]
        dsimp only
        obtain ⟨hstate, hin, hout⟩ := foldl_skipNode (dag.nodes idx).outEdges
          (setNode dag idx (withState (dag.nodes idx) .failed)) v
        rw [hstate, hin, hout, nodes_setNode]
        by_cases hv : v = idx
        · simp [hv, withState]
        · simp [hv]
      constructor
      · intro v hv
        rw [hsame.count] at hv
        rw [(hspec v).2.1, hsame.inEdges v, h.indegree_eq v hv]
        congr 1
        refine List.countP_congr fun u hu => ?_
        -- a completed node that fails has no successors, so it is not in the list
        have hiff : ((jdagMarkFailed dag id).2.nodes u).state = .completed ↔
            (dag.nodes u).state = .completed := by
          rw [(hspec u).1]
          refine ⟨fun hu => hu.2, fun hcompleted => ⟨?_, hcompleted⟩⟩
          rintro rfl
          have hout := (hrep.mem_out u hidx v).mpr ((hrep.mem_in v hv u).mp hu)
          rw [hkeep u hfind hcompleted] at hout
          exact List.not_mem_nil hout
        simp [hiff]
      · intro u hu
        rw [hsame.count] at hu
        rw [hsame.outEdges u, ← h.outdegree_eq u hu]
        exact (hspec u).2.2

theorem counted_step (dag : Jdag) (op : Op) (h : Linked dag ∧ Counted dag)
    (hop : Op.Executes op ∧ KeepsCounts dag op) :
    Linked (step dag op) ∧ Counted (step dag op) := by
  obtain ⟨hlinked, hcounted⟩ := h
  obtain ⟨hexec, hkeep⟩ := hop
  refine ⟨linked_step dag op hlinked, ?_⟩
  cases op with
  | addNode id name priority => exact hexec.elim
  | removeNode id => exact hexec.elim
  | addEdge fromId toId =>
      obtain ⟨-, heq⟩ | ⟨fi, ti, hfi, hti, hne, hnew, hcycle, heq⟩ :=
        jdagAddEdge_cases dag fromId toId
      · rwa [step, heq]
      · rw [step, heq]
        exact hcounted.linkNodes (jdagFindNode_eq_some hfi).1 (jdagFindNode_eq_some hti).1
          (hkeep fi hfi ti hti hne hnew hcycle)
  | removeEdge fromId toId =>
      obtain heq | ⟨fi, ti, hfi, hti, heq⟩ := jdagRemoveEdge_cases dag fromId toId
      · rwa [step, heq]
      · rw [step, heq]
        refine hcounted.unlinkNodes fun hmem => hkeep fi hfi ti hti ?_
        rw [hlinked.represents.mem_out fi (jdagFindNode_eq_some hfi).1]
        exact (hlinked.represents.mem_in ti (jdagFindNode_eq_some hti).1 fi).mp hmem
  | markCompleted id now => exact counted_jdagMarkCompleted hlinked hcounted hkeep
  | markFailed id => exact counted_jdagMarkFailed hlinked hcounted hkeep
  | getReadyNodes max => exact hcounted

/-! ## Runs -/

theorem readinessSafe_of_counted {dag : Jdag} (h : Counted dag) : ReadinessSafe dag := by
  refine ⟨h.indegree_eq, fun max id hid => ?_⟩
  obtain ⟨v, hv, rfl⟩ := List.mem_map.mp (List.mem_of_mem_take hid)
  simp only [List.mem_filter, List.mem_range, decide_eq_true_eq] at hv
  obtain ⟨hlt, hpending, hzero⟩ := hv
  refine ⟨v, hlt, rfl, hpending, fun u hu => ?_⟩
  have hcount := h.indegree_eq v hlt
  rw [hzero] at hcount
  have hnone : (dag.nodes v).inEdges.countP (fun u => (dag.nodes u).state ≠ .completed) = 0 := by
    omega
  simpa using List.countP_eq_zero.mp hnone u hu

/-- A graph is built and then executed; as long as no call moves a counter for an edge
that leaves a completed node, readiness is safe. -/
theorem readiness_safe_of_keepsCounts (maxNodes : Int) {build exec : List Op}
    (hbuild : ∀ op ∈ build, op.Structural)
    (hexec : Always step (fun dag op => Op.Executes op ∧ KeepsCounts dag op)
      (run step (jdagCreate maxNodes) build) exec) :
    ReadinessSafe (run step (jdagCreate maxNodes) (build ++ exec)) := by
  have hfresh := fresh_run maxNodes hbuild
  rw [run_append]
  have hfinal := run_invariant step counted_step ⟨hfresh.linked, hfresh.counted⟩ hexec
  exact readinessSafe_of_counted hfinal.2

def joinRun : List Op :=
  [.addNode 1 none 0, .addNode 2 none 0, .addNode 3 none 0, .addEdge 1 3, .addEdge 2 3]

theorem readiness_safe_of_keepsCounts_join :
    (∀ op ∈ joinRun, op.Structural) ∧
      Always step (fun dag op => Op.Executes op ∧ KeepsCounts dag op)
        (run step (jdagCreate 8) joinRun) [.markCompleted 1 7, .getReadyNodes 8, .markFailed 2] ∧
      ReadinessSafe (run step (jdagCreate 8)
        (joinRun ++ [.markCompleted 1 7, .getReadyNodes 8, .markFailed 2])) := by
  have hbuild : ∀ op ∈ joinRun, op.Structural := by simp [joinRun, Op.Structural]
  have hexec : Always step (fun dag op => Op.Executes op ∧ KeepsCounts dag op)
      (run step (jdagCreate 8) joinRun) [.markCompleted 1 7, .getReadyNodes 8, .markFailed 2] := by
    decide
  exact ⟨hbuild, hexec, readiness_safe_of_keepsCounts 8 hbuild hexec⟩

/-- Completing job 1 twice makes job 3 ready while job 2 is still pending. -/
theorem completed_twice_not_safe :
    (∀ op ∈ joinRun, op.Structural) ∧
      (∀ op ∈ [Op.markCompleted 1 7, .markCompleted 1 8], Op.Executes op) ∧
      ¬ReadinessSafe (run step (jdagCreate 8)
        (joinRun ++ [.markCompleted 1 7, .markCompleted 1 8])) := by
  refine ⟨by simp [joinRun, Op.Structural], by decide, fun h => ?_⟩
  have hready : 3 ∈ jdagGetReadyNodes (run step (jdagCreate 8)
      (joinRun ++ [.markCompleted 1 7, .markCompleted 1 8])) 8 := by decide
  exact absurd (h.2 8 3 hready) (by decide)

end MiniBackend.JobSystem.Proofs.DagReadiness
