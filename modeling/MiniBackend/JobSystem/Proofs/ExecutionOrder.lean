import MiniBackend.JobSystem.Proofs.CriticalPath
import MiniBackend.JobSystem.Proofs.DagReadiness

/-!
# The order queries during an execution

A completed node has lowered the counters of its successors, and the sort and the critical path
read these counters and lower them once more.  They still see the whole graph as long as a node
that becomes free stands behind its predecessors in the array, and a node that waits with one
predecessor completed waits for free predecessors only.
-/

namespace MiniBackend.JobSystem.Proofs.ExecutionOrder

open MiniBackend.Lib MiniBackend.Lib.Runs MiniBackend.Lib.Digraph MiniBackend.JobSystem.JobDag
open MiniBackend.JobSystem.Proofs.DagInvariant MiniBackend.JobSystem.Proofs.DagAcyclic
open MiniBackend.JobSystem.Proofs.DagReadiness MiniBackend.JobSystem.Proofs.KahnOrder
open MiniBackend.JobSystem.Proofs.Relaxation MiniBackend.JobSystem.Proofs.CriticalPath
open MiniBackend.JobSystem.Proofs.CriticalPath

/-- The call completes a node that `jdag_get_ready_nodes` lists. -/
def CompletesReady (dag : Jdag) : Op → Prop
  | .markCompleted id _ => id ∈ jdagGetReadyNodes dag dag.nodeCount
  | _ => False

instance (dag : Jdag) : DecidablePred (CompletesReady dag) := fun op =>
  match op with
  | .markCompleted id _ =>
      inferInstanceAs (Decidable (id ∈ jdagGetReadyNodes dag dag.nodeCount))
  | .addNode .. | .removeNode _ | .addEdge .. | .removeEdge .. | .markFailed _
  | .getReadyNodes _ => .isFalse id

def DoneWith (dag : Jdag) (u w : Nat) : Prop := w = u ∨ (dag.nodes w).state = .completed

instance (dag : Jdag) (u w : Nat) : Decidable (DoneWith dag u w) :=
  inferInstanceAs (Decidable (_ ∨ _))

def SettlesAt (dag : Jdag) (u v : Nat) : Prop :=
  (∀ w ∈ (dag.nodes v).inEdges, ∀ x ∈ (dag.nodes w).inEdges, DoneWith dag u x) ∧
    ((∀ w ∈ (dag.nodes v).inEdges, DoneWith dag u w) → ∀ w ∈ (dag.nodes v).inEdges, w < v)

instance (dag : Jdag) (u v : Nat) : Decidable (SettlesAt dag u v) :=
  inferInstanceAs (Decidable (_ ∧ (_ → _)))

/-- The condition on a completion, for all successors of the node. -/
def Settles (dag : Jdag) : Op → Prop
  | .markCompleted id _ => ∀ u ∈ jdagFindNode dag id,
      ∀ v ∈ (dag.nodes u).outEdges, SettlesAt dag u v
  | _ => True

instance (dag : Jdag) : DecidablePred (Settles dag) := fun op =>
  match op with
  | .markCompleted id _ => inferInstanceAs (Decidable (∀ u ∈ jdagFindNode dag id,
      ∀ v ∈ (dag.nodes u).outEdges, SettlesAt dag u v))
  | .addNode .. | .removeNode _ | .addEdge .. | .removeEdge .. | .markFailed _
  | .getReadyNodes _ => .isTrue trivial

def Done (dag : Jdag) (u : Nat) : Prop := (dag.nodes u).state = .completed

instance (dag : Jdag) : DecidablePred (Done dag) := fun u =>
  inferInstanceAs (Decidable ((dag.nodes u).state = .completed))

structure Executing (dag₀ dag : Jdag) : Prop where
  linked : Linked dag
  counted : Counted dag
  same : SameEdges dag₀ dag
  free : ∀ v < dag.nodeCount, Done dag v → Free dag (Done dag) v
  settled : Settled dag (Done dag)

theorem SameEdges.adj_iff {dag dag' : Jdag} (h : SameEdges dag dag') (u v : Nat) :
    Adj dag' u v ↔ Adj dag u v := by
  rw [Adj, Adj, h.count, h.outEdges u]

theorem SameEdges.isPath_iff {dag dag' : Jdag} (h : SameEdges dag dag') (path : List Nat) :
    IsPath dag' path ↔ IsPath dag path := by
  have hadj : Adj dag' = Adj dag := by
    funext u v
    exact propext (SameEdges.adj_iff h u v)
  constructor
  · intro hpath
    exact ⟨hpath.nonempty, h.count ▸ hpath.lt, hadj ▸ hpath.chain⟩
  · intro hpath
    exact ⟨hpath.nonempty, h.count.symm ▸ hpath.lt, hadj.symm ▸ hpath.chain⟩

theorem Executing.executed {dag₀ dag : Jdag} (h : Executing dag₀ dag) :
    Executed dag (Done dag) where
  indegree_eq := h.counted.indegree_eq
  free := h.free

theorem executing_of_fresh {dag : Jdag} (h : Fresh dag) : Executing dag dag where
  linked := h.linked
  counted := h.counted
  same := SameEdges.refl dag
  free v hv hdone := absurd hdone (h.notCompleted v hv)
  settled := by
    have hcons := consistent_of_linked h.linked
    constructor
    · intro u v huv hfree
      obtain ⟨hu, hv⟩ := hcons.adj_lt huv
      exact absurd (hfree u ((hcons.mem_in_iff hv).mpr huv)) (h.notCompleted u hu)
    · exact fun u v huv hdone => absurd hdone (h.notCompleted u huv.1)

theorem mem_readyNodes {dag₀ dag : Jdag} (h : Executing dag₀ dag) {id : UInt64} {max : Int}
    (hid : id ∈ jdagGetReadyNodes dag max) : ∃ u, jdagFindNode dag id = some u ∧
      (dag.nodes u).state = .pending ∧ Free dag (Done dag) u := by
  obtain ⟨u, hu, hfound, hpending, hfree⟩ := (readinessSafe_of_counted h.counted).2 max id hid
  refine ⟨u, ?_, hpending, hfree⟩
  rw [← hfound]
  exact h.linked.indexed.find_self hu

theorem executing_step {dag₀ dag : Jdag} (op : Op) (h : Executing dag₀ dag)
    (hop : CompletesReady dag op ∧ Settles dag op) : Executing dag₀ (step dag op) := by
  obtain ⟨hready, hsettles⟩ := hop
  cases op with
  | markCompleted id now =>
      obtain ⟨u, hfind, hpending, hfree⟩ := mem_readyNodes h hready
      have hsettles := hsettles u hfind
      have hcons := consistent_of_linked h.linked
      have hsame := sameEdges_jdagMarkCompleted dag id now
      have hu := (jdagFindNode_eq_some hfind).1
      have hkeeps : KeepsCounts dag (.markCompleted id now) := by
        intro idx hidx hcompleted
        obtain rfl := Option.some.inj (hfind.symm.trans hidx)
        rw [hpending] at hcompleted
        exact absurd hcompleted (by decide)
      have hdone : ∀ w, Done (jdagMarkCompleted dag id now).2 w ↔ DoneWith dag u w := by
        intro w
        rw [Done, (jdagMarkCompleted_spec h.linked hfind now w).1, DoneWith]
        by_cases hwu : w = u
        · simp [hwu]
        · simp [hwu]
      have hfree' : ∀ w, Free (jdagMarkCompleted dag id now).2
          (Done (jdagMarkCompleted dag id now).2) w ↔
            ∀ x ∈ (dag.nodes w).inEdges, DoneWith dag u x := by
        intro w
        rw [Free, hsame.inEdges w]
        exact forall₂_congr fun x _ => hdone x
      have hmono : ∀ w, Free dag (Done dag) w → ∀ x ∈ (dag.nodes w).inEdges, DoneWith dag u x :=
        fun w hw x hx => .inr (hw x hx)
      refine ⟨hsame.linked h.linked, counted_jdagMarkCompleted h.linked h.counted hkeeps,
        h.same.trans hsame, ?_, ?_, ?_⟩
      · intro v hv hv'
        rw [step, hsame.count] at hv
        rw [step, hfree']
        rcases (hdone v).mp hv' with rfl | hold
        · exact hmono v hfree
        · exact hmono v (h.free v hv hold)
      · intro a v hadj hv
        rw [step, hfree'] at hv
        have hadj := (SameEdges.adj_iff hsame a v).mp hadj
        have ha := (hcons.mem_in_iff (hcons.adj_lt hadj).2).mpr hadj
        by_cases huv : v ∈ (dag.nodes u).outEdges
        · exact (hsettles v huv).2 hv a ha
        · -- `u` is no predecessor of `v`, which has been free before
          refine h.settled.stored a v hadj fun x hx => (hv x hx).resolve_left ?_
          rintro rfl
          exact huv ((hcons.mem_in_iff (hcons.adj_lt hadj).2).mp hx).2
      · intro a v hadj ha w hw
        rw [step, hfree']
        have hadj := (SameEdges.adj_iff hsame a v).mp hadj
        have hw := (SameEdges.adj_iff hsame w v).mp hw
        rcases (hdone a).mp ha with rfl | hold
        · exact (hsettles v hadj.2).1 w ((hcons.mem_in_iff (hcons.adj_lt hadj).2).mpr hw)
        · exact hmono w (h.settled.released a v hadj hold w hw)
  | addNode id name priority => exact hready.elim
  | removeNode id => exact hready.elim
  | addEdge fromId toId => exact hready.elim
  | removeEdge fromId toId => exact hready.elim
  | markFailed id => exact hready.elim
  | getReadyNodes max => exact hready.elim

theorem Executing.isGreatest {dag₀ dag : Jdag} (h : Executing dag₀ dag)
    (hacyclic : Acyclic (Adj dag)) (hne : dag.nodeCount ≠ 0) :
    IsGreatest (pathLengths dag) (jdagCriticalPathLength dag) := by
  have hpaths := relaxAll_spec (consistent_of_linked h.linked) hacyclic h.executed h.settled
    (Nat.le_refl 1)
  have hcritical : jdagCriticalPathLength dag = (relaxAll dag 1).2 := if_neg hne
  rw [hcritical]
  exact isGreatest_pathLengths hpaths hne

theorem Executing.criticalPath_eq {dag₀ dag : Jdag} (h : Executing dag₀ dag)
    (h₀ : Executing dag₀ dag₀) (hacyclic : Acyclic (Adj dag)) :
    jdagCriticalPathLength dag = jdagCriticalPathLength dag₀ := by
  by_cases hne : dag.nodeCount = 0
  · have hne₀ : dag₀.nodeCount = 0 := h.same.count ▸ hne
    rw [jdagCriticalPathLength, jdagCriticalPathLength, if_pos hne, if_pos hne₀]
  · have hlengths : pathLengths dag = pathLengths dag₀ := by
      ext k
      exact exists_congr fun path => and_congr_left' (SameEdges.isPath_iff h.same path)
    have hacyclic₀ : Acyclic (Adj dag₀) :=
      hacyclic.mono fun u v huv => (SameEdges.adj_iff h.same u v).mpr huv
    have hne₀ : dag₀.nodeCount ≠ 0 := h.same.count ▸ hne
    have hgreatest := h.isGreatest hacyclic hne
    rw [hlengths] at hgreatest
    exact hgreatest.unique (h₀.isGreatest hacyclic₀ hne₀)

/-- The sort and the critical path answer for the graph that was built, after every execution
whose completions settle. -/
theorem order_queries_kept_of_settles (maxNodes : Int) {build exec : List Op}
    (hbuild : ∀ op ∈ build, op.Structural)
    (hready : Always step CompletesReady (run step (jdagCreate maxNodes) build) exec)
    (hsettles : Always step Settles (run step (jdagCreate maxNodes) build) exec) {max : Int}
    (hmax : (run step (jdagCreate maxNodes) build).nodeCount ≤ max) :
    SortsTopologically (run step (jdagCreate maxNodes) (build ++ exec))
        (jdagTopologicalSortKahn (run step (jdagCreate maxNodes) (build ++ exec)) max) ∧
      jdagCriticalPathLength (run step (jdagCreate maxNodes) (build ++ exec)) =
        jdagCriticalPathLength (run step (jdagCreate maxNodes) build) := by
  have hstart := executing_of_fresh (fresh_run maxNodes hbuild)
  have hacyclic := acyclic_run maxNodes (build ++ exec)
  rw [run_append] at hacyclic ⊢
  have hfinal := run_invariant step (fun dag op h hop => executing_step op h hop) hstart
    (hready.and step hsettles)
  have hmax' := hmax
  rw [← hfinal.same.count] at hmax'
  exact ⟨jdagTopologicalSortKahn_of_settled hfinal.linked.indexed
      (consistent_of_linked hfinal.linked) hacyclic hfinal.executed hfinal.settled hmax',
    hfinal.criticalPath_eq hstart hacyclic⟩

theorem order_queries_kept_of_settles_join :
    Always step CompletesReady (run step (jdagCreate 8) joinRun)
        [.markCompleted 1 7, .markCompleted 2 8] ∧
      Always step Settles (run step (jdagCreate 8) joinRun)
        [.markCompleted 1 7, .markCompleted 2 8] ∧
      SortsTopologically (run step (jdagCreate 8)
          (joinRun ++ [.markCompleted 1 7, .markCompleted 2 8]))
        (jdagTopologicalSortKahn (run step (jdagCreate 8)
          (joinRun ++ [.markCompleted 1 7, .markCompleted 2 8])) 8) ∧
      jdagCriticalPathLength (run step (jdagCreate 8)
          (joinRun ++ [.markCompleted 1 7, .markCompleted 2 8])) =
        jdagCriticalPathLength (run step (jdagCreate 8) joinRun) := by
  have hbuild : ∀ op ∈ joinRun, op.Structural := by simp [joinRun, Op.Structural]
  have hready : Always step CompletesReady (run step (jdagCreate 8) joinRun)
      [.markCompleted 1 7, .markCompleted 2 8] := by decide
  have hsettles : Always step Settles (run step (jdagCreate 8) joinRun)
      [.markCompleted 1 7, .markCompleted 2 8] := by decide
  exact ⟨hready, hsettles,
    order_queries_kept_of_settles 8 hbuild hready hsettles (by decide)⟩

/-- Job 2 has to finish before job 1, which stands in front of it. -/
def backwardRun : List Op := [.addNode 1 none 0, .addNode 2 none 0, .addEdge 2 1]

/-- Once job 2 is completed, both jobs are sources, and the array order decides. -/
theorem completed_source_sorted_last :
    (∀ op ∈ backwardRun, op.Structural) ∧
      Always step CompletesReady (run step (jdagCreate 8) backwardRun) [.markCompleted 2 7] ∧
      ¬SortsTopologically (run step (jdagCreate 8) (backwardRun ++ [.markCompleted 2 7]))
        (jdagTopologicalSortKahn
          (run step (jdagCreate 8) (backwardRun ++ [.markCompleted 2 7])) 8) := by
  refine ⟨by simp [backwardRun, Op.Structural], by decide, fun h => ?_⟩
  have hedge : Edge (run step (jdagCreate 8) (backwardRun ++ [.markCompleted 2 7])) 2 1 :=
    ⟨1, 0, ⟨by decide, by decide⟩, by decide, by decide⟩
  exact absurd (h.2.2 2 1 hedge) (by decide)

end MiniBackend.JobSystem.Proofs.ExecutionOrder
