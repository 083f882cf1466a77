import Mathlib.Order.Bounds.Basic
import MiniBackend.JobSystem.Proofs.KahnOrder
import MiniBackend.JobSystem.Proofs.CycleDetection
import MiniBackend.JobSystem.Proofs.Relaxation

/-!
# The two topological sorts

Both sorts are followed on node indices; the result arrays hold the ids of these.
Kahn's loop keeps in `indegree` the number of predecessors that are not in the order
yet.  The depth-first sort builds its order from the back, so that all successors of
a finished node already stand behind it.
-/

namespace MiniBackend.JobSystem.Proofs.CriticalPath

section TopologicalSort

open Relation
open MiniBackend.Lib MiniBackend.Lib.Runs MiniBackend.Lib.Digraph MiniBackend.JobSystem.JobDag
open MiniBackend.JobSystem.Proofs.DagInvariant MiniBackend.JobSystem.Proofs.DagAcyclic
open MiniBackend.JobSystem.Proofs.KahnOrder MiniBackend.JobSystem.Proofs.CycleDetection

def nodeIds (dag : Jdag) : List UInt64 :=
  (List.range dag.nodeCount).map fun u => (dag.nodes u).id

/-- The sort returned the number of nodes and a list of all ids in which the source of
every edge comes before its target. -/
def SortsTopologically (dag : Jdag) (answer : Int × List UInt64) : Prop :=
  answer.1 = dag.nodeCount ∧ answer.2.Perm (nodeIds dag) ∧
    ∀ a b, Edge dag a b → answer.2.idxOf a < answer.2.idxOf b

theorem nodup_nodeIds {dag : Jdag} (h : Indexed dag) : (nodeIds dag).Nodup := by
  refine List.nodup_range.map_on fun u hu v hv huv => ?_
  exact h.id_injective u (List.mem_range.mp hu) v (List.mem_range.mp hv) huv

theorem sortsTopologically_of_order {dag : Jdag} (h : Indexed dag) {order : List Nat}
    (hperm : order.Perm (List.range dag.nodeCount))
    (hordered : ∀ u v, Adj dag u v → Precedes order u v) :
    SortsTopologically dag (dag.nodeCount, order.map fun u => (dag.nodes u).id) := by
  have hids := hperm.map fun u => (dag.nodes u).id
  refine ⟨rfl, hids, ?_⟩
  rintro a b ⟨u, v, huv, rfl, rfl⟩
  exact ((hordered u v huv).map fun u => (dag.nodes u).id).idxOf_lt
    (hids.nodup_iff.mpr (nodup_nodeIds h))

/-! ## Kahn's algorithm -/

theorem jdagTopologicalSortKahn_of_settled {dag : Jdag} (hindexed : Indexed dag)
    (hcons : Consistent dag) (hacyclic : Acyclic (Adj dag)) {done : Nat → Prop} [DecidablePred done]
    (hexec : Executed dag done) (hsettled : Settled dag done) {max : Int}
    (hmax : dag.nodeCount ≤ max) : SortsTopologically dag (jdagTopologicalSortKahn dag max) := by
  obtain ⟨order, indegree, heq, hfinal⟩ := kahn_order hcons hexec hsettled hmax
  have hperm := hfinal.perm hcons hacyclic
  have hlen : order.length = dag.nodeCount := by rw [hperm.length_eq, List.length_range]
  rw [heq, if_pos hlen]
  refine sortsTopologically_of_order hindexed hperm fun u v huv => ?_
  have hv : v ∈ order := hperm.mem_iff.mpr (List.mem_range.mpr (hcons.adj_lt huv).2)
  simpa using hfinal.ordered u v huv (by simpa using hv)

theorem jdagTopologicalSortKahn_sorts {dag : Jdag} (h : Fresh dag)
    (hacyclic : Acyclic (Adj dag)) {max : Int} (hmax : dag.nodeCount ≤ max) :
    SortsTopologically dag (jdagTopologicalSortKahn dag max) :=
  have hcons := consistent_of_linked h.linked
  jdagTopologicalSortKahn_of_settled h.linked.indexed hcons hacyclic
    (executed_none fun _ => h.indegree_eq_length) (settled_none hcons) hmax

/-! ## The depth-first sort -/

def VisitSpec (dag : Jdag) (fuel : Nat) : Prop :=
  ∀ (u : Nat) (color : Nat → Color) (order : List Nat), u < dag.nodeCount → color u = .white →
    Finished dag color order → (∀ g, color g = .gray → TransGen (Adj dag) g u) →
    whites dag.nodeCount color ≤ fuel →
    ∃ color' order', dfsVisit dag fuel u (color, order.map fun v => (dag.nodes v).id) =
      (color', order'.map fun v => (dag.nodes v).id) ∧ Finished dag color' order' ∧
      Grows color color' order order' ∧ color' u = .black

/-- The loop over the successors of a node in progress.  A successor in progress would
close a cycle. -/
theorem visit_successors {dag : Jdag} (hlinked : Linked dag) (hacyclic : Acyclic (Adj dag))
    {fuel : Nat} (ih : VisitSpec dag fuel) {u : Nat} {l : List Nat} (hl : ∀ v ∈ l, Adj dag u v)
    {color : Nat → Color} {order : List Nat} (hfin : Finished dag color order)
    (hgray : ∀ g, color g = .gray → g = u ∨ TransGen (Adj dag) g u)
    (hwhites : whites dag.nodeCount color ≤ fuel) :
    ∃ color' order', l.foldl
        (fun st v => if st.1 v = .white then dfsVisit dag fuel v st else st)
        (color, order.map fun v => (dag.nodes v).id) =
      (color', order'.map fun v => (dag.nodes v).id) ∧ Finished dag color' order' ∧
      Grows color color' order order' ∧ ∀ v ∈ l, v ∈ order' := by
  induction l generalizing color order with
  | nil => exact ⟨color, order, rfl, hfin, Grows.refl color order, by simp⟩
  | cons v l ihl =>
      have hadj := hl v List.mem_cons_self
      have hl' : ∀ w ∈ l, Adj dag u w := fun w hw => hl w (List.mem_cons_of_mem v hw)
      have hgrayv : ∀ g, color g = .gray → TransGen (Adj dag) g v := by
        intro g hg
        rcases hgray g hg with rfl | hpath
        · exact .single hadj
        · exact hpath.tail hadj
      rw [List.foldl_cons]
      cases hcolor : color v with
      | white =>
          obtain ⟨color₁, order₁, heq, hfin₁, hgrows₁, hblack⟩ :=
            ih v color order (hlinked.represents.bounded u v hadj).2.1 hcolor hfin hgrayv hwhites
          obtain ⟨color₂, order₂, heq₂, hfin₂, hgrows₂, hmem⟩ :=
            ihl hl' hfin₁ (fun g hg => hgray g ((hgrows₁.gray_iff g).mp hg))
              ((whites_le hgrows₁.white).trans hwhites)
          refine ⟨color₂, order₂, ?_, hfin₂, hgrows₁.trans hgrows₂, ?_⟩
          · rw [if_pos hcolor, heq, heq₂]
          · intro w hw
            rcases List.mem_cons.mp hw with rfl | hw
            · exact hgrows₂.subset w ((hfin₁.black_iff w).mp hblack)
            · exact hmem w hw
      | gray => exact absurd (hgrayv v hcolor) (hacyclic v)
      | black =>
          obtain ⟨color₂, order₂, heq₂, hfin₂, hgrows₂, hmem⟩ := ihl hl' hfin hgray hwhites
          refine ⟨color₂, order₂, ?_, hfin₂, hgrows₂, ?_⟩
          · rw [if_neg (by simp [hcolor]), heq₂]
          · intro w hw
            rcases List.mem_cons.mp hw with rfl | hw
            · exact hgrows₂.subset w ((hfin.black_iff w).mp hcolor)
            · exact hmem w hw

theorem dfsVisit_spec {dag : Jdag} (hlinked : Linked dag) (hacyclic : Acyclic (Adj dag))
    (fuel : Nat) : VisitSpec dag fuel := by
  induction fuel with
  | zero =>
      intro u color order hu hwhite _ _ hwhites
      have := whites_gray hu hwhite
      omega
  | succ fuel ih =>
      intro u color order hu hwhite hfin hgray hwhites
      have hcount := whites_gray hu hwhite
      obtain ⟨color', order', heq, hfin', hgrows, hmem⟩ :=
        visit_successors hlinked hacyclic ih (fun v hv => ⟨hu, hv⟩) (hfin.start hwhite)
          (eq_or_transGen_of_gray hgray) (l := (dag.nodes u).outEdges) (by omega)
      have hgrayu : color' u = .gray := (hgrows.gray_iff u).mpr (Function.update_self ..)
      refine ⟨Function.update color' u .black, u :: order', ?_,
        hfin'.finish hu hgrayu fun v huv => hmem v huv.2, hgrows.finish hwhite,
        Function.update_self ..⟩
      rw [dfsVisit]
      dsimp only
      rw [heq]
      rfl

theorem dfsRounds_spec {dag : Jdag} (hlinked : Linked dag) (hacyclic : Acyclic (Adj dag))
    {k : Nat} (hk : k ≤ dag.nodeCount) :
    ∃ color order, (List.range k).foldl
        (fun st i => if st.1 i = .white then dfsVisit dag jdagMaxNodes i st else st)
        ((fun _ => .white), []) = (color, order.map fun v => (dag.nodes v).id) ∧
      Finished dag color order ∧ (∀ v, color v ≠ .gray) ∧ ∀ v < k, v ∈ order := by
  induction k with
  | zero =>
      refine ⟨fun _ => .white, [], rfl, finished_nil dag, by simp, ?_⟩
      exact fun v hv => absurd hv (Nat.not_lt_zero v)
  | succ k ih =>
      obtain ⟨color, order, heq, hfin, hgray, hdone⟩ := ih (by omega)
      rw [List.range_succ, List.foldl_append, List.foldl_cons, List.foldl_nil, heq]
      dsimp only
      by_cases hwhite : color k = .white
      · have hfuel : whites dag.nodeCount color ≤ jdagMaxNodes := by
          have h1 := hlinked.indexed.count_le
          have h2 := hlinked.indexed.maxNodes_le
          have h3 := whites_le_count dag.nodeCount color
          omega
        obtain ⟨color', order', heq', hfin', hgrows, hblack⟩ :=
          dfsVisit_spec hlinked hacyclic jdagMaxNodes k color order (by omega) hwhite hfin
            (fun g hg => absurd hg (hgray g)) hfuel
        refine ⟨color', order', by rw [if_pos hwhite, heq'], hfin', ?_, ?_⟩
        · exact fun v hv => hgray v ((hgrows.gray_iff v).mp hv)
        · intro v hv
          by_cases hvk : v = k
          · exact hvk ▸ (hfin'.black_iff k).mp hblack
          · exact hgrows.subset v (hdone v (by omega))
      · refine ⟨color, order, by rw [if_neg hwhite], hfin, hgray, fun v hv => ?_⟩
        by_cases hvk : v = k
        · subst hvk
          refine (hfin.black_iff v).mp ?_
          cases hcolor : color v with
          | white => exact absurd hcolor hwhite
          | gray => exact absurd hcolor (hgray v)
          | black => rfl
        · exact hdone v (by omega)

theorem jdagTopologicalSortDfs_sorts {dag : Jdag} (hlinked : Linked dag)
    (hacyclic : Acyclic (Adj dag)) {max : Int} (hmax : dag.nodeCount ≤ max) :
    SortsTopologically dag (jdagTopologicalSortDfs dag max) := by
  obtain ⟨color, order, heq, hfin, -, hdone⟩ :=
    dfsRounds_spec hlinked hacyclic (Nat.le_refl dag.nodeCount)
  have hperm : order.Perm (List.range dag.nodeCount) := by
    refine (List.perm_ext_iff_of_nodup hfin.nodup List.nodup_range).mpr fun v => ?_
    rw [List.mem_range]
    exact ⟨hfin.lt v, hdone v⟩
  rw [jdagTopologicalSortDfs, if_neg (by omega), heq]
  refine sortsTopologically_of_order hlinked.indexed hperm fun u v huv => ?_
  exact hfin.ordered u v huv (hperm.mem_iff.mpr (List.mem_range.mpr huv.1))

/-- Both sorts are correct after every sequence of structural calls. -/
theorem topological_sorts_correct (maxNodes : Int) {ops : List Op}
    (hops : ∀ op ∈ ops, op.Structural) {max : Int}
    (hmax : (run step (jdagCreate maxNodes) ops).nodeCount ≤ max) :
    SortsTopologically (run step (jdagCreate maxNodes) ops)
        (jdagTopologicalSortKahn (run step (jdagCreate maxNodes) ops) max) ∧
      SortsTopologically (run step (jdagCreate maxNodes) ops)
        (jdagTopologicalSortDfs (run step (jdagCreate maxNodes) ops) max) :=
  ⟨jdagTopologicalSortKahn_sorts (fresh_run maxNodes hops) (acyclic_run maxNodes ops) hmax,
    jdagTopologicalSortDfs_sorts (linked_run maxNodes ops) (acyclic_run maxNodes ops) hmax⟩

theorem topological_sorts_correct_diamond :
    (∀ op ∈ diamondRun, op.Structural) ∧
      ((run step (jdagCreate 8) diamondRun).nodeCount : Int) ≤ 8 ∧
      SortsTopologically (run step (jdagCreate 8) diamondRun)
        (jdagTopologicalSortKahn (run step (jdagCreate 8) diamondRun) 8) ∧
      SortsTopologically (run step (jdagCreate 8) diamondRun)
        (jdagTopologicalSortDfs (run step (jdagCreate 8) diamondRun) 8) := by
  have hops : ∀ op ∈ diamondRun, op.Structural := by simp [diamondRun, Op.Structural]
  have hmax : ((run step (jdagCreate 8) diamondRun).nodeCount : Int) ≤ 8 := by decide
  exact ⟨hops, hmax, topological_sorts_correct 8 hops hmax⟩

end TopologicalSort

/-!
# The critical path and the levels

The critical path counts the nodes of a longest path, the level of a node the edges of a longest
path that ends in it.  The nodes are sorted by level, and `level_boundaries` says where each level
ends.
-/

open MiniBackend.Lib.Runs MiniBackend.Lib.Digraph MiniBackend.Lib.StableSort
open MiniBackend.JobSystem.JobDag MiniBackend.JobSystem.Proofs.DagInvariant
open MiniBackend.JobSystem.Proofs.DagAcyclic MiniBackend.JobSystem.Proofs.KahnOrder
open MiniBackend.JobSystem.Proofs.Relaxation

/-- The numbers of nodes on the paths of the graph. -/
def pathLengths (dag : Jdag) : Set Nat := {k | ∃ path, IsPath dag path ∧ path.length = k}

def pathEdges (dag : Jdag) (v : Nat) : Set Nat :=
  {k | ∃ path, IsPath dag path ∧ path.getLast? = some v ∧ path.length = k + 1}

def level (answer : Int × List UInt64 × List Nat) (id : UInt64) : Nat :=
  answer.2.2.findIdx fun boundary => answer.2.1.idxOf id < boundary

/-- The ids in one block for each level: the levels are those of the longest paths. -/
structure Leveled (dag : Jdag) (answer : Int × List UInt64 × List Nat) : Prop where
  levels : answer.1 = jdagCriticalPathLength dag
  ids : answer.2.1.Perm (nodeIds dag)
  blocks : (answer.2.2.length : Int) = answer.1
  boundaries : (0 :: answer.2.2).Pairwise (· < ·)
  last : answer.2.2.getLast? = some dag.nodeCount
  longest : ∀ v < dag.nodeCount, IsGreatest (pathEdges dag v) (level answer (dag.nodes v).id)
  edges : ∀ a b, Edge dag a b → level answer a < level answer b

variable {dag : Jdag}

/-! ## From distances to paths -/

theorem isGreatest_pathEdges {dist : Nat → Nat} {maxDist : Nat}
    (h : LongestPaths dag 0 dist maxDist) {v : Nat} (hv : v < dag.nodeCount) :
    IsGreatest (pathEdges dag v) (dist v) := by
  constructor
  · obtain ⟨path, hpath, hlast, hlen⟩ := h.path v hv
    exact ⟨path, hpath, hlast, hlen⟩
  · rintro k ⟨path, hpath, hlast, hlen⟩
    have hle := h.length_le path v hpath hlast
    omega

theorem isGreatest_pathLengths {dist : Nat → Nat} {maxDist : Nat}
    (h : LongestPaths dag 1 dist maxDist) (hne : dag.nodeCount ≠ 0) :
    IsGreatest (pathLengths dag) maxDist := by
  constructor
  · obtain ⟨v, hv, rfl⟩ := h.max_mem hne
    obtain ⟨path, hpath, -, hlen⟩ := h.path v hv
    exact ⟨path, hpath, Nat.succ.inj hlen⟩
  · rintro k ⟨path, hpath, rfl⟩
    obtain ⟨v, hlast⟩ : ∃ v, path.getLast? = some v :=
      Option.isSome_iff_exists.mp (List.getLast?_isSome.mpr hpath.nonempty)
    have hv := hpath.lt v (List.mem_of_getLast? hlast)
    have hle := h.length_le path v hpath hlast
    have hmax := h.max_le v hv
    omega

theorem maxDist_eq_succ {dist dist' : Nat → Nat} {maxDist maxDist' : Nat}
    (h : LongestPaths dag 0 dist maxDist) (h' : LongestPaths dag 1 dist' maxDist')
    (hne : dag.nodeCount ≠ 0) : maxDist' = maxDist + 1 := by
  have heq : ∀ v < dag.nodeCount, dist' v = dist v + 1 := by
    intro v hv
    obtain ⟨path, hpath, hlast, hlen⟩ := h.path v hv
    obtain ⟨path', hpath', hlast', hlen'⟩ := h'.path v hv
    have hle := h'.length_le path v hpath hlast
    have hle' := h.length_le path' v hpath' hlast'
    omega
  obtain ⟨v, hv, hmax⟩ := h.max_mem hne
  obtain ⟨v', hv', hmax'⟩ := h'.max_mem hne
  have hle := h'.max_le v hv
  have hle' := h.max_le v' hv'
  rw [heq v hv] at hle
  rw [heq v' hv'] at hmax'
  omega

theorem dist_lt_of_adj {dist : Nat → Nat} {maxDist : Nat} (hcons : Consistent dag)
    (h : LongestPaths dag 0 dist maxDist) {u v : Nat} (huv : Adj dag u v) : dist u < dist v := by
  obtain ⟨hu, hv⟩ := hcons.adj_lt huv
  obtain ⟨path, hpath, hlast, hlen⟩ := h.path u hu
  have hle := h.length_le _ v (hpath.concat hlast huv hv) List.getLast?_concat
  rw [List.length_append, List.length_singleton] at hle
  omega

theorem exists_dist_eq {dist : Nat → Nat} {maxDist : Nat} (hcons : Consistent dag)
    (h : LongestPaths dag 0 dist maxDist) (hne : dag.nodeCount ≠ 0) {k : Nat} (hk : k ≤ maxDist) :
    ∃ v < dag.nodeCount, dist v = k := by
  induction hk using Nat.decreasingInduction with
  | self => exact h.max_mem hne
  | of_succ k _ ih =>
      obtain ⟨v, hv, hdist⟩ := ih
      obtain ⟨path, hpath, hlast, hlen⟩ := h.path v hv
      obtain ⟨front, rfl⟩ := List.getLast?_eq_some_iff.mp hlast
      rw [hdist, List.length_append, List.length_singleton] at hlen
      obtain ⟨u, hu⟩ : ∃ u, front.getLast? = some u := by
        refine Option.isSome_iff_exists.mp (List.getLast?_isSome.mpr fun hnil => ?_)
        rw [hnil] at hlen
        simp at hlen
      obtain ⟨hfront, -, hlink⟩ := List.isChain_append.mp hpath.chain
      have hadj : Adj dag u v := hlink u hu v rfl
      have hpath' : IsPath dag front :=
        ⟨fun hnil => by simp [hnil] at hu,
          fun w hw => hpath.lt w (List.mem_append_left _ hw), hfront⟩
      have hle := h.length_le front u hpath' hu
      have hlt := dist_lt_of_adj hcons h hadj
      exact ⟨u, hadj.1, by omega⟩

/-! ## The boundaries -/

theorem foldl_boundaries {key : Nat → Nat} {n : Nat} (start : Nat → Nat)
    (hstart : start 0 = below key n 1) {m k : Nat} (hk : k ≤ m) :
    (List.range m).foldl
      (fun boundaries i => Function.update boundaries (i + 1) (boundaries i + counts key n (i + 1)))
      start k = below key n (k + 1) := by
  induction m generalizing k with
  | zero => rw [Nat.le_zero.mp hk, List.range_zero, List.foldl_nil, hstart]
  | succ m ih =>
      rw [List.range_succ, List.foldl_append, List.foldl_cons, List.foldl_nil, ih le_rfl, counts_eq,
        ← below_succ]
      by_cases hkm : k = m + 1
      · rw [hkm, Function.update_self]
      · rw [Function.update_of_ne hkm, ih (by omega)]

theorem below_zero (key : Nat → Nat) (n : Nat) : below key n 0 = 0 := by simp [below]

theorem levelBoundaries_eq (key : Nat → Nat) (n : Nat) {maxLevel k : Nat} (hk : k ≤ maxLevel) :
    levelBoundaries (counts key n) maxLevel k = below key n (k + 1) := by
  refine foldl_boundaries _ ?_ hk
  rw [Function.update_self, counts_eq, below_succ, below_zero, Nat.zero_add]

theorem below_strictMono {key : Nat → Nat} {n k : Nat} (h : ∃ i < n, key i = k) {k' : Nat}
    (hk : k < k') : below key n k < below key n k' := by
  obtain ⟨i, hi, rfl⟩ := h
  calc
    below key n (key i) ≤ slot key n i := below_le_slot key n i
    _ < below key n (key i + 1) := slot_lt_below hi
    _ ≤ below key n k' := below_mono key n hk

/-! ## The answer -/

theorem jdagGetLevels_eq {maxDist : Nat} {dist : Nat → Nat}
    (hrelax : relaxAll dag 0 = (dist, maxDist))
    (hle : ∀ v < dag.nodeCount, dist v ≤ maxDist) {max : Int} (hmax : dag.nodeCount ≤ max) :
    ∃ result : Nat → UInt64, jdagGetLevels dag max = ((maxDist + 1 : Int),
        (List.range dag.nodeCount).map result,
        (List.range (maxDist + 1)).map fun k => below dist dag.nodeCount (k + 1)) ∧
      ((List.range dag.nodeCount).map result).Perm (nodeIds dag) ∧
      ∀ v < dag.nodeCount, result (slot dist dag.nodeCount v) = (dag.nodes v).id := by
  let boundaries := levelBoundaries (counts dist dag.nodeCount) maxDist
  let nextPos := fun i => if i = 0 then 0 else boundaries (i - 1)
  have hnext : ∀ v < dag.nodeCount, nextPos (dist v) = below dist dag.nodeCount (dist v) := by
    intro v hv
    have hdist := hle v hv
    dsimp only [nextPos]
    split
    · next hzero => rw [hzero, below_zero]
    · next hpos =>
        have heq : boundaries (dist v - 1) = below dist dag.nodeCount (dist v - 1 + 1) :=
          levelBoundaries_eq dist _ (by omega)
        rwa [Nat.sub_add_cancel (Nat.pos_of_ne_zero hpos)] at heq
  refine ⟨(place dist (fun i => (dag.nodes i).id) dag.nodeCount nextPos fun _ => 0).2, ?_,
    place_perm hnext _ _, fun v hv => place_slot hnext _ _ hv⟩
  rw [jdagGetLevels, if_neg (not_lt.mpr hmax)]
  simp only [hrelax]
  have hboundaries : (List.range (maxDist + 1)).map boundaries =
      (List.range (maxDist + 1)).map fun k => below dist dag.nodeCount (k + 1) :=
    List.map_congr_left fun k hk =>
      levelBoundaries_eq dist _ (Nat.lt_succ_iff.mp (List.mem_range.mp hk))
  rw [← hboundaries]

theorem level_eq {dist : Nat → Nat} {maxDist : Nat} {result : Nat → UInt64} {count : Int}
    (hnodup : ((List.range dag.nodeCount).map result).Nodup)
    (hslot : ∀ v < dag.nodeCount, result (slot dist dag.nodeCount v) = (dag.nodes v).id)
    {v : Nat} (hv : v < dag.nodeCount) (hle : dist v ≤ maxDist) :
    level (count, (List.range dag.nodeCount).map result,
      (List.range (maxDist + 1)).map fun k => below dist dag.nodeCount (k + 1))
      (dag.nodes v).id = dist v := by
  have hidx : ((List.range dag.nodeCount).map result).idxOf (dag.nodes v).id =
      slot dist dag.nodeCount v := by
    have hlt : slot dist dag.nodeCount v < ((List.range dag.nodeCount).map result).length := by
      simpa using slot_lt hv
    have hget := hnodup.idxOf_getElem _ hlt
    rwa [List.getElem_map, List.getElem_range, hslot v hv] at hget
  have hlen : dist v < ((List.range (maxDist + 1)).map
      fun k => below dist dag.nodeCount (k + 1)).length := by
    rw [List.length_map, List.length_range]
    omega
  rw [level, hidx, List.findIdx_eq hlen]
  constructor
  · simpa using slot_lt_below hv
  · intro k hk
    have hbelow := below_mono dist dag.nodeCount (Nat.succ_le_of_lt hk)
    have hstart := below_le_slot dist dag.nodeCount v
    simpa using hbelow.trans hstart

theorem leveled_jdagGetLevels (hindexed : Indexed dag) (hcons : Consistent dag)
    {dist : Nat → Nat} {maxDist : Nat} (hrelax : relaxAll dag 0 = (dist, maxDist))
    (h : LongestPaths dag 0 dist maxDist) (hne : dag.nodeCount ≠ 0)
    (hcritical : jdagCriticalPathLength dag = maxDist + 1) {max : Int}
    (hmax : dag.nodeCount ≤ max) : Leveled dag (jdagGetLevels dag max) := by
  obtain ⟨result, heq, hperm, hslot⟩ := jdagGetLevels_eq hrelax h.max_le hmax
  have hnodup := hperm.nodup_iff.mpr (nodup_nodeIds hindexed)
  have hlevel : ∀ v < dag.nodeCount, level (jdagGetLevels dag max) (dag.nodes v).id = dist v := by
    intro v hv
    rw [heq]
    exact level_eq hnodup hslot hv (h.max_le v hv)
  constructor
  · rw [heq, hcritical]
    rfl
  · rw [heq]
    exact hperm
  · rw [heq]
    simp
  · rw [heq]
    have hzero : 0 :: (List.range (maxDist + 1)).map (fun k => below dist dag.nodeCount (k + 1)) =
        (List.range (maxDist + 2)).map (below dist dag.nodeCount) := by
      rw [List.range_succ_eq_map (n := maxDist + 1), List.map_cons, below_zero, List.map_map]
      rfl
    dsimp only
    rw [hzero, List.pairwise_map]
    refine List.Pairwise.imp_of_mem ?_ List.pairwise_lt_range
    intro k k' _ hk' hlt
    have hlast := List.mem_range.mp hk'
    exact below_strictMono (exists_dist_eq hcons h hne (by omega)) hlt
  · rw [heq]
    have hall : below dist dag.nodeCount (maxDist + 1) = dag.nodeCount := by
      have hcount : (List.range dag.nodeCount).countP (fun v => dist v < maxDist + 1) =
          (List.range dag.nodeCount).length := by
        rw [List.countP_eq_length]
        intro v hv
        exact decide_eq_true (Nat.lt_succ_of_le (h.max_le v (List.mem_range.mp hv)))
      rw [below, hcount, List.length_range]
    simp [List.getLast?_range, hall]
  · intro v hv
    rw [hlevel v hv]
    exact isGreatest_pathEdges h hv
  · rintro a b ⟨u, v, huv, rfl, rfl⟩
    obtain ⟨hu, hv⟩ := hcons.adj_lt huv
    rw [hlevel u hu, hlevel v hv]
    exact dist_lt_of_adj hcons h huv

/-- As long as nothing was executed, the critical path and the levels are those of the longest
paths. -/
theorem critical_path_and_levels (maxNodes : Int) {ops : List Op}
    (hops : ∀ op ∈ ops, op.Structural)
    (hne : (run step (jdagCreate maxNodes) ops).nodeCount ≠ 0) {max : Int}
    (hmax : (run step (jdagCreate maxNodes) ops).nodeCount ≤ max) :
    IsGreatest (pathLengths (run step (jdagCreate maxNodes) ops))
        (jdagCriticalPathLength (run step (jdagCreate maxNodes) ops)) ∧
      Leveled (run step (jdagCreate maxNodes) ops)
        (jdagGetLevels (run step (jdagCreate maxNodes) ops) max) := by
  have hfresh := fresh_run maxNodes hops
  have hacyclic := acyclic_run maxNodes ops
  have hcons := consistent_of_linked hfresh.linked
  generalize run step (jdagCreate maxNodes) ops = dag at *
  have hexec : Executed dag fun _ => False := executed_none fun _ => hfresh.indegree_eq_length
  have hlevels := relaxAll_spec hcons hacyclic hexec (settled_none hcons) (Nat.zero_le 1)
  have hpaths := relaxAll_spec hcons hacyclic hexec (settled_none hcons) (Nat.le_refl 1)
  have hcritical : jdagCriticalPathLength dag = (relaxAll dag 1).2 := if_neg hne
  refine ⟨?_, leveled_jdagGetLevels hfresh.linked.indexed hcons rfl hlevels hne ?_ hmax⟩
  · rw [hcritical]
    exact isGreatest_pathLengths hpaths hne
  · rw [hcritical]
    exact maxDist_eq_succ hlevels hpaths hne

theorem critical_path_and_levels_diamond :
    (run step (jdagCreate 8) diamondRun).nodeCount ≠ 0 ∧
      IsGreatest (pathLengths (run step (jdagCreate 8) diamondRun))
          (jdagCriticalPathLength (run step (jdagCreate 8) diamondRun)) ∧
        Leveled (run step (jdagCreate 8) diamondRun)
          (jdagGetLevels (run step (jdagCreate 8) diamondRun) 8) := by
  have hops : ∀ op ∈ diamondRun, op.Structural := by simp [diamondRun, Op.Structural]
  have hne : (run step (jdagCreate 8) diamondRun).nodeCount ≠ 0 := by decide
  exact ⟨hne, critical_path_and_levels 8 hops hne (by decide)⟩

end MiniBackend.JobSystem.Proofs.CriticalPath
