import MiniBackend.JobSystem.Proofs.DagAcyclic

/-!
# The order of Kahn's loop

`indegree` counts the predecessors of a node that are not done.  The loop lowers it once for each
predecessor, done or not, so a node that has done predecessors is released early; it still stands
behind all of them if the others cannot come later.
-/

namespace MiniBackend.JobSystem.Proofs.KahnOrder

open Relation
open MiniBackend.Lib MiniBackend.Lib.Digraph MiniBackend.JobSystem.JobDag
open MiniBackend.JobSystem.Proofs.DagInvariant

/-- The edge lists describe one relation on the nodes in use, which may have cycles and loops. -/
structure Consistent (dag : Jdag) : Prop where
  count_le : dag.nodeCount ≤ jdagMaxNodes
  out_nodup : ∀ u < dag.nodeCount, (dag.nodes u).outEdges.Nodup
  out_lt : ∀ u < dag.nodeCount, ∀ v ∈ (dag.nodes u).outEdges, v < dag.nodeCount
  in_nodup : ∀ v < dag.nodeCount, (dag.nodes v).inEdges.Nodup
  in_lt : ∀ v < dag.nodeCount, ∀ u ∈ (dag.nodes v).inEdges, u < dag.nodeCount
  mem_iff : ∀ u < dag.nodeCount, ∀ v < dag.nodeCount,
    u ∈ (dag.nodes v).inEdges ↔ v ∈ (dag.nodes u).outEdges

theorem consistent_of_linked {dag : Jdag} (h : Linked dag) : Consistent dag where
  count_le := h.indexed.count_le.trans h.indexed.maxNodes_le
  out_nodup := h.represents.out_nodup
  out_lt _ hu := h.out_lt hu
  in_nodup := h.represents.in_nodup
  in_lt v hv u hu := ((h.represents.mem_in v hv u).mp hu).1
  mem_iff u hu v hv := by
    rw [h.represents.mem_in v hv]
    exact ⟨fun hadj => hadj.2, fun hmem => ⟨hu, hmem⟩⟩

theorem Consistent.adj_lt {dag : Jdag} (h : Consistent dag) {u v : Nat} (huv : Adj dag u v) :
    u < dag.nodeCount ∧ v < dag.nodeCount := ⟨huv.1, h.out_lt u huv.1 v huv.2⟩

theorem Consistent.mem_in_iff {dag : Jdag} (h : Consistent dag) {u v : Nat}
    (hv : v < dag.nodeCount) : u ∈ (dag.nodes v).inEdges ↔ Adj dag u v := by
  constructor
  · intro hu
    have hlt := h.in_lt v hv u hu
    exact ⟨hlt, (h.mem_iff u hlt v hv).mp hu⟩
  · intro huv
    exact (h.mem_iff u huv.1 v hv).mpr huv.2

variable {dag : Jdag} {done : Nat → Prop} [DecidablePred done]

def Free (dag : Jdag) (done : Nat → Prop) (v : Nat) : Prop := ∀ u ∈ (dag.nodes v).inEdges, done u

structure Executed (dag : Jdag) (done : Nat → Prop) [DecidablePred done] : Prop where
  indegree_eq : ∀ v < dag.nodeCount,
    (dag.nodes v).indegree = (dag.nodes v).inEdges.countP fun u => ¬done u
  free : ∀ v < dag.nodeCount, done v → Free dag done v

/-- A node whose predecessors are all done is stored behind them, and a node that has a done
predecessor only has predecessors that are free themselves. -/
structure Settled (dag : Jdag) (done : Nat → Prop) : Prop where
  stored : ∀ u v, Adj dag u v → Free dag done v → u < v
  released : ∀ u v, Adj dag u v → done u → ∀ w, Adj dag w v → Free dag done w

theorem executed_none
    (h : ∀ v < dag.nodeCount, (dag.nodes v).indegree = (dag.nodes v).inEdges.length) :
    Executed dag fun _ => False where
  indegree_eq v hv := by
    rw [h v hv]
    simp
  free _ _ := False.elim

theorem settled_none (hcons : Consistent dag) : Settled dag fun _ => False where
  stored u _ huv hfree :=
    absurd (hfree u ((hcons.mem_in_iff (hcons.adj_lt huv).2).mpr huv)) not_false
  released _ _ _ := False.elim

theorem Executed.free_iff (h : Executed dag done) {v : Nat} (hv : v < dag.nodeCount) :
    Free dag done v ↔ (dag.nodes v).indegree = 0 := by
  rw [h.indegree_eq v hv, Int.natCast_eq_zero, List.countP_eq_zero]
  exact forall₂_congr fun u _ => by simp

/-! ## One round -/

theorem foldl_kahnRelax {l : List Nat} (hl : l.Nodup) (indegree : Nat → Int)
    (queue : List Nat) :
    l.foldl kahnRelax (indegree, queue) =
      ((fun v => if v ∈ l then indegree v - 1 else indegree v),
        queue ++ l.filter fun v => indegree v = 1) := by
  induction l generalizing indegree queue with
  | nil => simp
  | cons v l ih =>
      obtain ⟨hv, hl⟩ := List.nodup_cons.mp hl
      have hrest : ∀ w ∈ l, Function.update indegree v (indegree v - 1) w = indegree w := by
        intro w hw
        have hne : w ≠ v := fun heq => hv (heq ▸ hw)
        rw [Function.update_of_ne hne]
      rw [List.foldl_cons, kahnRelax, ih hl]
      refine Prod.ext ?_ ?_
      · funext w
        by_cases hw : w ∈ l
        · simp [hw, hrest w hw]
        · by_cases hwv : w = v
          · simp [hwv, hv]
          · simp [hw, hwv]
      · have hfilter : l.filter (fun w =>
            decide (Function.update indegree v (indegree v - 1) w = 1)) =
              l.filter fun w => indegree w = 1 :=
          List.filter_congr fun w hw => by rw [hrest w hw]
        have hzero : indegree v - 1 = 0 ↔ indegree v = 1 := by omega
        dsimp only
        rw [hfilter, List.filter_cons]
        by_cases hone : indegree v = 1
        · simp [hone]
        · simp [hone, hzero]

structure KahnState (dag : Jdag) (done : Nat → Prop) [DecidablePred done] (indegree : Nat → Int)
    (queue order : List Nat) : Prop where
  lt : ∀ v ∈ order ++ queue, v < dag.nodeCount
  nodup : (order ++ queue).Nodup
  indegree_eq : ∀ v < dag.nodeCount, indegree v =
    (dag.nodes v).inEdges.countP (fun u => ¬done u) - (dag.nodes v).inEdges.countP (· ∈ order)
  mem_iff : ∀ v < dag.nodeCount, v ∈ order ++ queue ↔ indegree v ≤ 0
  ordered : ∀ u v, Adj dag u v → v ∈ order ++ queue → Precedes (order ++ queue) u v

theorem countP_mem_concat {l order : List Nat} (hl : l.Nodup) {u : Nat} (hu : u ∉ order) :
    l.countP (· ∈ order ++ [u]) = l.countP (· ∈ order) + if u ∈ l then 1 else 0 := by
  split
  · next hmem =>
      have hrest : (l.erase u).countP (· ∈ order ++ [u]) = (l.erase u).countP (· ∈ order) := by
        refine List.countP_congr fun w hw => ?_
        have hne : w ≠ u := (hl.mem_erase_iff.mp hw).1
        simp [hne]
      rw [(List.perm_cons_erase hmem).countP_eq, (List.perm_cons_erase hmem).countP_eq,
        List.countP_cons, List.countP_cons, hrest]
      simp [hu]
  · next hmem =>
      refine List.countP_congr fun w hw => ?_
      have hne : w ≠ u := fun heq => hmem (heq ▸ hw)
      simp [hne]

theorem KahnState.free_mem {indegree : Nat → Int} {queue order : List Nat}
    (h : KahnState dag done indegree queue order) {v : Nat} (hv : v < dag.nodeCount)
    (hfree : Free dag done v) : v ∈ order ++ queue := by
  have hcount : (dag.nodes v).inEdges.countP (fun u => ¬done u) = 0 := by
    rw [List.countP_eq_zero]
    exact fun u hu => by simpa using hfree u hu
  rw [h.mem_iff v hv, h.indegree_eq v hv, hcount]
  omega

/-- A node that is released has all its predecessors in the order or in the queue. -/
theorem KahnState.preds_known (hcons : Consistent dag) (hsettled : Settled dag done)
    {indegree : Nat → Int} {u : Nat} {queue order : List Nat}
    (h : KahnState dag done indegree (u :: queue) order) {v : Nat} (huv : Adj dag u v)
    (hone : indegree v = 1) : ∀ w, Adj dag w v → w ∈ order ++ u :: queue := by
  intro w hwv
  obtain ⟨hwlt, hvlt⟩ := hcons.adj_lt hwv
  by_cases hdone : ∃ d ∈ (dag.nodes v).inEdges, done d
  · obtain ⟨d, hd, hdd⟩ := hdone
    have hdv := (hcons.mem_in_iff hvlt).mp hd
    exact h.free_mem hwlt (hsettled.released d v hdv hdd w hwv)
  · -- no predecessor is done, so `u` is the only one outside the order
    have hall : (dag.nodes v).inEdges.countP (fun d => ¬done d) = (dag.nodes v).inEdges.length := by
      rw [List.countP_eq_length]
      exact fun d hd => by simpa using fun hdd => hdone ⟨d, hd, hdd⟩
    have hcount := h.indegree_eq v hvlt
    rw [hall, hone] at hcount
    have hsplit : (dag.nodes v).inEdges.length = (dag.nodes v).inEdges.countP (· ∈ order) +
        (dag.nodes v).inEdges.countP fun d => ¬(d ∈ order) := by
      simpa using (dag.nodes v).inEdges.length_eq_countP_add_countP (· ∈ order)
    have huo : u ∉ order := fun hmem =>
      (List.nodup_append.mp h.nodup).2.2 u hmem u List.mem_cons_self rfl
    by_contra hw
    have hwo : w ∉ order := fun hmem => hw (List.mem_append_left _ hmem)
    have hwu : w ≠ u := by
      rintro rfl
      exact hw (by simp)
    have hpair : [u, w].length ≤ ((dag.nodes v).inEdges.filter fun d => ¬(d ∈ order)).length := by
      refine (List.subperm_of_subset (by simpa using hwu.symm) fun d hd => ?_).length_le
      rw [List.mem_filter]
      rcases List.mem_pair.mp hd with rfl | rfl
      · exact ⟨(hcons.mem_in_iff hvlt).mpr huv, by simpa using huo⟩
      · exact ⟨(hcons.mem_in_iff hvlt).mpr hwv, by simpa using hwo⟩
    rw [← List.countP_eq_length_filter] at hpair
    simp only [List.length_cons, List.length_nil] at hpair
    omega

theorem KahnState.step (hcons : Consistent dag) (hsettled : Settled dag done)
    {indegree : Nat → Int} {u : Nat} {queue order : List Nat}
    (h : KahnState dag done indegree (u :: queue) order) :
    KahnState dag done (fun v => if v ∈ (dag.nodes u).outEdges then indegree v - 1 else indegree v)
      (queue ++ (dag.nodes u).outEdges.filter fun v => indegree v = 1) (order ++ [u]) := by
  have hu : u < dag.nodeCount := h.lt u (by simp)
  have huo : u ∉ order := fun hmem =>
    (List.nodup_append.mp h.nodup).2.2 u hmem u List.mem_cons_self rfl
  have hlist : (order ++ [u]) ++ (queue ++ (dag.nodes u).outEdges.filter fun v => indegree v = 1) =
      (order ++ u :: queue) ++ (dag.nodes u).outEdges.filter fun v => indegree v = 1 := by simp
  refine ⟨fun v hv => ?_, ?_, fun v hv => ?_, fun v hv => ?_, fun w v hadj hv => ?_⟩
  · rw [hlist] at hv
    rcases List.mem_append.mp hv with hv | hv
    · exact h.lt v hv
    · exact hcons.out_lt u hu v (List.mem_of_mem_filter hv)
  · rw [hlist]
    refine List.nodup_append.mpr ⟨h.nodup, (hcons.out_nodup u hu).filter _, ?_⟩
    rintro v hv w hw rfl
    obtain ⟨hout, hone⟩ := List.mem_filter.mp hw
    have hle := (h.mem_iff v (hcons.out_lt u hu v hout)).mp hv
    have hone : indegree v = 1 := by simpa using hone
    omega
  · have hiff : u ∈ (dag.nodes v).inEdges ↔ v ∈ (dag.nodes u).outEdges := hcons.mem_iff u hu v hv
    have hold := h.indegree_eq v hv
    rw [countP_mem_concat (hcons.in_nodup v hv) huo]
    by_cases hout : v ∈ (dag.nodes u).outEdges
    · rw [if_pos hout, if_pos (hiff.mpr hout)]
      omega
    · rw [if_neg hout, if_neg fun hmem => hout (hiff.mp hmem)]
      exact hold
  · rw [hlist, List.mem_append, h.mem_iff v hv, List.mem_filter, decide_eq_true_eq]
    by_cases hout : v ∈ (dag.nodes u).outEdges
    · rw [if_pos hout]
      constructor
      · rintro (hle | ⟨-, hone⟩)
        · omega
        · omega
      · intro hle
        by_cases hone : indegree v = 1
        · exact .inr ⟨hout, hone⟩
        · exact .inl (by omega)
    · rw [if_neg hout]
      exact ⟨fun hor => hor.resolve_right fun hmem => hout hmem.1, .inl⟩
  · rw [hlist] at hv ⊢
    rcases List.mem_append.mp hv with hv | hv
    · exact (h.ordered w v hadj hv).append _
    · obtain ⟨hout, hone⟩ := List.mem_filter.mp hv
      have hone : indegree v = 1 := by simpa using hone
      have hw := h.preds_known hcons hsettled ⟨hu, hout⟩ hone w hadj
      exact (List.singleton_sublist.mpr hw).append (List.singleton_sublist.mpr hv)

def sources (dag : Jdag) : List Nat :=
  (List.range dag.nodeCount).filter fun v => (dag.nodes v).indegree = 0

theorem kahnState_init (hcons : Consistent dag) (hexec : Executed dag done)
    (hsettled : Settled dag done) :
    KahnState dag done (fun v => (dag.nodes v).indegree) (sources dag) [] := by
  have hmem : ∀ v < dag.nodeCount, v ∈ sources dag ↔ Free dag done v := by
    intro v hv
    rw [hexec.free_iff hv, sources, List.mem_filter, List.mem_range, decide_eq_true_eq]
    exact ⟨fun h => h.2, fun h => ⟨hv, h⟩⟩
  refine ⟨fun v hv => ?_, List.nodup_range.filter _, fun v hv => ?_, fun v hv => ?_,
    fun u v hadj hv => ?_⟩
  · exact List.mem_range.mp (List.mem_of_mem_filter hv)
  · rw [hexec.indegree_eq v hv]
    simp
  · rw [List.nil_append, hmem v hv, hexec.free_iff hv]
    have hcount := hexec.indegree_eq v hv
    omega
  · rw [List.nil_append] at hv ⊢
    obtain ⟨hult, hvlt⟩ := hcons.adj_lt hadj
    have hfree := (hmem v hvlt).mp hv
    have hlt := hsettled.stored u v hadj hfree
    have hdone := hfree u ((hcons.mem_in_iff hvlt).mpr hadj)
    have hu := (hmem u hult).mpr (hexec.free u hult hdone)
    -- both are in the queue, which is in the order of the array
    have hsorted : (sources dag).Pairwise (· < ·) := List.pairwise_lt_range.filter _
    exact precedes_of_pairwise_lt hsorted hu hv hlt

theorem KahnState.length_le {indegree : Nat → Int} {queue order : List Nat}
    (h : KahnState dag done indegree queue order) : (order ++ queue).length ≤ dag.nodeCount := by
  have hsub := List.subperm_of_subset h.nodup fun v hv => List.mem_range.mpr (h.lt v hv)
  simpa using hsub.length_le

theorem kahnLoop_spec (hcons : Consistent dag) (hsettled : Settled dag done) {fuel : Nat}
    {indegree : Nat → Int} {queue order : List Nat} (h : KahnState dag done indegree queue order)
    (hfuel : dag.nodeCount ≤ fuel + order.length) :
    ∃ final indegree', kahnLoop dag fuel indegree queue (order.map fun u => (dag.nodes u).id) =
      final.map (fun u => (dag.nodes u).id) ∧ KahnState dag done indegree' [] final := by
  induction fuel generalizing indegree queue order with
  | zero =>
      cases queue with
      | nil => exact ⟨order, indegree, rfl, h⟩
      | cons u queue =>
          have hle := h.length_le
          simp only [List.length_append, List.length_cons] at hle
          omega
  | succ fuel ih =>
      cases queue with
      | nil => exact ⟨order, indegree, rfl, h⟩
      | cons u queue =>
          have hu : u < dag.nodeCount := h.lt u (by simp)
          have hlen : dag.nodeCount ≤ fuel + (order ++ [u]).length := by
            simp only [List.length_append, List.length_singleton]
            omega
          obtain ⟨final, indegree', heq, hfinal⟩ := ih (h.step hcons hsettled) hlen
          refine ⟨final, indegree', ?_, hfinal⟩
          rw [kahnLoop, foldl_kahnRelax (hcons.out_nodup u hu), ← heq]
          simp

/-- With an empty queue every node is in the order: a first missing node would have
all its predecessors there. -/
theorem KahnState.perm (hcons : Consistent dag) (hacyclic : Acyclic (Adj dag))
    {indegree : Nat → Int} {order : List Nat} (h : KahnState dag done indegree [] order) :
    order.Perm (List.range dag.nodeCount) := by
  have hwf : WellFounded (Adj dag) :=
    hacyclic.wellFounded (Set.finite_Iio dag.nodeCount) fun u v huv => huv.1
  have hall : ∀ v, v < dag.nodeCount → v ∈ order := by
    intro v
    induction v using hwf.induction with
    | _ v ih =>
        intro hv
        have hall : (dag.nodes v).inEdges.countP (· ∈ order) = (dag.nodes v).inEdges.length := by
          rw [List.countP_eq_length]
          intro u hu
          have hadj := (hcons.mem_in_iff hv).mp hu
          simpa using ih u hadj hadj.1
        have hle := (dag.nodes v).inEdges.countP_le_length (p := fun u => ¬done u)
        have hmem := (h.mem_iff v hv).mpr (by rw [h.indegree_eq v hv, hall]; omega)
        simpa using hmem
  refine (List.perm_ext_iff_of_nodup ?_ List.nodup_range).mpr fun v => ?_
  · simpa using h.nodup
  · rw [List.mem_range]
    exact ⟨fun hv => h.lt v (by simpa using hv), hall v⟩

theorem kahn_order (hcons : Consistent dag) (hexec : Executed dag done)
    (hsettled : Settled dag done) {max : Int} (hmax : dag.nodeCount ≤ max) :
    ∃ order indegree, jdagTopologicalSortKahn dag max =
      (if order.length = dag.nodeCount then (dag.nodeCount : Int) else -2,
        order.map fun u => (dag.nodes u).id) ∧ KahnState dag done indegree [] order := by
  have hroom : dag.nodeCount ≤ jdagMaxNodes + ([] : List Nat).length := hcons.count_le
  obtain ⟨order, indegree, heq, hfinal⟩ :=
    kahnLoop_spec hcons hsettled (kahnState_init hcons hexec hsettled) hroom
  refine ⟨order, indegree, ?_, hfinal⟩
  have hloop : kahnLoop dag jdagMaxNodes (fun v => (dag.nodes v).indegree) (sources dag) [] =
      order.map fun u => (dag.nodes u).id := heq
  rw [jdagTopologicalSortKahn, if_neg (not_lt.mpr hmax)]
  dsimp only
  rw [← sources, hloop, List.length_map]
  split
  · next hlen => rw [hlen]
  · rfl

end MiniBackend.JobSystem.Proofs.KahnOrder
