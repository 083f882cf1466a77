import MiniBackend.JobSystem.Proofs.DagAcyclic
import MiniBackend.JobSystem.Proofs.KahnOrder

/-!
# Depth-first search

Both searches paint a node gray when they reach it and black when they leave it.  The black nodes
are listed, the last one first: all successors of a black node stand behind it.
-/

namespace MiniBackend.JobSystem.Proofs.CycleDetection

section DepthFirst

open Relation
open MiniBackend.Lib.Digraph MiniBackend.JobSystem.JobDag MiniBackend.JobSystem.Proofs.DagInvariant

/-- What has been finished: exactly the black nodes, each before its successors. -/
structure Finished (dag : Jdag) (color : Nat → Color) (order : List Nat) : Prop where
  black_iff : ∀ v, color v = .black ↔ v ∈ order
  lt : ∀ v ∈ order, v < dag.nodeCount
  nodup : order.Nodup
  ordered : ∀ u v, Adj dag u v → u ∈ order → Precedes order u v

structure Grows (color color' : Nat → Color) (order order' : List Nat) : Prop where
  subset : ∀ v ∈ order, v ∈ order'
  gray_iff : ∀ v, color' v = .gray ↔ color v = .gray
  white : ∀ v, color' v = .white → color v = .white

theorem Grows.refl (color : Nat → Color) (order : List Nat) : Grows color color order order :=
  ⟨fun _ h => h, fun _ => Iff.rfl, fun _ h => h⟩

theorem Grows.trans {color color' color'' : Nat → Color} {order order' order'' : List Nat}
    (h : Grows color color' order order') (h' : Grows color' color'' order' order'') :
    Grows color color'' order order'' :=
  ⟨fun v hv => h'.subset v (h.subset v hv), fun v => (h'.gray_iff v).trans (h.gray_iff v),
    fun v hv => h.white v (h'.white v hv)⟩

def whites (n : Nat) (color : Nat → Color) : Nat :=
  (List.range n).countP fun v => color v = .white

theorem whites_le {n : Nat} {color color' : Nat → Color}
    (h : ∀ v, color' v = .white → color v = .white) : whites n color' ≤ whites n color :=
  List.countP_mono_left fun v _ hv => by simpa using h v (by simpa using hv)

theorem whites_gray {n : Nat} {color : Nat → Color} {u : Nat} (hu : u < n)
    (hwhite : color u = .white) :
    whites n (Function.update color u .gray) + 1 = whites n color := by
  have hmem : u ∈ List.range n := List.mem_range.mpr hu
  have hrest : ((List.range n).erase u).countP
      (fun v => decide (Function.update color u .gray v = .white)) =
        ((List.range n).erase u).countP fun v => decide (color v = .white) := by
    refine List.countP_congr fun v hv => ?_
    rw [Function.update_of_ne (List.nodup_range.mem_erase_iff.mp hv).1]
  rw [whites, whites, (List.perm_cons_erase hmem).countP_eq,
    (List.perm_cons_erase hmem).countP_eq, List.countP_cons, List.countP_cons, hrest]
  simp [hwhite]

theorem whites_le_count (n : Nat) (color : Nat → Color) : whites n color ≤ n := by
  simpa [whites] using
    List.countP_le_length (p := fun v => decide (color v = .white)) (l := List.range n)

/-! ## Reaching and leaving a node -/

variable {dag : Jdag} {color color' : Nat → Color} {order order' : List Nat} {u : Nat}

theorem finished_nil (dag : Jdag) : Finished dag (fun _ => .white) [] where
  black_iff := by simp
  lt := by simp
  nodup := List.nodup_nil
  ordered := by simp

theorem Finished.start (h : Finished dag color order) (hwhite : color u = .white) :
    Finished dag (Function.update color u .gray) order where
  black_iff v := by
    rw [Function.update_apply]
    split
    · next hvu =>
        refine iff_of_false (by simp) fun hv => ?_
        have hblack := (h.black_iff v).mpr hv
        rw [hvu, hwhite] at hblack
        exact absurd hblack (by decide)
    · exact h.black_iff v
  lt := h.lt
  nodup := h.nodup
  ordered := h.ordered

theorem eq_or_transGen_of_gray (h : ∀ g, color g = .gray → TransGen (Adj dag) g u) :
    ∀ g, Function.update color u .gray g = .gray → g = u ∨ TransGen (Adj dag) g u := by
  intro g hg
  by_cases hgu : g = u
  · exact .inl hgu
  · rw [Function.update_of_ne hgu] at hg
    exact .inr (h g hg)

theorem Finished.finish (h : Finished dag color' order') (hu : u < dag.nodeCount)
    (hgray : color' u = .gray) (hsucc : ∀ v, Adj dag u v → v ∈ order') :
    Finished dag (Function.update color' u .black) (u :: order') where
  black_iff v := by
    rw [Function.update_apply, List.mem_cons]
    split
    · next hvu => simp [hvu]
    · next hvu => simp [hvu, h.black_iff v]
  lt v hv := by
    rcases List.mem_cons.mp hv with rfl | hv
    · exact hu
    · exact h.lt v hv
  nodup := by
    refine List.nodup_cons.mpr ⟨fun hmem => ?_, h.nodup⟩
    have hblack := (h.black_iff u).mpr hmem
    rw [hgray] at hblack
    exact absurd hblack (by decide)
  ordered w v hadj hw := by
    rcases List.mem_cons.mp hw with rfl | hw
    · exact precedes_cons w (hsucc v hadj)
    · exact (h.ordered w v hadj hw).cons u

theorem Grows.finish (h : Grows (Function.update color u .gray) color' order order')
    (hwhite : color u = .white) :
    Grows color (Function.update color' u .black) order (u :: order') where
  subset v hv := List.mem_cons_of_mem u (h.subset v hv)
  gray_iff v := by
    by_cases hvu : v = u
    · subst hvu
      simp [hwhite]
    · rw [Function.update_of_ne hvu, h.gray_iff, Function.update_of_ne hvu]
  white v hv := by
    by_cases hvu : v = u
    · exact hvu ▸ hwhite
    · rw [Function.update_of_ne hvu] at hv
      have hold := h.white v hv
      rwa [Function.update_of_ne hvu] at hold

end DepthFirst

/-!
# The two cycle checks

`jdag_has_cycle` and Kahn's sort are compared on every graph whose two edge lists agree, with
cycles or without.  The search meets a node in progress only on a cycle, and a search that comes to
its end has listed the nodes in an order that all edges respect; so does a sort that lists all
nodes.
-/

open Relation
open MiniBackend.Lib.Digraph MiniBackend.JobSystem.JobDag
open MiniBackend.JobSystem.Proofs.DagInvariant MiniBackend.JobSystem.Proofs.KahnOrder

def Cyclic (dag : Jdag) : Prop := ∃ v, TransGen (Adj dag) v v

theorem cyclic_iff_not_acyclic (dag : Jdag) : Cyclic dag ↔ ¬Acyclic (Adj dag) := by
  simp [Cyclic, Acyclic]

variable {dag : Jdag}

def Checked (dag : Jdag) (color : Nat → Color) (order l : List Nat)
    (r : Option (Nat → Color)) : Prop :=
  (r = none ∧ Cyclic dag) ∨ ∃ color' order', r = some color' ∧ Finished dag color' order' ∧
    Grows color color' order order' ∧ ∀ v ∈ l, v ∈ order'

theorem Checked.bind {color : Nat → Color} {order l : List Nat} {v : Nat}
    {r : Option (Nat → Color)} {f : (Nat → Color) → Option (Nat → Color)}
    (h : Checked dag color order [v] r)
    (hf : ∀ color' order', Finished dag color' order' → Grows color color' order order' →
      Checked dag color' order' l (f color')) : Checked dag color order (v :: l) (r.bind f) := by
  rcases h with ⟨rfl, hcycle⟩ | ⟨color', order', rfl, hfin, hgrows, hmem⟩
  · exact .inl ⟨rfl, hcycle⟩
  · rcases hf color' order' hfin hgrows with ⟨hnone, hcycle⟩ | hsome
    · exact .inl ⟨hnone, hcycle⟩
    · obtain ⟨color'', order'', heq, hfin', hgrows', hmem'⟩ := hsome
      refine .inr ⟨color'', order'', heq, hfin', hgrows.trans hgrows', fun w hw => ?_⟩
      rcases List.mem_cons.mp hw with rfl | hw
      · exact hgrows'.subset w (hmem w List.mem_cons_self)
      · exact hmem' w hw

/-- A loop over nodes, for a condition on the colors that the searches keep. -/
theorem checked_foldlM {body : (Nat → Color) → Nat → Option (Nat → Color)}
    {P : (Nat → Color) → Prop}
    (hkeep : ∀ color color' order order', Grows color color' order order' → P color → P color')
    {l : List Nat} (hbody : ∀ v ∈ l, ∀ color order, Finished dag color order → P color →
      Checked dag color order [v] (body color v)) {color : Nat → Color} {order : List Nat}
    (hfin : Finished dag color order) (hP : P color) :
    Checked dag color order l (l.foldlM body color) := by
  induction l generalizing color order with
  | nil => exact .inr ⟨color, order, rfl, hfin, Grows.refl color order, by simp⟩
  | cons v l ih =>
      rw [List.foldlM_cons]
      refine (hbody v List.mem_cons_self color order hfin hP).bind
        fun color' order' hfin' hgrows => ?_
      exact ih (fun w hw => hbody w (List.mem_cons_of_mem v hw)) hfin'
        (hkeep color color' order order' hgrows hP)

theorem checked_black {color : Nat → Color} {order : List Nat} {v : Nat}
    (hfin : Finished dag color order) (hblack : color v = .black) :
    Checked dag color order [v] (some color) := by
  refine .inr ⟨color, order, rfl, hfin, Grows.refl color order, fun w hw => ?_⟩
  rw [List.mem_singleton.mp hw]
  exact (hfin.black_iff v).mp hblack

theorem dfsCycleDetect_spec (hcons : Consistent dag) {fuel u : Nat} {color : Nat → Color}
    {order : List Nat} (hu : u < dag.nodeCount) (hwhite : color u = .white)
    (hfin : Finished dag color order) (hgray : ∀ g, color g = .gray → TransGen (Adj dag) g u)
    (hwhites : whites dag.nodeCount color ≤ fuel) :
    Checked dag color order [u] (dfsCycleDetect dag fuel u color) := by
  induction fuel generalizing u color order with
  | zero =>
      have hcount := whites_gray hu hwhite
      omega
  | succ fuel ih =>
      have hcount := whites_gray hu hwhite
      let body := fun color v =>
        if color v = .gray then none
        else if color v = .white then dfsCycleDetect dag fuel v color
        else some color
      -- the nodes in progress are `u` and nodes that lead to it
      have hloop : Checked dag (Function.update color u .gray) order (dag.nodes u).outEdges
          ((dag.nodes u).outEdges.foldlM body (Function.update color u .gray)) := by
        refine checked_foldlM (P := fun color =>
          (∀ g, color g = .gray → g = u ∨ TransGen (Adj dag) g u) ∧
            whites dag.nodeCount color ≤ fuel) ?_ ?_ (hfin.start hwhite)
          ⟨eq_or_transGen_of_gray hgray, by omega⟩
        · intro color color' order order' hgrows hP
          exact ⟨fun g hg => hP.1 g ((hgrows.gray_iff g).mp hg),
            (whites_le hgrows.white).trans hP.2⟩
        · intro v hv color order hfin hP
          have hadj : Adj dag u v := ⟨hu, hv⟩
          have hpath : ∀ g, color g = .gray → TransGen (Adj dag) g v := by
            intro g hg
            rcases hP.1 g hg with rfl | hpath
            · exact .single hadj
            · exact hpath.tail hadj
          dsimp only [body]
          cases hcolor : color v with
          | gray => exact .inl ⟨rfl, v, hpath v hcolor⟩
          | white => exact ih (hcons.adj_lt hadj).2 hcolor hfin hpath hP.2
          | black => exact checked_black hfin hcolor
      rw [dfsCycleDetect]
      rcases hloop with ⟨hnone, hcycle⟩ | ⟨color', order', heq, hfin', hgrows, hmem⟩
      · rw [hnone]
        exact .inl ⟨rfl, hcycle⟩
      · have hgrayu : color' u = .gray := (hgrows.gray_iff u).mpr (Function.update_self ..)
        rw [heq]
        exact .inr ⟨Function.update color' u .black, u :: order', rfl,
          hfin'.finish hu hgrayu fun v huv => hmem v huv.2, hgrows.finish hwhite, by simp⟩

theorem jdagHasCycle_spec (hcons : Consistent dag) : jdagHasCycle dag = 1 ↔ Cyclic dag := by
  by_cases hne : dag.nodeCount = 0
  · rw [jdagHasCycle, if_pos hne, cyclic_iff_not_acyclic]
    refine iff_of_false (by decide) (not_not.mpr fun v hv => ?_)
    obtain ⟨w, hadj, -⟩ := TransGen.head'_iff.mp hv
    exact absurd hadj.1 (by omega)
  · have hsearch : Checked dag (fun _ => .white) [] (List.range dag.nodeCount)
        ((List.range dag.nodeCount).foldlM (fun color i =>
          if color i = .white then dfsCycleDetect dag jdagMaxNodes i color else some color)
          fun _ => .white) := by
      refine checked_foldlM (P := fun color => ∀ v, color v ≠ .gray) ?_ ?_ (finished_nil dag)
        (by simp)
      · intro color color' order order' hgrows hP v hv
        exact hP v ((hgrows.gray_iff v).mp hv)
      · intro v hv color order hfin hP
        cases hcolor : color v with
        | gray => exact absurd hcolor (hP v)
        | white =>
            exact dfsCycleDetect_spec hcons (List.mem_range.mp hv) hcolor hfin
              (fun g hg => absurd hg (hP g))
              ((whites_le_count _ color).trans hcons.count_le)
        | black => exact checked_black hfin hcolor
    rw [jdagHasCycle, if_neg hne]
    rcases hsearch with ⟨hnone, hcycle⟩ | ⟨color, order, hsome, hfin, -, hmem⟩
    · rw [hnone]
      exact iff_of_true rfl hcycle
    · rw [hsome, cyclic_iff_not_acyclic]
      refine iff_of_false (by simp) (not_not.mpr ?_)
      exact acyclic_of_precedes hfin.nodup fun u v huv =>
        hfin.ordered u v huv (hmem u (List.mem_range.mpr huv.1))

/-- The sort fails on the graphs with a cycle only. -/
theorem kahn_fails_iff (hcons : Consistent dag)
    (hdegree : ∀ v < dag.nodeCount, (dag.nodes v).indegree = (dag.nodes v).inEdges.length)
    {max : Int} (hmax : dag.nodeCount ≤ max) :
    (jdagTopologicalSortKahn dag max).1 = -2 ↔ Cyclic dag := by
  obtain ⟨order, indegree, heq, hfinal⟩ :=
    kahn_order hcons (executed_none hdegree) (settled_none hcons) hmax
  have hnodup : order.Nodup := by simpa using hfinal.nodup
  have hlen : order.length = dag.nodeCount ↔ Acyclic (Adj dag) := by
    constructor
    · intro hlen
      have hsub : ∀ v ∈ order, v ∈ List.range dag.nodeCount := fun v hv =>
        List.mem_range.mpr (hfinal.lt v (by simpa using hv))
      have hperm := (List.subperm_of_subset hnodup hsub).perm_of_length_le (by simp [hlen])
      refine acyclic_of_precedes hnodup fun u v huv => ?_
      have hv : v ∈ order := hperm.mem_iff.mpr (List.mem_range.mpr (hcons.adj_lt huv).2)
      simpa using hfinal.ordered u v huv (by simpa using hv)
    · intro hacyclic
      rw [(hfinal.perm hcons hacyclic).length_eq, List.length_range]
  rw [heq, cyclic_iff_not_acyclic, ← hlen]
  dsimp only
  split
  · next h => exact iff_of_false (by omega) (not_not.mpr h)
  · next h => exact iff_of_true rfl h

/-- Both checks find the graphs with a cycle. -/
theorem cycle_detectors_agree (hcons : Consistent dag)
    (hdegree : ∀ v < dag.nodeCount, (dag.nodes v).indegree = (dag.nodes v).inEdges.length)
    {max : Int} (hmax : dag.nodeCount ≤ max) :
    (jdagHasCycle dag = 1 ↔ ∃ v, TransGen (Adj dag) v v) ∧
      ((jdagTopologicalSortKahn dag max).1 = -2 ↔ ∃ v, TransGen (Adj dag) v v) :=
  ⟨jdagHasCycle_spec hcons, kahn_fails_iff hcons hdegree hmax⟩

/-- Two nodes with edges to each other. -/
def pairCycle : Jdag :=
  { jdagCreate 4 with
    nodes := fun i => { zeroNode with
      indegree := 1
      outdegree := 1
      inEdges := [1 - i]
      outEdges := [1 - i] }
    nodeCount := 2
    edgeCount := 2 }

theorem cycle_detectors_agree_pairCycle :
    jdagHasCycle pairCycle = 1 ∧ (jdagTopologicalSortKahn pairCycle 4).1 = -2 := by
  have hcons : Consistent pairCycle :=
    ⟨by decide, by decide, by decide, by decide, by decide, by decide⟩
  have hmax : (pairCycle.nodeCount : Int) ≤ 4 := by decide
  have hforth : Adj pairCycle 0 1 := ⟨by decide, by decide⟩
  have hback : Adj pairCycle 1 0 := ⟨by decide, by decide⟩
  obtain ⟨hsearch, hsort⟩ := cycle_detectors_agree hcons (by decide) hmax
  exact ⟨hsearch.mpr ⟨0, .tail (.single hforth) hback⟩, hsort.mpr ⟨0, .tail (.single hforth) hback⟩⟩

end MiniBackend.JobSystem.Proofs.CycleDetection
