import MiniBackend.JobSystem.Proofs.KahnOrder

/-!
# The longest paths

The loop that the critical path and the levels share raises the distance of a node when one of its
predecessors is taken from the queue.  A node is taken after all its predecessors, so its distance
no longer changes then.
-/

namespace MiniBackend.JobSystem.Proofs.Relaxation

open MiniBackend.Lib.Digraph MiniBackend.JobSystem.JobDag
open MiniBackend.JobSystem.Proofs.DagInvariant MiniBackend.JobSystem.Proofs.KahnOrder

structure IsPath (dag : Jdag) (path : List Nat) : Prop where
  nonempty : path ≠ []
  lt : ∀ v ∈ path, v < dag.nodeCount
  chain : path.IsChain (Adj dag)

theorem isPath_singleton {dag : Jdag} {v : Nat} (hv : v < dag.nodeCount) : IsPath dag [v] where
  nonempty := List.cons_ne_nil v []
  lt u hu := by rwa [List.mem_singleton.mp hu]
  chain := List.isChain_singleton v

theorem IsPath.concat {dag : Jdag} {path : List Nat} (h : IsPath dag path) {u v : Nat}
    (hlast : path.getLast? = some u) (huv : Adj dag u v) (hv : v < dag.nodeCount) :
    IsPath dag (path ++ [v]) where
  nonempty := by simp
  lt w hw := by
    rcases List.mem_append.mp hw with hw | hw
    · exact h.lt w hw
    · rwa [List.mem_singleton.mp hw]
  chain := by
    refine h.chain.append (List.isChain_singleton v) fun x hx y hy => ?_
    obtain rfl : u = x := Option.some.inj (hlast.symm.trans hx)
    obtain rfl : v = y := Option.some.inj hy
    exact huv

/-! ## One round -/

theorem foldl_relaxEdge {u : Nat} {l : List Nat} (hl : l.Nodup) (hu : u ∉ l) (st : Relaxed) :
    l.foldl (relaxEdge u) st =
      { dist := fun v => if v ∈ l then max (st.dist v) (st.dist u + 1) else st.dist v
        indegree := (l.foldl kahnRelax (st.indegree, st.queue)).1
        queue := (l.foldl kahnRelax (st.indegree, st.queue)).2 } := by
  induction l generalizing st with
  | nil => simp
  | cons v l ih =>
      obtain ⟨hv, hl⟩ := List.nodup_cons.mp hl
      have huv : u ≠ v := fun heq => hu (by simp [heq])
      have hul : u ∉ l := fun hmem => hu (List.mem_cons_of_mem v hmem)
      have hdist : ∀ w, (relaxEdge u st v).dist w =
          if w = v then max (st.dist v) (st.dist u + 1) else st.dist w := by
        intro w
        rw [relaxEdge]
        dsimp only
        split
        · next hlt =>
            rw [Function.update_apply]
            split
            · exact (max_eq_right hlt.le).symm
            · rfl
        · next hle =>
            split
            · next hwv =>
                rw [hwv]
                exact (max_eq_left (by omega)).symm
            · rfl
      rw [List.foldl_cons, List.foldl_cons, ih hl hul]
      congr 1
      funext w
      rw [hdist, hdist, if_neg huv]
      by_cases hwv : w = v
      · rw [hwv, if_neg hv, if_pos rfl, if_pos List.mem_cons_self]
      · simp [hwv]

variable {dag : Jdag} {done : Nat → Prop} [DecidablePred done] {first : Nat}

/-- The invariant of the loop: the distances are those of paths that start with `first`, and they
respect the edges from the nodes in `order`. -/
structure RelaxState (dag : Jdag) (done : Nat → Prop) [DecidablePred done] (first : Nat)
    (st : Relaxed) (order : List Nat) (maxDist : Nat) : Prop where
  kahn : KahnState dag done st.indegree st.queue order
  lower : ∀ u v, Adj dag u v → u ∈ order → st.dist u + 1 ≤ st.dist v
  first_le : ∀ v ∈ order ++ st.queue, first ≤ st.dist v
  path : ∀ v < dag.nodeCount, first ≤ st.dist v →
    ∃ path, IsPath dag path ∧ path.getLast? = some v ∧ path.length + first = st.dist v + 1
  max_le : ∀ v ∈ order, st.dist v ≤ maxDist
  max_mem : maxDist = 0 ∨ ∃ v ∈ order, st.dist v = maxDist

theorem RelaxState.step (hcons : Consistent dag) (hsettled : Settled dag done) {dist : Nat → Nat}
    {indegree : Nat → Int} {u : Nat} {queue order : List Nat} {maxDist : Nat}
    (h : RelaxState dag done first ⟨dist, indegree, u :: queue⟩ order maxDist) :
    RelaxState dag done first ((dag.nodes u).outEdges.foldl (relaxEdge u) ⟨dist, indegree, queue⟩)
      (order ++ [u]) (if maxDist < dist u then dist u else maxDist) := by
  have hkahn := h.kahn
  have hnodup := hkahn.nodup
  have hu : u < dag.nodeCount := hkahn.lt u (by simp)
  have huo : u ∉ order := fun hmem =>
    (List.nodup_append.mp hnodup).2.2 u hmem u List.mem_cons_self rfl
  -- no predecessor of a node in the order is still in the queue
  have hfinal : ∀ v ∈ order ++ [u], v ∉ (dag.nodes u).outEdges := by
    intro v hv hout
    have hmem : v ∈ order ++ u :: queue := by
      rw [List.append_cons]
      exact List.mem_append_left queue hv
    have hbefore := hkahn.ordered u v ⟨hu, hout⟩ hmem
    rcases List.mem_append.mp hv with hv | hv
    · exact huo (hbefore.mem_front hv hnodup)
    · exact hbefore.ne hnodup (List.mem_singleton.mp hv).symm
  have hul := hfinal u (by simp)
  have hfirst : first ≤ dist u := h.first_le u (by simp)
  rw [foldl_relaxEdge (hcons.out_nodup u hu) hul, foldl_kahnRelax (hcons.out_nodup u hu)]
  have hsame : ∀ v ∈ order ++ [u], (if v ∈ (dag.nodes u).outEdges then max (dist v) (dist u + 1)
      else dist v) = dist v := fun v hv => if_neg (hfinal v hv)
  have hge : ∀ v, dist v ≤ if v ∈ (dag.nodes u).outEdges then max (dist v) (dist u + 1)
      else dist v := by
    intro v
    split
    · exact le_max_left _ _
    · exact le_rfl
  constructor
  · exact hkahn.step hcons hsettled
  · intro a v hadj ha
    dsimp only
    rw [hsame a ha]
    rcases List.mem_append.mp ha with ha | ha
    · exact (h.lower a v hadj ha).trans (hge v)
    · obtain rfl := List.mem_singleton.mp ha
      rw [if_pos hadj.2]
      exact le_max_right _ _
  · intro v hv
    dsimp only at hv ⊢
    have hlist : v ∈ order ++ u :: queue ∨ v ∈ (dag.nodes u).outEdges := by
      simp only [List.mem_append, List.mem_cons, List.mem_filter, List.not_mem_nil] at hv ⊢
      tauto
    rcases hlist with hv | hv
    · exact (h.first_le v hv).trans (hge v)
    · rw [if_pos hv]
      exact (hfirst.trans (Nat.le_succ _)).trans (le_max_right _ _)
  · intro v hv
    dsimp only
    by_cases hnew : v ∈ (dag.nodes u).outEdges ∧ dist v < dist u + 1
    · rw [if_pos hnew.1, max_eq_right hnew.2.le]
      intro _
      obtain ⟨path, hpath, hlast, hlen⟩ := h.path u hu hfirst
      refine ⟨path ++ [v], hpath.concat hlast ⟨hu, hnew.1⟩ hv, List.getLast?_concat, ?_⟩
      dsimp only at hlen
      rw [List.length_append, List.length_singleton]
      omega
    · have hold : (if v ∈ (dag.nodes u).outEdges then max (dist v) (dist u + 1)
          else dist v) = dist v := by
        split
        · next hout => exact max_eq_left (not_lt.mp fun hlt => hnew ⟨hout, hlt⟩)
        · rfl
      rw [hold]
      exact h.path v hv
  · intro v hv
    dsimp only
    rw [hsame v hv]
    rcases List.mem_append.mp hv with hv | hv
    · have hle := h.max_le v hv
      dsimp only at hle
      split <;> omega
    · rw [List.mem_singleton.mp hv]
      split <;> omega
  · dsimp only
    split
    · exact .inr ⟨u, by simp, hsame u (by simp)⟩
    · rcases h.max_mem with hzero | ⟨v, hv, heq⟩
      · exact .inl hzero
      · have hmem : v ∈ order ++ [u] := List.mem_append_left _ hv
        exact .inr ⟨v, hmem, (hsame v hmem).trans heq⟩

/-- The loop runs until the queue is empty. -/
theorem relaxLoop_spec (hcons : Consistent dag) (hsettled : Settled dag done) {fuel : Nat}
    {st : Relaxed} {order : List Nat} {maxDist : Nat}
    (h : RelaxState dag done first st order maxDist)
    (hfuel : dag.nodeCount ≤ fuel + order.length) :
    ∃ indegree order', RelaxState dag done first ⟨(relaxLoop dag fuel st maxDist).1, indegree, []⟩
      order' (relaxLoop dag fuel st maxDist).2 := by
  induction fuel generalizing st order maxDist with
  | zero =>
      obtain ⟨dist, indegree, queue⟩ := st
      cases queue with
      | nil => exact ⟨indegree, order, h⟩
      | cons u queue =>
          have hle := h.kahn.length_le
          simp only [List.length_append, List.length_cons] at hle
          omega
  | succ fuel ih =>
      obtain ⟨dist, indegree, queue⟩ := st
      cases queue with
      | nil => exact ⟨indegree, order, h⟩
      | cons u queue =>
          refine ih (h.step hcons hsettled) ?_
          rw [List.length_append, List.length_singleton]
          omega

/-! ## The distances -/

structure LongestPaths (dag : Jdag) (first : Nat) (dist : Nat → Nat) (maxDist : Nat) : Prop where
  path : ∀ v < dag.nodeCount,
    ∃ path, IsPath dag path ∧ path.getLast? = some v ∧ path.length + first = dist v + 1
  length_le : ∀ path v, IsPath dag path → path.getLast? = some v →
    path.length + first ≤ dist v + 1
  max_le : ∀ v < dag.nodeCount, dist v ≤ maxDist
  max_mem : dag.nodeCount ≠ 0 → ∃ v < dag.nodeCount, dist v = maxDist

theorem relaxState_init (hcons : Consistent dag) (hexec : Executed dag done)
    (hsettled : Settled dag done) (hfirst : first ≤ 1) :
    RelaxState dag done first
      ⟨fun i => if i < dag.nodeCount ∧ (dag.nodes i).indegree = 0 then first else 0,
        fun i => (dag.nodes i).indegree, sources dag⟩ [] 0 where
  kahn := kahnState_init hcons hexec hsettled
  lower _ _ _ hu := absurd hu List.not_mem_nil
  first_le v hv := by
    obtain ⟨hlt, hzero⟩ := List.mem_filter.mp hv
    simp [List.mem_range.mp hlt, of_decide_eq_true hzero]
  path v hv hle := by
    refine ⟨[v], isPath_singleton hv, rfl, ?_⟩
    dsimp only at hle ⊢
    rw [List.length_singleton]
    split at hle
    · next hsource =>
        rw [if_pos hsource]
        omega
    · next hsource =>
        rw [if_neg hsource]
        omega
  max_le _ hv := absurd hv List.not_mem_nil
  max_mem := .inl rfl

theorem relaxAll_spec (hcons : Consistent dag) (hacyclic : Acyclic (Adj dag))
    (hexec : Executed dag done) (hsettled : Settled dag done) (hfirst : first ≤ 1) :
    LongestPaths dag first (relaxAll dag first).1 (relaxAll dag first).2 := by
  have hroom : dag.nodeCount ≤ jdagMaxNodes + ([] : List Nat).length := hcons.count_le
  obtain ⟨indegree, order, h⟩ : ∃ indegree order, RelaxState dag done first
      ⟨(relaxAll dag first).1, indegree, []⟩ order (relaxAll dag first).2 :=
    relaxLoop_spec hcons hsettled (relaxState_init hcons hexec hsettled hfirst) hroom
  generalize relaxAll dag first = relaxed at h ⊢
  have hmem : ∀ v < dag.nodeCount, v ∈ order := fun v hv =>
    (h.kahn.perm hcons hacyclic).mem_iff.mpr (List.mem_range.mpr hv)
  have hle : ∀ v < dag.nodeCount, first ≤ relaxed.1 v := fun v hv =>
    h.first_le v (List.mem_append_left _ (hmem v hv))
  have hlower : ∀ u v, Adj dag u v → relaxed.1 u + 1 ≤ relaxed.1 v := fun u v huv =>
    h.lower u v huv (hmem u huv.1)
  constructor
  · exact fun v hv => h.path v hv (hle v hv)
  · intro path v hpath hlast
    cases path with
    | nil => exact absurd rfl hpath.nonempty
    | cons u path =>
        have hstart := hle u (hpath.lt u List.mem_cons_self)
        have hgrow := add_length_le_of_isChain hlower hpath.chain hlast
        rw [List.length_cons]
        omega
  · exact fun v hv => h.max_le v (hmem v hv)
  · intro hne
    have hpos := Nat.pos_of_ne_zero hne
    rcases h.max_mem with hzero | ⟨v, hv, heq⟩
    · have hle := h.max_le 0 (hmem 0 hpos)
      rw [hzero] at hle
      exact ⟨0, hpos, (Nat.le_zero.mp hle).trans hzero.symm⟩
    · exact ⟨v, h.kahn.lt v (List.mem_append_left _ hv), heq⟩

end MiniBackend.JobSystem.Proofs.Relaxation
