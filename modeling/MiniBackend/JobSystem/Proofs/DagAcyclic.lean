import MiniBackend.JobSystem.Proofs.DagInvariant
import MiniBackend.Lib.Digraph

/-!
# The job graph has no cycles

`jdag_add_edge` searches breadth first from the target of the new edge and refuses
it when the source turns up.  The search is exact: it finds the source if and only
if there is a path, and its queue never needs more places than there are nodes.
-/

namespace MiniBackend.JobSystem.Proofs.DagAcyclic

open Relation
open MiniBackend.Lib MiniBackend.Lib.Runs MiniBackend.Lib.Digraph MiniBackend.JobSystem.JobDag
open MiniBackend.JobSystem.Proofs.DagInvariant

/-! ## Scanning the successors of one node -/

def unvisited (n : Nat) (visited : Nat → Bool) : Nat :=
  (List.range n).countP fun v => !visited v

theorem unvisited_update {n : Nat} {visited : Nat → Bool} {v : Nat} (hv : v < n)
    (hnew : visited v = false) :
    unvisited n (Function.update visited v true) + 1 = unvisited n visited := by
  have herase : ((List.range n).erase v).countP (fun w => !(Function.update visited v true) w) =
      ((List.range n).erase v).countP fun w => !visited w := by
    refine List.countP_congr fun w hw => ?_
    have hne : w ≠ v := ((List.nodup_range).mem_erase_iff.mp hw).1
    rw [Function.update_of_ne hne]
  have hmem : v ∈ List.range n := List.mem_range.mpr hv
  rw [unvisited, unvisited, (List.perm_cons_erase hmem).countP_eq,
    (List.perm_cons_erase hmem).countP_eq, List.countP_cons, List.countP_cons, herase]
  simp [hnew]

structure Scanned (n : Nat) (l : List Nat) (visited : Nat → Bool) (queue : List Nat)
    (visited' : Nat → Bool) (queue' : List Nat) : Prop where
  visited_iff : ∀ v, visited' v = true ↔ visited v = true ∨ v ∈ l
  mem_queue : ∀ v ∈ queue', v ∈ queue ∨ v ∈ l
  queue_subset : ∀ v ∈ queue, v ∈ queue'
  found : ∀ v ∈ l, visited v = false → v ∈ queue'
  measure : unvisited n visited' + queue'.length = unvisited n visited + queue.length

theorem scan_of_mem {target : Nat} {l : List Nat} (h : target ∈ l)
    (st : (Nat → Bool) × List Nat) : l.foldlM (visitEdge target) st = none := by
  induction l generalizing st with
  | nil => simp at h
  | cons v l ih =>
      rw [List.foldlM_cons]
      by_cases hv : v = target
      · simp [visitEdge, hv]
      · have hl : target ∈ l := (List.mem_cons.mp h).resolve_left fun heq => hv heq.symm
        simp only [visitEdge, if_neg hv]
        split
        · exact ih hl st
        · exact ih hl _

theorem scan_of_not_mem {n target : Nat} {l : List Nat} (hl : ∀ v ∈ l, v < n)
    (h : target ∉ l) (visited : Nat → Bool) (queue : List Nat) :
    ∃ visited' queue', l.foldlM (visitEdge target) (visited, queue) =
      some (visited', queue') ∧ Scanned n l visited queue visited' queue' := by
  induction l generalizing visited queue with
  | nil => exact ⟨visited, queue, rfl, by simp, by simp, by simp, by simp, rfl⟩
  | cons v l ih =>
      have hne : v ≠ target := fun heq => h (heq ▸ List.mem_cons_self)
      have htl : target ∉ l := fun hmem => h (List.mem_cons_of_mem v hmem)
      have hlt : ∀ w ∈ l, w < n := fun w hw => hl w (List.mem_cons_of_mem v hw)
      rw [List.foldlM_cons]
      by_cases hseen : visited v = true
      · obtain ⟨visited', queue', heq, hscan⟩ := ih hlt htl visited queue
        refine ⟨visited', queue', by simpa [visitEdge, hne, hseen] using heq, ?_, ?_,
          hscan.queue_subset, ?_, hscan.measure⟩
        · intro w
          rw [hscan.visited_iff, List.mem_cons]
          constructor
          · exact fun hw => hw.imp_right .inr
          · rintro (hw | rfl | hw)
            · exact .inl hw
            · exact .inl hseen
            · exact .inr hw
        · exact fun w hw => (hscan.mem_queue w hw).imp_right (List.mem_cons_of_mem v)
        · intro w hw hnew
          rcases List.mem_cons.mp hw with rfl | hw
          · rw [hseen] at hnew
            exact absurd hnew (by decide)
          · exact hscan.found w hw hnew
      · obtain ⟨visited', queue', heq, hscan⟩ :=
          ih hlt htl (Function.update visited v true) (queue ++ [v])
        have hnewv : visited v = false := by simpa using hseen
        have hmeasure := unvisited_update (hl v List.mem_cons_self) hnewv
        refine ⟨visited', queue', by simpa [visitEdge, hne, hseen] using heq, ?_, ?_, ?_, ?_, ?_⟩
        · intro w
          rw [hscan.visited_iff, List.mem_cons, Function.update_apply]
          by_cases hwv : w = v
          · simp [hwv]
          · simp [hwv]
        · intro w hw
          rcases hscan.mem_queue w hw with hw | hw
          · rcases List.mem_append.mp hw with hw | hw
            · exact .inl hw
            · exact .inr (List.mem_cons.mpr (.inl (List.mem_singleton.mp hw)))
          · exact .inr (List.mem_cons_of_mem v hw)
        · exact fun w hw => hscan.queue_subset w (List.mem_append_left [v] hw)
        · intro w hw hnew
          by_cases hwv : w = v
          · exact hscan.queue_subset w (List.mem_append_right queue (by simp [hwv]))
          · have hwl : w ∈ l := (List.mem_cons.mp hw).resolve_left hwv
            exact hscan.found w hwl (by rw [Function.update_of_ne hwv]; exact hnew)
        · have := hscan.measure
          simp only [List.length_append, List.length_singleton] at this
          omega

/-! ## The search -/

theorem reachesLoop_sound {dag : Jdag} (h : Linked dag) {start target fuel : Nat}
    {visited : Nat → Bool} {queue : List Nat}
    (hqueue : ∀ v ∈ queue, v < dag.nodeCount ∧ ReflTransGen (Adj dag) start v)
    (hfound : reachesLoop dag target fuel visited queue = true) :
    TransGen (Adj dag) start target := by
  induction fuel generalizing visited queue with
  | zero => cases queue <;> simp [reachesLoop] at hfound
  | succ fuel ih =>
      cases queue with
      | nil => simp [reachesLoop] at hfound
      | cons u queue =>
          obtain ⟨hu, hreach⟩ := hqueue u List.mem_cons_self
          by_cases hmem : target ∈ (dag.nodes u).outEdges
          · exact TransGen.tail' hreach ⟨hu, hmem⟩
          · obtain ⟨visited', queue', heq, hscan⟩ :=
              scan_of_not_mem (h.out_lt hu) hmem visited queue
            rw [reachesLoop, heq] at hfound
            refine ih (fun v hv => ?_) hfound
            rcases hscan.mem_queue v hv with hv | hv
            · exact hqueue v (List.mem_cons_of_mem u hv)
            · exact ⟨h.out_lt hu v hv, hreach.tail ⟨hu, hv⟩⟩

theorem reachesLoop_closed {dag : Jdag} (h : Linked dag) {target fuel : Nat}
    {visited : Nat → Bool} {queue : List Nat}
    (hqueue : ∀ v ∈ queue, v < dag.nodeCount)
    (hdone : ∀ w, visited w = true → w ∉ queue →
      ∀ x ∈ (dag.nodes w).outEdges, x ≠ target ∧ visited x = true)
    (hfuel : unvisited dag.nodeCount visited + queue.length ≤ fuel)
    (hnone : reachesLoop dag target fuel visited queue = false) :
    ∃ closed : Nat → Bool, (∀ w, visited w = true → closed w = true) ∧
      ∀ w, closed w = true → ∀ x ∈ (dag.nodes w).outEdges, x ≠ target ∧ closed x = true := by
  induction fuel generalizing visited queue with
  | zero =>
      have hempty : queue = [] := List.length_eq_zero_iff.mp (by omega)
      subst hempty
      exact ⟨visited, fun _ hw => hw, fun w hw => hdone w hw List.not_mem_nil⟩
  | succ fuel ih =>
      cases queue with
      | nil => exact ⟨visited, fun _ hw => hw, fun w hw => hdone w hw List.not_mem_nil⟩
      | cons u queue =>
          have hu := hqueue u List.mem_cons_self
          by_cases hmem : target ∈ (dag.nodes u).outEdges
          · rw [reachesLoop, scan_of_mem hmem] at hnone
            simp at hnone
          · obtain ⟨visited', queue', heq, hscan⟩ :=
              scan_of_not_mem (h.out_lt hu) hmem visited queue
            rw [reachesLoop, heq] at hnone
            have hmeasure := hscan.measure
            simp only [List.length_cons] at hfuel
            have hqueue' : ∀ v ∈ queue', v < dag.nodeCount := by
              intro v hv
              rcases hscan.mem_queue v hv with hv | hv
              · exact hqueue v (List.mem_cons_of_mem u hv)
              · exact h.out_lt hu v hv
            have hdone' : ∀ w, visited' w = true → w ∉ queue' →
                ∀ x ∈ (dag.nodes w).outEdges, x ≠ target ∧ visited' x = true := by
              intro w hw hwq x hx
              by_cases hwu : w = u
              · subst hwu
                exact ⟨fun heq => hmem (heq ▸ hx), (hscan.visited_iff x).mpr (.inr hx)⟩
              · -- a node found by this scan is still queued, so `w` was done before
                have hold : visited w = true := by
                  rcases (hscan.visited_iff w).mp hw with hw | hw
                  · exact hw
                  · by_contra hnew
                    exact hwq (hscan.found w hw (by simpa using hnew))
                have hwq' : w ∉ u :: queue := by
                  intro hmem'
                  rcases List.mem_cons.mp hmem' with heq | hmem'
                  · exact hwu heq
                  · exact hwq (hscan.queue_subset w hmem')
                have hx' := hdone w hold hwq' x hx
                exact ⟨hx'.1, (hscan.visited_iff x).mpr (.inl hx'.2)⟩
            obtain ⟨closed, hsub, hclosed⟩ := ih hqueue' hdone' (by omega) hnone
            exact ⟨closed, fun w hw => hsub w ((hscan.visited_iff w).mpr (.inl hw)), hclosed⟩

theorem unvisited_start {n start : Nat} (hstart : start < n) :
    unvisited n (Function.update (fun _ => false) start true) + 1 = n := by
  rw [unvisited_update hstart rfl]
  simp [unvisited]

theorem jdagWouldCreateCycle_iff {dag : Jdag} (h : Linked dag) {fi ti : Nat}
    (hfi : fi < dag.nodeCount) (hti : ti < dag.nodeCount) (hne : fi ≠ ti) :
    jdagWouldCreateCycle dag (dag.nodes fi).id (dag.nodes ti).id ≠ 0 ↔
      TransGen (Adj dag) ti fi := by
  rw [jdagWouldCreateCycle, h.indexed.find_self hfi, h.indexed.find_self hti]
  dsimp only
  rw [if_neg hne]
  cases hsearch : reachesLoop dag fi jdagMaxNodes (Function.update (fun _ => false) ti true)
      [ti] with
  | true =>
      have hpath : TransGen (Adj dag) ti fi := by
        refine reachesLoop_sound h (fun v hv => ?_) hsearch
        obtain rfl := List.mem_singleton.mp hv
        exact ⟨hti, .refl⟩
      simpa using hpath
  | false =>
      have hfuel : unvisited dag.nodeCount (Function.update (fun _ => false) ti true) +
          [ti].length ≤ jdagMaxNodes := by
        have hcount := unvisited_start hti
        have hle := h.indexed.count_le
        have hmax := h.indexed.maxNodes_le
        simp only [List.length_singleton]
        omega
      have hdone : ∀ w, Function.update (fun _ => false) ti true w = true → w ∉ [ti] →
          ∀ x ∈ (dag.nodes w).outEdges,
            x ≠ fi ∧ Function.update (fun _ => false) ti true x = true := by
        -- the only visited node is still queued
        intro w hw hwq
        have hwt : w ≠ ti := fun heq => hwq (List.mem_singleton.mpr heq)
        rw [Function.update_of_ne hwt] at hw
        exact absurd hw (by decide)
      obtain ⟨closed, hsub, hclosed⟩ := reachesLoop_closed h
        (fun v hv => List.mem_singleton.mp hv ▸ hti) hdone hfuel hsearch
      have hreach : ∀ v, TransGen (Adj dag) ti v → v ≠ fi ∧ closed v = true := by
        intro v hv
        induction hv with
        | single hadj => exact hclosed ti (hsub ti (Function.update_self ..)) _ hadj.2
        | tail _ hadj ih => exact hclosed _ ih.2 _ hadj.2
      simpa using fun hpath => (hreach fi hpath).1 rfl

/-! ## Runs -/

theorem acyclic_step (dag : Jdag) (op : Op) (h : Linked dag ∧ Acyclic (Adj dag)) :
    Linked (step dag op) ∧ Acyclic (Adj (step dag op)) := by
  obtain ⟨hlinked, hacyclic⟩ := h
  refine ⟨linked_step dag op hlinked, ?_⟩
  cases op with
  | addNode id name priority =>
      obtain ⟨-, heq⟩ | ⟨-, -, heq⟩ := jdagAddNode_cases dag id name priority
      · rwa [step, heq]
      · rw [step, heq]
        have hrep : Represents (appended dag (newNode id name priority)) (Adj dag) :=
          hlinked.represents.appended rfl rfl
        exact hacyclic.mono fun u v huv => hrep.adj_iff.mp huv
  | removeNode id =>
      cases hfind : jdagFindNode dag id with
      | none => rwa [step, jdagRemoveNode, hfind]
      | some idx =>
          obtain ⟨-, -, -, hrep, -⟩ := jdagRemoveNode_spec hlinked hfind
          exact hacyclic.of_map (origin (dag.nodeCount - 1) idx)
            fun u v huv => (hrep.adj_iff.mp huv).2.2.1
  | addEdge fromId toId =>
      obtain ⟨-, heq⟩ | ⟨fi, ti, hfi, hti, hne, hnew, hcycle, heq⟩ :=
        jdagAddEdge_cases dag fromId toId
      · rwa [step, heq]
      · obtain ⟨hfi', rfl⟩ := jdagFindNode_eq_some hfi
        obtain ⟨hti', rfl⟩ := jdagFindNode_eq_some hti
        rw [step, heq]
        have hrep := hlinked.represents.linkNodes hfi' hti' hne fun hadj => hnew hadj.2
        have hnopath : ¬ReflTransGen (Adj dag) ti fi := by
          intro hpath
          rcases reflTransGen_iff_eq_or_transGen.mp hpath with heq' | hpath
          · exact hne heq'
          · exact (jdagWouldCreateCycle_iff hlinked hfi' hti' hne).mpr hpath hcycle
        exact (hacyclic.insert hnopath).mono fun u v huv => hrep.adj_iff.mp huv
  | removeEdge fromId toId =>
      obtain heq | ⟨fi, ti, -, -, heq⟩ := jdagRemoveEdge_cases dag fromId toId
      · rwa [step, heq]
      · rw [step, heq]
        have hrep := hlinked.represents.unlinkNodes fi ti
        exact hacyclic.mono fun u v huv => (hrep.adj_iff.mp huv).1
  | markCompleted id now =>
      have hsame := sameEdges_jdagMarkCompleted dag id now
      exact hacyclic.mono fun u v huv => ⟨hsame.count ▸ huv.1, hsame.outEdges u ▸ huv.2⟩
  | markFailed id =>
      have hsame := sameEdges_jdagMarkFailed dag id
      exact hacyclic.mono fun u v huv => ⟨hsame.count ▸ huv.1, hsame.outEdges u ▸ huv.2⟩
  | getReadyNodes max => exact hacyclic

theorem acyclic_run (maxNodes : Int) (ops : List Op) :
    Acyclic (Adj (run step (jdagCreate maxNodes) ops)) := by
  have hempty : Acyclic (Adj (jdagCreate maxNodes)) := by
    intro u hu
    obtain ⟨v, -, hv⟩ := TransGen.tail'_iff.mp hu
    exact absurd hv.1 (Nat.not_lt_zero v)
  exact (run_keeps step acyclic_step ⟨linked_jdagCreate maxNodes, hempty⟩ ops).2

/-- After every sequence of calls the graph has no cycle, an edge between two nodes
that are not joined yet is refused as cyclic exactly when there is a path back, and
a refused edge changes nothing. -/
theorem acyclic_and_exact_rejection (maxNodes : Int) (ops : List Op) :
    Acyclic (Adj (run step (jdagCreate maxNodes) ops)) ∧
      (∀ fi < (run step (jdagCreate maxNodes) ops).nodeCount,
        ∀ ti < (run step (jdagCreate maxNodes) ops).nodeCount, fi ≠ ti →
        ti ∉ ((run step (jdagCreate maxNodes) ops).nodes fi).outEdges →
        ((jdagAddEdge (run step (jdagCreate maxNodes) ops)
            ((run step (jdagCreate maxNodes) ops).nodes fi).id
            ((run step (jdagCreate maxNodes) ops).nodes ti).id).1 = -5 ↔
          TransGen (Adj (run step (jdagCreate maxNodes) ops)) ti fi)) ∧
      ∀ fromId toId, (jdagAddEdge (run step (jdagCreate maxNodes) ops) fromId toId).1 < 0 →
        (jdagAddEdge (run step (jdagCreate maxNodes) ops) fromId toId).2 =
          run step (jdagCreate maxNodes) ops := by
  have hlinked := linked_run maxNodes ops
  refine ⟨acyclic_run maxNodes ops, ?_, ?_⟩
  · generalize run step (jdagCreate maxNodes) ops = dag at hlinked ⊢
    intro fi hfi ti hti hne hnew
    rw [← jdagWouldCreateCycle_iff hlinked hfi hti hne, jdagAddEdge,
      hlinked.indexed.find_self hfi, hlinked.indexed.find_self hti]
    dsimp only
    rw [if_neg hne, if_neg (by simpa using hnew)]
    split
    · next hcycle => simp [hcycle]
    · next hcycle =>
        refine iff_of_false ?_ hcycle
        split
        · simp
        · split <;> simp
  · intro fromId toId hneg
    obtain ⟨-, heq⟩ | ⟨fi, ti, -, -, -, -, -, heq⟩ :=
      jdagAddEdge_cases (run step (jdagCreate maxNodes) ops) fromId toId
    · exact heq
    · rw [heq] at hneg
      simp at hneg

/-!
# Failures and the nodes behind them

`jdag_mark_failed` is to skip every node downstream of the failed one.  Its loop runs
over the direct successors only, so a pending node further down is skipped exactly when
it is a direct successor as well.
-/

section FailureCascade

open Relation MiniBackend.Lib.Digraph MiniBackend.Lib.Runs MiniBackend.JobSystem.JobDag
open MiniBackend.JobSystem.Proofs.DagInvariant

/-- The failure of node `x` skips all pending nodes downstream and touches nothing that
is not downstream. -/
def Cascades (dag : Jdag) (x : Nat) : Prop :=
  (∀ y, TransGen (Adj dag) x y → (dag.nodes y).state = .pending →
    ((jdagMarkFailed dag (dag.nodes x).id).2.nodes y).state = .skipped) ∧
  ∀ y < dag.nodeCount, ¬ReflTransGen (Adj dag) x y →
    ((jdagMarkFailed dag (dag.nodes x).id).2.nodes y).state = (dag.nodes y).state

/-- Every pending node downstream of `x` is a direct successor of `x`. -/
def PendingAreDirect (dag : Jdag) (x : Nat) : Prop :=
  ∀ y, TransGen (Adj dag) x y → (dag.nodes y).state = .pending → Adj dag x y

/-! ## One call -/

theorem state_skipNode (dag : Jdag) (succ y : Nat) :
    ((skipNode dag succ).nodes y).state =
      if y = succ ∧ (dag.nodes y).state = .pending then .skipped else (dag.nodes y).state := by
  unfold skipNode
  by_cases hpending : (dag.nodes succ).state = .pending
  · rw [if_pos hpending, nodes_setNode]
    by_cases hy : y = succ
    · simp [hy, hpending, withState]
    · simp [hy]
  · rw [if_neg hpending, if_neg]
    rintro ⟨rfl, h⟩
    exact hpending h

theorem state_foldl_skipNode (l : List Nat) (dag : Jdag) (y : Nat) :
    ((l.foldl skipNode dag).nodes y).state =
      if y ∈ l ∧ (dag.nodes y).state = .pending then .skipped else (dag.nodes y).state := by
  induction l generalizing dag with
  | nil => simp
  | cons succ l ih =>
      rw [List.foldl_cons, ih, state_skipNode]
      by_cases hpending : (dag.nodes y).state = .pending
      · by_cases hy : y = succ
        · subst hy
          simp [hpending]
        · simp [hy, hpending]
      · simp [hpending]

theorem state_jdagMarkFailed {dag : Jdag} (h : Indexed dag) {x : Nat} (hx : x < dag.nodeCount)
    {y : Nat} (hy : y ≠ x) :
    ((jdagMarkFailed dag (dag.nodes x).id).2.nodes y).state =
      if y ∈ (dag.nodes x).outEdges ∧ (dag.nodes y).state = .pending then .skipped
      else (dag.nodes y).state := by
  unfold jdagMarkFailed
  rw [h.find_self hx]
  dsimp only
  rw [state_foldl_skipNode, nodes_setNode, if_neg hy]

/-! ## The cascade -/

/-- The failure cascades as documented exactly when no pending node lies behind another
node. -/
theorem cascades_iff (dag : Jdag) (hlinked : Linked dag) (hacyclic : Acyclic (Adj dag))
    (x : Nat) (hx : x < dag.nodeCount) : Cascades dag x ↔ PendingAreDirect dag x := by
  constructor
  · intro h y hxy hpending
    have hy : y ≠ x := by
      rintro rfl
      exact hacyclic y hxy
    have hskipped := h.1 y hxy hpending
    rw [state_jdagMarkFailed hlinked.indexed hx hy] at hskipped
    by_cases hmem : y ∈ (dag.nodes x).outEdges
    · exact ⟨hx, hmem⟩
    · rw [if_neg fun hc => hmem hc.1, hpending] at hskipped
      contradiction
  · intro h
    constructor
    · intro y hxy hpending
      have hy : y ≠ x := by
        rintro rfl
        exact hacyclic y hxy
      rw [state_jdagMarkFailed hlinked.indexed hx hy]
      exact if_pos ⟨(h y hxy hpending).2, hpending⟩
    · intro y _ hunreachable
      have hy : y ≠ x := by
        rintro rfl
        exact hunreachable .refl
      rw [state_jdagMarkFailed hlinked.indexed hx hy]
      exact if_neg fun hc => hunreachable (.single ⟨hx, hc.1⟩)

/-- One node with two pending successors. -/
def forkRun : List Op :=
  [.addNode 1 none 0, .addNode 2 none 0, .addNode 3 none 0, .addEdge 1 2, .addEdge 1 3]

def chainRun : List Op :=
  [.addNode 1 none 0, .addNode 2 none 0, .addNode 3 none 0, .addEdge 1 2, .addEdge 2 3]

theorem cascades_iff_fork : Cascades (run step (jdagCreate 8) forkRun) 0 := by
  have hcount : 0 < (run step (jdagCreate 8) forkRun).nodeCount := by decide
  refine (cascades_iff _ (linked_run 8 forkRun) (acyclic_run 8 forkRun) 0 hcount).mpr ?_
  intro y hy _
  have hsink : ∀ u, Adj (run step (jdagCreate 8) forkRun) 0 u →
      ∀ v, ¬Adj (run step (jdagCreate 8) forkRun) u v := by
    have hout : ∀ u ∈ ((run step (jdagCreate 8) forkRun).nodes 0).outEdges,
        ((run step (jdagCreate 8) forkRun).nodes u).outEdges = [] := by decide
    intro u hu v hv
    have hmem := hv.2
    rw [hout u hu.2] at hmem
    exact List.not_mem_nil hmem
  obtain ⟨u, hu, huy⟩ := TransGen.head'_iff.mp hy
  obtain rfl | ⟨v, huv, -⟩ := ReflTransGen.cases_head huy
  · exact hu
  · exact absurd huv (hsink u hu v)

/-- The failure of the first node of a chain leaves the last one pending. -/
theorem chain_keeps_last_pending :
    ¬∀ (dag : Jdag), Linked dag → Acyclic (Adj dag) → ∀ x < dag.nodeCount, Cascades dag x := by
  intro h
  have hcascade := h _ (linked_run 8 chainRun) (acyclic_run 8 chainRun) 0 (by decide)
  have hpath : TransGen (Adj (run step (jdagCreate 8) chainRun)) 0 2 :=
    .tail (.single (b := 1) ⟨by decide, by decide⟩) ⟨by decide, by decide⟩
  have hskipped := hcascade.1 2 hpath (by decide)
  revert hskipped
  decide

end FailureCascade

end MiniBackend.JobSystem.Proofs.DagAcyclic
