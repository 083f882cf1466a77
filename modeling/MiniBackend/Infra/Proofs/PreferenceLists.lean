import MiniBackend.Infra.Proofs.RingInvariant
import MiniBackend.Lib.Rotation

/-!
# Preference lists

A walk once around the ring visits every node, since every node has vnodes.  The nodes in the
order of their first visits are the preferences of a key, and every list that is asked for is a
front part of them.
-/

namespace MiniBackend.Infra.Proofs.PreferenceLists

open MiniBackend.Infra.Ring MiniBackend.Infra.Proofs.RingInvariant
open MiniBackend.Lib.CString MiniBackend.Lib.Rotation MiniBackend.Lib.Runs
open MiniBackend.Lib.StableSort

variable {ring : ChRing}

structure Populated (ring : ChRing) : Prop where
  inv : Inv ring
  replicated : 0 < ring.virtualCount
  short : ∀ name ∈ ring.physicalNames, name.length < chMaxNodeLen

/-- A new node has a name that fits. -/
def ShortName : Op → Prop
  | .addNode name => name.length < chMaxNodeLen
  | .removeNode _ | .rebalance => True

theorem step_virtualCount (ring : ChRing) (op : Op) :
    (step ring op).virtualCount = ring.virtualCount := by
  cases op with
  | addNode name =>
      unfold step chRingAddNode
      dsimp only
      split <;> rfl
  | removeNode name =>
      unfold step chRingRemoveNode
      dsimp only
      split <;> rfl
  | rebalance =>
      unfold step chRingRebalance
      dsimp only
      split <;> rfl

/-- The names of a ring after a step are old ones, or the new one. -/
theorem mem_step_physicalNames {op : Op} {name : CStr}
    (h : name ∈ (step ring op).physicalNames) :
    name ∈ ring.physicalNames ∨ op = .addNode name := by
  cases op with
  | addNode other =>
      unfold step chRingAddNode at h
      dsimp only at h
      split at h
      · exact Or.inl h
      · rcases List.mem_append.mp h with hold | hnew
        · exact Or.inl hold
        · rw [List.mem_singleton.mp hnew]
          exact Or.inr rfl
  | removeNode other =>
      unfold step chRingRemoveNode at h
      dsimp only at h
      split at h
      · exact Or.inl h
      · exact Or.inl (List.mem_of_mem_eraseIdx h)
  | rebalance =>
      unfold step chRingRebalance at h
      dsimp only at h
      split at h <;> exact Or.inl h

theorem Populated.step (h : Populated ring) {op : Op} (hshort : ShortName op) :
    Populated (step ring op) where
  inv := h.inv.step op
  replicated := by
    rw [step_virtualCount]
    exact h.replicated
  short name hname := by
    rcases mem_step_physicalNames hname with hold | rfl
    · exact h.short name hold
    · exact hshort

theorem populated_create (virtualNodesPerPhysical : Int) :
    Populated (chRingCreate virtualNodesPerPhysical) where
  inv := ⟨List.nodup_nil, rfl⟩
  replicated := by
    rw [chRingCreate, chDefaultVirtualNodes, chMaxVirtualNodes]
    dsimp only
    split <;> omega
  short := fun _ h => nomatch h

theorem populated_run (virtualNodesPerPhysical : Int) {ops : List Op}
    (hshort : ∀ op ∈ ops, ShortName op) :
    Populated (run step (chRingCreate virtualNodesPerPhysical) ops) :=
  run_invariant step (fun _ _ h hop => h.step hop) (populated_create virtualNodesPerPhysical)
    (always_of_forall step (fun _ _ hop => hop) hshort _)

/-! ## The walk -/

def nameAt (ring : ChRing) (i : Nat) : CStr :=
  strncpy (ring.physicalNames[i]?.getD []) (chMaxNodeLen - 1)

def nodeAt (ring : ChRing) (vi : Nat) : Nat := (ring.vnodes[vi]?.map (·.physicalIdx)).getD 0

def walk (ring : ChRing) (key : CStr) : List Nat :=
  (ring.vnodes.map (·.physicalIdx)).rotate (chFindVnode ring (chHashKey key)).toNat

def preferences (ring : ChRing) (key : CStr) : List CStr :=
  (firstVisits (fun _ => false) (walk ring key)).map (nameAt ring)

theorem collectLoop_eq (hrange : ∀ v ∈ ring.vnodes, v.physicalIdx < ring.physicalNames.length)
    (reqN : Nat) (places : List Nat) (hplaces : ∀ vi ∈ places, vi < ring.vnodes.length)
    (seen : Nat → Bool) (outNodes : List CStr) :
    collectLoop ring reqN places seen outNodes =
      some (outNodes ++ ((firstVisits seen (places.map (nodeAt ring))).map (nameAt ring)).take
        (reqN - outNodes.length)) := by
  induction places generalizing seen outNodes with
  | nil => simp [collectLoop, firstVisits]
  | cons vi places ih =>
      have hrest := ih fun other hother => hplaces other (List.mem_cons_of_mem vi hother)
      unfold collectLoop
      split
      · rename_i hroom
        obtain ⟨v, hget⟩ : ∃ v, ring.vnodes[vi]? = some v :=
          ⟨_, List.getElem?_eq_getElem (hplaces vi List.mem_cons_self)⟩
        obtain ⟨name, hname⟩ : ∃ name, ring.physicalNames[v.physicalIdx]? = some name :=
          ⟨_, List.getElem?_eq_getElem (hrange v (List.mem_of_getElem? hget))⟩
        have hnode : nodeAt ring vi = v.physicalIdx := by
          rw [nodeAt, hget]
          rfl
        have hcopy : nameAt ring v.physicalIdx = strncpy name (chMaxNodeLen - 1) := by
          rw [nameAt, hname]
          rfl
        rw [hget, List.map_cons, firstVisits, hnode]
        dsimp only
        split
        · exact hrest seen outNodes
        · have hleft : reqN - outNodes.length =
              reqN - (outNodes ++ [strncpy name (chMaxNodeLen - 1)]).length + 1 := by
            rw [List.length_append, List.length_singleton]
            omega
          rw [hname]
          dsimp only
          rw [hrest, List.map_cons, hleft, List.take_succ_cons, hcopy, List.append_assoc,
            List.singleton_append]
      · rename_i hfull
        have hzero : reqN - outNodes.length = 0 := by omega
        rw [hzero, List.take_zero, List.append_nil]

theorem map_nodeAt_places (ring : ChRing) (start : Nat) :
    ((List.range ring.vnodes.length).map fun i => (start + i) % ring.vnodes.length).map
        (nodeAt ring) = (ring.vnodes.map (·.physicalIdx)).rotate start := by
  apply List.ext_getElem?
  intro i
  by_cases hi : i < ring.vnodes.length
  · have hpos : 0 < ring.vnodes.length := by omega
    have hget := List.getElem?_eq_getElem (Nat.mod_lt (start + i) hpos)
    have hplace : ((List.range ring.vnodes.length).map
        fun i => (start + i) % ring.vnodes.length)[i]? =
        some ((start + i) % ring.vnodes.length) := by
      rw [List.getElem?_map, List.getElem?_range hi]
      rfl
    rw [List.getElem?_rotate (by rwa [List.length_map]), List.length_map, Nat.add_comm i start,
      List.getElem?_map, hplace, Option.map_some, nodeAt, List.getElem?_map, hget]
    rfl
  · rw [List.getElem?_eq_none (by simpa using hi), List.getElem?_eq_none (by simpa using hi)]

/-! ## All nodes -/

theorem mem_walk (h : Populated ring) (key : CStr) (i : Nat) :
    i ∈ walk ring key ↔ i < ring.physicalNames.length := by
  rw [walk, List.mem_rotate, List.mem_map]
  constructor
  · rintro ⟨v, hv, rfl⟩
    exact h.inv.inRange hv
  · intro hi
    have hname := List.getElem?_eq_getElem hi
    have howned := h.inv.sound.owned i _ hname
    have hfirst : (⟨chHashVnode (chHashKey ring.physicalNames[i]) 0, i⟩ : ChVnode) ∈
        replicas ring.virtualCount ring.physicalNames[i] i :=
      List.mem_map.mpr ⟨0, List.mem_range.mpr h.replicated, rfl⟩
    have hvnode := List.mem_filter.mp (howned.symm.subset hfirst)
    exact ⟨_, hvnode.1, rfl⟩

theorem map_nameAt_range (h : Populated ring) :
    (List.range ring.physicalNames.length).map (nameAt ring) = ring.physicalNames := by
  apply List.ext_getElem?
  intro i
  by_cases hi : i < ring.physicalNames.length
  · have hget := List.getElem?_eq_getElem hi
    have hshort := h.short _ (List.getElem_mem hi)
    rw [List.getElem?_map, List.getElem?_range hi, Option.map_some, nameAt, hget,
      Option.getD_some, strncpy_of_le (Nat.le_sub_one_of_lt hshort)]
  · rw [List.getElem?_eq_none (by simpa using hi), List.getElem?_eq_none (by omega)]

theorem preferences_perm (h : Populated ring) (key : CStr) :
    (preferences ring key).Perm ring.physicalNames := by
  have hvisits : (firstVisits (fun _ => false) (walk ring key)).Perm
      (List.range ring.physicalNames.length) := by
    rw [List.perm_ext_iff_of_nodup (nodup_firstVisits _ _) List.nodup_range]
    intro i
    rw [mem_firstVisits, mem_walk h key, List.mem_range]
    exact and_iff_left rfl
  have hnames := hvisits.map (nameAt ring)
  rwa [map_nameAt_range h] at hnames

theorem preferences_nil (h : Populated ring) {key : CStr} (hempty : ring.vnodes = []) :
    preferences ring key = [] ∧ ring.physicalNames = [] := by
  have hnil : preferences ring key = [] := by
    rw [preferences, walk, hempty]
    rfl
  have hperm := preferences_perm h key
  rw [hnil] at hperm
  exact ⟨hnil, hperm.symm.eq_nil⟩

theorem head?_preferences (h : Populated ring) (key : CStr) :
    (preferences ring key).head? = chRingGetNode ring key := by
  by_cases hne : ring.vnodes = []
  · rw [(preferences_nil h hne).1, chRingGetNode, if_pos (by rw [hne]; rfl)]
    rfl
  · have hlength : ring.vnodes.length ≠ 0 := fun hzero => hne (List.length_eq_zero_iff.mp hzero)
    have hsome : firstFrom ChVnode.key (chHashKey key).toNat ring.vnodes ≠ none :=
      mt firstFrom_eq_none_iff.mp hne
    obtain ⟨v, hfirst⟩ := Option.ne_none_iff_exists'.mp hsome
    have hget := chFindVnode_spec h.inv.sorted (chHashKey key) hne
    rw [hfirst] at hget
    have hstart := (List.getElem?_eq_some_iff.mp hget).1
    obtain ⟨name, hname⟩ : ∃ name, ring.physicalNames[v.physicalIdx]? = some name :=
      ⟨_, List.getElem?_eq_getElem (h.inv.inRange (List.mem_of_getElem? hget))⟩
    have hhead : (walk ring key).head? = some v.physicalIdx := by
      rw [walk, List.head?_eq_getElem?, List.getElem?_rotate (by rw [List.length_map]; omega),
        Nat.zero_add, List.length_map, Nat.mod_eq_of_lt hstart, List.getElem?_map, hget]
      rfl
    rw [preferences, List.head?_map, head?_firstVisits, hhead, chRingGetNode, if_neg hlength, hget]
    dsimp only
    rw [hname, Option.map_some, Option.map_some, nameAt, hname]
    rfl

theorem chRingGetNodes_eq (h : Populated ring) (key : CStr) {reqN : Int} (hreq : 1 ≤ reqN) :
    chRingGetNodes ring key reqN =
      some ((((preferences ring key).take reqN.toNat).length : Int),
        (preferences ring key).take reqN.toNat) := by
  have hlength := (preferences_perm h key).length_eq
  rw [chRingGetNodes, if_neg (by omega)]
  split
  · rename_i hzero
    rw [(preferences_nil h (List.length_eq_zero_iff.mp hzero)).1, List.take_nil]
    rfl
  · rename_i hnonempty
    dsimp only
    rw [collectLoop_eq (fun v hv => h.inv.inRange hv), map_nodeAt_places, Option.map_some,
      List.nil_append, List.length_nil, Nat.sub_zero]
    · have hcap : (preferences ring key).take
          (if (ring.physicalNames.length : Int) < reqN then (ring.physicalNames.length : Int)
            else reqN).toNat = (preferences ring key).take reqN.toNat := by
        split
        · rw [List.take_of_length_le (by omega), List.take_of_length_le (by omega)]
        · rfl
      rw [← hcap]
      rfl
    · intro vi hvi
      obtain ⟨i, -, rfl⟩ := List.mem_map.mp hvi
      exact Nat.mod_lt _ (by omega)

/-- What `ch_ring_get_nodes` returns for a key. -/
structure PreferenceList (ring : ChRing) (key : CStr) (reqN : Int) (nodes : List CStr) : Prop where
  returned : chRingGetNodes ring key reqN = some ((nodes.length : Int), nodes)
  complete : (nodes.length : Int) = min reqN ring.physicalNames.length
  distinct : nodes.Nodup
  known : ∀ node ∈ nodes, node ∈ ring.physicalNames
  first : nodes.head? = chRingGetNode ring key

theorem preferenceList_take (h : Populated ring) (key : CStr) {reqN : Int} (hreq : 1 ≤ reqN) :
    PreferenceList ring key reqN ((preferences ring key).take reqN.toNat) where
  returned := chRingGetNodes_eq h key hreq
  complete := by
    rw [List.length_take, (preferences_perm h key).length_eq]
    omega
  distinct := ((preferences_perm h key).nodup_iff.mpr h.inv.distinct).sublist
    (List.take_sublist _ _)
  known node hnode := (preferences_perm h key).subset (List.mem_of_mem_take hnode)
  first := by
    rw [← head?_preferences h key, List.head?_take, if_neg (by omega)]

/-- The lists are complete and distinct, and a longer one begins with a shorter one. -/
theorem preference_lists (virtualNodesPerPhysical : Int) {ops : List Op}
    (hshort : ∀ op ∈ ops, ShortName op) (key : CStr) {reqN : Int} (hreq : 1 ≤ reqN) :
    ∃ nodes more,
      PreferenceList (run step (chRingCreate virtualNodesPerPhysical) ops) key reqN nodes ∧
      PreferenceList (run step (chRingCreate virtualNodesPerPhysical) ops) key (reqN + 1) more ∧
      nodes <+: more := by
  have h := populated_run virtualNodesPerPhysical hshort
  refine ⟨_, _, preferenceList_take h key hreq, preferenceList_take h key (by omega), ?_⟩
  exact List.take_prefix_take_left (by omega)

theorem preference_lists_replaced :
    ∃ nodes more,
      PreferenceList (run step (chRingCreate 2)
        [.addNode (lit "a"), .addNode (lit "b"), .removeNode (lit "a"), .addNode (lit "c")])
        (lit "user:1") 1 nodes ∧
      PreferenceList (run step (chRingCreate 2)
        [.addNode (lit "a"), .addNode (lit "b"), .removeNode (lit "a"), .addNode (lit "c")])
        (lit "user:1") 2 more ∧
      nodes <+: more :=
  preference_lists 2 (by
    have hlengths : (lit "a").length < chMaxNodeLen ∧ (lit "b").length < chMaxNodeLen ∧
        (lit "c").length < chMaxNodeLen := by decide
    simpa [ShortName] using hlengths) (lit "user:1") (by decide)

end MiniBackend.Infra.Proofs.PreferenceLists
