import MiniBackend.Infra.ConsistentHash
import MiniBackend.Lib.Runs
import Mathlib.Data.List.Nodup

/-!
# The consistent-hash ring over whole runs

At any time the vnodes are the stable sort of the replicas of all names, in the order of
their indices.  Everything else follows: a new node adds replicas at the end, a removed node
drops its own, and the first vnode from a hash on is found again unless it belongs to that
node.
-/

namespace MiniBackend.Infra.Proofs.RingInvariant

open MiniBackend.Infra.Ring
open MiniBackend.Lib.CString MiniBackend.Lib.StableSort MiniBackend.Lib.Runs

structure Inv (ring : ChRing) : Prop where
  distinct : ring.physicalNames.Nodup
  vnodes_eq : ring.vnodes = qsort (allReplicas ring.virtualCount 0 ring.physicalNames)

/-! ## Replicas -/

theorem mem_replicas {virtualCount idx : Nat} {name : CStr} {v : ChVnode}
    (h : v ∈ replicas virtualCount name idx) : v.physicalIdx = idx := by
  obtain ⟨k, _, rfl⟩ := List.mem_map.mp h
  rfl

theorem allReplicas_append (virtualCount : Nat) (names : List CStr) (name : CStr) (idx : Nat) :
    allReplicas virtualCount idx (names ++ [name]) =
      allReplicas virtualCount idx names ++ replicas virtualCount name (idx + names.length) := by
  induction names generalizing idx with
  | nil => simp [allReplicas]
  | cons first names ih =>
      rw [List.cons_append, allReplicas, allReplicas, ih, List.append_assoc, List.length_cons]
      congr 3
      omega

theorem allReplicas_bounds {virtualCount idx : Nat} {names : List CStr} {v : ChVnode}
    (h : v ∈ allReplicas virtualCount idx names) :
    idx ≤ v.physicalIdx ∧ v.physicalIdx < idx + names.length := by
  induction names generalizing idx with
  | nil => contradiction
  | cons name names ih =>
      rw [List.length_cons]
      rcases List.mem_append.mp h with hfirst | hrest
      · have heq := mem_replicas hfirst
        omega
      · have hbounds := ih hrest
        omega

theorem allReplicas_filter {virtualCount : Nat} {names : List CStr} {name : CStr} {k : Nat}
    (hname : names[k]? = some name) (idx : Nat) :
    (allReplicas virtualCount idx names).filter (fun v => v.physicalIdx = idx + k) =
      replicas virtualCount name (idx + k) := by
  have hnone : ∀ l : List ChVnode, (∀ v ∈ l, v.physicalIdx ≠ idx + k) →
      l.filter (fun v => v.physicalIdx = idx + k) = [] := by
    intro l hl
    rw [List.filter_eq_nil_iff]
    intro v hv
    simpa using hl v hv
  induction names generalizing idx k with
  | nil => contradiction
  | cons first names ih =>
      rw [allReplicas, List.filter_append]
      cases k with
      | zero =>
          cases hname
          have hrest := hnone (allReplicas virtualCount (idx + 1) names) fun v hv => by
            have hbounds := allReplicas_bounds hv
            omega
          rw [hrest, List.append_nil, Nat.add_zero, List.filter_eq_self]
          intro v hv
          simpa using mem_replicas hv
      | succ k =>
          have hfirst := hnone (replicas virtualCount first idx) fun v hv => by
            have heq := mem_replicas hv
            omega
          have hshift : idx + (k + 1) = idx + 1 + k := by omega
          rw [hfirst, List.nil_append, hshift]
          apply ih hname
          intro l hl
          rw [← hshift]
          exact hnone l (by rwa [hshift])

def remap (targetIdx : Nat) (v : ChVnode) : Option ChVnode :=
  if v.physicalIdx = targetIdx then none
  else if targetIdx < v.physicalIdx then some { v with physicalIdx := v.physicalIdx - 1 }
  else some v

theorem compact_eq (targetIdx : Nat) (vnodes : List ChVnode) :
    compact targetIdx vnodes = vnodes.filterMap (remap targetIdx) := by
  induction vnodes with
  | nil => rfl
  | cons v vnodes ih =>
      rw [compact, List.filterMap_cons, remap, ih]
      by_cases heq : v.physicalIdx = targetIdx
      · simp [heq]
      · by_cases hlt : targetIdx < v.physicalIdx
        · simp [heq, hlt]
        · simp [heq, hlt]

theorem remap_key {targetIdx : Nat} (v w : ChVnode) (h : remap targetIdx v = some w) :
    w.key = v.key := by
  unfold remap at h
  split at h
  · contradiction
  · split at h <;> cases h <;> rfl

theorem replicas_remap_of_gt {targetIdx idx : Nat} (hlt : targetIdx < idx + 1)
    (virtualCount : Nat) (name : CStr) :
    (replicas virtualCount name (idx + 1)).filterMap (remap targetIdx) =
      replicas virtualCount name idx := by
  have hne : idx + 1 ≠ targetIdx := by omega
  simp [replicas, List.filterMap_map, remap, Function.comp_def, hne, hlt]

theorem replicas_remap_of_lt {targetIdx idx : Nat} (hlt : idx < targetIdx)
    (virtualCount : Nat) (name : CStr) :
    (replicas virtualCount name idx).filterMap (remap targetIdx) =
      replicas virtualCount name idx := by
  have hne : idx ≠ targetIdx := by omega
  have hnot : ¬ targetIdx < idx := by omega
  simp [replicas, List.filterMap_map, remap, Function.comp_def, hne, hnot]

theorem replicas_remap_self (idx virtualCount : Nat) (name : CStr) :
    (replicas virtualCount name idx).filterMap (remap idx) = [] := by
  simp [replicas, List.filterMap_map, remap, Function.comp_def]

theorem allReplicas_remap_of_gt {targetIdx idx : Nat} (hlt : targetIdx < idx + 1)
    (virtualCount : Nat) (names : List CStr) :
    (allReplicas virtualCount (idx + 1) names).filterMap (remap targetIdx) =
      allReplicas virtualCount idx names := by
  induction names generalizing idx with
  | nil => rfl
  | cons name names ih =>
      rw [allReplicas, List.filterMap_append, replicas_remap_of_gt hlt,
        ih (Nat.lt_succ_of_lt hlt), allReplicas]

theorem allReplicas_remap (virtualCount : Nat) (names : List CStr) (k idx : Nat)
    (hk : k < names.length) :
    (allReplicas virtualCount idx names).filterMap (remap (idx + k)) =
      allReplicas virtualCount idx (names.eraseIdx k) := by
  induction names generalizing k idx with
  | nil => contradiction
  | cons name names ih =>
      rw [allReplicas, List.filterMap_append]
      cases k with
      | zero =>
          rw [Nat.add_zero, replicas_remap_self, allReplicas_remap_of_gt (Nat.lt_succ_self idx)]
          rfl
      | succ k =>
          have hshift : idx + (k + 1) = idx + 1 + k := by omega
          rw [replicas_remap_of_lt (by omega), hshift,
            ih k (idx + 1) (Nat.lt_of_succ_lt_succ hk)]
          rfl

/-! ## Steps -/

variable {ring : ChRing}

theorem Inv.addNode (h : Inv ring) (name : CStr) : Inv (chRingAddNode ring name).2 := by
  unfold chRingAddNode
  by_cases hmem : name ∈ ring.physicalNames
  · rw [if_pos hmem]
    exact h
  · rw [if_neg hmem]
    constructor
    case distinct =>
      rw [List.nodup_append]
      refine ⟨h.distinct, List.nodup_singleton name, ?_⟩
      intro a ha b hb heq
      rw [List.mem_singleton] at hb
      exact hmem (hb ▸ heq ▸ ha)
    case vnodes_eq =>
      simp only [allReplicas_append, Nat.zero_add]
      rw [h.vnodes_eq]
      exact sortBy_sortBy_append _ _

theorem Inv.compact_vnodes (h : Inv ring) {k : Nat} (hk : k < ring.physicalNames.length) :
    compact k ring.vnodes =
      qsort (allReplicas ring.virtualCount 0 (ring.physicalNames.eraseIdx k)) := by
  have hremap := allReplicas_remap ring.virtualCount ring.physicalNames k 0 hk
  rw [Nat.zero_add] at hremap
  rw [compact_eq, h.vnodes_eq, ← hremap]
  exact filterMap_sortBy remap_key _

theorem Inv.removeNode (h : Inv ring) (name : CStr) : Inv (chRingRemoveNode ring name).2 := by
  unfold chRingRemoveNode
  cases hfind : ring.physicalNames.findIdx? (· == name) with
  | none => exact h
  | some k =>
      obtain ⟨hk, _⟩ := List.findIdx?_eq_some_iff_getElem.mp hfind
      constructor
      case distinct => exact h.distinct.eraseIdx k
      case vnodes_eq =>
        simp only
        rw [h.compact_vnodes hk]
        exact (sortBy_sorted _).sortBy_eq

theorem Inv.rebalance_eq (h : Inv ring) : chRingRebalance ring = ring := by
  unfold chRingRebalance
  split
  · rfl
  · rw [← h.vnodes_eq]

theorem Inv.step (h : Inv ring) (op : Op) : Inv (step ring op) := by
  cases op with
  | addNode name => exact h.addNode name
  | removeNode name => exact h.removeNode name
  | rebalance =>
      unfold Infra.Ring.step
      rw [h.rebalance_eq]
      exact h

theorem inv_run (virtualNodesPerPhysical : Int) (ops : List Op) :
    Inv (run step (chRingCreate virtualNodesPerPhysical) ops) := by
  have hempty : Inv (chRingCreate virtualNodesPerPhysical) := ⟨List.nodup_nil, rfl⟩
  exact run_keeps step (fun _ op h => h.step op) hempty ops

/-! ## The binary search -/

structure Bracket (vnodes : List ChVnode) (hash : UInt32) (lo hi : Int) : Prop where
  lo_nonneg : 0 ≤ lo
  lo_le : lo ≤ hi + 1
  hi_lt : hi < vnodes.length
  below : ∀ (i : Nat) (v : ChVnode), vnodes[i]? = some v → (i : Int) < lo → v.key < hash.toNat
  above : ∀ (i : Nat) (v : ChVnode), vnodes[i]? = some v → hi < (i : Int) → hash.toNat ≤ v.key

theorem sorted_getElem {vnodes : List ChVnode} (h : SortedBy ChVnode.key vnodes) {i j : Nat}
    {v w : ChVnode} (hi : vnodes[i]? = some v) (hj : vnodes[j]? = some w) (hij : i ≤ j) :
    v.key ≤ w.key := by
  obtain ⟨hi', rfl⟩ := List.getElem?_eq_some_iff.mp hi
  obtain ⟨hj', rfl⟩ := List.getElem?_eq_some_iff.mp hj
  rcases Nat.eq_or_lt_of_le hij with rfl | hlt
  · exact Nat.le_refl _
  · exact List.pairwise_iff_getElem.mp h i j hi' hj' hlt

theorem findLoop_spec {vnodes : List ChVnode} (hsorted : SortedBy ChVnode.key vnodes)
    (hash : UInt32) (rounds : Nat) :
    ∀ lo hi : Int, Bracket vnodes hash lo hi → hi + 1 - lo ≤ rounds →
      ∃ r : Int, findLoop vnodes hash rounds lo hi = r ∧ Bracket vnodes hash r (r - 1) := by
  induction rounds with
  | zero =>
      intro lo hi hbracket hrounds
      have hhi : hi = lo - 1 := by
        have hle := hbracket.lo_le
        omega
      exact ⟨lo, rfl, hhi ▸ hbracket⟩
  | succ rounds ih =>
      intro lo hi hbracket hrounds
      obtain ⟨hnonneg, hle, hlt, hbelow, habove⟩ := id hbracket
      rw [findLoop]
      by_cases hcont : lo ≤ hi
      · rw [if_pos hcont]
        have hmid : ((lo + hi) / 2).toNat < vnodes.length := by omega
        have hget : vnodes[((lo + hi) / 2).toNat]? = some vnodes[((lo + hi) / 2).toNat] :=
          List.getElem?_eq_getElem hmid
        simp only [hget]
        by_cases hless : vnodes[((lo + hi) / 2).toNat].hash < hash
        · rw [if_pos hless]
          apply ih
          · refine ⟨by omega, by omega, hlt, ?_, habove⟩
            intro i v hi' hlo'
            have hkey := sorted_getElem hsorted hi' hget (by omega)
            exact Nat.lt_of_le_of_lt hkey (UInt32.lt_iff_toNat_lt.mp hless)
          · omega
        · rw [if_neg hless]
          apply ih
          · refine ⟨hnonneg, by omega, by omega, hbelow, ?_⟩
            intro i v hi' hhi'
            have hkey := sorted_getElem hsorted hget hi' (by omega)
            have hnot : hash.toNat ≤ (vnodes[((lo + hi) / 2).toNat]).key :=
              Nat.le_of_not_lt fun h => hless (UInt32.lt_iff_toNat_lt.mpr h)
            exact Nat.le_trans hnot hkey
          · omega
      · rw [if_neg hcont]
        have hhi : hi = lo - 1 := by omega
        exact ⟨lo, rfl, hhi ▸ hbracket⟩

/-- The search ends at the first vnode from the hash on, or at the first one of all. -/
theorem chFindVnode_spec (hsorted : SortedBy ChVnode.key ring.vnodes) (hash : UInt32)
    (hne : ring.vnodes ≠ []) :
    ring.vnodes[(chFindVnode ring hash).toNat]? =
      firstFrom ChVnode.key hash.toNat ring.vnodes := by
  have hlength : ring.vnodes.length ≠ 0 := fun h => hne (List.length_eq_zero_iff.mp h)
  have hbracket : Bracket ring.vnodes hash 0 (ring.vnodes.length - 1) := by
    refine ⟨by omega, by omega, by omega, fun i v _ hi => by omega, ?_⟩
    intro i v hi hlt
    have hi' := (List.getElem?_eq_some_iff.mp hi).1
    omega
  obtain ⟨r, hr, hnonneg, _, hlt, hbelow, habove⟩ :=
    findLoop_spec hsorted hash ring.vnodes.length 0 _ hbracket (by omega)
  rw [chFindVnode, if_neg hlength, hr]
  simp only
  by_cases hend : (ring.vnodes.length : Int) ≤ r
  · -- Every vnode lies below the hash: the search wraps around.
    rw [if_pos hend]
    have hnone : ring.vnodes.find? (fun v => hash.toNat ≤ v.key) = none := by
      rw [List.find?_eq_none]
      intro v hv
      obtain ⟨i, hi⟩ := List.mem_iff_getElem?.mp hv
      have hi' := (List.getElem?_eq_some_iff.mp hi).1
      have hkey := hbelow i v hi (by omega)
      simpa using hkey
    rw [firstFrom, hnone, Option.none_or, List.head?_eq_getElem?]
    rfl
  · rw [if_neg hend]
    have hr' : r.toNat < ring.vnodes.length := by omega
    have hget := List.getElem?_eq_getElem hr'
    have hsome : ring.vnodes.find? (fun v => hash.toNat ≤ v.key) =
        some ring.vnodes[r.toNat] := by
      rw [List.find?_eq_some_iff_getElem]
      refine ⟨?_, r.toNat, hr', rfl, ?_⟩
      · simpa using habove r.toNat _ hget (by omega)
      · intro j hj
        have hj' : j < ring.vnodes.length := Nat.lt_trans hj hr'
        have hkey := hbelow j _ (List.getElem?_eq_getElem hj') (by omega)
        simpa using hkey
    rw [firstFrom, hsome, hget]
    rfl

/-! ## Owners -/

/-- The owner of the first vnode from the hash of the key on, wrapping to the smallest. -/
def owner (ring : ChRing) (key : CStr) : Option CStr :=
  (firstFrom ChVnode.key (chHashKey key).toNat ring.vnodes).bind fun v =>
    ring.physicalNames[v.physicalIdx]?

theorem Inv.sorted (h : Inv ring) : SortedBy ChVnode.key ring.vnodes := by
  rw [h.vnodes_eq]
  exact sortBy_sorted _

theorem Inv.mem_vnodes (h : Inv ring) {v : ChVnode} :
    v ∈ ring.vnodes ↔ v ∈ allReplicas ring.virtualCount 0 ring.physicalNames := by
  rw [h.vnodes_eq]
  exact (sortBy_perm _).mem_iff

theorem Inv.inRange (h : Inv ring) {v : ChVnode} (hv : v ∈ ring.vnodes) :
    v.physicalIdx < ring.physicalNames.length := by
  have hbounds := allReplicas_bounds (h.mem_vnodes.mp hv)
  omega

theorem Inv.getNode (h : Inv ring) (key : CStr) :
    chRingGetNode ring key =
      (owner ring key).map fun name => strncpy name (chMaxNodeLen - 1) := by
  rw [chRingGetNode, owner]
  by_cases hne : ring.vnodes = []
  · simp [hne, firstFrom]
  · have hlength : ring.vnodes.length ≠ 0 := fun h => hne (List.length_eq_zero_iff.mp h)
    rw [if_neg hlength, chFindVnode_spec h.sorted _ hne]
    cases firstFrom ChVnode.key (chHashKey key).toNat ring.vnodes with
    | none => rfl
    | some v => rfl

theorem Inv.owner_addNode (h : Inv ring) (name key : CStr) :
    owner (chRingAddNode ring name).2 key = owner ring key ∨
      owner (chRingAddNode ring name).2 key = some name := by
  have h' := h.addNode name
  by_cases hmem : name ∈ ring.physicalNames
  · left
    rw [chRingAddNode, if_pos hmem]
  · rw [chRingAddNode, if_neg hmem] at h' ⊢
    -- Without the new replicas the ring is as it was.
    have hold : (qsort (ring.vnodes ++ replicas ring.virtualCount name
        ring.physicalNames.length)).filterMap
          (Option.guard fun v => v.physicalIdx < ring.physicalNames.length) = ring.vnodes := by
      have hkey : ∀ v w : ChVnode,
          Option.guard (fun v => v.physicalIdx < ring.physicalNames.length) v = some w →
            w.key = v.key := by
        intro v w hvw
        rw [(Option.guard_eq_some_iff.mp hvw).1]
      have hkept : ring.vnodes.filter (fun v => v.physicalIdx < ring.physicalNames.length) =
          ring.vnodes := by
        rw [List.filter_eq_self]
        intro v hv
        simpa using h.inRange hv
      have hnew : (replicas ring.virtualCount name ring.physicalNames.length).filter
          (fun v => v.physicalIdx < ring.physicalNames.length) = [] := by
        rw [List.filter_eq_nil_iff]
        intro v hv
        simp [mem_replicas hv]
      rw [qsort, filterMap_sortBy hkey, List.filterMap_eq_filter, List.filter_append, hkept, hnew,
        List.append_nil]
      exact h.sorted.sortBy_eq
    cases hfirst : firstFrom ChVnode.key (chHashKey key).toNat
        (qsort (ring.vnodes ++ replicas ring.virtualCount name ring.physicalNames.length)) with
    | none =>
        left
        rw [firstFrom_eq_none_iff.mp hfirst] at hold
        have hempty : ring.vnodes = [] := hold.symm
        simp only [owner]
        rw [hfirst, hempty]
        rfl
    | some v =>
        simp only [owner, hfirst, Option.bind_some]
        by_cases hlt : v.physicalIdx < ring.physicalNames.length
        · left
          have hguard : Option.guard (fun v : ChVnode => v.physicalIdx < ring.physicalNames.length)
              v = some v := by simp [hlt]
          have hsame := firstFrom_filterMap (f := Option.guard fun v : ChVnode =>
            v.physicalIdx < ring.physicalNames.length) (fun v w hvw => by
              rw [(Option.guard_eq_some_iff.mp hvw).1]) hfirst hguard
          rw [hold] at hsame
          rw [hsame, List.getElem?_append_left hlt]
          rfl
        · right
          have hrange := h'.inRange (firstFrom_mem hfirst)
          simp only [List.length_append, List.length_singleton] at hrange
          have hlast : v.physicalIdx = ring.physicalNames.length := by omega
          rw [hlast]
          simp

/-- A removed node gives its keys away and moves no others. -/
theorem Inv.owner_removeNode (h : Inv ring) (name key : CStr) :
    owner (chRingRemoveNode ring name).2 key = owner ring key ∨ owner ring key = some name := by
  have h' := h.removeNode name
  unfold chRingRemoveNode at h' ⊢
  cases hfind : ring.physicalNames.findIdx? (· == name) with
  | none => exact Or.inl rfl
  | some k =>
      obtain ⟨hk, hname, _⟩ := List.findIdx?_eq_some_iff_getElem.mp hfind
      have hname : ring.physicalNames[k] = name := by simpa using hname
      have hvnodes : qsort (compact k ring.vnodes) = ring.vnodes.filterMap (remap k) := by
        rw [h.compact_vnodes hk, ← compact_eq, h.compact_vnodes hk]
        exact (sortBy_sorted _).sortBy_eq
      cases hfirst : firstFrom ChVnode.key (chHashKey key).toNat ring.vnodes with
      | none =>
          left
          have hnil := firstFrom_eq_none_iff.mp hfirst
          simp only [owner, hnil]
          rfl
      | some v =>
          have hv := firstFrom_mem hfirst
          simp only [owner, hfirst, hvnodes, Option.bind_some]
          by_cases heq : v.physicalIdx = k
          · right
            rw [heq, List.getElem?_eq_getElem hk, hname]
          · left
            by_cases hlt : k < v.physicalIdx
            · have hremap : remap k v = some { v with physicalIdx := v.physicalIdx - 1 } := by
                simp [remap, heq, hlt]
              rw [firstFrom_filterMap remap_key hfirst hremap, Option.bind_some,
                List.getElem?_eraseIdx]
              have hnot : ¬ v.physicalIdx - 1 < k := by omega
              rw [if_neg hnot]
              congr 1
              simp only
              omega
            · have hremap : remap k v = some v := by
                simp [remap, heq, hlt]
              rw [firstFrom_filterMap remap_key hfirst hremap, Option.bind_some,
                List.getElem?_eraseIdx]
              have hlt' : v.physicalIdx < k := by omega
              rw [if_pos hlt']

/-! ## Runs -/

/-- What holds of a ring at any time. -/
structure Sound (ring : ChRing) : Prop where
  sorted : SortedBy ChVnode.key ring.vnodes
  inRange : ∀ v ∈ ring.vnodes, v.physicalIdx < ring.physicalNames.length
  distinct : ring.physicalNames.Nodup
  owned : ∀ i name, ring.physicalNames[i]? = some name →
    (ring.vnodes.filter fun v => v.physicalIdx = i).Perm (replicas ring.virtualCount name i)
  lookup : ∀ key, chRingGetNode ring key =
    (owner ring key).map fun name => strncpy name (chMaxNodeLen - 1)

/-- Only the keys of the node that comes or goes are moved. -/
structure MovesMinimally (ring : ChRing) : Prop where
  add : ∀ name key,
    chRingGetNode (chRingAddNode ring name).2 key ≠ chRingGetNode ring key →
      owner (chRingAddNode ring name).2 key = some name
  remove : ∀ name key,
    chRingGetNode (chRingRemoveNode ring name).2 key ≠ chRingGetNode ring key →
      owner ring key = some name
  rebalance : ∀ key, chRingGetNode (chRingRebalance ring) key = chRingGetNode ring key

theorem Inv.sound (h : Inv ring) : Sound ring where
  sorted := h.sorted
  inRange := fun _ => h.inRange
  distinct := h.distinct
  owned := by
    intro i name hname
    have hfilter := @allReplicas_filter ring.virtualCount _ _ _ hname 0
    rw [Nat.zero_add] at hfilter
    rw [h.vnodes_eq, ← hfilter]
    exact (sortBy_perm _).filter _
  lookup := h.getNode

theorem Inv.movesMinimally (h : Inv ring) : MovesMinimally ring where
  add := by
    intro name key hmoved
    rcases h.owner_addNode name key with hsame | hnew
    · exact absurd (by rw [(h.addNode name).getNode, h.getNode, hsame]) hmoved
    · exact hnew
  remove := by
    intro name key hmoved
    rcases h.owner_removeNode name key with hsame | hgone
    · exact absurd (by rw [(h.removeNode name).getNode, h.getNode, hsame]) hmoved
    · exact hgone
  rebalance := by
    intro key
    rw [h.rebalance_eq]

/-- After any sequence of additions, removals and rebalancing. -/
theorem ring_sound (virtualNodesPerPhysical : Int) (ops : List Op) :
    let ring := run step (chRingCreate virtualNodesPerPhysical) ops
    Sound ring ∧ MovesMinimally ring := by
  intro ring
  have h := inv_run virtualNodesPerPhysical ops
  exact ⟨h.sound, h.movesMinimally⟩

/-- A name of 128 bytes is cut off. -/
theorem ring_cuts_long_name :
    let name : CStr := List.replicate 128 97
    let ring := run step (chRingCreate 1) [.addNode name]
    owner ring (lit "key") = some name ∧ chRingGetNode ring (lit "key") ≠ some name := by
  intro name ring
  constructor
  · decide +kernel
  · decide +kernel

end MiniBackend.Infra.Proofs.RingInvariant
