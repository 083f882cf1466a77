import MiniBackend.Lib.CString
import MiniBackend.Lib.StableSort
import Mathlib.Logic.Function.Basic

/-!
# `consistent_hash.c`

A ring of virtual nodes.  `qsort` is taken to be stable.  Memory can be allocated, so the
capacities of the two arrays are left out, and counts are not bounded.  Rings, names and keys
are not `NULL`.
-/

namespace MiniBackend.Infra.Ring

open MiniBackend.Lib.CString MiniBackend.Lib.StableSort

def chMaxNodeLen : Nat := 128
def chDefaultVirtualNodes : Nat := 150
def chMaxVirtualNodes : Nat := 4096

structure ChVnode where
  hash : UInt32
  physicalIdx : Nat
deriving DecidableEq

structure ChRing where
  virtualCount : Nat
  physicalNames : List CStr
  vnodes : List ChVnode
deriving DecidableEq

def chMix32 (h : UInt32) : UInt32 :=
  let h := h ^^^ (h >>> 16)
  let h := h * 0x85ebca6b
  let h := h ^^^ (h >>> 13)
  let h := h * 0xc2b2ae35
  h ^^^ (h >>> 16)

def chHashKey (key : CStr) : UInt32 :=
  chMix32 (key.foldl (fun h b => (h ^^^ b.toUInt32) * 0x01000193) 0x811c9dc5)

def chHashVnode (base : UInt32) (replica : Nat) : UInt32 :=
  chMix32 (base ^^^ (UInt32.ofNat replica * 0x9e3779b9))

def ChVnode.key (v : ChVnode) : Nat := v.hash.toNat

def qsort (vnodes : List ChVnode) : List ChVnode := sortBy ChVnode.key vnodes

def chRingCreate (virtualNodesPerPhysical : Int) : ChRing where
  virtualCount :=
    min (if 0 < virtualNodesPerPhysical then virtualNodesPerPhysical.toNat
      else chDefaultVirtualNodes) chMaxVirtualNodes
  physicalNames := []
  vnodes := []

/-! ## Lookup -/

/-- The loop of `ch_find_vnode`, with a bound on its rounds. -/
def findLoop (vnodes : List ChVnode) (hash : UInt32) : Nat → Int → Int → Int
  | 0, lo, _ => lo
  | rounds + 1, lo, hi =>
      if lo ≤ hi then
        let mid := (lo + hi) / 2
        match vnodes[mid.toNat]? with
        | none => lo
        | some v =>
            if v.hash < hash then findLoop vnodes hash rounds (mid + 1) hi
            else findLoop vnodes hash rounds lo (mid - 1)
      else lo

/-- The interval shrinks in each round, so there are at most as many rounds as vnodes. -/
def chFindVnode (ring : ChRing) (hash : UInt32) : Int :=
  if ring.vnodes.length = 0 then -1
  else
    let lo := findLoop ring.vnodes hash ring.vnodes.length 0 (ring.vnodes.length - 1)
    if (ring.vnodes.length : Int) ≤ lo then 0 else lo

/-- What `ch_ring_get_node` writes to `out_node`; -1 is `none`.  An index outside of an array
gives `none` too. -/
def chRingGetNode (ring : ChRing) (key : CStr) : Option CStr :=
  if ring.vnodes.length = 0 then none
  else
    match ring.vnodes[(chFindVnode ring (chHashKey key)).toNat]? with
    | none => none
    | some v => ring.physicalNames[v.physicalIdx]?.map fun name => strncpy name (chMaxNodeLen - 1)

/-- The loop of `ch_ring_get_nodes` over the places that are left; `found` is the length of
`outNodes`.  An index outside of an array gives `none`. -/
def collectLoop (ring : ChRing) (reqN : Nat) : List Nat → (Nat → Bool) → List CStr →
    Option (List CStr)
  | [], _, outNodes => some outNodes
  | vi :: places, seen, outNodes =>
      if outNodes.length < reqN then
        match ring.vnodes[vi]? with
        | none => none
        | some v =>
            if seen v.physicalIdx then collectLoop ring reqN places seen outNodes
            else
              match ring.physicalNames[v.physicalIdx]? with
              | none => none
              | some name =>
                  collectLoop ring reqN places (Function.update seen v.physicalIdx true)
                    (outNodes ++ [strncpy name (chMaxNodeLen - 1)])
      else some outNodes

/-- The return value, and what is written to `out_nodes`. -/
def chRingGetNodes (ring : ChRing) (key : CStr) (reqN : Int) : Option (Int × List CStr) :=
  if reqN ≤ 0 then some (-1, [])
  else if ring.vnodes.length = 0 then some (0, [])
  else
    let reqN :=
      if (ring.physicalNames.length : Int) < reqN then (ring.physicalNames.length : Int) else reqN
    let start := (chFindVnode ring (chHashKey key)).toNat
    let places := (List.range ring.vnodes.length).map fun i => (start + i) % ring.vnodes.length
    (collectLoop ring reqN.toNat places (fun _ => false) []).map fun outNodes =>
      (outNodes.length, outNodes)

/-! ## Changes of the ring -/

/-- The vnodes of the node with index `idx`, as `ch_ring_add_node` appends them. -/
def replicas (virtualCount : Nat) (name : CStr) (idx : Nat) : List ChVnode :=
  (List.range virtualCount).map fun v => ⟨chHashVnode (chHashKey name) v, idx⟩

def chRingAddNode (ring : ChRing) (nodeName : CStr) : Int × ChRing :=
  if nodeName ∈ ring.physicalNames then (0, ring)
  else
    let idx := ring.physicalNames.length
    (0, { ring with
      physicalNames := ring.physicalNames ++ [nodeName]
      vnodes := qsort (ring.vnodes ++ replicas ring.virtualCount nodeName idx) })

/-- The loop of `ch_ring_remove_node` that compacts the vnodes. -/
def compact (targetIdx : Nat) : List ChVnode → List ChVnode
  | [] => []
  | v :: vnodes =>
      if v.physicalIdx = targetIdx then compact targetIdx vnodes
      else if targetIdx < v.physicalIdx then
        { v with physicalIdx := v.physicalIdx - 1 } :: compact targetIdx vnodes
      else v :: compact targetIdx vnodes

def chRingRemoveNode (ring : ChRing) (nodeName : CStr) : Int × ChRing :=
  match ring.physicalNames.findIdx? (· == nodeName) with
  | none => (-1, ring)
  | some targetIdx =>
      (0, { ring with
        physicalNames := ring.physicalNames.eraseIdx targetIdx
        vnodes := qsort (compact targetIdx ring.vnodes) })

def allReplicas (virtualCount : Nat) : Nat → List CStr → List ChVnode
  | _, [] => []
  | idx, name :: names =>
      replicas virtualCount name idx ++ allReplicas virtualCount (idx + 1) names

def chRingRebalance (ring : ChRing) : ChRing :=
  if ring.physicalNames.length = 0 then ring
  else { ring with vnodes := qsort (allReplicas ring.virtualCount 0 ring.physicalNames) }

/-! ## Runs -/

inductive Op
  | addNode (name : CStr)
  | removeNode (name : CStr)
  | rebalance
deriving DecidableEq

def step (ring : ChRing) : Op → ChRing
  | .addNode name => (chRingAddNode ring name).2
  | .removeNode name => (chRingRemoveNode ring name).2
  | .rebalance => chRingRebalance ring

end MiniBackend.Infra.Ring
