import MiniBackend.Lib.CArray
import Mathlib.Data.Rat.Defs

/-!
# `pool.c`

Slots that hold resources, and two counters.  Pool pointers are not `NULL`.  A callback is
only known to be given or not: what it answers in a call is an argument of the call, as is
what `seconds_since` gives for a slot, so `url`, `create_arg` and `last_used` are left out.
The statistics (`use_count` and the totals) are never read.
-/

namespace MiniBackend.Framework.ResourcePool

open MiniBackend.Lib.CArray

def poolMaxResources : Nat := 128

abbrev Resource := Nat

structure PoolSlot where
  resource : Option Resource
  inUse : Bool
deriving DecidableEq

/-- `opened` has what `create_fn` returned so far, and `closed` the resources that were given
to `destroy_fn`, or dropped when there is none. -/
structure Pool where
  slots : Nat → PoolSlot
  capacity : Nat
  inUse : Int
  idleCount : Int
  createFn : Bool
  validateFn : Bool
  idleTimeoutSec : Int
  initialized : Bool
  opened : List Resource
  closed : List Resource

def poolInit (capacity idleTimeoutSec : Int) (createFn validateFn : Bool) : Pool where
  slots := fun _ => ⟨none, false⟩
  capacity :=
    if 0 < capacity then
      if capacity < poolMaxResources then capacity.toNat else poolMaxResources
    else 8
  inUse := 0
  idleCount := 0
  createFn := createFn
  validateFn := validateFn
  idleTimeoutSec := idleTimeoutSec
  initialized := true
  opened := []
  closed := []

/-! ## Slots -/

def setSlot (pool : Pool) (i : Nat) (slot : PoolSlot) : Pool :=
  { pool with slots := Function.update pool.slots i slot }

def closeSlot (pool : Pool) (i : Nat) (resource : Resource) : Pool :=
  let pool' := setSlot pool i { pool.slots i with resource := none }
  { pool' with idleCount := pool.idleCount - 1, closed := pool.closed ++ [resource] }

def openSlot (pool : Pool) (i : Nat) (resource : Resource) : Pool :=
  let pool' := setSlot pool i { pool.slots i with resource := some resource }
  { pool' with opened := pool.opened ++ [resource] }

def idleResource (slot : PoolSlot) : Option Resource :=
  if slot.inUse then none else slot.resource

/-- What the callbacks answer while `pool_acquire` looks at the slots once. -/
structure Answers where
  validate : Resource → Bool
  create : Option Resource

def reuseLoop (validate : Resource → Bool) : List Nat → Pool → Option Nat × Pool
  | [], pool => (none, pool)
  | i :: rest, pool =>
      match idleResource (pool.slots i) with
      | none => reuseLoop validate rest pool
      | some resource =>
          if !pool.validateFn || validate resource then (some i, pool)
          else reuseLoop validate rest (closeSlot pool i resource)

def findOrCreateSlot (validate : Resource → Bool) (pool : Pool) : Option Nat × Pool :=
  match reuseLoop validate (List.range pool.capacity) pool with
  | (some i, pool) => (some i, pool)
  | (none, pool) => (findIndex (fun i => (pool.slots i).resource = none) pool.capacity, pool)

/-! ## Operations -/

def takeSlot (pool : Pool) (i : Nat) : Pool :=
  let pool' := setSlot pool i { pool.slots i with inUse := true }
  { pool' with inUse := pool.inUse + 1 }

def pollOnce (answers : Answers) (pool : Pool) : Option (Option Resource) × Pool :=
  match findOrCreateSlot answers.validate pool with
  | (none, pool) => (none, pool)
  | (some i, pool) =>
      match (pool.slots i).resource with
      | some resource => (some (some resource), takeSlot pool i)
      | none =>
          match answers.create with
          | none => (some none, pool)
          | some resource => (some (some resource), takeSlot (openSlot pool i resource) i)

/-- The loop of `pool_acquire`, with the answers in each round.  A loop that needs more of
them is still waiting. -/
def acquireLoop (timeoutMs : Int) (waited pollInterval : Int) :
    List Answers → Pool → Option (Option Resource × Pool)
  | [], _ => none
  | answers :: rest, pool =>
      match pollOnce answers pool with
      | (some result, pool) => some (result, pool)
      | (none, pool) =>
          if 0 ≤ timeoutMs ∧ timeoutMs ≤ waited then some (none, pool)
          else
            acquireLoop timeoutMs (if 0 ≤ timeoutMs then waited + pollInterval else waited)
              (if pollInterval < 100 then pollInterval * 2 else pollInterval) rest pool

def poolAcquire (pool : Pool) (timeoutMs : Int) (rounds : List Answers) :
    Option (Option Resource × Pool) :=
  if !pool.initialized || !pool.createFn then some (none, pool)
  else acquireLoop timeoutMs 0 10 rounds pool

def releaseSlot (pool : Pool) (i : Nat) : Pool :=
  let pool' := setSlot pool i { pool.slots i with inUse := false }
  { pool' with inUse := pool.inUse - 1, idleCount := pool.idleCount + 1 }

def poolRelease (pool : Pool) (resource : Option Resource) : Int × Pool :=
  match resource with
  | none => (-1, pool)
  | some resource =>
      match findIndex (fun i => (pool.slots i).resource = some resource ∧ (pool.slots i).inUse)
          pool.capacity with
      | some i => (0, releaseSlot pool i)
      | none => (-1, pool)

/-- One iteration of the loop in `pool_sweep_idle`, with the count of closed resources. -/
def sweepSlot (secondsSince : Nat → ℚ) (st : Int × Pool) (i : Nat) : Int × Pool :=
  match idleResource (st.2.slots i) with
  | none => st
  | some resource =>
      if st.2.idleTimeoutSec ≤ secondsSince i then (st.1 + 1, closeSlot st.2 i resource) else st

def poolSweepIdle (pool : Pool) (secondsSince : Nat → ℚ) : Int × Pool :=
  if pool.idleTimeoutSec ≤ 0 then (0, pool)
  else (List.range pool.capacity).foldl (sweepSlot secondsSince) (0, pool)

def warmSlot (pool : Pool) (i : Nat) (resource : Resource) : Pool :=
  let pool' := openSlot pool i resource
  let pool'' := setSlot pool' i { pool'.slots i with inUse := false }
  { pool'' with idleCount := pool.idleCount + 1 }

/-- One iteration of the loop in `pool_prewarm`, which does nothing once `min_idle` resources
have been created. -/
def prewarmSlot (minIdle : Int) (create : Nat → Option Resource) (st : Int × Pool) (i : Nat) :
    Int × Pool :=
  if st.1 < minIdle then
    match (st.2.slots i).resource, create i with
    | none, some resource => (st.1 + 1, warmSlot st.2 i resource)
    | _, _ => st
  else st

def poolPrewarm (pool : Pool) (minIdle : Int) (create : Nat → Option Resource) : Int × Pool :=
  if !pool.createFn then (0, pool)
  else (List.range pool.capacity).foldl (prewarmSlot minIdle create) (0, pool)

/-! ## Runs -/

/-- The calls of a program, with the answers of the callbacks.  `acquire` has a zero
timeout. -/
inductive Op
  | acquire (answers : Answers)
  | release (resource : Option Resource)
  | sweepIdle (secondsSince : Nat → ℚ)
  | prewarm (minIdle : Int) (create : Nat → Option Resource)

/-- A pool, and the resources that were handed out and not taken back. -/
structure Client where
  pool : Pool
  held : List Resource

/-- A call that returned a resource hands it out; one that returned 0 took it back. -/
def step (client : Client) : Op → Option Client
  | .acquire answers => do
      let (result, pool) ← poolAcquire client.pool 0 [answers]
      some ⟨pool, result.toList ++ client.held⟩
  | .release resource =>
      let (code, pool) := poolRelease client.pool resource
      some ⟨pool, if code = 0 then client.held.diff resource.toList else client.held⟩
  | .sweepIdle secondsSince => some ⟨(poolSweepIdle client.pool secondsSince).2, client.held⟩
  | .prewarm minIdle create => some ⟨(poolPrewarm client.pool minIdle create).2, client.held⟩

end MiniBackend.Framework.ResourcePool
