import MiniBackend.Lib.CArray
import MiniBackend.Lib.CString

/-!
# `service_registry.c`

Services with the instances that registered under their names.  The time and the random
numbers are arguments; the pointers are non-null, memory does not run out, and there is no
health callback.
-/

namespace MiniBackend.Infra.Registry

open MiniBackend.Lib.CArray MiniBackend.Lib.CString

def srMaxNameLen : Nat := 64
def srMaxHostLen : Nat := 128
def srMaxUrlLen : Nat := 256
def srMaxMetaLen : Nat := 1024
def srMaxInstances : Nat := 4096
def srDefaultHeartbeat : Int := 30
def srDefaultTtl : Int := 90

inductive SrInstanceStatus
  | up
  | down
  | unknown
deriving DecidableEq

inductive SrLbStrategy
  | roundRobin
  | random
  | weighted
deriving DecidableEq

structure SrInstance where
  serviceName : Field srMaxNameLen
  instanceId : Field 37
  host : Field srMaxHostLen
  port : UInt16
  healthUrl : Field srMaxUrlLen
  metadata : Field srMaxMetaLen
  weight : Int
  registerTime : Int
  lastHeartbeat : Int
  heartbeatInterval : Int
  ttlSeconds : Int
  status : SrInstanceStatus
deriving DecidableEq

/-- `service_names[i]` with `services[i]`. -/
structure SrSvcEntry where
  name : CStr
  instances : List SrInstance

structure SrRegistry where
  services : List SrSvcEntry

def srRegistryCreate : SrRegistry := ⟨[]⟩

def srFindService (registry : SrRegistry) (name : CStr) : Option SrSvcEntry :=
  registry.services.find? (·.name = name)

/-- A write through the pointer that `sr_find_service` returns. -/
def modifyService (registry : SrRegistry) (name : CStr)
    (f : List SrInstance → List SrInstance) : SrRegistry :=
  ⟨updateFirst (·.name = name) (fun svc => { svc with instances := f svc.instances })
    registry.services⟩

/-! ## Registration -/

def hexDigit (d : Nat) : UInt8 := UInt8.ofNat (if d < 10 then 48 + d else 87 + d)

def hex4 (n : UInt16) : CStr :=
  [n.toNat / 4096, n.toNat / 256 % 16, n.toNat / 16 % 16, n.toNat % 16].map hexDigit

/-- The id that `sr_register` makes up, from the low 16 bits of eight random numbers. -/
def generatedId (random : Nat → UInt16) : Field 37 :=
  ⟨snprintf (hex4 (random 0) ++ hex4 (random 1) ++ lit "-" ++ hex4 (random 2) ++ lit "-" ++
      hex4 (random 3) ++ lit "-" ++ hex4 (random 4) ++ lit "-" ++ hex4 (random 5) ++
      hex4 (random 6) ++ hex4 (random 7)) 37,
    Nat.lt_succ_of_le (List.length_take_le 36 _)⟩

/-- The id under which an instance is stored. -/
def storedId (inst : SrInstance) (random : Nat → UInt16) : Field 37 :=
  if inst.instanceId.val.length = 0 then generatedId random else inst.instanceId

/-- What `sr_register` writes into the table. -/
def stored (inst : SrInstance) (now : Int) (random : Nat → UInt16) : SrInstance :=
  { inst with
    registerTime := now
    lastHeartbeat := now
    heartbeatInterval :=
      if inst.heartbeatInterval = 0 then srDefaultHeartbeat else inst.heartbeatInterval
    ttlSeconds := if inst.ttlSeconds = 0 then srDefaultTtl else inst.ttlSeconds
    status := .up
    instanceId := storedId inst random }

def srRegister (registry : SrRegistry) (inst : SrInstance) (now : Int) (random : Nat → UInt16) :
    Int × SrRegistry :=
  match srFindService registry inst.serviceName with
  | none =>
      if srMaxInstances / 8 ≤ registry.services.length then (-1, registry)
      else
        let name := strncpy inst.serviceName (srMaxNameLen - 1)
        (0, ⟨registry.services ++ [⟨name, [stored inst now random]⟩]⟩)
  | some svc =>
      if srMaxInstances ≤ svc.instances.length then (-1, registry)
      else
        (0, modifyService registry inst.serviceName fun instances =>
          instances ++ [stored inst now random])

/-- The entries behind the first match move up. -/
def srDeregister (registry : SrRegistry) (serviceName instanceId : CStr) : Int × SrRegistry :=
  match srFindService registry serviceName with
  | none => (-1, registry)
  | some svc =>
      if svc.instances.any (·.instanceId.val = instanceId) then
        (0, modifyService registry serviceName fun instances =>
          instances.eraseP (·.instanceId.val = instanceId))
      else (-1, registry)

def beat (now : Int) (inst : SrInstance) : SrInstance :=
  { inst with
    lastHeartbeat := now
    status := if inst.status = .down then .up else inst.status }

def srHeartbeat (registry : SrRegistry) (serviceName instanceId : CStr) (now : Int) :
    Int × SrRegistry :=
  match srFindService registry serviceName with
  | none => (-1, registry)
  | some svc =>
      if svc.instances.any (·.instanceId.val = instanceId) then
        (0, modifyService registry serviceName
          (updateFirst (·.instanceId.val = instanceId) (beat now)))
      else (-1, registry)

def srSetStatus (registry : SrRegistry) (serviceName instanceId : CStr)
    (status : SrInstanceStatus) : Int × SrRegistry :=
  match srFindService registry serviceName with
  | none => (-1, registry)
  | some svc =>
      if svc.instances.any (·.instanceId.val = instanceId) then
        (0, modifyService registry serviceName
          (updateFirst (·.instanceId.val = instanceId) ({ · with status := status })))
      else (-1, registry)

def takeDown (inst : SrInstance) : SrInstance :=
  { inst with status := if inst.status = .up then .down else inst.status }

/-- There is no check: an instance that is up is taken down. -/
def srHealthCheckInstance (registry : SrRegistry) (serviceName instanceId : CStr) :
    Int × SrRegistry :=
  match srFindService registry serviceName with
  | none => (-1, registry)
  | some svc =>
      if svc.instances.any (·.instanceId.val = instanceId) then
        (0, modifyService registry serviceName
          (updateFirst (·.instanceId.val = instanceId) takeDown))
      else (-1, registry)

def expired (now : Int) (inst : SrInstance) : Bool :=
  inst.status = .up ∧ inst.ttlSeconds < now - inst.lastHeartbeat

def srHealthCheck (registry : SrRegistry) (now : Int) : SrRegistry :=
  ⟨registry.services.map fun svc =>
    { svc with instances := svc.instances.map fun inst =>
      if expired now inst then { inst with status := .down } else inst }⟩

/-- The return value, and the entries from `*instances` on up to `*count`. -/
def srDiscover (registry : SrRegistry) (serviceName : CStr) : Int × List SrInstance :=
  match srFindService registry serviceName with
  | none => (-1, [])
  | some svc => (0, svc.instances)

/-! ## Lookup -/

def isUp (inst : SrInstance) : Bool := inst.status = .up

/-- The scan of the round robin over the indices from `start` on, around the table. -/
def rrScan (instances : List SrInstance) (start : Nat) : Option Nat :=
  ((List.range instances.length).map fun i => (start + i) % instances.length).find? fun idx =>
    instances[idx]?.any isUp

/-- The first instance that is up at which the weights add up to more than `r`. -/
def weightedScan (r cumulative : Int) : List SrInstance → Option SrInstance
  | [] => none
  | inst :: instances =>
      if isUp inst then
        if r < cumulative + inst.weight then some inst
        else weightedScan r (cumulative + inst.weight) instances
      else weightedScan r cumulative instances

/-- The instance, if 0 is returned, and the static `rr_counter` after the call; `random` is
what `rand` returns. -/
def srLookupOne (registry : SrRegistry) (rrCounter : Nat) (serviceName : CStr)
    (strategy : SrLbStrategy) (random : Nat) : Option SrInstance × Nat :=
  match srFindService registry serviceName with
  | none => (none, rrCounter)
  | some svc =>
      if svc.instances.any isUp then
        match strategy with
        | .roundRobin =>
            match rrScan svc.instances (rrCounter % svc.instances.length) with
            | some idx => (svc.instances[idx]?, idx + 1)
            | none => (none, rrCounter)
        | .weighted =>
            let totalWeight := ((svc.instances.filter isUp).map (·.weight)).sum
            if totalWeight = 0 then (none, rrCounter)
            else (weightedScan (Int.tmod random totalWeight) 0 svc.instances, rrCounter)
        | .random => (svc.instances.find? isUp, rrCounter)
      else (none, rrCounter)

/-! ## Rendezvous hashing -/

def srRendezvousHash (key node : CStr) : UInt64 :=
  (snprintf (key ++ lit ":" ++ node) (srMaxNameLen + 256)).foldl
    (fun h c => (h ^^^ c.toUInt64) * 0x100000001b3) 0xcbf29ce484222325

/-- The variables of the loop; `bestIdx` is `none` for -1. -/
structure RendezvousScan where
  bestHash : UInt64
  bestIdx : Option Nat

def weightedHash (key : CStr) (inst : SrInstance) : UInt64 :=
  srRendezvousHash key inst.instanceId * UInt64.ofInt inst.weight

def rendezvousLoop (key : CStr) : List SrInstance → Nat → RendezvousScan → RendezvousScan
  | [], _, scan => scan
  | inst :: instances, i, scan =>
      if isUp inst then
        let h := weightedHash key inst
        if scan.bestHash < h ∨ scan.bestIdx = none then
          rendezvousLoop key instances (i + 1) ⟨h, some i⟩
        else rendezvousLoop key instances (i + 1) scan
      else rendezvousLoop key instances (i + 1) scan

def srLookupRendezvous (registry : SrRegistry) (serviceName key : CStr) : Option SrInstance :=
  (srFindService registry serviceName).bind fun svc =>
    (rendezvousLoop key svc.instances 0 ⟨0, none⟩).bestIdx.bind (svc.instances[·]?)

/-! ## Registration over time -/

inductive Op
  | register (inst : SrInstance) (now : Int) (random : Nat → UInt16)
  | deregister (serviceName instanceId : CStr)
  | heartbeat (serviceName instanceId : CStr) (now : Int)
  | discover (serviceName : CStr)

def apply (registry : SrRegistry) : Op → Int × SrRegistry
  | .register inst now random => srRegister registry inst now random
  | .deregister serviceName instanceId => srDeregister registry serviceName instanceId
  | .heartbeat serviceName instanceId now => srHeartbeat registry serviceName instanceId now
  | .discover serviceName => ((srDiscover registry serviceName).1, registry)

end MiniBackend.Infra.Registry
