import MiniBackend.Lib.CString
import Mathlib.Logic.Function.Basic

/-!
# `gateway_routing.c`: routes and smooth weighted round robin

The route rules, the upstreams of a gateway, and the selection among those of a service.  The
running weights are static: they belong to the function, not to a gateway or to a service.
-/

namespace MiniBackend.Infra.Gateway

open MiniBackend.Lib.CString

inductive GwHttpMethod
  | get
  | post
  | put
  | delete
  | any
deriving DecidableEq

structure GwRouteRule where
  method : GwHttpMethod
  path : CStr
  priority : Int
  enabled : Bool
deriving DecidableEq

structure RouteScan where
  best : Option GwRouteRule
  bestPrio : Int

def scanRule (method : GwHttpMethod) (path : CStr) (scan : RouteScan) (rule : GwRouteRule) :
    RouteScan :=
  if !rule.enabled then scan
  else if method != .any && rule.method != .any && rule.method != method then scan
  else
    let rlen := rule.path.length
    let plen := path.length
    if strncmpEq rule.path path (if rlen < plen then rlen else plen) then
      if scan.bestPrio < rule.priority then ⟨some rule, rule.priority⟩ else scan
    else scan

def gwRouteFind (routes : List GwRouteRule) (method : GwHttpMethod) (path : CStr) :
    Option GwRouteRule :=
  (routes.foldl (scanRule method path) ⟨none, -1⟩).best

/-! ## Upstreams -/

structure GwUpstream where
  host : CStr
  port : UInt16
  weight : Int
  maxConnections : Int
  activeConnections : Int
  healthy : Bool
deriving DecidableEq

/-- `upstream_svc[i]` with `upstreams[i]`. -/
structure GwService where
  name : CStr
  upstreams : List GwUpstream

structure GwGateway where
  services : List GwService

def weightCount : Nat := 1024

def IsInt (z : Int) : Prop := -2147483648 ≤ z ∧ z ≤ 2147483647

instance decidableIsInt (z : Int) : Decidable (IsInt z) := inferInstanceAs (Decidable (_ ∧ _))

/-- The variables of the loop; `bestIdx` is `none` for -1. -/
@[ext] structure SwrrScan where
  currentWeights : Nat → Int
  bestIdx : Option Nat
  bestWeight : Int
  totalWeight : Int

/-- The loop from index `i` on.  It is undefined when an index is outside of
`current_weights`, or a sum is not an `int`. -/
def swrrLoop : List GwUpstream → Nat → SwrrScan → Option SwrrScan
  | [], _, scan => some scan
  | upstream :: upstreams, i, scan =>
      if upstream.healthy then
        let weight := scan.currentWeights i + upstream.weight
        let totalWeight := scan.totalWeight + upstream.weight
        if i < weightCount ∧ IsInt weight ∧ IsInt totalWeight then
          let currentWeights := Function.update scan.currentWeights i weight
          if scan.bestWeight < weight then
            swrrLoop upstreams (i + 1) ⟨currentWeights, some i, weight, totalWeight⟩
          else
            swrrLoop upstreams (i + 1)
              ⟨currentWeights, scan.bestIdx, scan.bestWeight, totalWeight⟩
        else none
      else swrrLoop upstreams (i + 1) scan

def findUpstreams (gateway : GwGateway) (serviceName : CStr) : Option (List GwUpstream) :=
  (gateway.services.find? (·.name = serviceName)).map (·.upstreams)

/-- The index of the upstream that is selected, or `none` for a null pointer, and the weights
after the call. -/
def gwUpstreamSelectSwrr (gateway : GwGateway) (currentWeights : Nat → Int)
    (serviceName : CStr) : Option (Option Nat × (Nat → Int)) :=
  match findUpstreams gateway serviceName with
  | none => some (none, currentWeights)
  | some [] => some (none, currentWeights)
  | some (upstream :: upstreams) =>
      (swrrLoop (upstream :: upstreams) 0 ⟨currentWeights, none, -1, 0⟩).bind fun scan =>
        match scan.bestIdx with
        | none => some (none, scan.currentWeights)
        | some best =>
            if scan.totalWeight = 0 then some (none, scan.currentWeights)
            else
              let paid := scan.currentWeights best - scan.totalWeight
              if IsInt paid then
                some (some best, Function.update scan.currentWeights best paid)
              else none

end MiniBackend.Infra.Gateway
