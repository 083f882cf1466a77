import MiniBackend.WebServer.HttpCore

/-!
# `router.c`

A tree of path segments.  A handler is a function pointer; `none` is `NULL`.  The
parameters of a match are the list of those that were filled in.
-/

namespace MiniBackend.WebServer.Routing

open MiniBackend.Lib.CString MiniBackend.WebServer.Http

def routeMaxChildren : Nat := 64
def routeMaxParams : Nat := 16
def routeMaxParamName : Nat := 64
def routeMaxParamValue : Nat := 256

structure RouteParam where
  name : CStr
  value : CStr
deriving DecidableEq

structure RouteNode where
  segment : CStr
  children : List RouteNode
  isEndpoint : Bool
  method : HttpMethod
  handler : Option UInt64
  isWildcard : Bool
  isParam : Bool
  paramName : CStr

def routeNodeCreate (segment : CStr) : RouteNode where
  segment := strncpy segment 255
  children := []
  isEndpoint := false
  method := .get
  handler := none
  isWildcard := segment == lit "*"
  isParam := segment.head? == some (UInt8.ofNat ':'.toNat)
  paramName :=
    if segment.head? == some (UInt8.ofNat ':'.toNat) then
      strncpy segment.tail (routeMaxParamName - 1)
    else []

structure Router where
  root : RouteNode

def routerCreate : Router := ⟨routeNodeCreate (lit "/")⟩

def splitPath (pattern : CStr) : List CStr :=
  pieces (fun b => b = UInt8.ofNat '/'.toNat) pattern

/-- The walk of `router_add` below one node.  Nodes made before a full node is met stay in
the tree. -/
def addBelow (method : HttpMethod) (handler : UInt64) :
    List CStr → RouteNode → Bool × RouteNode
  | [], cur => (true, { cur with isEndpoint := true, method, handler := some handler })
  | seg :: segs, cur =>
      match cur.children.findIdx? fun child => child.segment == seg with
      | some j =>
          match cur.children[j]? with
          | none => (false, cur)
          | some child =>
              let (ok, child) := addBelow method handler segs child
              (ok, { cur with children := cur.children.set j child })
      | none =>
          if routeMaxChildren ≤ cur.children.length then (false, cur)
          else
            let (ok, child) := addBelow method handler segs (routeNodeCreate seg)
            (ok, { cur with children := cur.children ++ [child] })

def routerAdd (router : Router) (method : HttpMethod) (pattern : Option CStr)
    (handler : Option UInt64) : Bool × Router :=
  match pattern, handler with
  | some pattern, some handler =>
      let (ok, root) := addBelow method handler (splitPath pattern) router.root
      (ok, ⟨root⟩)
  | _, _ => (false, router)

/-- The parameters after a match; `none` when the node does not match.  A wildcard is
stored without a look at the room for parameters. -/
def matchNode (node : RouteNode) (segment : CStr) (params : List RouteParam) :
    Option (List RouteParam) :=
  let value := strncpy segment (routeMaxParamValue - 1)
  if !node.isParam && !node.isWildcard then
    if node.segment = segment then some params else none
  else if node.isParam && params.length < routeMaxParams then
    some (params ++ [⟨node.paramName, value⟩])
  else if node.isWildcard then some (params ++ [⟨lit "wildcard", value⟩])
  else none

def firstMatch (segment : CStr) (params : List RouteParam) :
    List RouteNode → Option (RouteNode × List RouteParam)
  | [] => none
  | child :: children =>
      match matchNode child segment params with
      | some params => some (child, params)
      | none => firstMatch segment params children

/-- The node that the walk of `router_dispatch` ends at; there is no way back from a
child once it was entered. -/
def walk : List CStr → RouteNode → List RouteParam → Option (RouteNode × List RouteParam)
  | [], cur, params => some (cur, params)
  | seg :: segs, cur, params =>
      match firstMatch seg params cur.children with
      | none => none
      | some (child, params) => walk segs child params

/-- The handler that `router_dispatch` invokes and the parameters it gets. -/
def routeFor (router : Router) (method : HttpMethod) (path : CStr) :
    Option (UInt64 × List RouteParam) :=
  match walk (splitPath path) router.root [] with
  | none => none
  | some (cur, params) =>
      if cur.isEndpoint && cur.method = method then cur.handler.map fun handler => (handler, params)
      else none

/-- What a call of a handler does to the response and to the state outside the exchange. -/
def HandlerFn (ω : Type) : Type :=
  HttpRequest → List RouteParam → HttpResponse → ω → Bool × HttpResponse × ω

/-- What `router_dispatch` leaves behind, with the call that it made. -/
structure Dispatched (ω : Type) where
  handled : Bool
  invoked : Option (UInt64 × List RouteParam)
  response : HttpResponse
  world : ω

def routerDispatch {ω : Type} (call : UInt64 → HandlerFn ω) (router : Router)
    (method : HttpMethod) (path : CStr) (req : HttpRequest) (res : HttpResponse) (world : ω) :
    Dispatched ω :=
  match routeFor router method path with
  | none => ⟨false, none, res, world⟩
  | some (handler, params) =>
      let (handled, res, world) := call handler req params res world
      ⟨handled, some (handler, params), res, world⟩

end MiniBackend.WebServer.Routing
