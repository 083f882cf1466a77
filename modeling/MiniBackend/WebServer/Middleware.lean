import MiniBackend.WebServer.HttpCore

/-!
# `middleware.c`

A middleware is any function of the exchange it is shown: the request, the response, the
context, and the state outside them (clock, counters, user data), which has any type.
-/

namespace MiniBackend.WebServer.Middleware

open MiniBackend.Lib.CString MiniBackend.WebServer.Http

def middlewareMaxChain : Nat := 16

inductive MiddlewareResult
  | next
  | stop
  | error
deriving DecidableEq

structure MiddlewareContext where
  userData : UInt64
  depth : Nat
  logBuf : CStr
deriving DecidableEq

/-- Everything that a middleware can read and write. -/
structure Exchange (ω : Type) where
  request : HttpRequest
  response : HttpResponse
  context : MiddlewareContext
  world : ω

def MiddlewareFn (ω : Type) : Type := Exchange ω → MiddlewareResult × Exchange ω

/-- The used entries of the chain; `none` is a `NULL` entry. -/
structure MiddlewareChain (ω : Type) where
  entries : List (Option (MiddlewareFn ω))
  contexts : List UInt64

variable {ω : Type}

def middlewareChainInit : MiddlewareChain ω := ⟨[], []⟩

def middlewareChainAdd (chain : MiddlewareChain ω) (fn : Option (MiddlewareFn ω))
    (userCtx : UInt64) : Bool × MiddlewareChain ω :=
  match fn with
  | none => (false, chain)
  | some fn =>
      if middlewareMaxChain ≤ chain.entries.length then (false, chain)
      else (true, ⟨chain.entries ++ [some fn], chain.contexts ++ [userCtx]⟩)

/-- The exchange as entry `i` of the chain sees it. -/
def atDepth (x : Exchange ω) (i : Nat) : Exchange ω :=
  { x with context := { x.context with depth := i } }

def executeFrom (i : Nat) : List (Option (MiddlewareFn ω)) → Exchange ω → Bool × Exchange ω
  | [], x => (true, x)
  | none :: rest, x => executeFrom (i + 1) rest x
  | some fn :: rest, x =>
      match fn (atDepth x i) with
      | (.stop, x) => (true, x)
      | (.error, x) => (false, x)
      | (.next, x) => executeFrom (i + 1) rest x

/-- A stopped chain and one that ran to its end both return `true`. -/
def middlewareChainExecute (chain : MiddlewareChain ω) (x : Exchange ω) : Bool × Exchange ω :=
  executeFrom 0 chain.entries x

/-! ## Built-in middleware -/

/-- `auth && strncmp(auth, "Bearer ", 7) == 0` for the header of the request. -/
def hasBearer (req : HttpRequest) : Bool :=
  match httpRequestGetHeader req (lit "Authorization") with
  | none => false
  | some auth => (lit "Bearer ").isPrefixOf auth

def middlewareAuthBearer : MiddlewareFn ω := fun x =>
  if hasBearer x.request then (.next, x)
  else
    let res := httpResponseSetStatus x.response httpStatusUnauthorized
    let res := httpResponseAddHeader res (lit "WWW-Authenticate") (lit "Bearer")
    let res := httpResponseSetBodyStr res (lit "\x7b\"error\":\"unauthorized\"\x7d")
    (.stop, { x with response := res })

end MiniBackend.WebServer.Middleware
