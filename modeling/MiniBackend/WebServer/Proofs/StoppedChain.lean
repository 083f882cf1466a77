import MiniBackend.WebServer.Server

/-!
# A stopped chain and the route handler

A chain that was stopped returns the same `true` as one that ran to its end, and the
worker dispatches on `true`.  So an error keeps the handler from running and a stop does
not: the request reaches the handler whenever the router has one for it.
-/

namespace MiniBackend.WebServer.Proofs.StoppedChain

open MiniBackend.Lib.CString
open MiniBackend.WebServer.Http MiniBackend.WebServer.Routing
open MiniBackend.WebServer.Middleware MiniBackend.WebServer.Server

variable {ω : Type}

def executedResults (i : Nat) :
    List (Option (MiddlewareFn ω)) → Exchange ω → List MiddlewareResult
  | [], _ => []
  | none :: rest, x => executedResults (i + 1) rest x
  | some fn :: rest, x =>
      match fn (atDepth x i) with
      | (.next, x) => .next :: executedResults (i + 1) rest x
      | (result, _) => [result]

/-- The results of the middleware that run for the item. -/
def itemResults (item : WorkItem ω) (world : ω) : List MiddlewareResult :=
  match liveConnection item, item.middleware with
  | some conn, some chain => executedResults 0 chain.entries (startExchange conn world)
  | _, _ => []

/-- If a middleware returns `STOP` or `ERROR` then no handler is invoked. -/
def HandlerBlocked (call : UInt64 → HandlerFn ω) (item : WorkItem ω) (world : ω) (now : Int) :
    Prop :=
  (∃ result ∈ itemResults item world, result ≠ .next) →
    (processItem call item world now).invoked = none

/-- The handler of the route for the request, as the middleware left it. -/
def itemRoute (item : WorkItem ω) (world : ω) : Option (UInt64 × List RouteParam) :=
  match liveConnection item, item.router with
  | some conn, some router =>
      let x := (runMiddleware item.middleware (startExchange conn world)).2
      routeFor router x.request.method x.request.path
  | _, _ => none

/-! ## The chain -/

theorem executeFrom_eq_false_iff (entries : List (Option (MiddlewareFn ω))) (i : Nat)
    (x : Exchange ω) :
    (executeFrom i entries x).1 = false ↔ .error ∈ executedResults i entries x := by
  induction entries generalizing i x with
  | nil => simp [executeFrom, executedResults]
  | cons entry rest ih =>
      cases entry with
      | none =>
          simp only [executeFrom, executedResults]
          exact ih (i + 1) x
      | some fn =>
          simp only [executeFrom, executedResults]
          cases fn (atDepth x i) with
          | mk result x' =>
              cases result with
              | next => simpa using ih (i + 1) x'
              | stop => simp
              | error => simp

theorem not_stop_of_error {entries : List (Option (MiddlewareFn ω))} {i : Nat} {x : Exchange ω}
    (h : .error ∈ executedResults i entries x) : .stop ∉ executedResults i entries x := by
  induction entries generalizing i x with
  | nil => simp [executedResults]
  | cons entry rest ih =>
      cases entry with
      | none =>
          simp only [executedResults] at h ⊢
          exact ih h
      | some fn =>
          simp only [executedResults] at h ⊢
          cases hfn : fn (atDepth x i) with
          | mk result x' =>
              rw [hfn] at h
              cases result with
              | next => simpa using ih (by simpa using h)
              | stop => simp at h
              | error => simp

theorem runMiddleware_eq_false_iff (item : WorkItem ω) (world : ω) {conn : Connection}
    (hlive : liveConnection item = some conn) :
    (runMiddleware item.middleware (startExchange conn world)).1 = false ↔
      .error ∈ itemResults item world := by
  cases hmiddleware : item.middleware with
  | none => simp [runMiddleware, itemResults, hlive, hmiddleware]
  | some chain =>
      simp only [runMiddleware, itemResults, hlive, hmiddleware]
      cases hentries : chain.entries with
      | nil => simp [executedResults]
      | cons entry rest =>
          simp only [List.length_cons, Nat.zero_lt_succ, if_true, middlewareChainExecute,
            hentries]
          exact executeFrom_eq_false_iff (entry :: rest) 0 (startExchange conn world)

/-! ## The worker -/

theorem invoked_runRouter (call : UInt64 → HandlerFn ω) (ok : Bool) (router : Option Router)
    (x : Exchange ω) :
    (runRouter call ok router x).invoked =
      if ok then router.bind fun router => routeFor router x.request.method x.request.path
      else none := by
  cases router with
  | none => simp [runRouter]
  | some router =>
      cases ok with
      | false => rfl
      | true =>
          simp only [runRouter, routerDispatch, if_true, Option.bind_some]
          cases routeFor router x.request.method x.request.path with
          | none => rfl
          | some route => rfl

theorem invoked_processItem (call : UInt64 → HandlerFn ω) (item : WorkItem ω) (world : ω)
    (now : Int) :
    (processItem call item world now).invoked =
      if .error ∈ itemResults item world then none else itemRoute item world := by
  cases hlive : liveConnection item with
  | none => simp [processItem, itemRoute, hlive]
  | some conn =>
      have herror := runMiddleware_eq_false_iff item world hlive
      have hroute : itemRoute item world = item.router.bind fun router =>
          routeFor router
            (runMiddleware item.middleware (startExchange conn world)).2.request.method
            (runMiddleware item.middleware (startExchange conn world)).2.request.path := by
        cases hrouter : item.router <;> simp [itemRoute, hlive, hrouter]
      rw [hroute]
      simp only [processItem, hlive, invoked_runRouter]
      by_cases hmem : .error ∈ itemResults item world
      · rw [if_pos hmem, herror.mpr hmem]
        rfl
      · rw [if_neg hmem]
        have hok : (runMiddleware item.middleware (startExchange conn world)).1 = true := by
          rw [← Bool.not_eq_false]
          exact fun hfalse => hmem (herror.mp hfalse)
        rw [hok]
        rfl

theorem not_stop_of_error_item {item : WorkItem ω} {world : ω}
    (h : .error ∈ itemResults item world) : .stop ∉ itemResults item world := by
  unfold itemResults at h ⊢
  generalize liveConnection item = live at h ⊢
  generalize item.middleware = middleware at h ⊢
  cases live with
  | none => simp
  | some conn =>
      cases middleware with
      | none => simp
      | some chain => exact not_stop_of_error h

/-- The handler is blocked exactly when no middleware returns `STOP` or the router has no
handler for the request as the middleware left it. -/
theorem handlerBlocked_iff (call : UInt64 → HandlerFn ω) (item : WorkItem ω) (world : ω)
    (now : Int) :
    HandlerBlocked call item world now ↔
      .stop ∉ itemResults item world ∨ itemRoute item world = none := by
  unfold HandlerBlocked
  rw [invoked_processItem]
  constructor
  · intro hblocked
    by_cases hstop : .stop ∈ itemResults item world
    · right
      have herror : .error ∉ itemResults item world := fun h => not_stop_of_error_item h hstop
      rw [if_neg herror] at hblocked
      exact hblocked ⟨.stop, hstop, by decide⟩
    · exact Or.inl hstop
  · intro hcondition hresult
    obtain ⟨result, hmem, hne⟩ := hresult
    rcases hcondition with hstop | hroute
    · cases result with
      | next => exact absurd rfl hne
      | stop => exact absurd hmem hstop
      | error => rw [if_pos hmem]
    · rw [hroute, ite_self]

/-! ## Requests without a bearer token -/

theorem executedResults_append {front back : List (Option (MiddlewareFn ω))} {i : Nat}
    {x : Exchange ω} (hnext : ∀ result ∈ executedResults i front x, result = .next) :
    executedResults i (front ++ back) x = executedResults i front x ++
      executedResults (i + front.length) back (executeFrom i front x).2 := by
  induction front generalizing i x with
  | nil => rfl
  | cons entry front ih =>
      rw [List.length_cons, Nat.add_comm front.length, ← Nat.add_assoc]
      cases entry with
      | none => exact ih hnext
      | some fn =>
          rw [List.cons_append]
          simp only [executedResults, executeFrom] at hnext ⊢
          cases hfn : fn (atDepth x i) with
          | mk result x' =>
              rw [hfn] at hnext
              cases result with
              | next =>
                  simp only [List.forall_mem_cons] at hnext
                  exact congrArg (.next :: ·) (ih hnext.2)
              | stop => exact absurd (hnext _ List.mem_cons_self) (by decide)
              | error => exact absurd (hnext _ List.mem_cons_self) (by decide)

/-- A request that comes to `middleware_auth_bearer` without a token is stopped there, and is
handled as if it had passed. -/
theorem invoked_of_unauthorized (call : UInt64 → HandlerFn ω) {item : WorkItem ω} (world : ω)
    (now : Int) {conn : Connection} {chain : MiddlewareChain ω}
    {front back : List (Option (MiddlewareFn ω))} (hlive : liveConnection item = some conn)
    (hchain : item.middleware = some chain)
    (hentries : chain.entries = front ++ some middlewareAuthBearer :: back)
    (hnext : ∀ result ∈ executedResults 0 front (startExchange conn world), result = .next)
    (hbearer : hasBearer (executeFrom 0 front (startExchange conn world)).2.request = false) :
    .stop ∈ itemResults item world ∧
      (processItem call item world now).invoked = itemRoute item world := by
  have hstop : .stop ∈ itemResults item world := by
    simp only [itemResults, hlive, hchain, hentries]
    rw [executedResults_append hnext]
    apply List.mem_append_right
    simp [executedResults, middlewareAuthBearer, atDepth, hbearer]
  refine ⟨hstop, ?_⟩
  rw [invoked_processItem, if_neg]
  exact fun herror => not_stop_of_error_item herror hstop

def guardedItem : WorkItem Unit where
  conn := some
    { fd := 4
      lastActivity := 0
      recvLen := 0
      request := { httpRequestInit with method := .get, path := lit "/admin" }
      response := httpResponseInit
      keepAlive := false
      closed := false }
  router := some (routerAdd routerCreate .get (some (lit "/admin")) (some 7)).2
  middleware := some (middlewareChainAdd middlewareChainInit (some middlewareAuthBearer) 0).2

def answerAll : UInt64 → HandlerFn Unit := fun _ _ _ res world => (true, res, world)

/-- The request carries no header at all, is stopped by the authentication, and reaches
the handler. -/
theorem unauthorized_request_handled :
    (guardedItem.conn.map fun conn => hasBearer conn.request) = some false ∧
      ¬ HandlerBlocked answerAll guardedItem () 0 := by
  have hinvoked : (processItem answerAll guardedItem () 0).invoked ≠ none := by decide
  have hstop : .stop ∈ itemResults guardedItem () := by decide
  constructor
  · decide
  · intro hblocked
    exact hinvoked (hblocked ⟨.stop, hstop, by decide⟩)

end MiniBackend.WebServer.Proofs.StoppedChain
