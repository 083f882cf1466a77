import MiniBackend.WebServer.Router

/-!
# Which routes are found

The tree of the router stands for the list of its routes in the order of registration.  The
walk of `router_dispatch` takes, at each segment, the segment of the earliest route that is
still possible and matches; the routes that go on differently are lost from then on.
-/

namespace MiniBackend.WebServer.Proofs.GreedyRoutes

open MiniBackend.Lib.CString
open MiniBackend.WebServer.Http MiniBackend.WebServer.Routing

/-- A route, or what is left of it below a node. -/
structure Route where
  segments : List CStr
  method : HttpMethod
  handler : UInt64
deriving DecidableEq

/-- The arguments of a call of `router_add`. -/
structure Registration where
  method : HttpMethod
  pattern : CStr
  handler : UInt64
deriving DecidableEq

def Registration.route (reg : Registration) : Route :=
  ⟨splitPath reg.pattern, reg.method, reg.handler⟩

/-- The router after the calls, if all of them succeed. -/
def addRoutes : Router → List Registration → Option Router
  | router, [] => some router
  | router, reg :: regs =>
      match routerAdd router reg.method (some reg.pattern) (some reg.handler) with
      | (true, router) => addRoutes router regs
      | (false, _) => none

def isParamSegment (segment : CStr) : Bool := segment.head? == some (UInt8.ofNat ':'.toNat)

def isWildcardSegment (segment : CStr) : Bool := segment == lit "*"

def takesValue (segment : CStr) : Bool := isParamSegment segment || isWildcardSegment segment

def segmentMatches (pattern segment : CStr) : Bool := takesValue pattern || pattern == segment

/-- A pattern matches a path segment by segment. -/
def PatternMatches (pattern path : List CStr) : Prop :=
  List.Forall₂ (fun p s => segmentMatches p s = true) pattern path

def matchesAt (filled : Nat) (pattern segment : CStr) : Bool :=
  segmentMatches pattern segment && (!isParamSegment pattern || decide (filled < routeMaxParams))

def heads (routes : List Route) : List CStr := routes.filterMap fun r => r.segments.head?

def Route.after (segment : CStr) (r : Route) : Option Route :=
  match r.segments with
  | [] => none
  | s :: rest => if s = segment then some { r with segments := rest } else none

def routesBelow (segment : CStr) (routes : List Route) : List Route :=
  routes.filterMap (Route.after segment)

def ending (routes : List Route) : List Route := routes.filter fun r => r.segments = []

/-- The routes at whose end the greedy walk arrives: at each segment of the path the earliest
of the routes that are still possible and match says how to go on. -/
def greedy (filled : Nat) : List CStr → List Route → List Route
  | [], routes => ending routes
  | segment :: path, routes =>
      match (heads routes).find? fun s => matchesAt filled s segment with
      | none => []
      | some s => greedy (if takesValue s then filled + 1 else filled) path (routesBelow s routes)

/-! ## Lists of routes -/

theorem heads_append (routes : List Route) (r : Route) :
    heads (routes ++ [r]) = heads routes ++ r.segments.head?.toList := by
  cases h : r.segments.head? <;> simp [heads, h]

theorem below_append (segment : CStr) (routes : List Route) (r : Route) :
    routesBelow segment (routes ++ [r]) =
      routesBelow segment routes ++ (r.after segment).toList := by
  cases h : r.after segment <;> simp [routesBelow, h]

theorem after_cons_self (segment : CStr) (rest : List CStr) (method : HttpMethod)
    (handler : UInt64) :
    Route.after segment ⟨segment :: rest, method, handler⟩ = some ⟨rest, method, handler⟩ := by
  simp [Route.after]

theorem after_cons_of_ne {segment s : CStr} (h : s ≠ segment) (rest : List CStr)
    (method : HttpMethod) (handler : UInt64) :
    Route.after segment ⟨s :: rest, method, handler⟩ = none := by
  simp [Route.after, h]

theorem below_eq_nil {segment : CStr} {routes : List Route} (h : segment ∉ heads routes) :
    routesBelow segment routes = [] := by
  rw [routesBelow, List.filterMap_eq_nil_iff]
  intro r hr
  cases hsegments : r.segments with
  | nil => simp [Route.after, hsegments]
  | cons s rest =>
      have hne : s ≠ segment := by
        intro heq
        apply h
        rw [heads, List.mem_filterMap]
        exact ⟨r, hr, by rw [hsegments, heq]; rfl⟩
      simp [Route.after, hsegments, hne]

/-! ## Nodes -/

structure Labelled (node : RouteNode) : Prop where
  isParam : node.isParam = isParamSegment node.segment
  isWildcard : node.isWildcard = isWildcardSegment node.segment

def Endpoint (node : RouteNode) : Option Route → Prop
  | none => node.isEndpoint = false
  | some r => node.isEndpoint = true ∧ node.method = r.method ∧ node.handler = some r.handler

/-- The children are the ways in which the routes go on, each of them once and in the order
of their first occurrence. -/
structure Children (segments : List CStr) (routes : List Route) : Prop where
  nodup : segments.Nodup
  find : ∀ p : CStr → Bool, segments.find? p = (heads routes).find? p

inductive Represents : RouteNode → List Route → Prop
  | node {node : RouteNode} {routes : List Route} :
      Children (node.children.map RouteNode.segment) routes →
      (∀ child ∈ node.children, Labelled child) →
      (∀ child ∈ node.children, Represents child (routesBelow child.segment routes)) →
      Endpoint node (ending routes).getLast? → Represents node routes

theorem Children.mem_iff {segments : List CStr} {routes : List Route}
    (h : Children segments routes) (s : CStr) : s ∈ segments ↔ s ∈ heads routes := by
  have hfind : ∀ l : List CStr, s ∈ l ↔ (l.find? (· == s)).isSome := by
    intro l
    simp [List.find?_isSome]
  rw [hfind, h.find, ← hfind]

theorem Children.append_of_mem {segments : List CStr} {routes : List Route}
    (h : Children segments routes) {s : CStr} (hs : s ∈ segments) {r : Route}
    (hr : r.segments.head? = some s) : Children segments (routes ++ [r]) where
  nodup := h.nodup
  find := by
    intro p
    rw [heads_append, hr, h.find, List.find?_append]
    cases hfind : (heads routes).find? p with
    | some _ => rfl
    | none =>
        have hp := List.find?_eq_none.mp hfind s ((h.mem_iff s).mp hs)
        simp [hp]

theorem Children.append_of_not_mem {segments : List CStr} {routes : List Route}
    (h : Children segments routes) {s : CStr} (hs : s ∉ segments) {r : Route}
    (hr : r.segments.head? = some s) : Children (segments ++ [s]) (routes ++ [r]) where
  nodup := by
    rw [List.nodup_append]
    refine ⟨h.nodup, List.nodup_singleton s, ?_⟩
    intro a ha b hb heq
    rw [List.mem_singleton] at hb
    exact hs (hb ▸ heq ▸ ha)
  find := by
    intro p
    rw [heads_append, hr, List.find?_append, h.find, List.find?_append]
    rfl

theorem Children.append_nil {segments : List CStr} {routes : List Route}
    (h : Children segments routes) {r : Route} (hr : r.segments = []) :
    Children segments (routes ++ [r]) where
  nodup := h.nodup
  find := by
    intro p
    rw [heads_append, hr, List.head?_nil, Option.toList_none, List.append_nil, h.find]

theorem represents_routeNodeCreate (segment : CStr) : Represents (routeNodeCreate segment) [] := by
  apply Represents.node
  · exact ⟨List.nodup_nil, fun p => rfl⟩
  · intro child hchild
    contradiction
  · intro child hchild
    contradiction
  · rfl

theorem labelled_routeNodeCreate {segment : CStr} (h : segment.length < 256) :
    Labelled (routeNodeCreate segment) ∧ (routeNodeCreate segment).segment = segment := by
  have hsegment : strncpy segment 255 = segment := strncpy_of_le (by omega)
  exact ⟨⟨by simp [routeNodeCreate, hsegment, isParamSegment],
    by simp [routeNodeCreate, hsegment, isWildcardSegment]⟩, hsegment⟩

/-! ## Adding a route -/

theorem addBelow_label (method : HttpMethod) (handler : UInt64) (segs : List CStr)
    (node : RouteNode) :
    (addBelow method handler segs node).2.segment = node.segment ∧
      (Labelled node → Labelled (addBelow method handler segs node).2) := by
  cases segs with
  | nil => exact ⟨rfl, fun h => ⟨h.isParam, h.isWildcard⟩⟩
  | cons seg segs =>
      simp only [addBelow]
      split
      · split
        · exact ⟨rfl, id⟩
        · exact ⟨rfl, fun h => ⟨h.isParam, h.isWildcard⟩⟩
      · split
        · exact ⟨rfl, id⟩
        · exact ⟨rfl, fun h => ⟨h.isParam, h.isWildcard⟩⟩

section
variable {node child' : RouteNode} {routes : List Route} {seg : CStr} {rest : List CStr}
  {method : HttpMethod} {handler : UInt64}

theorem below_append_other {s : CStr} (h : s ≠ seg) :
    routesBelow s (routes ++ [⟨seg :: rest, method, handler⟩]) = routesBelow s routes := by
  rw [below_append, after_cons_of_ne h.symm, Option.toList_none, List.append_nil]

theorem below_append_self :
    routesBelow seg (routes ++ [⟨seg :: rest, method, handler⟩]) =
      routesBelow seg routes ++ [⟨rest, method, handler⟩] := by
  rw [below_append, after_cons_self, Option.toList_some]

theorem ending_append_cons :
    ending (routes ++ [⟨seg :: rest, method, handler⟩]) = ending routes := by
  simp [ending]

theorem Represents.setChild (hnode : Represents node routes) {j : Nat}
    (hj : j < node.children.length) (hold : node.children[j].segment = seg)
    (hsegment : child'.segment = seg) (hlabel : Labelled child')
    (hchild : Represents child' (routesBelow seg routes ++ [⟨rest, method, handler⟩])) :
    Represents { node with children := node.children.set j child' }
      (routes ++ [⟨seg :: rest, method, handler⟩]) := by
  obtain ⟨hchildren, hlabels, hbelow, hendpoint⟩ := hnode
  have hmem : node.children[j] ∈ node.children := List.getElem_mem hj
  have hmap : (node.children.set j child').map RouteNode.segment =
      node.children.map RouteNode.segment := by
    rw [List.map_set, hsegment, ← hold]
    apply List.ext_getElem
    · simp
    · intro k _ _
      rw [List.getElem_set]
      split
      · rename_i hjk
        subst hjk
        simp
      · rfl
  apply Represents.node
  · rw [hmap]
    apply hchildren.append_of_mem _ rfl
    rw [← hold]
    exact List.mem_map_of_mem hmem
  · intro child hmem'
    rcases List.mem_or_eq_of_mem_set hmem' with hother | rfl
    · exact hlabels child hother
    · exact hlabel
  · intro child hmem'
    obtain ⟨k, hk, rfl⟩ := List.getElem_of_mem hmem'
    rw [List.length_set] at hk
    simp only [List.getElem_set]
    split
    · rw [hsegment, below_append_self]
      exact hchild
    · -- No other child has the segment.
      rename_i hjk
      have hne : node.children[k].segment ≠ seg := by
        intro heq
        apply hjk
        have hnodup := List.nodup_iff_injective_get.mp hchildren.nodup
        have hget : (node.children.map RouteNode.segment).get ⟨j, by simpa using hj⟩ =
            (node.children.map RouteNode.segment).get ⟨k, by simpa using hk⟩ := by
          simp [hold, heq]
        exact congrArg Fin.val (hnodup hget)
      rw [below_append_other hne]
      exact hbelow _ (List.getElem_mem hk)
  · rw [ending_append_cons]
    exact hendpoint

theorem Represents.pushChild (hnode : Represents node routes)
    (hnew : seg ∉ node.children.map RouteNode.segment) (hsegment : child'.segment = seg)
    (hlabel : Labelled child') (hchild : Represents child' [⟨rest, method, handler⟩]) :
    Represents { node with children := node.children ++ [child'] }
      (routes ++ [⟨seg :: rest, method, handler⟩]) := by
  obtain ⟨hchildren, hlabels, hbelow, hendpoint⟩ := hnode
  have hnothing : routesBelow seg routes = [] :=
    below_eq_nil fun hmem => hnew ((hchildren.mem_iff seg).mpr hmem)
  apply Represents.node
  · rw [List.map_append, List.map_singleton, hsegment]
    exact hchildren.append_of_not_mem hnew rfl
  · intro child hmem
    rcases List.mem_append.mp hmem with hold | hlast
    · exact hlabels child hold
    · rw [List.mem_singleton.mp hlast]
      exact hlabel
  · intro child hmem
    rcases List.mem_append.mp hmem with hold | hlast
    · rw [below_append_other]
      · exact hbelow child hold
      · intro heq
        exact hnew (heq ▸ List.mem_map_of_mem hold)
    · rw [List.mem_singleton.mp hlast, hsegment, below_append_self, hnothing]
      exact hchild
  · rw [ending_append_cons]
    exact hendpoint

end

theorem addBelow_represents (method : HttpMethod) (handler : UInt64) (segs : List CStr) :
    ∀ (node node' : RouteNode) (routes : List Route), Represents node routes →
      (∀ seg ∈ segs, seg.length < 256) → addBelow method handler segs node = (true, node') →
      Represents node' (routes ++ [⟨segs, method, handler⟩]) := by
  induction segs with
  | nil =>
      intro node node' routes hnode _ hadd
      obtain ⟨hchildren, hlabels, hbelow, _⟩ := hnode
      cases hadd
      apply Represents.node
      · exact hchildren.append_nil rfl
      · exact hlabels
      · intro child hchild
        rw [below_append]
        simp only [Route.after, Option.toList_none, List.append_nil]
        exact hbelow child hchild
      · simp [ending, Endpoint]
  | cons seg segs ih =>
      intro node node' routes hnode hshort hadd
      have hseg : seg.length < 256 := hshort seg List.mem_cons_self
      have hsegs : ∀ s ∈ segs, s.length < 256 := fun s hs => hshort s (List.mem_cons_of_mem seg hs)
      rw [addBelow] at hadd
      cases hfind : node.children.findIdx? fun child => child.segment == seg with
      | some j =>
          obtain ⟨hj, hchild, _⟩ := List.findIdx?_eq_some_iff_getElem.mp hfind
          have hold : node.children[j].segment = seg := by simpa using hchild
          simp only [hfind, List.getElem?_eq_getElem hj] at hadd
          have hlabel := addBelow_label method handler segs node.children[j]
          generalize hrest : addBelow method handler segs node.children[j] = added at hadd hlabel
          obtain ⟨ok, child'⟩ := added
          rw [Prod.mk.injEq] at hadd
          obtain ⟨rfl, rfl⟩ := hadd
          have hmem : node.children[j] ∈ node.children := List.getElem_mem hj
          obtain ⟨_, hlabels, hbelow, _⟩ := id hnode
          have hbelow := hbelow _ hmem
          rw [hold] at hbelow
          exact hnode.setChild hj hold (hlabel.1.trans hold) (hlabel.2 (hlabels _ hmem))
            (ih _ _ _ hbelow hsegs hrest)
      | none =>
          have hnone := List.findIdx?_eq_none_iff.mp hfind
          have hnew : seg ∉ node.children.map RouteNode.segment := by
            intro hmem
            obtain ⟨child, hchild, heq⟩ := List.mem_map.mp hmem
            have hfalse := hnone child hchild
            simp [heq] at hfalse
          simp only [hfind] at hadd
          split at hadd
          · exact absurd (Prod.mk.inj hadd).1 Bool.false_ne_true
          · have hlabel := addBelow_label method handler segs (routeNodeCreate seg)
            generalize hrest : addBelow method handler segs (routeNodeCreate seg) = added
              at hadd hlabel
            obtain ⟨ok, child'⟩ := added
            rw [Prod.mk.injEq] at hadd
            obtain ⟨rfl, rfl⟩ := hadd
            obtain ⟨hfresh, hsegment⟩ := labelled_routeNodeCreate hseg
            exact hnode.pushChild hnew (hlabel.1.trans hsegment) (hlabel.2 hfresh)
              (ih _ _ _ (represents_routeNodeCreate seg) hsegs hrest)

theorem addRoutes_represents (regs : List Registration) :
    ∀ (router router' : Router) (routes : List Route), Represents router.root routes →
      (∀ reg ∈ regs, ∀ seg ∈ splitPath reg.pattern, seg.length < 256) →
      addRoutes router regs = some router' →
      Represents router'.root (routes ++ regs.map Registration.route) := by
  induction regs with
  | nil =>
      intro router router' routes hrouter _ hadd
      cases hadd
      simpa using hrouter
  | cons reg regs ih =>
      intro router router' routes hrouter hshort hadd
      rw [addRoutes] at hadd
      split at hadd
      · rename_i router₁ hfirst
        simp only [routerAdd, Prod.mk.injEq] at hfirst
        obtain ⟨hok, rfl⟩ := hfirst
        have hroot := addBelow_represents reg.method reg.handler (splitPath reg.pattern)
          router.root _ routes hrouter (hshort reg List.mem_cons_self) (Prod.ext hok rfl)
        have hrest := ih _ router' _ hroot
          (fun reg' hreg' => hshort reg' (List.mem_cons_of_mem reg hreg')) hadd
        rw [List.append_assoc] at hrest
        exact hrest
      · contradiction

theorem addRoutes_routerCreate {regs : List Registration} {router : Router}
    (hshort : ∀ reg ∈ regs, ∀ seg ∈ splitPath reg.pattern, seg.length < 256)
    (hadd : addRoutes routerCreate regs = some router) :
    Represents router.root (regs.map Registration.route) := by
  have h := addRoutes_represents regs routerCreate router [] (represents_routeNodeCreate _)
    hshort hadd
  rwa [List.nil_append] at h

/-! ## The walk of a request -/

def filledAfter (filled : Nat) (segment : CStr) : Nat :=
  if takesValue segment then filled + 1 else filled

def MatchSays (filled : Nat) (matched : Bool) (segment : CStr) : Option (List RouteParam) → Prop
  | none => matched = false
  | some params => matched = true ∧ params.length = filledAfter filled segment

theorem matchNode_labelled {node : RouteNode} (h : Labelled node) (segment : CStr)
    (params : List RouteParam) :
    MatchSays params.length (matchesAt params.length node.segment segment) node.segment
      (matchNode node segment params) := by
  unfold matchNode
  simp only [h.isParam, h.isWildcard]
  cases hparam : isParamSegment node.segment with
  | true =>
      have hwild : isWildcardSegment node.segment = false := by
        by_contra hwild
        simp only [Bool.not_eq_false, isWildcardSegment, beq_iff_eq] at hwild
        rw [hwild] at hparam
        revert hparam
        decide
      by_cases hroom : params.length < routeMaxParams
      · simp [hwild, hroom, MatchSays, matchesAt, segmentMatches, takesValue, hparam, filledAfter]
      · simp [hwild, hroom, MatchSays, matchesAt, hparam]
  | false =>
      cases hwild : isWildcardSegment node.segment with
      | true => simp [MatchSays, matchesAt, segmentMatches, takesValue, hparam, hwild, filledAfter]
      | false =>
          by_cases heq : node.segment = segment
          · simp [heq ▸ hparam, heq ▸ hwild, heq, MatchSays, matchesAt, segmentMatches, takesValue,
              filledAfter]
          · simp [heq, MatchSays, matchesAt, segmentMatches, takesValue, hparam, hwild]

theorem firstMatch_spec (segment : CStr) (params : List RouteParam) (children : List RouteNode)
    (hlabels : ∀ child ∈ children, Labelled child) :
    (firstMatch segment params children).map (fun found => found.1.segment) =
        (children.map RouteNode.segment).find? (fun s => matchesAt params.length s segment) ∧
      ∀ found, firstMatch segment params children = some found →
        found.1 ∈ children ∧ found.2.length = filledAfter params.length found.1.segment := by
  induction children with
  | nil => exact ⟨rfl, fun found h => by contradiction⟩
  | cons child children ih =>
      have hmatch := matchNode_labelled (hlabels child List.mem_cons_self) segment params
      have ih := ih fun c hc => hlabels c (List.mem_cons_of_mem child hc)
      rw [firstMatch, List.map_cons, List.find?_cons]
      cases hnode : matchNode child segment params with
      | some params' =>
          rw [hnode] at hmatch
          rw [hmatch.1]
          refine ⟨rfl, ?_⟩
          intro found hfound
          cases hfound
          exact ⟨List.mem_cons_self, hmatch.2⟩
      | none =>
          rw [hnode] at hmatch
          rw [show matchesAt params.length child.segment segment = false from hmatch]
          refine ⟨ih.1, ?_⟩
          intro found hfound
          have hrest := ih.2 found hfound
          exact ⟨List.mem_cons_of_mem child hrest.1, hrest.2⟩

/-- The node at the end of the walk has the last of the greedy routes for its endpoint. -/
theorem walk_represents (path : List CStr) :
    ∀ (node : RouteNode) (routes : List Route) (params : List RouteParam),
      Represents node routes →
        match walk path node params with
        | none => greedy params.length path routes = []
        | some arrived => Endpoint arrived.1 (greedy params.length path routes).getLast? := by
  induction path with
  | nil =>
      intro node routes params hnode
      obtain ⟨_, _, _, hendpoint⟩ := hnode
      exact hendpoint
  | cons segment path ih =>
      intro node routes params hnode
      obtain ⟨hchildren, hlabels, hbelow, _⟩ := hnode
      obtain ⟨hfind, hfirst⟩ := firstMatch_spec segment params node.children hlabels
      rw [hchildren.find] at hfind
      rw [walk, greedy, ← hfind]
      cases hfound : firstMatch segment params node.children with
      | none => rfl
      | some found =>
          obtain ⟨hmem, hlength⟩ := hfirst found hfound
          have hrest := ih found.1 _ found.2 (hbelow found.1 hmem)
          rw [hlength] at hrest
          exact hrest

theorem greedy_pattern (path : List CStr) :
    ∀ (filled : Nat) (routes : List Route), ∃ pattern, ∀ r ∈ greedy filled path routes,
      PatternMatches pattern path ∧
        ∃ r' ∈ routes, r'.segments = pattern ∧ r'.method = r.method ∧ r'.handler = r.handler := by
  induction path with
  | nil =>
      intro filled routes
      refine ⟨[], ?_⟩
      intro r hr
      rw [greedy, ending, List.mem_filter, decide_eq_true_iff] at hr
      exact ⟨.nil, r, hr.1, hr.2, rfl, rfl⟩
  | cons segment path ih =>
      intro filled routes
      rw [greedy]
      cases hfind : (heads routes).find? fun s => matchesAt filled s segment with
      | none => exact ⟨[], by simp⟩
      | some s =>
          have hs : segmentMatches s segment = true := by
            have hmatch := List.find?_some hfind
            simp only [matchesAt, Bool.and_eq_true] at hmatch
            exact hmatch.1
          obtain ⟨pattern, hpattern⟩ := ih (filledAfter filled s) (routesBelow s routes)
          refine ⟨s :: pattern, ?_⟩
          intro r hr
          obtain ⟨hmatches, r', hr', hsegments, hmethod, hhandler⟩ := hpattern r hr
          refine ⟨.cons hs hmatches, ?_⟩
          obtain ⟨r'', hr'', hafter⟩ := List.mem_filterMap.mp hr'
          cases hsegments'' : r''.segments with
          | nil => simp [Route.after, hsegments''] at hafter
          | cons t rest =>
              rw [Route.after, hsegments''] at hafter
              simp only at hafter
              split at hafter
              · rename_i ht
                cases hafter
                exact ⟨r'', hr'', by rw [hsegments'', ht, ← hsegments], hmethod, hhandler⟩
              · contradiction

/-! ## Dispatch -/

theorem routeFor_eq {router : Router} {routes : List Route}
    (hrouter : Represents router.root routes) (method : HttpMethod) (path : CStr) :
    (routeFor router method path).map Prod.fst =
      match (greedy 0 (splitPath path) routes).getLast? with
      | none => none
      | some r => if r.method = method then some r.handler else none := by
  have hwalk := walk_represents (splitPath path) router.root routes [] hrouter
  rw [List.length_nil] at hwalk
  rw [routeFor]
  cases harrived : walk (splitPath path) router.root [] with
  | none =>
      rw [harrived] at hwalk
      rw [show greedy 0 (splitPath path) routes = [] from hwalk]
      rfl
  | some arrived =>
      rw [harrived] at hwalk
      cases hlast : (greedy 0 (splitPath path) routes).getLast? with
      | none =>
          rw [hlast] at hwalk
          have hend : arrived.1.isEndpoint = false := hwalk
          simp [hend]
      | some r =>
          rw [hlast] at hwalk
          obtain ⟨hend, hmethod, hhandler⟩ := hwalk
          by_cases hm : r.method = method
          · simp [hend, hmethod, hhandler, hm]
          · simp [hend, hmethod, hm]

variable {ω : Type}

theorem routerDispatch_invoked (call : UInt64 → HandlerFn ω) (router : Router)
    (method : HttpMethod) (path : CStr) (req : HttpRequest) (res : HttpResponse) (world : ω) :
    (routerDispatch call router method path req res world).invoked =
      routeFor router method path := by
  rw [routerDispatch]
  cases routeFor router method path with
  | none => rfl
  | some found => rfl

/-- After successful calls of `router_add`, none of which registers the segments of another
one for another method, a request invokes a handler exactly when the greedy walk of its path
ends at a pattern of its method.  The handler was registered for the method and a pattern
that matches the path. -/
theorem routerDispatch_invokes_iff {regs : List Registration} {router : Router}
    (hadd : addRoutes routerCreate regs = some router)
    (hshort : ∀ reg ∈ regs, ∀ seg ∈ splitPath reg.pattern, seg.length < 256)
    (hmethods : ∀ reg ∈ regs, ∀ reg' ∈ regs, splitPath reg.pattern = splitPath reg'.pattern →
      reg.method = reg'.method)
    (call : UInt64 → HandlerFn ω) (method : HttpMethod) (path : CStr) (req : HttpRequest)
    (res : HttpResponse) (world : ω) :
    let invoked := (routerDispatch call router method path req res world).invoked
    (invoked.isSome ↔
      ∃ r ∈ greedy 0 (splitPath path) (regs.map Registration.route), r.method = method) ∧
    ∀ handler params, invoked = some (handler, params) →
      ∃ reg ∈ regs, reg.method = method ∧ reg.handler = handler ∧
        PatternMatches (splitPath reg.pattern) (splitPath path) := by
  intro invoked
  have hinvoked : invoked = routeFor router method path :=
    routerDispatch_invoked call router method path req res world
  have hroute := routeFor_eq (addRoutes_routerCreate hshort hadd) method path
  rw [← hinvoked] at hroute
  obtain ⟨pattern, hpattern⟩ :=
    greedy_pattern (splitPath path) 0 (regs.map Registration.route)
  -- The registration behind a greedy route.
  have horigin : ∀ r ∈ greedy 0 (splitPath path) (regs.map Registration.route),
      PatternMatches pattern (splitPath path) ∧ ∃ reg ∈ regs, splitPath reg.pattern = pattern ∧
        reg.method = r.method ∧ reg.handler = r.handler := by
    intro r hr
    obtain ⟨hmatches, r', hr', hsegments, hmethod, hhandler⟩ := hpattern r hr
    obtain ⟨reg, hreg, rfl⟩ := List.mem_map.mp hr'
    exact ⟨hmatches, reg, hreg, hsegments, hmethod, hhandler⟩
  constructor
  · cases hlast : (greedy 0 (splitPath path) (regs.map Registration.route)).getLast? with
    | none =>
        rw [hlast] at hroute
        have hnone : invoked = none := Option.map_eq_none_iff.mp hroute
        rw [List.getLast?_eq_none_iff.mp hlast, hnone]
        simp
    | some r =>
        rw [hlast] at hroute
        have hr := List.mem_of_getLast? hlast
        obtain ⟨_, reg, hreg, hsegments, hmethod, _⟩ := horigin r hr
        have hsome : invoked.isSome ↔ r.method = method := by
          have hmap : (invoked.map Prod.fst).isSome = invoked.isSome := Option.isSome_map
          rw [← hmap, hroute]
          by_cases hm : r.method = method
          · simp [hm]
          · simp [hm]
        rw [hsome]
        constructor
        · intro hm
          exact ⟨r, hr, hm⟩
        · intro h
          obtain ⟨r', hr', hm⟩ := h
          obtain ⟨_, reg', hreg', hsegments', hmethod', _⟩ := horigin r' hr'
          calc
            r.method = reg.method := hmethod.symm
            _ = reg'.method := hmethods reg hreg reg' hreg' (hsegments.trans hsegments'.symm)
            _ = r'.method := hmethod'
            _ = method := hm
  · intro handler params hcall
    rw [hcall] at hroute
    cases hlast : (greedy 0 (splitPath path) (regs.map Registration.route)).getLast? with
    | none =>
        rw [hlast] at hroute
        contradiction
    | some r =>
        rw [hlast] at hroute
        obtain ⟨hmatches, reg, hreg, hsegments, hmethod, hhandler⟩ :=
          horigin r (List.mem_of_getLast? hlast)
        by_cases hm : r.method = method
        · simp only [hm, if_true, Option.map_some, Option.some.injEq] at hroute
          refine ⟨reg, hreg, hmethod.trans hm, ?_, ?_⟩
          · rw [hhandler, hroute]
          · rw [hsegments]
            exact hmatches
        · simp [hm] at hroute

/-- A handler that answers nothing. -/
def silentHandler : UInt64 → HandlerFn Unit := fun _ _ _ res world => (true, res, world)

def invokedAfter (regs : List Registration) (method : HttpMethod) (path : CStr) :
    Option (Option (UInt64 × List RouteParam)) :=
  (addRoutes routerCreate regs).map fun router =>
    (routerDispatch silentHandler router method path httpRequestInit httpResponseInit ()).invoked

/-- With `/users` and `/users/:id` a request for `/users/42` is handled. -/
theorem routerDispatch_invokes_users :
    ∃ router, addRoutes routerCreate
        [⟨.get, lit "/users", 1⟩, ⟨.get, lit "/users/:id", 2⟩] = some router ∧
      (routerDispatch silentHandler router .get (lit "/users/42") httpRequestInit httpResponseInit
        ()).invoked.isSome := by
  have hadd : (addRoutes routerCreate
      [⟨.get, lit "/users", 1⟩, ⟨.get, lit "/users/:id", 2⟩]).isSome := by decide
  obtain ⟨router, hrouter⟩ := Option.isSome_iff_exists.mp hadd
  refine ⟨router, hrouter, ?_⟩
  apply (routerDispatch_invokes_iff hrouter _ _ silentHandler .get (lit "/users/42")
    httpRequestInit httpResponseInit ()).1.mpr
  · exact ⟨⟨[], .get, 2⟩, by decide, rfl⟩
  · decide
  · decide

/-- With `/:x/b` and `/a/c` a request for `/a/c` is not handled: the walk enters `:x`. -/
theorem routerDispatch_misses_match :
    ∃ router, addRoutes routerCreate
        [⟨.get, lit "/:x/b", 1⟩, ⟨.get, lit "/a/c", 2⟩] = some router ∧
      PatternMatches (splitPath (lit "/a/c")) (splitPath (lit "/a/c")) ∧
      (routerDispatch silentHandler router .get (lit "/a/c") httpRequestInit httpResponseInit
        ()).invoked = none := by
  have hnone : invokedAfter [⟨.get, lit "/:x/b", 1⟩, ⟨.get, lit "/a/c", 2⟩] .get (lit "/a/c") =
      some none := by decide
  obtain ⟨router, hrouter, hinvoked⟩ := Option.map_eq_some_iff.mp hnone
  refine ⟨router, hrouter, ?_, hinvoked⟩
  rw [show splitPath (lit "/a/c") = [lit "a", lit "c"] by decide]
  exact .cons (by decide) (.cons (by decide) .nil)

end MiniBackend.WebServer.Proofs.GreedyRoutes
