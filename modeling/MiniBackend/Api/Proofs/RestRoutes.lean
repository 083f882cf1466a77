import MiniBackend.Api.RestDesign
import MiniBackend.Lib.FirstMaximum

/-!
# Which routes are resolved

A route and a URI are read segment by segment, and one of them may go on behind the end of the
other, as long as it does so with a slash.  The rules for the ends accept it then.
-/

namespace MiniBackend.Api.Proofs.RestRoutes

open MiniBackend.Lib.CString MiniBackend.Lib.FirstMaximum MiniBackend.Api.Rest

/-! ## Segments -/

def IsParam (segment : CStr) : Prop := ∃ name : CStr, 125 ∉ name ∧ segment = 123 :: (name ++ [125])

def IsLiteral (segment : CStr) : Prop := 123 ∉ segment

def segments (path : CStr) : List CStr := path.splitOn 47

def WellFormed (res : RestResource) : Prop :=
  ∀ segment ∈ segments res.path, IsLiteral segment ∨ IsParam segment

def opens (segment : CStr) : Bool := segment.head? = some 123

def segmentMatches (pattern segment : CStr) : Bool :=
  if opens pattern then segment ≠ [] else pattern = segment

def stripped : List CStr → List CStr
  | [] => []
  | [s] => [s]
  | [s, []] => [s]
  | s :: rest => s :: stripped rest

def Matches (path uri : CStr) : Prop :=
  List.Forall₂ (fun p u => segmentMatches p u = true) (stripped (segments path))
    (stripped (segments uri))

def weight (pattern : CStr) : Nat := if opens pattern then 2 else pattern.length

/-- A parameter takes an empty segment, too, if a slash follows. -/
def segmentAgrees (pattern segment : CStr) : Bool := opens pattern || pattern = segment

/-- The score of a route with a URI that agree as far as both go. -/
def reach : List CStr → List CStr → Option Nat
  | p :: ps, u :: us =>
      if us = [] then if segmentMatches p u then some (weight p) else none
      else if segmentAgrees p u then
        if ps = [] then some (weight p) else (reach ps us).map (weight p + 1 + ·)
      else none
  | _, _ => none

/-! ## The loop -/

def Continues (rest : CStr) : Prop := rest = [] ∨ rest.head? = some 47

theorem endsMatch_iff {rpath upath : CStr} :
    endsMatch rpath upath = true ↔ Continues rpath ∧ Continues upath := by
  unfold endsMatch Continues
  cases rpath with
  | nil => cases upath <;> simp
  | cons r rpath =>
      cases upath with
      | nil =>
          simp
          tauto
      | cons u upath => simp

def accepted (ends : CStr × CStr × Nat) : Option Nat :=
  if endsMatch ends.1 ends.2.1 then some ends.2.2 else none

theorem accepted_of_continues {rpath upath : CStr} (h : Continues rpath) (h' : Continues upath)
    (score : Nat) : accepted (rpath, upath, score) = some score :=
  if_pos (endsMatch_iff.mpr ⟨h, h'⟩)

theorem accepted_of_not {rpath upath : CStr} (h : ¬(Continues rpath ∧ Continues upath))
    (score : Nat) : accepted (rpath, upath, score) = none :=
  if_neg fun hends => h (endsMatch_iff.mp hends)

theorem not_continues_cons {b : UInt8} (hb : b ≠ 47) (rest : CStr) : ¬Continues (b :: rest) := by
  simp [Continues, hb]

theorem matchLoop_literal {pattern segment r v : CStr} (hliteral : 123 ∉ pattern)
    (hpattern : 47 ∉ pattern) (hsegment : 47 ∉ segment) (hr : Continues r) (hv : Continues v)
    (score : Nat) :
    accepted (matchLoop (pattern ++ r) (segment ++ v) score) =
      if pattern = segment then accepted (matchLoop r v (score + pattern.length)) else none := by
  induction pattern generalizing segment score with
  | nil =>
      cases segment with
      | nil => rfl
      | cons c segment =>
          have hc : c ≠ 47 := fun heq => hsegment (by simp [heq])
          rw [if_neg (by simp), List.nil_append, List.cons_append]
          cases r with
          | nil =>
              rw [matchLoop]
              exact accepted_of_not (fun h => not_continues_cons hc _ h.2) _
          | cons a r =>
              obtain rfl : a = 47 := by simpa [Continues] using hr
              rw [matchLoop, if_neg (by decide), if_neg (Ne.symm hc)]
              exact accepted_of_not (fun h => not_continues_cons hc _ h.2) _
  | cons a pattern ih =>
      rw [List.mem_cons, not_or] at hliteral hpattern
      have ha : a ≠ 47 := Ne.symm hpattern.1
      have hopen : a ≠ 123 := Ne.symm hliteral.1
      have hreject : ∀ upath score, accepted (a :: (pattern ++ r), upath, score) = none :=
        fun upath score => accepted_of_not (fun h => not_continues_cons ha _ h.1) score
      cases segment with
      | nil =>
          rw [if_neg (by simp), List.nil_append, List.cons_append]
          cases v with
          | nil =>
              rw [matchLoop]
              exact hreject _ _
          | cons c v =>
              obtain rfl : c = 47 := by simpa [Continues] using hv
              rw [matchLoop, if_neg hopen, if_neg ha]
              exact hreject _ _
      | cons c segment =>
          rw [List.mem_cons, not_or] at hsegment
          rw [List.cons_append, List.cons_append, matchLoop, if_neg hopen]
          by_cases hac : a = c
          · rw [if_pos hac, ih hliteral.2 hpattern.2 hsegment.2, hac, List.length_cons]
            simp only [List.cons.injEq, true_and, Nat.add_assoc, Nat.add_comm 1]
          · rw [if_neg hac, if_neg (fun heq => hac (List.cons.inj heq).1)]
            exact hreject _ _

theorem matchLoop_param {name segment r v : CStr} (hname : 125 ∉ name) (hsegment : 47 ∉ segment)
    (hv : Continues v) (hne : segment ++ v ≠ []) (score : Nat) :
    matchLoop (123 :: (name ++ [125]) ++ r) (segment ++ v) score = matchLoop r v (score + 2) := by
  have hclose : (name ++ [125] ++ r).dropWhile (fun b => decide (b ≠ 125)) = 125 :: r := by
    rw [List.append_assoc, List.dropWhile_append_of_pos]
    · rfl
    · intro b hb
      exact decide_eq_true fun heq => hname (heq ▸ hb)
  have hslash : (segment ++ v).dropWhile (fun b => decide (b ≠ 47)) = v := by
    rw [List.dropWhile_append_of_pos]
    · cases v with
      | nil => rfl
      | cons c v =>
          obtain rfl : c = 47 := by simpa [Continues] using hv
          rfl
    · intro b hb
      exact decide_eq_true fun heq => hsegment (heq ▸ hb)
  obtain ⟨u, upath, hupath⟩ := List.exists_cons_of_ne_nil hne
  rw [List.cons_append, hupath, matchLoop, if_pos rfl, hclose, ← hupath, hslash, List.tail_cons]

theorem matchLoop_segment {pattern segment r v : CStr}
    (hkind : IsLiteral pattern ∨ IsParam pattern) (hpattern : 47 ∉ pattern)
    (hsegment : 47 ∉ segment) (hr : Continues r) (hv : Continues v) (score : Nat) :
    accepted (matchLoop (pattern ++ r) (segment ++ v) score) =
      if (if v = [] then segmentMatches pattern segment else segmentAgrees pattern segment) then
        accepted (matchLoop r v (score + weight pattern))
      else none := by
  rcases hkind with hliteral | ⟨name, hname, rfl⟩
  · have hopens : opens pattern = false := by
      cases pattern with
      | nil => rfl
      | cons b pattern =>
          simp only [opens, List.head?_cons, Option.some.injEq, decide_eq_false_iff_not]
          rintro rfl
          exact hliteral List.mem_cons_self
    rw [matchLoop_literal hliteral hpattern hsegment hr hv, weight, segmentMatches, segmentAgrees,
      hopens]
    simp
  · have hopens : opens (123 :: (name ++ [125])) = true := rfl
    rw [weight, segmentMatches, segmentAgrees, hopens]
    by_cases hempty : segment ++ v = []
    · obtain ⟨rfl, rfl⟩ := List.append_eq_nil_iff.mp hempty
      rw [List.nil_append, List.cons_append, matchLoop]
      exact accepted_of_not (fun h => not_continues_cons (by decide) _ h.1) _
    · rw [matchLoop_param hname hsegment hv hempty]
      have htakes : (if v = [] then if true = true then decide (segment ≠ []) else
          decide (123 :: (name ++ [125]) = segment) else
          (true || decide (123 :: (name ++ [125]) = segment))) = true := by
        by_cases hv' : v = []
        · simpa [hv'] using hempty
        · simp [hv']
      rw [if_pos htakes, if_pos rfl]

theorem intercalate_cons (s : CStr) (rest : List CStr) :
    [47].intercalate (s :: rest) =
      s ++ if rest = [] then [] else 47 :: [47].intercalate rest := by
  cases rest with
  | nil => simp
  | cons t rest => simp [List.intercalate_cons_cons]

theorem continues_rest (rest : List CStr) :
    Continues (if rest = [] then [] else 47 :: [47].intercalate rest) := by
  split
  · exact Or.inl rfl
  · exact Or.inr rfl

/-- The loop and the rules accept what agrees as far as it goes. -/
theorem accepted_matchLoop {ps us : List CStr} (hps : ps ≠ []) (hus : us ≠ [])
    (hkinds : ∀ p ∈ ps, (IsLiteral p ∨ IsParam p) ∧ 47 ∉ p) (hslash : ∀ u ∈ us, 47 ∉ u)
    (score : Nat) :
    accepted (matchLoop ([47].intercalate ps) ([47].intercalate us) score) =
      (reach ps us).map (score + ·) := by
  induction ps generalizing us score with
  | nil => exact absurd rfl hps
  | cons p ps ih =>
      obtain ⟨u, us, rfl⟩ := List.exists_cons_of_ne_nil hus
      obtain ⟨⟨hkind, hp⟩, hkinds⟩ := List.forall_mem_cons.mp hkinds
      obtain ⟨hu, hslash⟩ := List.forall_mem_cons.mp hslash
      rw [intercalate_cons, intercalate_cons,
        matchLoop_segment hkind hp hu (continues_rest ps) (continues_rest us), reach]
      by_cases hus' : us = []
      · rw [if_pos hus', if_pos rfl, if_pos hus']
        split
        · have hend : ∀ r, matchLoop r [] (score + weight p) = (r, [], score + weight p) := by
            intro r
            cases r <;> rw [matchLoop]
          rw [hend]
          exact accepted_of_continues (continues_rest ps) (Or.inl rfl) _
        · rfl
      · rw [if_neg hus', if_neg (List.cons_ne_nil _ _), if_neg hus']
        split
        · by_cases hps' : ps = []
          · rw [if_pos hps', if_pos hps', matchLoop]
            exact accepted_of_continues (Or.inl rfl) (Or.inr rfl) _
          · rw [if_neg hps', if_neg hps', matchLoop, if_neg (by decide), if_pos rfl,
              ih hps' hus' hkinds hslash, Option.map_map]
            congr 1
            funext n
            simp only [Function.comp_apply]
            omega
        · rfl

theorem not_mem_of_mem_splitOn {c : UInt8} {s segment : CStr} (h : segment ∈ s.splitOn c) :
    c ∉ segment := by
  induction s generalizing segment with
  | nil =>
      rw [List.splitOn_nil, List.mem_singleton] at h
      rw [h]
      exact List.not_mem_nil
  | cons b s ih =>
      rw [List.splitOn_eq_splitOnP, List.splitOnP_cons_eq_if_modifyHead,
        ← List.splitOn_eq_splitOnP] at h
      obtain ⟨first, others, hsplit⟩ := List.exists_cons_of_ne_nil (List.splitOn_ne_nil c s)
      split at h
      · rcases List.mem_cons.mp h with rfl | hmem
        · exact List.not_mem_nil
        · exact ih hmem
      · next hb =>
          have hne : c ≠ b := by
            rintro rfl
            exact hb (beq_self_eq_true c)
          rw [hsplit, List.modifyHead_cons] at h
          rcases List.mem_cons.mp h with rfl | hmem
          · rw [List.mem_cons, not_or]
            exact ⟨hne, ih (hsplit ▸ List.mem_cons_self)⟩
          · exact ih (hsplit ▸ List.mem_cons_of_mem _ hmem)

def reachOf (uri : CStr) (res : RestResource) : Option Nat :=
  reach (segments res.path) (segments uri)

theorem accepted_route {res : RestResource} (h : WellFormed res) (uri : CStr) :
    accepted (matchLoop res.path uri 0) = reachOf uri res := by
  have hrun := accepted_matchLoop (List.splitOn_ne_nil 47 res.path) (List.splitOn_ne_nil 47 uri)
    (fun p hp => ⟨h p hp, not_mem_of_mem_splitOn hp⟩) (fun u hu => not_mem_of_mem_splitOn hu) 0
  rw [List.intercalate_splitOn, List.intercalate_splitOn] at hrun
  rw [hrun, reachOf, segments, segments]
  cases reach (res.path.splitOn 47) (uri.splitOn 47) <;> simp

/-! ## Matches are accepted -/

theorem segmentAgrees_of_matches {p u : CStr} (h : segmentMatches p u = true) :
    segmentAgrees p u = true := by
  unfold segmentMatches at h
  unfold segmentAgrees
  cases hopens : opens p with
  | true => rfl
  | false => simpa [hopens] using h

theorem stripped_cons (s : CStr) (rest : List CStr) :
    stripped (s :: rest) = s :: if rest = [] ∨ rest = [[]] then [] else stripped rest := by
  cases rest with
  | nil => rfl
  | cons t rest =>
      cases rest with
      | nil => cases t <;> rfl
      | cons => rw [stripped, if_neg (by simp)] <;> simp

theorem reach_of_matches {ps us : List CStr}
    (h : List.Forall₂ (fun p u => segmentMatches p u = true) (stripped ps) (stripped us))
    (hps : ps ≠ []) (hus : us ≠ []) : (reach ps us).isSome = true := by
  induction ps generalizing us with
  | nil => exact absurd rfl hps
  | cons p ps ih =>
      obtain ⟨u, us, rfl⟩ := List.exists_cons_of_ne_nil hus
      rw [stripped_cons, stripped_cons, List.forall₂_cons] at h
      obtain ⟨hfirst, hrest⟩ := h
      have hstripped : ∀ rest : List CStr, rest ≠ [] → stripped rest ≠ [] := by
        intro rest hrest
        obtain ⟨s, rest, rfl⟩ := List.exists_cons_of_ne_nil hrest
        rw [stripped_cons]
        exact List.cons_ne_nil _ _
      rw [reach]
      by_cases hus' : us = []
      · rw [if_pos hus', if_pos hfirst]
        rfl
      · rw [if_neg hus', if_pos (segmentAgrees_of_matches hfirst)]
        by_cases hps' : ps = []
        · rw [if_pos hps']
          rfl
        · rw [if_neg hps', Option.isSome_map]
          -- a slash at the end of one is a slash at the end of the other
          have hboth : ps = [[]] ↔ us = [[]] := by
            constructor
            · intro hend
              by_contra hus''
              rw [if_pos (Or.inr hend), if_neg (by simp [hus', hus''])] at hrest
              exact hstripped us hus' (List.forall₂_nil_left_iff.mp hrest)
            · intro hend
              by_contra hps''
              rw [if_pos (Or.inr hend), if_neg (by simp [hps', hps''])] at hrest
              exact hstripped ps hps' (List.forall₂_nil_right_iff.mp hrest)
          by_cases hend : ps = [[]]
          · rw [hend, hboth.mp hend]
            rfl
          · rw [if_neg (by simp [hps', hend]), if_neg (by simp [hus', hboth.not.mp hend])] at hrest
            exact ih hrest hps' hus'

/-! ## The choice -/

theorem tryRoute_eq {uri : CStr} {method : RestMethod} {best : Option RestResource × Int}
    {res : RestResource} (h : WellFormed res) :
    tryRoute uri method best res =
      if res.method = method ∧ ∃ score ∈ reachOf uri res, best.2 < (score : Int) then
        (some res, (((reachOf uri res).getD 0 : Nat) : Int))
      else best := by
  rw [← accepted_route h, tryRoute, accepted]
  generalize matchLoop res.path uri 0 = ends
  by_cases hmethod : res.method = method
  · cases hends : endsMatch ends.1 ends.2.1 <;> simp [hmethod, hends]
  · simp [hmethod]

def considered (uri : CStr) (method : RestMethod) (res : RestResource) : Bool :=
  res.method = method && (reachOf uri res).isSome

def scoreOf (uri : CStr) (res : RestResource) : Nat := (reachOf uri res).getD 0

theorem resolve_eq {routes : List RestResource} (h : ∀ res ∈ routes, WellFormed res) (uri : CStr)
    (method : RestMethod) :
    restRouterResolve routes uri method =
      (routes.filter (considered uri method)).argmax (scoreOf uri) := by
  have hscan : routes.foldl (tryRoute uri method) (none, -1) =
      ((routes.filter (considered uri method)).argmax (scoreOf uri),
        ((routes.filter (considered uri method)).argmax (scoreOf uri)).elim (-1)
          fun best => (scoreOf uri best : Int)) := by
    induction routes using List.reverseRecOn with
    | nil => rfl
    | append_singleton routes res ih =>
        rw [List.forall_mem_append] at h
        have hres := h.2 res (List.mem_singleton_self res)
        rw [List.foldl_append, ih h.1, List.foldl_cons, List.foldl_nil, tryRoute_eq hres,
          argmax_filter_concat, considered]
        cases hreach : reachOf uri res with
        | none => simp
        | some score =>
            have hscore : scoreOf uri res = score := by rw [scoreOf, hreach]; rfl
            by_cases hmethod : res.method = method
            · cases (routes.filter (considered uri method)).argmax (scoreOf uri) with
              | none =>
                  have hfloor : (-1 : Int) < score := by omega
                  simp [hmethod, hscore, hfloor]
              | some best =>
                  by_cases hhigher : scoreOf uri best < score
                  · simp [hmethod, hscore, hhigher]
                  · simp [hmethod, hscore, hhigher]
            · simp [hmethod]
  rw [restRouterResolve, hscan]

/-! ## Soundness and completeness -/

def Candidate (uri : CStr) (method : RestMethod) (res : RestResource) : Prop :=
  res.method = method ∧ Matches res.path uri

/-- A route for the method that agrees with the URI only as far as one of them goes, or at an
empty segment. -/
def Stray (uri : CStr) (method : RestMethod) (res : RestResource) : Prop :=
  res.method = method ∧ (reachOf uri res).isSome = true ∧ ¬Matches res.path uri

/-- A candidate is found, if there is one, and nothing else. -/
def ResolvesExactly (routes : List RestResource) (uri : CStr) (method : RestMethod) : Prop :=
  (∀ res, restRouterResolve routes uri method = some res →
      res ∈ routes ∧ Candidate uri method res) ∧
    (restRouterResolve routes uri method = none ↔ ∀ res ∈ routes, ¬Candidate uri method res)

/-- Every stray route has a candidate with a higher score, or with the same in front of it. -/
def CandidatesLead (routes : List RestResource) (uri : CStr) (method : RestMethod) : Prop :=
  ∀ (i : Nat) (res : RestResource), routes[i]? = some res → Stray uri method res →
    ∃ (j : Nat) (other : RestResource), routes[j]? = some other ∧ Candidate uri method other ∧
      (scoreOf uri res < scoreOf uri other ∨ scoreOf uri other = scoreOf uri res ∧ j < i)

theorem considered_iff {uri : CStr} {method : RestMethod} {res : RestResource} :
    considered uri method res = true ↔ res.method = method ∧ (reachOf uri res).isSome = true := by
  rw [considered, Bool.and_eq_true, decide_eq_true_eq]

theorem considered_of_candidate {uri : CStr} {method : RestMethod} {res : RestResource}
    (h : Candidate uri method res) : considered uri method res = true :=
  considered_iff.mpr ⟨h.1, reach_of_matches h.2 (List.splitOn_ne_nil _ _)
    (List.splitOn_ne_nil _ _)⟩

/-- The routes are resolved as they should be exactly when the candidates lead. -/
theorem resolvesExactly_iff_candidatesLead {routes : List RestResource}
    (h : ∀ res ∈ routes, WellFormed res) (uri : CStr) (method : RestMethod) :
    ResolvesExactly routes uri method ↔ CandidatesLead routes uri method := by
  have hlead : CandidatesLead routes uri method ↔
      ∀ res, restRouterResolve routes uri method = some res → Candidate uri method res := by
    rw [resolve_eq h, argmax_good_iff fun res => considered_of_candidate]
    refine forall_congr' fun i => forall_congr' fun res => imp_congr_right fun _ => ?_
    rw [considered_iff]
    constructor
    · rintro hstray ⟨hmethod, hreach⟩ hbad
      exact hstray ⟨hmethod, hreach, fun hmatches => hbad ⟨hmethod, hmatches⟩⟩
    · rintro hgood ⟨hmethod, hreach, hbad⟩
      exact hgood ⟨hmethod, hreach⟩ fun hcandidate => hbad hcandidate.2
  rw [hlead]
  constructor
  · exact fun hexact res hres => (hexact.1 res hres).2
  · intro hsound
    have hmem : ∀ res, restRouterResolve routes uri method = some res → res ∈ routes := by
      intro res hres
      rw [resolve_eq h] at hres
      exact List.mem_of_mem_filter (List.argmax_mem hres)
    refine ⟨fun res hres => ⟨hmem res hres, hsound res hres⟩, ?_⟩
    constructor
    · intro hnone res hres hcandidate
      rw [resolve_eq h, argmax_filter_eq_none_iff] at hnone
      have hskipped := hnone res hres
      rw [considered_of_candidate hcandidate] at hskipped
      cases hskipped
    · intro hnone
      cases hfound : restRouterResolve routes uri method with
      | none => rfl
      | some res => exact absurd (hsound res hfound) (hnone res (hmem res hfound))

/-- `/users` and `/users/{id}` -/
def userRoutes : List RestResource :=
  [⟨lit "/users", .get⟩, ⟨lit "/users/\x7bid\x7d", .get⟩]

theorem userRoutes_wellFormed : ∀ res ∈ userRoutes, WellFormed res := by
  have hliteral : IsLiteral [] ∧ IsLiteral (lit "users") := by
    unfold IsLiteral
    decide
  have hparam : IsParam (lit "\x7bid\x7d") := ⟨lit "id", by decide, rfl⟩
  have husers : segments (lit "/users") = [[], lit "users"] := by decide
  have huser : segments (lit "/users/\x7bid\x7d") =
      [[], lit "users", lit "\x7bid\x7d"] := by decide
  simp only [userRoutes, List.forall_mem_cons, WellFormed, husers, huser]
  simp [hliteral, hparam]

theorem resolvesExactly_iff_candidatesLead_user :
    ResolvesExactly userRoutes (lit "/users/42") .get ↔
      CandidatesLead userRoutes (lit "/users/42") .get :=
  resolvesExactly_iff_candidatesLead userRoutes_wellFormed _ _

/-- With the route for one user alone, a request for all of them is resolved to it. -/
theorem item_route_for_collection :
    ¬ResolvesExactly userRoutes.tail (lit "/users") .get := by
  intro hexact
  have hfound : restRouterResolve userRoutes.tail (lit "/users") .get =
      some ⟨lit "/users/\x7bid\x7d", .get⟩ := by
    simp [userRoutes, restRouterResolve, tryRoute, matchLoop, endsMatch, lit]
  have hlength := (hexact.1 _ hfound).2.2.length_eq
  exact absurd hlength (by decide)

end MiniBackend.Api.Proofs.RestRoutes
