import MiniBackend.Lib.CString

/-!
# `rest_design.c`: routes and entity tags
-/

namespace MiniBackend.Api.Rest

open MiniBackend.Lib.CString

/-! ## Routes -/

inductive RestMethod
  | get
  | post
  | put
  | patch
  | delete
  | head
  | options
deriving DecidableEq

structure RestResource where
  path : CStr
  method : RestMethod

/-- The loop over a route and the URI: what is left of both, and the score. -/
def matchLoop : CStr → CStr → Nat → CStr × CStr × Nat
  | [], upath, score => ([], upath, score)
  | r :: rpath, [], score => (r :: rpath, [], score)
  | r :: rpath, u :: upath, score =>
      if r = 123 then
        matchLoop (rpath.dropWhile (· ≠ 125)).tail ((u :: upath).dropWhile (· ≠ 47)) (score + 2)
      else if r = u then matchLoop rpath upath (score + 1)
      -- `match` is cleared, and the loop ends here
      else (r :: rpath, u :: upath, score)
termination_by rpath => rpath.length
decreasing_by
  · have hle := (List.dropWhile_suffix (p := fun x => decide (x ≠ 125)) (l := rpath)).length_le
    rw [List.length_tail, List.length_cons]
    omega
  · exact Nat.lt_succ_self _

def endsMatch (rpath upath : CStr) : Bool :=
  if rpath = [] ∧ upath = [] then true
  else if rpath.head? = some 47 ∧ (upath.head? = some 47 ∨ upath = []) then true
  else if rpath = [] ∧ upath.head? = some 47 then true
  else if rpath.head? = some 47 ∧ rpath.tail = [] ∧ upath = [] then true
  else false

/-- A round of the loop over the routes, with the best one so far and its score. -/
def tryRoute (uri : CStr) (method : RestMethod) (best : Option RestResource × Int)
    (res : RestResource) : Option RestResource × Int :=
  if res.method ≠ method then best
  else
    let (rpath, upath, score) := matchLoop res.path uri 0
    if endsMatch rpath upath ∧ best.2 < score then (some res, score) else best

def restRouterResolve (routes : List RestResource) (uri : CStr) (method : RestMethod) :
    Option RestResource :=
  (routes.foldl (tryRoute uri method) (none, -1)).1

/-! ## Entity tags -/

def restEtagLen : Nat := 64

structure RestEtag where
  value : CStr
  isWeak : Bool

def restDjb2Hash (str : List UInt8) : UInt32 :=
  str.foldl (fun hash b => ((hash <<< 5) + hash) + b.toUInt32) 5381

def restEtagStrong (body : List UInt8) : RestEtag :=
  if body = [] then ⟨[], false⟩
  else
    let value := lit "\"" ++ hexPadded 8 (restDjb2Hash body).toNat ++ lit "-" ++
      decimal body.length ++ lit "\""
    ⟨snprintf value restEtagLen, false⟩

def restEtagWeak (body : List UInt8) : RestEtag :=
  let etag := restEtagStrong body
  if etag.value.head? = some 34 then
    ⟨strncpy (snprintf (lit "W/" ++ etag.value) restEtagLen) (restEtagLen - 1), true⟩
  else ⟨etag.value, true⟩

/-- The bytes of a tag, at most `n`, and what is left. -/
def tagChars (quoted : Bool) : Nat → CStr → CStr × CStr
  | 0, p => ([], p)
  | _ + 1, [] => ([], [])
  | n + 1, b :: p =>
      if b = 44 then ([], b :: p)
      else if quoted ∧ b = 34 then ([], p)
      else
        let (tag, rest) := tagChars quoted n p
        (b :: tag, rest)

/-- A round of the loop: whether the tag has the weak prefix, the tag without quotes, and what is
left. -/
def nextTag (p : CStr) : Bool × CStr × CStr :=
  let p := p.dropWhile fun b => b = 32 || b = 44
  let weak := strncmpEq p (lit "W/") 2
  let p := if weak then p.drop 2 else p
  let quoted := decide (p.head? = some 34)
  (weak, tagChars quoted (restEtagLen - 1) (if quoted then p.tail else p))

/-- A tag without quotes is compared with the value of the server, which has them. -/
def tagEquals (server : RestEtag) (weak : Bool) (tag : CStr) : Bool :=
  if weak || server.isWeak then server.value.drop (if server.isWeak then 2 else 0) = tag
  else server.value = snprintf (lit "\"" ++ tag ++ lit "\"") restEtagLen

theorem tagChars_length_le (quoted : Bool) (n : Nat) (p : CStr) :
    (tagChars quoted n p).2.length ≤ p.length := by
  induction n generalizing p with
  | zero => exact Nat.le_refl _
  | succ n ih =>
      cases p with
      | nil => exact Nat.le_refl _
      | cons b p =>
          rw [tagChars]
          split
          · exact Nat.le_refl _
          · split
            · exact Nat.le_succ _
            · exact Nat.le_succ_of_le (ih p)

theorem nextTag_length_lt {p : CStr} (hp : p ≠ []) : (nextTag p).2.2.length < p.length := by
  rw [nextTag]
  dsimp only
  generalize hq : p.dropWhile (fun b => b = 32 || b = 44) = q
  have hle : q.length ≤ p.length := by
    rw [← hq]
    exact (List.dropWhile_suffix _).length_le
  have htail := tagChars_length_le true (restEtagLen - 1)
  by_cases hweak : strncmpEq q (lit "W/") 2 = true
  · have htwo : 2 ≤ q.length := by
      have hlength := congrArg List.length (beq_iff_eq.mp hweak)
      rw [List.length_take] at hlength
      change min 2 q.length = 2 at hlength
      omega
    have hdrop := List.length_drop (l := q) (i := 2)
    have hrest := tagChars_length_le (decide ((q.drop 2).head? = some 34)) (restEtagLen - 1)
      (if decide ((q.drop 2).head? = some 34) then (q.drop 2).tail else q.drop 2)
    have hshort : (if decide ((q.drop 2).head? = some 34) then (q.drop 2).tail
        else q.drop 2).length ≤ (q.drop 2).length := by
      split
      · rw [List.length_tail]
        exact Nat.sub_le _ _
      · exact Nat.le_refl _
    rw [if_pos hweak]
    omega
  · rw [if_neg hweak]
    cases q with
    | nil =>
        have hpos := List.length_pos_iff.mpr hp
        exact hpos
    | cons b q =>
        rw [List.length_cons] at hle
        by_cases hquoted : b = 34
        · rw [hquoted]
          exact (htail q).trans_lt hle
        · have hstart : ¬(b :: q).head? = some 34 := fun heq => hquoted (Option.some.inj heq)
          have hcomma : b ≠ 44 := by
            rintro rfl
            have hhead := List.head?_dropWhile_not (fun b => b = 32 || b = 44) p
            rw [hq] at hhead
            simp at hhead
          rw [decide_eq_false hstart, if_neg Bool.false_ne_true, restEtagLen, tagChars,
            if_neg hcomma, if_neg (by simp)]
          exact (tagChars_length_le false _ q).trans_lt hle

def matchTags (server : RestEtag) (p : CStr) : Bool :=
  if p = [] then false
  else if tagEquals server (nextTag p).1 (nextTag p).2.1 then true
  else matchTags server (nextTag p).2.2
termination_by p.length
decreasing_by exact nextTag_length_lt ‹_›

def restEtagMatch (serverEtag : RestEtag) (ifNoneMatch : CStr) : Bool :=
  if serverEtag.value = [] then false
  else if ifNoneMatch = lit "*" then true
  else matchTags serverEtag ifNoneMatch

end MiniBackend.Api.Rest
