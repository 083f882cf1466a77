import MiniBackend.Lib.Scanner

/-!
# `graphql_engine.c`: queries

The parser of queries and the limit on their complexity.  A pointer into a text is what is left
of the text.
-/

namespace MiniBackend.Api.Graphql

open MiniBackend.Lib.CString MiniBackend.Lib.Scanner

def gqlMaxNameLen : Nat := 128
def gqlMaxArgs : Nat := 8
def gqlMaxSelection : Nat := 64

inductive GqlOperation
  | query
  | mutation
  | subscription
deriving DecidableEq

structure GqlArgument where
  name : CStr
  type : CStr
  isRequired : Bool
  defaultValue : CStr
deriving DecidableEq

structure GqlSelection where
  fieldName : CStr
  isLeaf : Bool
deriving DecidableEq

structure GqlParsedQuery where
  operation : GqlOperation
  operationName : CStr
  targetField : CStr
  selections : List GqlSelection
  args : List GqlArgument
deriving DecidableEq

/-! ## Names and values -/

def gqlSkipWhitespace (p : CStr) : CStr := p.dropWhile isSpace

/-- The name, cut to fit into `len` bytes, and what follows it. -/
def gqlParseName (p : CStr) (len : Nat) : Option (CStr × CStr) :=
  let start := gqlSkipWhitespace p
  if start.head?.any isNameStart then
    some ((start.takeWhile isNameByte).take (len - 1),
      gqlSkipWhitespace (start.dropWhile isNameByte))
  else none

def skipFraction (p : CStr) : CStr :=
  if p.head? = some 46 then p.tail.dropWhile isDigit else p

def skipSign (p : CStr) : CStr :=
  if p.head? = some 43 ∨ p.head? = some 45 then p.tail else p

def skipExponent (p : CStr) : CStr :=
  if p.head? = some 101 ∨ p.head? = some 69 then (skipSign p.tail).dropWhile isDigit else p

def skipNumber (p : CStr) : CStr :=
  skipExponent (skipFraction ((skipByte 45 p).dropWhile isDigit))

def skipValue : CStr → Option CStr
  | [] => none
  | b :: p =>
      if b = 36 then if p.head?.any isNameStart then some (p.dropWhile isNameByte) else none
      else if isNameStart b then some ((b :: p).dropWhile isNameByte)
      else if b = 45 ∨ isDigit b then some (skipNumber (b :: p))
      else none

def gqlParseValue (p : CStr) (len : Nat) : Option (CStr × CStr) :=
  let start := gqlSkipWhitespace p
  (skipValue start).map fun rest =>
    ((start.take (start.length - rest.length)).take (len - 1), gqlSkipWhitespace rest)

theorem length_gqlSkipWhitespace_le (p : CStr) : (gqlSkipWhitespace p).length ≤ p.length :=
  length_dropWhile_le _ p

theorem length_gqlParseName_lt {p name rest : CStr} {len : Nat}
    (h : gqlParseName p len = some (name, rest)) : rest.length < p.length := by
  rw [gqlParseName] at h
  split at h
  · next hstart =>
      obtain ⟨-, hrest⟩ := Prod.mk.inj (Option.some.inj h)
      have hskip := length_gqlSkipWhitespace_le p
      have hle := length_gqlSkipWhitespace_le ((gqlSkipWhitespace p).dropWhile isNameByte)
      cases hp : gqlSkipWhitespace p with
      | nil => rw [hp] at hstart; exact absurd hstart (by simp)
      | cons b q =>
          rw [hp, List.head?_cons, Option.any_some] at hstart
          rw [hp, List.length_cons] at hskip
          rw [hp, List.dropWhile_cons_of_pos (isNameByte_of_isNameStart hstart)] at hle hrest
          have htail := length_dropWhile_le isNameByte q
          rw [← hrest]
          omega
  · exact absurd h (by simp)

theorem length_skipNumber_le (p : CStr) : (skipNumber p).length ≤ p.length := by
  have hfraction : ∀ q : CStr, (skipFraction q).length ≤ q.length := by
    intro q
    have hdrop := length_dropWhile_le isDigit q.tail
    rw [List.length_tail] at hdrop
    rw [skipFraction]
    split <;> omega
  have hsign : ∀ q : CStr, (skipSign q).length ≤ q.length := by
    intro q
    rw [skipSign]
    split
    · exact (List.tail_sublist q).length_le
    · exact le_rfl
  have hexponent : ∀ q : CStr, (skipExponent q).length ≤ q.length := by
    intro q
    have hdrop := length_dropWhile_le isDigit (skipSign q.tail)
    have htail := hsign q.tail
    rw [List.length_tail] at htail
    rw [skipExponent]
    split <;> omega
  calc (skipNumber p).length ≤ ((skipByte 45 p).dropWhile isDigit).length :=
        (hexponent _).trans (hfraction _)
    _ ≤ p.length := (length_dropWhile_le _ _).trans (length_skipByte_le 45 p)

theorem length_gqlParseValue_le {p value rest : CStr} {len : Nat}
    (h : gqlParseValue p len = some (value, rest)) : rest.length ≤ p.length := by
  rw [gqlParseValue] at h
  obtain ⟨q, hq, heq⟩ := Option.map_eq_some_iff.mp h
  obtain ⟨-, rfl⟩ := Prod.ext_iff.mp heq
  have hskip := length_gqlSkipWhitespace_le p
  have hle : q.length ≤ (gqlSkipWhitespace p).length := by
    cases hp : gqlSkipWhitespace p with
    | nil => rw [hp, skipValue] at hq; exact absurd hq (by simp)
    | cons b r =>
        have hdrop := length_dropWhile_le isNameByte r
        rw [hp, skipValue] at hq
        split at hq
        · split at hq
          · rw [← Option.some.inj hq, List.length_cons]
            omega
          · exact absurd hq (by simp)
        · split at hq
          · rw [← Option.some.inj hq]
            exact length_dropWhile_le _ _
          · split at hq
            · rw [← Option.some.inj hq]
              exact length_skipNumber_le _
            · exact absurd hq (by simp)
  have hrest := length_gqlSkipWhitespace_le q
  dsimp only
  omega

/-! ## Queries -/

def parseArgumentValue (p : CStr) : Option (CStr × CStr) :=
  if p.head? = some 34 then
    some ((p.tail.takeWhile (· ≠ 34)).take 255, skipByte 34 (p.tail.dropWhile (· ≠ 34)))
  else gqlParseValue p 256

def parseArgument (p : CStr) : Option (GqlArgument × CStr) :=
  (gqlParseName (gqlSkipWhitespace p) gqlMaxNameLen).bind fun (name, p) =>
    let p := gqlSkipWhitespace p
    if p.head? = some 58 then
      (parseArgumentValue (gqlSkipWhitespace p.tail)).map fun (value, p) =>
        (⟨name, [], false, value⟩, skipByte 44 (gqlSkipWhitespace p))
    else none

theorem length_parseArgument_lt {p rest : CStr} {arg : GqlArgument}
    (h : parseArgument p = some (arg, rest)) : rest.length < p.length := by
  rw [parseArgument] at h
  obtain ⟨⟨name, q⟩, hname, hvalue⟩ := Option.bind_eq_some_iff.mp h
  have hskip := length_gqlSkipWhitespace_le p
  have hlt := length_gqlParseName_lt hname
  have hblank := length_gqlSkipWhitespace_le q
  dsimp only at hvalue
  split at hvalue
  · next hcolon =>
      obtain ⟨⟨value, r⟩, hr, heq⟩ := Option.map_eq_some_iff.mp hvalue
      obtain ⟨-, rfl⟩ := Prod.ext_iff.mp heq
      have hstart := length_gqlSkipWhitespace_le (gqlSkipWhitespace q).tail
      rw [List.length_tail] at hstart
      have hle : r.length ≤ (gqlSkipWhitespace (gqlSkipWhitespace q).tail).length := by
        rw [parseArgumentValue] at hr
        split at hr
        · obtain ⟨-, hr⟩ := Prod.mk.inj (Option.some.inj hr)
          have htail := length_dropWhile_le (· ≠ 34)
            (gqlSkipWhitespace (gqlSkipWhitespace q).tail).tail
          have hbyte := length_skipByte_le 34
            ((gqlSkipWhitespace (gqlSkipWhitespace q).tail).tail.dropWhile (· ≠ 34))
          rw [List.length_tail] at htail
          rw [← hr]
          omega
        · exact length_gqlParseValue_le hr
      have hcomma := length_skipByte_le 44 (gqlSkipWhitespace r)
      have hrest := length_gqlSkipWhitespace_le r
      dsimp only
      omega
  · exact absurd hvalue (by simp)

/-- The arguments up to the closing parenthesis, of which the first `gqlMaxArgs` are kept. -/
def parseArguments (p : CStr) (args : List GqlArgument) : List GqlArgument × Option CStr :=
  if p = [] ∨ p.head? = some 41 then (args, some p.tail)
  else
    match _h : parseArgument p with
    | none => (args, none)
    | some (arg, rest) =>
        parseArguments rest (if args.length < gqlMaxArgs then args ++ [arg] else args)
termination_by p.length
decreasing_by exact length_parseArgument_lt (by assumption)

theorem length_parseArguments_le {p rest : CStr} {args args' : List GqlArgument}
    (h : parseArguments p args = (args', some rest)) : rest.length ≤ p.length := by
  induction p, args using parseArguments.induct with
  | case1 p args hend =>
      rw [parseArguments, if_pos hend] at h
      rw [← Option.some.inj (Prod.mk.inj h).2, List.length_tail]
      exact Nat.sub_le _ _
  | case2 p args hend hnone =>
      rw [parseArguments, if_neg hend] at h
      split at h
      · exact absurd (Prod.mk.inj h).2 (by simp)
      · next hsome => rw [hnone] at hsome; exact absurd hsome (by simp)
  | case3 p args hend arg q hsome ih =>
      rw [parseArguments, if_neg hend] at h
      split at h
      · exact absurd (Prod.mk.inj h).2 (by simp)
      · next arg' q' hsome' =>
          obtain ⟨rfl, rfl⟩ := Prod.mk.inj (Option.some.inj (hsome.symm.trans hsome'))
          exact (ih h).trans (length_parseArgument_lt hsome).le

def parseFieldArguments (p : CStr) (args : List GqlArgument) : List GqlArgument × Option CStr :=
  if p.head? = some 40 then parseArguments p.tail args else (args, some p)

/-- What follows the braces, `depth` of which are open. -/
def skipBraces : Nat → CStr → CStr
  | 0, p => p
  | _ + 1, [] => []
  | depth + 1, b :: p =>
      if b = 123 then skipBraces (depth + 2) p
      else if b = 125 then skipBraces depth p
      else skipBraces (depth + 1) p

/-- The selection set of a field is skipped; a field without one is a leaf. -/
def parseInner (p : CStr) : Bool × CStr :=
  if p.head? = some 123 then (false, skipBraces 1 p.tail) else (true, p)

def parseSelection (p : CStr) (parsed : GqlParsedQuery) : GqlParsedQuery × Option CStr :=
  match gqlParseName p gqlMaxNameLen with
  | none => (parsed, none)
  | some (name, p) =>
      match parseFieldArguments p parsed.args with
      | (args, none) =>
          ({ parsed with selections := parsed.selections ++ [⟨name, true⟩], args }, none)
      | (args, some p) =>
          let inner := parseInner (gqlSkipWhitespace p)
          ({ parsed with selections := parsed.selections ++ [⟨name, inner.1⟩], args },
            some (skipByte 44 inner.2))

theorem length_skipBraces_le (depth : Nat) (p : CStr) : (skipBraces depth p).length ≤ p.length := by
  induction depth, p using skipBraces.induct with
  | case1 p => rw [skipBraces]
  | case2 depth => rw [skipBraces]
  | case3 depth p ih => rw [skipBraces, if_pos rfl]; exact ih.trans (Nat.le_succ _)
  | case4 depth p hopen ih =>
      rw [skipBraces, if_neg hopen, if_pos rfl]
      exact ih.trans (Nat.le_succ _)
  | case5 depth b p hopen hclose ih =>
      rw [skipBraces, if_neg hopen, if_neg hclose]
      exact ih.trans (Nat.le_succ _)

theorem length_parseInner_le (p : CStr) : (parseInner p).2.length ≤ p.length := by
  have hbraces := length_skipBraces_le 1 p.tail
  rw [List.length_tail] at hbraces
  rw [parseInner]
  split
  · dsimp only
    omega
  · exact le_rfl

theorem length_parseSelection_lt {p rest : CStr} {parsed parsed' : GqlParsedQuery}
    (h : parseSelection p parsed = (parsed', some rest)) : rest.length < p.length := by
  rw [parseSelection] at h
  split at h
  · exact absurd (Prod.mk.inj h).2 (by simp)
  · next name q hname =>
      have hlt := length_gqlParseName_lt hname
      split at h
      · exact absurd (Prod.mk.inj h).2 (by simp)
      · next args r hargs =>
          have hr : r.length ≤ q.length := by
            rw [parseFieldArguments] at hargs
            split at hargs
            · have hle := length_parseArguments_le hargs
              rw [List.length_tail] at hle
              omega
            · rw [Option.some.inj (Prod.mk.inj hargs).2]
          have hskip := length_gqlSkipWhitespace_le r
          have hinner := length_parseInner_le (gqlSkipWhitespace r)
          have hcomma := length_skipByte_le 44 (parseInner (gqlSkipWhitespace r)).2
          rw [← Option.some.inj (Prod.mk.inj h).2]
          omega

/-- The loop of `gql_parse_selection_set`, behind the opening brace. -/
def parseSelections (p : CStr) (parsed : GqlParsedQuery) : Bool × GqlParsedQuery :=
  if p = [] ∨ (gqlSkipWhitespace p).head? = some 125 then (true, parsed)
  else if gqlMaxSelection ≤ parsed.selections.length then (false, parsed)
  else
    match _h : parseSelection p parsed with
    | (parsed, none) => (false, parsed)
    | (parsed, some rest) => parseSelections rest parsed
termination_by p.length
decreasing_by exact length_parseSelection_lt (by assumption)

/-- What follows the operation: a selection set, or a field with one. -/
def parseBody (p : CStr) (parsed : GqlParsedQuery) : Bool × GqlParsedQuery :=
  if p.head? = some 123 then parseSelections p.tail parsed
  else
    match gqlParseName p gqlMaxNameLen with
    | none => (false, parsed)
    | some (targetField, p) =>
        match parseFieldArguments (gqlSkipWhitespace p) parsed.args with
        | (args, none) => (false, { parsed with targetField, args })
        | (args, some p) =>
            let p := gqlSkipWhitespace p
            if p.head? = some 123 then parseSelections p.tail { parsed with targetField, args }
            else (false, { parsed with targetField, args })

end MiniBackend.Api.Graphql
