import MiniBackend.Lib.CArray
import MiniBackend.Lib.TextBuffer
import MiniBackend.Api.GraphqlEngine

/-!
# `graphql_engine.c`: the schema

The calls that build a schema, its printer and the parser of the definition language.
-/

namespace MiniBackend.Api.Graphql

open MiniBackend.Lib MiniBackend.Lib.CArray MiniBackend.Lib.CString MiniBackend.Lib.Scanner

def gqlMaxTypeLen : Nat := 64
def gqlMaxFields : Nat := 16
def gqlMaxTypes : Nat := 32

inductive GqlScalar
  | string
  | int
  | float
  | boolean
  | id
  | object
  | list
  | nonNull
  | enum
  | inputObject
  | scalar
deriving DecidableEq

structure GqlField where
  name : CStr
  scalar : GqlScalar
  typeName : CStr
  isList : Bool
  isNonNull : Bool
  args : List GqlArgument
deriving DecidableEq

structure GqlType where
  name : CStr
  fields : List GqlField
  isEnum : Bool
  enumValues : List CStr
deriving DecidableEq

structure GqlSchema where
  types : List GqlType
  queryType : CStr
deriving DecidableEq

/-! ## Schemas -/

def gqlSchemaInit : GqlSchema := ⟨[], []⟩

def gqlSchemaAddType (s : GqlSchema) (name : CStr) : GqlSchema :=
  if gqlMaxTypes ≤ s.types.length then s
  else { s with types := s.types ++ [⟨strncpy name (gqlMaxNameLen - 1), [], false, []⟩] }

/-- The first type with the name is the one that `gql_find_type_schema` finds. -/
def updateType (s : GqlSchema) (name : CStr) (f : GqlType → GqlType) : GqlSchema :=
  { s with types := updateFirst (fun t => t.name == name) f s.types }

def gqlSchemaAddField (s : GqlSchema) (typeName fieldName : CStr) (kind : GqlScalar) (type : CStr)
    (isList isNonNull : Bool) : GqlSchema :=
  updateType s typeName fun t =>
    if gqlMaxFields ≤ t.fields.length then t
    else
      { t with fields := t.fields ++ [{ name := strncpy fieldName (gqlMaxNameLen - 1)
                                        scalar := kind
                                        typeName := strncpy type (gqlMaxTypeLen - 1)
                                        isList := isList
                                        isNonNull := isNonNull
                                        args := [] }] }

def addArg (f : GqlField) (argName argType : CStr) (required : Bool) : GqlField :=
  if gqlMaxArgs ≤ f.args.length then f
  else
    { f with args := f.args ++
        [⟨strncpy argName (gqlMaxNameLen - 1), strncpy argType (gqlMaxTypeLen - 1), required, []⟩] }

def updateField (t : GqlType) (name : CStr) (f : GqlField → GqlField) : GqlType :=
  { t with fields := updateFirst (fun g => g.name == name) f t.fields }

def gqlSchemaAddFieldArg (s : GqlSchema) (typeName fieldName argName argType : CStr)
    (required : Bool) : GqlSchema :=
  updateType s typeName fun t => updateField t fieldName fun f => addArg f argName argType required

def gqlSchemaAddEnumValue (s : GqlSchema) (typeName value : CStr) : GqlSchema :=
  updateType s typeName fun t =>
    if gqlMaxFields ≤ t.enumValues.length then t
    else
      { t with
        isEnum := true
        enumValues := t.enumValues ++ [strncpy value (gqlMaxNameLen - 1)] }

/-! ## Printing a schema -/

def printArgs (len : Nat) : Bool → List GqlArgument → TextBuffer → TextBuffer
  | _, [], out => out
  | first, arg :: args, out =>
      printArgs len false args (out.print len ((if first then [] else lit ", ") ++ arg.name ++
        lit ": " ++ arg.type ++ if arg.isRequired then lit "!" else []))

def printField (len : Nat) (out : TextBuffer) (f : GqlField) : TextBuffer :=
  let out := out.print len (lit "  " ++ f.name)
  let out :=
    if f.args = [] then out
    else (printArgs len true f.args (out.print len (lit "("))).print len (lit ")")
  out.print len (lit ": " ++ f.typeName ++ (if f.isList then lit "[]" else []) ++
    (if f.isNonNull then lit "!" else []) ++ lit "\n")

def printType (len : Nat) (out : TextBuffer) (t : GqlType) : TextBuffer :=
  if t.isEnum then
    let out := out.print len (lit "enum " ++ t.name ++ lit " \x7b\n")
    let out := t.enumValues.foldl
      (fun out value => out.print len (lit "  " ++ value ++ lit "\n")) out
    out.print len (lit "\x7d\n\n")
  else
    let out := out.print len (lit "type " ++ t.name ++ lit " \x7b\n")
    let out := t.fields.foldl (printField len) out
    out.print len (lit "\x7d\n\n")

/-- The text in the buffer `buf`, which is kept if nothing is printed. -/
def gqlSdlFromSchema (s : GqlSchema) (buf : CStr) (len : Nat) : CStr :=
  let out := s.types.foldl (printType len) ⟨0, buf⟩
  let out :=
    if s.queryType = [] then out
    else out.print len (lit "schema \x7b\n  query: " ++ s.queryType ++ lit "\n\x7d\n")
  out.text

/-! ## Parsing a schema -/

/-- The name, type and `!` of an argument with the comma behind it; on a failure there is only
the place where it happened. -/
def sdlArgument (p : CStr) : CStr × Option (CStr × CStr × Bool) :=
  let p := gqlSkipWhitespace p
  match gqlParseName p gqlMaxNameLen with
  | none => (p, none)
  | some (name, p) =>
      let p := gqlSkipWhitespace p
      if p.head? = some 58 then
        let p := gqlSkipWhitespace p.tail
        match gqlParseName p gqlMaxNameLen with
        | none => (p, none)
        | some (type, p) =>
            (skipByte 44 (skipByte 33 p), some (name, type, p.head? = some 33))
      else (p, none)

theorem length_sdlArgument_lt {p rest : CStr} {arg : CStr × CStr × Bool}
    (h : sdlArgument p = (rest, some arg)) : rest.length < p.length := by
  have hskip := length_gqlSkipWhitespace_le p
  rw [sdlArgument] at h
  dsimp only at h
  split at h
  · exact absurd (Prod.mk.inj h).2 (by simp)
  · next name q hname =>
      have hq := length_gqlParseName_lt hname
      have hblank := length_gqlSkipWhitespace_le q
      split at h
      · have htail := length_gqlSkipWhitespace_le (gqlSkipWhitespace q).tail
        rw [List.length_tail] at htail
        split at h
        · exact absurd (Prod.mk.inj h).2 (by simp)
        · next type r htype =>
            have hr := length_gqlParseName_lt htype
            have hbang := length_skipByte_le 33 r
            have hcomma := length_skipByte_le 44 (skipByte 33 r)
            rw [← (Prod.mk.inj h).1]
            omega
      · exact absurd (Prod.mk.inj h).2 (by simp)

/-- The arguments of a field, which are added to the field of that name. -/
def sdlArguments (typeName fieldName : CStr) (p : CStr) (s : GqlSchema) : GqlSchema × CStr :=
  if p = [] ∨ p.head? = some 41 then (s, p.tail)
  else
    match _h : sdlArgument p with
    | (p, none) => (s, skipByte 41 p)
    | (rest, some (name, type, required)) =>
        sdlArguments typeName fieldName rest
          (gqlSchemaAddFieldArg s typeName fieldName name type required)
termination_by p.length
decreasing_by exact length_sdlArgument_lt (by assumption)

def scalarOf (type : CStr) : GqlScalar :=
  if type = lit "Int" then .int
  else if type = lit "Float" then .float
  else if type = lit "Boolean" then .boolean
  else if type = lit "ID" then .id
  else .string

/-- The type of a field, from behind the colon: where it ends, its name, list and non-null flag. -/
def sdlFieldType (p : CStr) : CStr × Option (CStr × Bool × Bool) :=
  let p := gqlSkipWhitespace p
  let isList := p.head? = some 91
  match gqlParseName (skipByte 91 p) gqlMaxNameLen with
  | none => (gqlSkipWhitespace (skipByte 91 p), none)
  | some (type, p) =>
      let p := if isList then skipByte 93 (gqlSkipWhitespace p) else p
      (skipByte 33 p, some (type, isList, p.head? = some 33))

/-- One field; `false` where the loop over the fields ends. -/
def sdlField (typeName : CStr) (p : CStr) (s : GqlSchema) : GqlSchema × CStr × Bool :=
  let p := gqlSkipWhitespace p
  match gqlParseName p gqlMaxNameLen with
  | none => (s, p, false)
  | some (field, p) =>
      let p := gqlSkipWhitespace p
      let (s, p) := if p.head? = some 40 then sdlArguments typeName field p.tail s else (s, p)
      let p := gqlSkipWhitespace p
      if p.head? = some 58 then
        match sdlFieldType p.tail with
        | (p, none) => (s, p, false)
        | (p, some (type, isList, isNonNull)) =>
            (gqlSchemaAddField s typeName field (scalarOf type) type isList isNonNull, p, true)
      else (s, p, true)

theorem length_sdlArgument_none {p rest : CStr} (h : sdlArgument p = (rest, none)) :
    rest.length ≤ p.length := by
  have hskip := length_gqlSkipWhitespace_le p
  rw [sdlArgument] at h
  dsimp only at h
  split at h
  · rw [← (Prod.mk.inj h).1]
    exact hskip
  · next name q hname =>
      have hq := length_gqlParseName_lt hname
      have hblank := length_gqlSkipWhitespace_le q
      split at h
      · have htail := length_gqlSkipWhitespace_le (gqlSkipWhitespace q).tail
        rw [List.length_tail] at htail
        split at h
        · rw [← (Prod.mk.inj h).1]
          omega
        · exact absurd (Prod.mk.inj h).2 (by simp)
      · rw [← (Prod.mk.inj h).1]
        omega

theorem length_sdlArguments_le (typeName fieldName p : CStr) (s : GqlSchema) :
    (sdlArguments typeName fieldName p s).2.length ≤ p.length := by
  induction p, s using sdlArguments.induct typeName fieldName with
  | case1 p s hend =>
      rw [sdlArguments, if_pos hend, List.length_tail]
      exact Nat.sub_le _ _
  | case2 p s hend rest hnone =>
      have hle := length_sdlArgument_none hnone
      have hparen := length_skipByte_le 41 rest
      rw [sdlArguments, if_neg hend]
      split
      · next rest' hnone' =>
          obtain rfl := (Prod.mk.inj (hnone.symm.trans hnone')).1
          exact hparen.trans hle
      · next hsome => rw [hnone] at hsome; exact absurd (Prod.mk.inj hsome).2 (by simp)
  | case3 p s hend rest name type required hsome ih =>
      have hlt := length_sdlArgument_lt hsome
      rw [sdlArguments, if_neg hend]
      split
      · next hnone => rw [hsome] at hnone; exact absurd (Prod.mk.inj hnone).2 (by simp)
      · next rest' name' type' required' hsome' =>
          obtain ⟨rfl, harg⟩ := Prod.mk.inj (hsome.symm.trans hsome')
          obtain ⟨rfl, rfl, rfl⟩ : name = name' ∧ type = type' ∧ required = required' := by
            simpa using harg
          exact ih.trans hlt.le

theorem length_sdlFieldType_le (p : CStr) : (sdlFieldType p).1.length ≤ p.length := by
  have hskip := length_gqlSkipWhitespace_le p
  have hbracket := length_skipByte_le 91 (gqlSkipWhitespace p)
  rw [sdlFieldType]
  dsimp only
  split
  · exact (length_gqlSkipWhitespace_le _).trans (hbracket.trans hskip)
  · next type q htype =>
      have hq := length_gqlParseName_lt htype
      have hclose := length_skipByte_le 93 (gqlSkipWhitespace q)
      have hblank := length_gqlSkipWhitespace_le q
      have hbang := length_skipByte_le 33
        (if (gqlSkipWhitespace p).head? = some 91 then skipByte 93 (gqlSkipWhitespace q) else q)
      dsimp only at hbang ⊢
      split at hbang <;> simp_all <;> omega

theorem length_sdlField {typeName p rest : CStr} {s s' : GqlSchema} {more : Bool}
    (h : sdlField typeName p s = (s', rest, more)) :
    rest.length ≤ p.length ∧ (more = true → rest.length < p.length) := by
  have hskip := length_gqlSkipWhitespace_le p
  rw [sdlField] at h
  dsimp only at h
  split at h
  · obtain ⟨-, hrest⟩ := Prod.mk.inj h
    obtain ⟨rfl, rfl⟩ := Prod.mk.inj hrest
    exact ⟨hskip, fun hmore => absurd hmore (by simp)⟩
  · next field q hfield =>
      have hq := length_gqlParseName_lt hfield
      have hblank := length_gqlSkipWhitespace_le q
      generalize hargs : (if (gqlSkipWhitespace q).head? = some 40 then
        sdlArguments typeName field (gqlSkipWhitespace q).tail s
      else (s, gqlSkipWhitespace q)) = r at h
      have hr : r.2.length ≤ q.length := by
        rw [← hargs]
        split
        · have hle := length_sdlArguments_le typeName field (gqlSkipWhitespace q).tail s
          rw [List.length_tail] at hle
          omega
        · exact hblank
      have hlast := length_gqlSkipWhitespace_le r.2
      suffices hlt : rest.length < p.length from ⟨hlt.le, fun _ => hlt⟩
      split at h
      · have htype := length_sdlFieldType_le (gqlSkipWhitespace r.2).tail
        rw [List.length_tail] at htype
        split at h
        · next hfound =>
            rw [hfound] at htype
            rw [← (Prod.mk.inj (Prod.mk.inj h).2).1]
            dsimp only at htype
            omega
        · next hfound =>
            rw [hfound] at htype
            rw [← (Prod.mk.inj (Prod.mk.inj h).2).1]
            dsimp only at htype
            omega
      · rw [← (Prod.mk.inj (Prod.mk.inj h).2).1]
        omega

def sdlFields (typeName : CStr) (p : CStr) (s : GqlSchema) : GqlSchema × CStr :=
  if p = [] ∨ p.head? = some 125 then (s, p.tail)
  else
    match _h : sdlField typeName p s with
    | (s, rest, true) => sdlFields typeName rest s
    | (s, p, false) => (s, skipByte 125 p)
termination_by p.length
decreasing_by exact (length_sdlField (by assumption)).2 rfl

/-- The values of an enum, which are added to the type of that name. -/
def sdlEnumValues (typeName : CStr) (p : CStr) (s : GqlSchema) : GqlSchema × CStr :=
  if p = [] ∨ p.head? = some 125 then (s, p.tail)
  else
    match _h : gqlParseName p gqlMaxNameLen with
    | none => (s, skipByte 125 (gqlSkipWhitespace p))
    | some (value, rest) =>
        sdlEnumValues typeName rest (updateType s typeName fun t =>
          if gqlMaxFields ≤ t.enumValues.length then t
          else { t with enumValues := t.enumValues ++ [strncpy value (gqlMaxNameLen - 1)] })
termination_by p.length
decreasing_by exact length_gqlParseName_lt (by assumption)

def afterKeyword (keyword p : CStr) : Option CStr :=
  if keyword <+: p ∧ ¬(p.drop 4).head?.any isAlnum then some (p.drop 4) else none

/-- A definition of a type, from behind the keyword. -/
def sdlType (p : CStr) (s : GqlSchema) : GqlSchema × Option CStr :=
  match gqlParseName p gqlMaxNameLen with
  | none => (s, none)
  | some (name, p) =>
      let s := gqlSchemaAddType s name
      let p := gqlSkipWhitespace p
      if p.head? = some 123 then
        let r := sdlFields name p.tail s
        (r.1, some r.2)
      else (s, some p)

def hasType (s : GqlSchema) (name : CStr) : Bool := s.types.any fun t => t.name == name

/-- A definition of an enum, from behind the keyword. -/
def sdlEnum (p : CStr) (s : GqlSchema) : GqlSchema × Option CStr :=
  match gqlParseName p gqlMaxNameLen with
  | none => (s, none)
  | some (name, p) =>
      let s := if hasType s name then s else gqlSchemaAddType s name
      let s := updateType s name fun t => { t with isEnum := true }
      let p := gqlSkipWhitespace p
      if p.head? = some 123 then
        let r := sdlEnumValues name p.tail s
        (r.1, some r.2)
      else (s, some p)

/-- One turn of the loop of `gql_parse_schema_sdl`, at a byte that is not blank. -/
def sdlDefinition (p : CStr) (s : GqlSchema) : GqlSchema × Option CStr :=
  if p.head? = some 35 then (s, some (p.dropWhile (· ≠ 10)))
  else
    match afterKeyword (lit "type") p with
    | some p => sdlType p s
    | none =>
        match afterKeyword (lit "enum") p with
        | some p => sdlEnum p s
        | none => (s, some p.tail)

theorem length_sdlFields_le (typeName p : CStr) (s : GqlSchema) :
    (sdlFields typeName p s).2.length ≤ p.length := by
  induction p, s using sdlFields.induct typeName with
  | case1 p s hend =>
      rw [sdlFields, if_pos hend, List.length_tail]
      exact Nat.sub_le _ _
  | case2 p s hend s' rest hmore ih =>
      rw [sdlFields, if_neg hend]
      split
      · next s'' rest' hmore' =>
          obtain ⟨rfl, hrest⟩ := Prod.mk.inj (hmore.symm.trans hmore')
          obtain ⟨rfl, -⟩ := Prod.mk.inj hrest
          exact ih.trans (length_sdlField hmore).1
      · next hdone => rw [hmore] at hdone; exact absurd hdone (by simp)
  | case3 p s hend s' rest hdone =>
      rw [sdlFields, if_neg hend]
      split
      · next hmore => rw [hdone] at hmore; exact absurd hmore (by simp)
      · next s'' rest' hdone' =>
          obtain ⟨rfl, hrest⟩ := Prod.mk.inj (hdone.symm.trans hdone')
          obtain ⟨rfl, -⟩ := Prod.mk.inj hrest
          exact (length_skipByte_le 125 _).trans (length_sdlField hdone).1

theorem length_sdlEnumValues_le (typeName p : CStr) (s : GqlSchema) :
    (sdlEnumValues typeName p s).2.length ≤ p.length := by
  induction p, s using sdlEnumValues.induct typeName with
  | case1 p s hend =>
      rw [sdlEnumValues, if_pos hend, List.length_tail]
      exact Nat.sub_le _ _
  | case2 p s hend hnone =>
      rw [sdlEnumValues, if_neg hend]
      split
      · exact (length_skipByte_le 125 _).trans (length_gqlSkipWhitespace_le p)
      · next hsome => rw [hnone] at hsome; exact absurd hsome (by simp)
  | case3 p s hend value rest hsome ih =>
      rw [sdlEnumValues, if_neg hend]
      split
      · next hnone => rw [hsome] at hnone; exact absurd hnone (by simp)
      · next value' rest' hsome' =>
          obtain ⟨rfl, rfl⟩ := Prod.mk.inj (Option.some.inj (hsome.symm.trans hsome'))
          exact ih.trans (length_gqlParseName_lt hsome).le

theorem length_afterKeyword_lt {keyword p rest : CStr} (hkeyword : keyword ≠ [])
    (h : afterKeyword keyword p = some rest) : rest.length < p.length := by
  rw [afterKeyword] at h
  split at h
  · next hbegin =>
      have hle := hbegin.1.length_le
      have hpos := List.length_pos_iff.mpr hkeyword
      rw [← Option.some.inj h, List.length_drop]
      omega
  · exact absurd h (by simp)

theorem length_sdlType_le {p rest : CStr} {s s' : GqlSchema} (h : sdlType p s = (s', some rest)) :
    rest.length ≤ p.length := by
  rw [sdlType] at h
  split at h
  · exact absurd (Prod.mk.inj h).2 (by simp)
  · next name q hname =>
      have hq := length_gqlParseName_lt hname
      have hblank := length_gqlSkipWhitespace_le q
      dsimp only at h
      split at h
      · have hle := length_sdlFields_le name (gqlSkipWhitespace q).tail (gqlSchemaAddType s name)
        rw [List.length_tail] at hle
        rw [← Option.some.inj (Prod.mk.inj h).2]
        omega
      · rw [← Option.some.inj (Prod.mk.inj h).2]
        omega

theorem length_sdlEnum_le {p rest : CStr} {s s' : GqlSchema} (h : sdlEnum p s = (s', some rest)) :
    rest.length ≤ p.length := by
  rw [sdlEnum] at h
  split at h
  · exact absurd (Prod.mk.inj h).2 (by simp)
  · next name q hname =>
      have hq := length_gqlParseName_lt hname
      have hblank := length_gqlSkipWhitespace_le q
      dsimp only at h
      split at h
      · have hle := length_sdlEnumValues_le name (gqlSkipWhitespace q).tail
          (updateType (if hasType s name then s else gqlSchemaAddType s name) name
            fun t => { t with isEnum := true })
        rw [List.length_tail] at hle
        rw [← Option.some.inj (Prod.mk.inj h).2]
        omega
      · rw [← Option.some.inj (Prod.mk.inj h).2]
        omega

theorem length_sdlDefinition_lt {p rest : CStr} {s s' : GqlSchema} (hne : p ≠ [])
    (h : sdlDefinition p s = (s', some rest)) : rest.length < p.length := by
  obtain ⟨b, q, rfl⟩ := List.exists_cons_of_ne_nil hne
  rw [sdlDefinition] at h
  split at h
  · next hhash =>
      have hb : b = 35 := Option.some.inj hhash
      have hle := length_dropWhile_le (· ≠ 10) q
      rw [hb, List.dropWhile_cons_of_pos (by decide)] at h
      rw [← Option.some.inj (Prod.mk.inj h).2, List.length_cons]
      omega
  · split at h
    · next r hr => exact (length_sdlType_le h).trans_lt (length_afterKeyword_lt (by decide) hr)
    · split at h
      · next r hr => exact (length_sdlEnum_le h).trans_lt (length_afterKeyword_lt (by decide) hr)
      · rw [← Option.some.inj (Prod.mk.inj h).2]
        exact Nat.lt_succ_self _

def sdlLoop (p : CStr) (s : GqlSchema) : GqlSchema :=
  if _hne : gqlSkipWhitespace p = [] then s
  else
    match _h : sdlDefinition (gqlSkipWhitespace p) s with
    | (s, none) => s
    | (s, some rest) => sdlLoop rest s
termination_by p.length
decreasing_by
  have hskip := length_gqlSkipWhitespace_le p
  have hlt := length_sdlDefinition_lt (by assumption) (by assumption)
  omega

def gqlParseSchemaSdl (s : GqlSchema) (sdl : CStr) : GqlSchema := sdlLoop sdl s

end MiniBackend.Api.Graphql
