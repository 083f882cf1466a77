import Mathlib.Data.List.DropRight
import MiniBackend.Api.GraphqlEngine
import MiniBackend.Api.GraphqlSchema

/-!
# Names and gaps

What `gql_skip_whitespace` and `gql_parse_name` do on a gap and on a name.
-/

namespace MiniBackend.Api.Proofs.SchemaParsing

section GqlNames

open MiniBackend.Lib.CString MiniBackend.Lib.Scanner MiniBackend.Api.Graphql

theorem skip_blank {blank p : CStr} (hblank : Blank blank) (hp : Stops isSpace p) :
    gqlSkipWhitespace (blank ++ p) = p := dropWhile_append hblank hp

theorem skip_of_stops {p : CStr} (hp : Stops isSpace p) : gqlSkipWhitespace p = p :=
  dropWhile_of_stops hp

theorem gqlParseName_of_stops {p : CStr} {len : Nat}
    (hp : Stops isNameStart (gqlSkipWhitespace p)) : gqlParseName p len = none := by
  rw [gqlParseName]
  cases hskip : gqlSkipWhitespace p with
  | nil => rfl
  | cons b q =>
      rw [hskip] at hp
      simp [hp b rfl]

theorem skip_skip (p : CStr) :
    gqlSkipWhitespace (gqlSkipWhitespace p) = gqlSkipWhitespace p := List.dropWhile_idempotent _ _

theorem gqlParseName_skip (p : CStr) (len : Nat) :
    gqlParseName (gqlSkipWhitespace p) len = gqlParseName p len := by
  rw [gqlParseName, gqlParseName, skip_skip]

theorem gqlParseName_append {name rest : CStr} {len : Nat} (hname : IsName name)
    (hrest : Stops isNameByte rest) :
    gqlParseName (name ++ rest) len = some (name.take (len - 1), gqlSkipWhitespace rest) := by
  obtain ⟨b, tail, rfl, hstart⟩ := hname.exists_cons
  obtain ⟨hspace, -⟩ := not_special_of_isNameByte (isNameByte_of_isNameStart hstart)
  have hskip : gqlSkipWhitespace (b :: tail ++ rest) = b :: tail ++ rest :=
    skip_of_stops (stops_cons hspace _)
  rw [gqlParseName, hskip, takeWhile_append hname.bytes hrest, dropWhile_append hname.bytes hrest]
  simp [hstart]

theorem gqlParseName_blank {blank name rest : CStr} {len : Nat} (hblank : Blank blank)
    (hname : IsName name) (hrest : Stops isNameByte rest) :
    gqlParseName (blank ++ (name ++ rest)) len =
      some (name.take (len - 1), gqlSkipWhitespace rest) := by
  rw [← gqlParseName_skip, skip_blank hblank (hname.stops_isSpace rest),
    gqlParseName_append hname hrest]

end GqlNames

/-!
# The text of a schema

What `gql_sdl_from_schema` prints, as the texts of the types one behind the other.
-/

section SchemaText

open MiniBackend.Lib MiniBackend.Lib.CString MiniBackend.Api.Graphql

def argBody (arg : GqlArgument) : CStr :=
  arg.name ++ lit ": " ++ arg.type ++ if arg.isRequired then lit "!" else []

def argsText : Bool → List GqlArgument → CStr
  | _, [] => []
  | first, arg :: args => (if first then [] else lit ", ") ++ argBody arg ++ argsText false args

def parenthesized (args : List GqlArgument) : CStr :=
  if args = [] then [] else lit "(" ++ argsText true args ++ lit ")"

def fieldText (f : GqlField) : CStr :=
  lit "  " ++ f.name ++ parenthesized f.args ++ lit ": " ++ f.typeName ++
    (if f.isList then lit "[]" else []) ++ (if f.isNonNull then lit "!" else []) ++ lit "\n"

def enumText (values : List CStr) : CStr :=
  values.flatMap fun value => lit "  " ++ value ++ lit "\n"

def typeText (t : GqlType) : CStr :=
  if t.isEnum then lit "enum " ++ t.name ++ lit " \x7b\n" ++ enumText t.enumValues ++ lit "\x7d\n\n"
  else lit "type " ++ t.name ++ lit " \x7b\n" ++ t.fields.flatMap fieldText ++ lit "\x7d\n\n"

def sdlText (s : GqlSchema) : CStr := s.types.flatMap typeText

section Print

variable {len : Nat} {out : TextBuffer} {text : CStr}

theorem shows_printArgs (h : out.Shows len text) (first : Bool) (args : List GqlArgument) :
    (printArgs len first args out).Shows len (text ++ argsText first args) := by
  induction args generalizing first out text with
  | nil => rwa [argsText, List.append_nil]
  | cons arg args ih =>
      have hrest := ih (h.print ((if first then [] else lit ", ") ++ arg.name ++ lit ": " ++
        arg.type ++ if arg.isRequired then lit "!" else [])) false
      rw [printArgs, argsText, argBody]
      simpa only [List.append_assoc] using hrest

theorem shows_printField (h : out.Shows len text) (f : GqlField) :
    (printField len out f).Shows len (text ++ fieldText f) := by
  have hname := h.print (lit "  " ++ f.name)
  have hargs : (if f.args = [] then out.print len (lit "  " ++ f.name)
      else (printArgs len true f.args ((out.print len (lit "  " ++ f.name)).print len
        (lit "("))).print len (lit ")")).Shows len (text ++ (lit "  " ++ f.name) ++
        parenthesized f.args) := by
    rw [parenthesized]
    split
    · rwa [List.append_nil]
    · have hlist := (shows_printArgs (hname.print (lit "(")) true f.args).print (lit ")")
      simpa only [List.append_assoc] using hlist
  have hall := hargs.print (lit ": " ++ f.typeName ++ (if f.isList then lit "[]" else []) ++
    (if f.isNonNull then lit "!" else []) ++ lit "\n")
  rw [printField, fieldText]
  simpa only [List.append_assoc] using hall

theorem shows_foldl {α : Type*} {f : TextBuffer → α → TextBuffer} {g : α → CStr}
    (hf : ∀ {out text} a, out.Shows len text → (f out a).Shows len (text ++ g a))
    (h : out.Shows len text) (l : List α) : (l.foldl f out).Shows len (text ++ l.flatMap g) := by
  induction l generalizing out text with
  | nil => rwa [List.flatMap_nil, List.append_nil]
  | cons a l ih =>
      have hrest := ih (hf a h)
      rwa [List.append_assoc] at hrest

theorem shows_printType (h : out.Shows len text) (t : GqlType) :
    (printType len out t).Shows len (text ++ typeText t) := by
  rw [printType, typeText]
  split
  · have hvalues := shows_foldl (g := fun value => lit "  " ++ value ++ lit "\n")
      (fun value h => h.print (lit "  " ++ value ++ lit "\n"))
      (h.print (lit "enum " ++ t.name ++ lit " \x7b\n")) t.enumValues
    have hall := hvalues.print (lit "\x7d\n\n")
    rw [enumText]
    simpa only [List.append_assoc] using hall
  · have hfields := shows_foldl (g := fieldText) (fun f h => shows_printField h f)
      (h.print (lit "type " ++ t.name ++ lit " \x7b\n")) t.fields
    have hall := hfields.print (lit "\x7d\n\n")
    simpa only [List.append_assoc] using hall

end Print

theorem typeText_ne_nil (t : GqlType) : typeText t ≠ [] := by
  rw [typeText]
  split
  · simp [lit]
  · simp [lit]

/-- A buffer with room for it holds the text, if there is one. -/
theorem gqlSdlFromSchema_eq {s : GqlSchema} (hquery : s.queryType = []) (buf : CStr) {len : Nat}
    (hlen : (sdlText s).length < len) :
    gqlSdlFromSchema s buf len = if s.types = [] then buf else sdlText s := by
  have hshows := shows_foldl (g := typeText) (fun t h => shows_printType h t)
    (TextBuffer.shows_start buf len) s.types
  rw [gqlSdlFromSchema]
  rw [if_pos hquery]
  by_cases hempty : s.types = []
  · rw [if_pos hempty, hempty]
    rfl
  · rw [if_neg hempty]
    apply hshows.text_eq
    · obtain ⟨t, types, hcons⟩ := List.exists_cons_of_ne_nil hempty
      rw [hcons, List.flatMap_cons]
      simp [typeText_ne_nil]
    · exact hlen

end SchemaText

/-!
# Reading the text of a schema

What `gql_parse_schema_sdl` makes of the text of a type.
-/

open MiniBackend.Lib MiniBackend.Lib.CArray MiniBackend.Lib.CString MiniBackend.Lib.Scanner
open MiniBackend.Api.Graphql

/-! ## Schemas with names -/

/-- A name that fits into a buffer of `size` bytes. -/
structure FitsName (name : CStr) (size : Nat) : Prop where
  isName : IsName name
  length_lt : name.length < size

instance (name : CStr) (size : Nat) : Decidable (FitsName name size) :=
  decidable_of_iff (IsName name ∧ name.length < size)
    ⟨fun h => ⟨h.1, h.2⟩, fun h => ⟨h.isName, h.length_lt⟩⟩

structure ArgOk (arg : GqlArgument) : Prop where
  name : FitsName arg.name gqlMaxNameLen
  type : FitsName arg.type gqlMaxTypeLen

structure FieldOk (f : GqlField) : Prop where
  name : FitsName f.name gqlMaxNameLen
  type : FitsName f.typeName gqlMaxTypeLen
  args : ∀ arg ∈ f.args, ArgOk arg

structure TypeOk (t : GqlType) : Prop where
  name : FitsName t.name gqlMaxNameLen
  fields : ∀ f ∈ t.fields, FieldOk f
  values : ∀ value ∈ t.enumValues, FitsName value gqlMaxNameLen
  fields_le : t.fields.length ≤ gqlMaxFields
  values_le : t.enumValues.length ≤ gqlMaxFields

def DistinctFields (t : GqlType) : Prop := (t.fields.map GqlField.name).Nodup

theorem FitsName.take_eq {name : CStr} {size : Nat} (h : FitsName name size) :
    name.take (size - 1) = name :=
  List.take_of_length_le (Nat.le_sub_one_of_lt h.length_lt)

theorem FitsName.mono {name : CStr} {size size' : Nat} (h : FitsName name size)
    (hle : size ≤ size') : FitsName name size' := ⟨h.isName, h.length_lt.trans_le hle⟩

def readField (f : GqlField) (isNonNull : Bool) : GqlField :=
  { name := f.name
    scalar := scalarOf f.typeName
    typeName := f.typeName
    isList := false
    isNonNull := isNonNull
    args := [] }

/-- What the parser makes of a field that is no list. -/
def stripField (f : GqlField) : GqlField := readField f f.isNonNull

/-- What the parser makes of a type whose fields have no lists. -/
def strip (t : GqlType) : GqlType :=
  if t.isEnum then ⟨t.name, [], true, t.enumValues⟩
  else ⟨t.name, t.fields.map stripField, false, []⟩

def NoLists (t : GqlType) : Prop := t.isEnum = false → ∀ f ∈ t.fields, f.isList = false

/-! ## Names in the text -/

theorem stops_colon (p : CStr) : Stops isNameByte (58 :: p) :=
  stops_cons (by decide) p

theorem skip_colon (p : CStr) : gqlSkipWhitespace (58 :: p) = 58 :: p :=
  skip_of_stops (stops_cons (by decide) p)

theorem gqlParseName_fits {blank name rest : CStr} {size : Nat} (hblank : Blank blank)
    (hname : FitsName name size) (hrest : Stops isNameByte rest) :
    gqlParseName (blank ++ (name ++ rest)) size = some (name, gqlSkipWhitespace rest) := by
  rw [gqlParseName_blank hblank hname.isName hrest, hname.take_eq]

theorem gqlParseName_colon {blank name : CStr} (hblank : Blank blank)
    (hname : FitsName name gqlMaxNameLen) (rest : CStr) :
    gqlParseName (blank ++ (name ++ 58 :: rest)) gqlMaxNameLen = some (name, 58 :: rest) := by
  rw [gqlParseName_fits hblank hname (stops_colon rest), skip_colon]

theorem blank_space : Blank [32] := by decide +kernel

theorem typeLen_le : gqlMaxTypeLen ≤ gqlMaxNameLen := by decide

theorem gqlParseName_type {type rest : CStr} (htype : FitsName type gqlMaxTypeLen)
    (hrest : Stops isNameByte rest) :
    gqlParseName (32 :: (type ++ rest)) gqlMaxNameLen = some (type, gqlSkipWhitespace rest) :=
  gqlParseName_fits blank_space (htype.mono typeLen_le) hrest

/-! ## Arguments -/

/-- What may follow the type of an argument: a comma or the closing parenthesis. -/
structure ArgEnd (tail : CStr) : Prop where
  name : Stops isNameByte tail
  space : Stops isSpace tail
  bang : tail.head? ≠ some 33

theorem argEnd_cons {b : UInt8} (p : CStr) (hb : b = 44 ∨ b = 41) : ArgEnd (b :: p) := by
  rcases hb with rfl | rfl
  · exact ⟨stops_cons (by decide) p, stops_cons (by decide) p, by simp⟩
  · exact ⟨stops_cons (by decide) p, stops_cons (by decide) p, by simp⟩

theorem sdlArgument_eq {blank tail : CStr} {arg : GqlArgument} (hblank : Blank blank)
    (harg : ArgOk arg) (htail : ArgEnd tail) :
    sdlArgument (blank ++ (argBody arg ++ tail)) =
      (skipByte 44 tail, some (arg.name, arg.type, arg.isRequired)) := by
  obtain ⟨name, type, isRequired, defaultValue⟩ := arg
  have hshape : blank ++ (argBody ⟨name, type, isRequired, defaultValue⟩ ++ tail) =
      blank ++ (name ++ 58 :: 32 :: (type ++ ((if isRequired then lit "!" else []) ++ tail))) := by
    simp [argBody, lit]
  have hname := gqlParseName_colon hblank harg.name
    (32 :: (type ++ ((if isRequired then lit "!" else []) ++ tail)))
  have hbang : Stops isNameByte ((if isRequired then lit "!" else []) ++ tail) := by
    cases isRequired with
    | false => exact htail.name
    | true => exact stops_cons (by decide) tail
  have hskip : gqlSkipWhitespace ((if isRequired then lit "!" else []) ++ tail) =
      (if isRequired then lit "!" else []) ++ tail := by
    cases isRequired with
    | false => exact skip_of_stops htail.space
    | true => exact skip_of_stops (stops_cons (by decide) tail)
  have htype := gqlParseName_type harg.type hbang
  rw [hskip] at htype
  rw [hshape, sdlArgument]
  dsimp only
  rw [gqlParseName_skip, hname]
  dsimp only
  rw [skip_colon, if_pos List.head?_cons, List.tail_cons, gqlParseName_skip, htype]
  cases isRequired with
  | false => simp [skipByte_of_ne htail.bang, htail.bang]
  | true => simp [lit, skipByte]

theorem argEnd_args (args : List GqlArgument) (rest : CStr) :
    ArgEnd (argsText false args ++ 41 :: rest) := by
  cases args with
  | nil => exact argEnd_cons rest (.inr rfl)
  | cons arg args => exact argEnd_cons _ (.inl rfl)

theorem sdlArguments_of_some {typeName fieldName p rest name type : CStr} {required : Bool}
    (hne : p ≠ []) (hparen : p.head? ≠ some 41)
    (h : sdlArgument p = (rest, some (name, type, required))) (s : GqlSchema) :
    sdlArguments typeName fieldName p s = sdlArguments typeName fieldName rest
      (gqlSchemaAddFieldArg s typeName fieldName name type required) := by
  rw [sdlArguments, if_neg (not_or.mpr ⟨hne, hparen⟩)]
  split
  · next hnone => rw [h] at hnone; exact absurd (Prod.mk.inj hnone).2 (by simp)
  · next hsome =>
      rw [h] at hsome
      obtain ⟨rfl, harg⟩ := Prod.mk.inj hsome
      obtain ⟨rfl, rfl, rfl⟩ : name = _ ∧ type = _ ∧ required = _ := by simpa using harg
      rfl

/-- The arguments of a field that is not there yet leave no trace. -/
theorem sdlArguments_eq {typeName fieldName : CStr} {s : GqlSchema}
    (hnone : ∀ name type required,
      gqlSchemaAddFieldArg s typeName fieldName name type required = s)
    {args : List GqlArgument} (hargs : ∀ arg ∈ args, ArgOk arg) (rest : CStr) :
    sdlArguments typeName fieldName (skipByte 44 (argsText false args ++ 41 :: rest)) s =
      (s, rest) := by
  induction args with
  | nil =>
      have hskip : skipByte 44 (argsText false [] ++ 41 :: rest) = 41 :: rest :=
        skipByte_of_ne (by simp [argsText])
      rw [hskip, sdlArguments, if_pos (.inr List.head?_cons), List.tail_cons]
  | cons arg args ih =>
      obtain ⟨harg, htail⟩ := List.forall_mem_cons.mp hargs
      have hskip : skipByte 44 (argsText false (arg :: args) ++ 41 :: rest) =
          [32] ++ (argBody arg ++ (argsText false args ++ 41 :: rest)) := by
        simp [argsText, lit, skipByte]
      have hread := sdlArgument_eq blank_space harg (argEnd_args args rest)
      rw [hskip, sdlArguments_of_some (by simp) (by simp) hread, hnone, ih htail]

theorem sdlArguments_parenthesized {typeName fieldName : CStr} {s : GqlSchema}
    (hnone : ∀ name type required,
      gqlSchemaAddFieldArg s typeName fieldName name type required = s)
    {args : List GqlArgument} (hne : args ≠ []) (hargs : ∀ arg ∈ args, ArgOk arg) (rest : CStr) :
    sdlArguments typeName fieldName (argsText true args ++ 41 :: rest) s = (s, rest) := by
  obtain ⟨arg, args, rfl⟩ := List.exists_cons_of_ne_nil hne
  obtain ⟨harg, htail⟩ := List.forall_mem_cons.mp hargs
  have hshape : argsText true (arg :: args) ++ 41 :: rest =
      argBody arg ++ (argsText false args ++ 41 :: rest) := by
    simp [argsText]
  have hblank : Blank [] := by simp [Blank]
  have hread := sdlArgument_eq hblank harg (argEnd_args args rest)
  rw [List.nil_append] at hread
  have hhead : (argBody arg ++ (argsText false args ++ 41 :: rest)).head? ≠ some 41 := by
    rw [argBody, List.append_assoc, List.append_assoc, List.append_assoc]
    exact harg.name.isName.head?_ne (by decide) _
  have hnonempty : argBody arg ++ (argsText false args ++ 41 :: rest) ≠ [] := by simp
  rw [hshape, sdlArguments_of_some hnonempty hhead hread, hnone, sdlArguments_eq hnone htail]

/-! ## Fields -/

/-- A definition to which the fields are added, behind the types that are done. -/
def working (done : List GqlType) (name : CStr) (fields : List GqlField) (query : CStr) :
    GqlSchema :=
  ⟨done ++ [⟨name, fields, false, []⟩], query⟩

section Working

variable {done : List GqlType} {name : CStr} {fields : List GqlField} {query : CStr}

theorem updateType_working (hfresh : name ∉ done.map GqlType.name) (f : GqlType → GqlType) :
    updateType (working done name fields query) name f =
      ⟨done ++ [f ⟨name, fields, false, []⟩], query⟩ := by
  have hdone : ∀ t ∈ done, (t.name == name) = false := by
    intro t ht
    rw [beq_eq_false_iff_ne]
    exact fun heq => hfresh (heq ▸ List.mem_map_of_mem ht)
  rw [updateType, working, updateFirst_append_of_forall_not f _ hdone, updateFirst,
    if_pos (beq_self_eq_true name)]

theorem addFieldArg_working (hfresh : name ∉ done.map GqlType.name) {field : CStr}
    (hfield : field ∉ fields.map GqlField.name) (argName argType : CStr) (required : Bool) :
    gqlSchemaAddFieldArg (working done name fields query) name field argName argType required =
      working done name fields query := by
  have hfields : ∀ f ∈ fields, (f.name == field) = false := by
    intro f hf
    rw [beq_eq_false_iff_ne]
    exact fun heq => hfield (heq ▸ List.mem_map_of_mem hf)
  rw [gqlSchemaAddFieldArg, updateType_working hfresh]
  dsimp only [updateField]
  rw [updateFirst_of_forall_not _ hfields, working]

theorem addField_working (hfresh : name ∉ done.map GqlType.name)
    (hroom : fields.length < gqlMaxFields) {field type : CStr}
    (hfield : FitsName field gqlMaxNameLen) (htype : FitsName type gqlMaxTypeLen)
    (kind : GqlScalar) (isList isNonNull : Bool) :
    gqlSchemaAddField (working done name fields query) name field kind type isList isNonNull =
      working done name (fields ++ [⟨field, kind, type, isList, isNonNull, []⟩]) query := by
  rw [gqlSchemaAddField, updateType_working hfresh, if_neg (Nat.not_le.mpr hroom), strncpy, strncpy,
    hfield.take_eq, htype.take_eq, working]

end Working

/-- The text behind the type of a field. -/
def afterType (f : GqlField) (more : CStr) : CStr :=
  (if f.isList then lit "[]" else []) ++ ((if f.isNonNull then lit "!" else []) ++ 10 :: more)

theorem stops_afterType (f : GqlField) (more : CStr) : Stops isNameByte (afterType f more) := by
  rw [afterType]
  split
  · exact stops_cons (by decide) _
  · split
    · exact stops_cons (by decide) _
    · exact stops_cons (by decide) _

/-- The brackets of the printed type stand behind it, where the parser does not look for them. -/
theorem sdlFieldType_eq {type tail : CStr} (htype : FitsName type gqlMaxTypeLen)
    (htail : Stops isNameByte tail) :
    sdlFieldType (32 :: (type ++ tail)) = (skipByte 33 (gqlSkipWhitespace tail),
      some (type, false, decide ((gqlSkipWhitespace tail).head? = some 33))) := by
  have hskip : gqlSkipWhitespace (32 :: (type ++ tail)) = type ++ tail :=
    skip_blank blank_space (htype.isName.stops_isSpace tail)
  have hbracket : (type ++ tail).head? ≠ some 91 := htype.isName.head?_ne (by decide) tail
  have hread := gqlParseName_type htype htail
  rw [← gqlParseName_skip, hskip] at hread
  rw [sdlFieldType]
  dsimp only
  rw [hskip, skipByte_of_ne hbracket, hread]
  dsimp only
  rw [if_neg hbracket, decide_eq_false hbracket]

theorem parenthesized_stops (args : List GqlArgument) (p : CStr) :
    Stops isNameByte (parenthesized args ++ 58 :: p) ∧
      Stops isSpace (parenthesized args ++ 58 :: p) := by
  rw [parenthesized]
  split
  · exact ⟨stops_colon p, stops_cons (by decide) p⟩
  · exact ⟨stops_cons (by decide) _, stops_cons (by decide) _⟩

theorem fieldText_append (f : GqlField) (more : CStr) :
    fieldText f ++ more = lit "  " ++ (f.name ++ (parenthesized f.args ++
      58 :: 32 :: (f.typeName ++ afterType f more))) := by
  simp [fieldText, afterType, lit]

theorem sdlField_eq {typeName : CStr} {s : GqlSchema} {f : GqlField} (hf : FieldOk f)
    (hnone : ∀ name type required, gqlSchemaAddFieldArg s typeName f.name name type required = s)
    (more : CStr) :
    sdlField typeName (fieldText f ++ more) s =
      (gqlSchemaAddField s typeName f.name (scalarOf f.typeName) f.typeName false
          (decide ((gqlSkipWhitespace (afterType f more)).head? = some 33)),
        skipByte 33 (gqlSkipWhitespace (afterType f more)), true) := by
  have hblank : Blank (lit "  ") := by decide +kernel
  obtain ⟨hstops, hspace⟩ := parenthesized_stops f.args (32 :: (f.typeName ++ afterType f more))
  have hname := gqlParseName_fits hblank hf.name hstops
  have htype := sdlFieldType_eq hf.type (stops_afterType f more)
  have hargs : (if (parenthesized f.args ++ 58 :: 32 :: (f.typeName ++ afterType f more)).head? =
        some 40 then
      sdlArguments typeName f.name
        (parenthesized f.args ++ 58 :: 32 :: (f.typeName ++ afterType f more)).tail s
      else (s, parenthesized f.args ++ 58 :: 32 :: (f.typeName ++ afterType f more))) =
      (s, 58 :: 32 :: (f.typeName ++ afterType f more)) := by
    by_cases hempty : f.args = []
    · rw [parenthesized, if_pos hempty, List.nil_append, if_neg (by simp)]
    · have hread := sdlArguments_parenthesized hnone hempty hf.args
        (58 :: 32 :: (f.typeName ++ afterType f more))
      have hopen : parenthesized f.args ++ 58 :: 32 :: (f.typeName ++ afterType f more) =
          40 :: (argsText true f.args ++ 41 :: (58 :: 32 :: (f.typeName ++ afterType f more))) := by
        rw [parenthesized, if_neg hempty]
        simp [lit]
      rw [hopen, if_pos List.head?_cons, List.tail_cons, hread]
  rw [fieldText_append, sdlField]
  dsimp only
  rw [gqlParseName_skip, hname]
  dsimp only
  rw [skip_skip, skip_of_stops hspace, hargs]
  dsimp only
  rw [skip_colon, if_pos List.head?_cons, List.tail_cons, htype]

/-! ## Lists of fields -/

theorem sdlField_skip (typeName p : CStr) (s : GqlSchema) :
    sdlField typeName (gqlSkipWhitespace p) s = sdlField typeName p s := by
  rw [sdlField, sdlField, skip_skip]

theorem sdlFields_brace (typeName p : CStr) (s : GqlSchema) :
    sdlFields typeName (125 :: p) s = (s, p) := by
  rw [sdlFields, if_pos (.inr List.head?_cons), List.tail_cons]

section Fields

variable {typeName p rest : CStr} {s s' : GqlSchema}

theorem sdlFields_of_more (hne : p ≠ []) (hbrace : p.head? ≠ some 125)
    (h : sdlField typeName p s = (s', rest, true)) :
    sdlFields typeName p s = sdlFields typeName rest s' := by
  rw [sdlFields, if_neg (not_or.mpr ⟨hne, hbrace⟩)]
  split
  · next hmore =>
      rw [h] at hmore
      obtain ⟨rfl, hrest⟩ := Prod.mk.inj hmore
      obtain ⟨rfl, -⟩ := Prod.mk.inj hrest
      rfl
  · next hdone => rw [h] at hdone; exact absurd hdone (by simp)

theorem sdlFields_of_done (hne : p ≠ []) (hbrace : p.head? ≠ some 125)
    (h : sdlField typeName p s = (s', rest, false)) :
    sdlFields typeName p s = (s', skipByte 125 rest) := by
  rw [sdlFields, if_neg (not_or.mpr ⟨hne, hbrace⟩)]
  split
  · next hmore => rw [h] at hmore; exact absurd hmore (by simp)
  · next hdone =>
      rw [h] at hdone
      obtain ⟨rfl, hrest⟩ := Prod.mk.inj hdone
      obtain ⟨rfl, -⟩ := Prod.mk.inj hrest
      rfl

theorem sdlField_of_stops (typeName : CStr) (s : GqlSchema)
    (h : Stops isNameStart (gqlSkipWhitespace p)) :
    sdlField typeName p s = (s, gqlSkipWhitespace p, false) := by
  rw [sdlField]
  dsimp only
  rw [gqlParseName_skip, gqlParseName_of_stops h]

/-- The loop over the fields skips blanks itself, also in front of the closing brace. -/
theorem sdlFields_skip (typeName : CStr) (s : GqlSchema) (hp : gqlSkipWhitespace p ≠ []) :
    sdlFields typeName (gqlSkipWhitespace p) s = sdlFields typeName p s := by
  have hne : p ≠ [] := by
    rintro rfl
    exact hp rfl
  by_cases hsame : p.head? = some 125
  · obtain ⟨q, rfl⟩ := List.head?_eq_some_iff.mp hsame
    rw [skip_of_stops (stops_cons (by decide) q)]
  by_cases hbrace : (gqlSkipWhitespace p).head? = some 125
  · obtain ⟨q, hq⟩ := List.head?_eq_some_iff.mp hbrace
    have hstops : Stops isNameStart (gqlSkipWhitespace p) := by
      rw [hq]
      exact stops_cons (by decide) q
    rw [sdlFields_of_done hne hsame (sdlField_of_stops typeName s hstops), hq, sdlFields_brace,
      skipByte_cons]
  · have hfield := sdlField_skip typeName p s
    rcases hread : sdlField typeName p s with ⟨s', rest, more⟩
    rw [hread] at hfield
    cases more with
    | true => rw [sdlFields_of_more hp hbrace hfield, sdlFields_of_more hne hsame hread]
    | false => rw [sdlFields_of_done hp hbrace hfield, sdlFields_of_done hne hsame hread]

end Fields

def FieldEnd (more : CStr) : Prop := ∃ b p, gqlSkipWhitespace more = b :: p ∧ b ≠ 33

theorem FieldEnd.skip_ne {more : CStr} (h : FieldEnd more) : gqlSkipWhitespace more ≠ [] := by
  obtain ⟨b, p, hmore, -⟩ := h
  rw [hmore]
  simp

theorem skip_newline (p : CStr) : gqlSkipWhitespace (10 :: p) = gqlSkipWhitespace p :=
  List.dropWhile_cons_of_pos (by decide)

theorem sdlFields_afterType {f : GqlField} (hlist : f.isList = false) {more : CStr}
    (hmore : FieldEnd more) (typeName : CStr) (s : GqlSchema) :
    sdlFields typeName (skipByte 33 (gqlSkipWhitespace (afterType f more))) s =
      sdlFields typeName more s ∧
    decide ((gqlSkipWhitespace (afterType f more)).head? = some 33) = f.isNonNull := by
  obtain ⟨b, p, hskip, hb⟩ := id hmore
  cases hnull : f.isNonNull with
  | false =>
      have hafter : gqlSkipWhitespace (afterType f more) = gqlSkipWhitespace more := by
        simp [afterType, hlist, hnull, skip_newline]
      have hbang : (gqlSkipWhitespace more).head? ≠ some 33 := by
        rw [hskip]
        simp [hb]
      rw [hafter, skipByte_of_ne hbang]
      exact ⟨sdlFields_skip typeName s hmore.skip_ne, decide_eq_false hbang⟩
  | true =>
      have hafter : gqlSkipWhitespace (afterType f more) = 33 :: 10 :: more := by
        simp [afterType, hlist, hnull, lit]
        exact skip_of_stops (stops_cons (by decide) _)
      have hnewline := skip_newline more
      rw [hafter, skipByte_cons]
      refine ⟨?_, by simp⟩
      rw [← sdlFields_skip typeName s (by rw [hnewline]; exact hmore.skip_ne), hnewline,
        sdlFields_skip typeName s hmore.skip_ne]

theorem fieldText_head (f : GqlField) (more : CStr) :
    fieldText f ++ more ≠ [] ∧ (fieldText f ++ more).head? ≠ some 125 := by
  simp [fieldText, lit]

theorem fieldEnd_fields {fs : List GqlField} (hfs : ∀ f ∈ fs, FieldOk f) (more : CStr) :
    FieldEnd (fs.flatMap fieldText ++ 125 :: more) := by
  cases fs with
  | nil => exact ⟨125, more, skip_of_stops (stops_cons (by decide) more), by decide⟩
  | cons f fs =>
      have hname := (hfs f List.mem_cons_self).name.isName
      obtain ⟨b, tail, hcons, hstart⟩ := hname.exists_cons
      have hblank : Blank (lit "  ") := by decide +kernel
      have hskip := skip_blank hblank (hname.stops_isSpace (parenthesized f.args ++
        58 :: 32 :: (f.typeName ++ afterType f (fs.flatMap fieldText ++ 125 :: more))))
      refine ⟨b, tail ++ (parenthesized f.args ++ 58 :: 32 :: (f.typeName ++ afterType f
        (fs.flatMap fieldText ++ 125 :: more))), ?_, ?_⟩
      · rw [List.flatMap_cons, List.append_assoc, fieldText_append, hskip, hcons, List.cons_append]
      · rintro rfl
        exact absurd hstart (by decide)

section Working

variable {done : List GqlType} {name : CStr} {fields : List GqlField} (query : CStr)

/-- A field is added without its arguments and, as they stand behind the type, without its
brackets. -/
theorem sdlField_working (hfresh : name ∉ done.map GqlType.name) {f : GqlField} (hf : FieldOk f)
    (hfield : f.name ∉ fields.map GqlField.name) (hroom : fields.length < gqlMaxFields)
    (more : CStr) :
    sdlField name (fieldText f ++ more) (working done name fields query) =
      (working done name (fields ++ [readField f
          (decide ((gqlSkipWhitespace (afterType f more)).head? = some 33))]) query,
        skipByte 33 (gqlSkipWhitespace (afterType f more)), true) := by
  rw [sdlField_eq hf (addFieldArg_working hfresh hfield),
    addField_working hfresh hroom hf.name hf.type]
  rfl

theorem sdlFields_cons (hfresh : name ∉ done.map GqlType.name) {f : GqlField} (hf : FieldOk f)
    (hfield : f.name ∉ fields.map GqlField.name) (hroom : fields.length < gqlMaxFields)
    (hlist : f.isList = false) {more : CStr} (hmore : FieldEnd more) :
    sdlFields name (fieldText f ++ more) (working done name fields query) =
      sdlFields name more (working done name (fields ++ [stripField f]) query) := by
  obtain ⟨hne, hbrace⟩ := fieldText_head f more
  have hread := sdlField_working query hfresh hf hfield hroom more
  obtain ⟨hskip, hnull⟩ := sdlFields_afterType hlist hmore name
    (working done name (fields ++ [stripField f]) query)
  rw [hnull] at hread
  rw [sdlFields_of_more hne hbrace hread]
  exact hskip

/-- The fields up to the closing brace, none of which is a list. -/
theorem sdlFields_eq (hfresh : name ∉ done.map GqlType.name) {fs : List GqlField}
    (hfs : ∀ f ∈ fs, FieldOk f) (hnodup : ((fields ++ fs).map GqlField.name).Nodup)
    (hroom : (fields ++ fs).length ≤ gqlMaxFields) (hlist : ∀ f ∈ fs, f.isList = false)
    (more : CStr) :
    sdlFields name (fs.flatMap fieldText ++ 125 :: more) (working done name fields query) =
      (working done name (fields ++ fs.map stripField) query, more) := by
  induction fs generalizing fields with
  | nil => simpa using sdlFields_brace name more (working done name fields query)
  | cons f fs ih =>
      obtain ⟨hf, hrest⟩ := List.forall_mem_cons.mp hfs
      obtain ⟨hlistf, hlistrest⟩ := List.forall_mem_cons.mp hlist
      have hfield : f.name ∉ fields.map GqlField.name := by
        rw [List.map_append, List.map_cons] at hnodup
        exact fun hmem => (List.disjoint_of_nodup_append hnodup) hmem List.mem_cons_self
      have hlength : fields.length < gqlMaxFields := by
        rw [List.length_append, List.length_cons] at hroom
        omega
      have hstep := sdlFields_cons query hfresh hf hfield hlength hlistf
        (fieldEnd_fields hrest more)
      have hnodup' : ((fields ++ [stripField f] ++ fs).map GqlField.name).Nodup := by
        simpa [stripField, readField] using hnodup
      have hroom' : (fields ++ [stripField f] ++ fs).length ≤ gqlMaxFields := by
        simpa [Nat.add_assoc, Nat.add_comm] using hroom
      rw [List.flatMap_cons, List.append_assoc, hstep, ih hrest hnodup' hroom' hlistrest]
      simp

/-- The first list among the fields is read as no list, and the loop ends behind it. -/
theorem sdlFields_list (hfresh : name ∉ done.map GqlType.name) {fs : List GqlField}
    (hfs : ∀ f ∈ fs, FieldOk f) (hnodup : ((fields ++ fs).map GqlField.name).Nodup)
    (hroom : (fields ++ fs).length ≤ gqlMaxFields) (hlist : ∃ f ∈ fs, f.isList = true)
    (more : CStr) :
    ∃ fields' p k, sdlFields name (fs.flatMap fieldText ++ 125 :: more)
        (working done name fields query) = (working done name fields' query, p) ∧
      fs[k]?.map GqlField.isList = some true ∧
      fields'[fields.length + k]?.map GqlField.isList = some false := by
  induction fs generalizing fields with
  | nil => exact absurd hlist (by simp)
  | cons f fs ih =>
      obtain ⟨hf, hrest⟩ := List.forall_mem_cons.mp hfs
      have hfield : f.name ∉ fields.map GqlField.name := by
        rw [List.map_append, List.map_cons] at hnodup
        exact fun hmem => (List.disjoint_of_nodup_append hnodup) hmem List.mem_cons_self
      have hlength : fields.length < gqlMaxFields := by
        rw [List.length_append, List.length_cons] at hroom
        omega
      rw [List.flatMap_cons, List.append_assoc]
      cases hlistf : f.isList with
      | true =>
          obtain ⟨hne, hbrace⟩ := fieldText_head f (fs.flatMap fieldText ++ 125 :: more)
          have hread := sdlField_working query hfresh hf hfield hlength
            (fs.flatMap fieldText ++ 125 :: more)
          -- the loop finds the opening bracket where a name should start
          have hbracket : ∃ q, skipByte 33 (gqlSkipWhitespace (afterType f
              (fs.flatMap fieldText ++ 125 :: more))) = 91 :: q := by
            refine ⟨93 :: ((if f.isNonNull then lit "!" else []) ++
              10 :: (fs.flatMap fieldText ++ 125 :: more)), ?_⟩
            have hskip : gqlSkipWhitespace (afterType f (fs.flatMap fieldText ++ 125 :: more)) =
                afterType f (fs.flatMap fieldText ++ 125 :: more) := by
              rw [afterType, if_pos hlistf]
              exact skip_of_stops (stops_cons (by decide) _)
            rw [hskip, afterType, if_pos hlistf]
            rfl
          obtain ⟨q, hq⟩ := hbracket
          have hskip : gqlSkipWhitespace (91 :: q) = 91 :: q :=
            skip_of_stops (stops_cons (by decide) q)
          have hstops : Stops isNameStart (gqlSkipWhitespace (91 :: q)) := by
            rw [hskip]
            exact stops_cons (by decide) q
          rw [sdlFields_of_more hne hbrace hread, hq,
            sdlFields_of_done (by simp) (by simp) (sdlField_of_stops name _ hstops)]
          exact ⟨_, _, 0, rfl, by simp [hlistf], by simp [readField]⟩
      | false =>
          have hlist' : ∃ g ∈ fs, g.isList = true := by
            obtain ⟨g, hg, htrue⟩ := hlist
            rcases List.mem_cons.mp hg with rfl | hg
            · rw [hlistf] at htrue; exact absurd htrue (by simp)
            · exact ⟨g, hg, htrue⟩
          have hnodup' : ((fields ++ [stripField f] ++ fs).map GqlField.name).Nodup := by
            simpa [stripField, readField] using hnodup
          have hroom' : (fields ++ [stripField f] ++ fs).length ≤ gqlMaxFields := by
            simpa [Nat.add_assoc, Nat.add_comm] using hroom
          obtain ⟨fields', p, k, heq, htrue, hfalse⟩ := ih hrest hnodup' hroom' hlist'
          rw [sdlFields_cons query hfresh hf hfield hlength hlistf (fieldEnd_fields hrest more)]
          refine ⟨fields', p, k + 1, heq, by simpa using htrue, ?_⟩
          rw [← hfalse]
          congr 2
          rw [List.length_append, List.length_singleton]
          omega

end Working

/-! ## Values of an enum -/

theorem updateType_append {done : List GqlType} {t : GqlType} (query : CStr)
    (hfresh : t.name ∉ done.map GqlType.name) (f : GqlType → GqlType) :
    updateType ⟨done ++ [t], query⟩ t.name f = ⟨done ++ [f t], query⟩ := by
  have hdone : ∀ u ∈ done, (u.name == t.name) = false := by
    intro u hu
    rw [beq_eq_false_iff_ne]
    exact fun heq => hfresh (heq ▸ List.mem_map_of_mem hu)
  rw [updateType, updateFirst_append_of_forall_not f _ hdone, updateFirst,
    if_pos (beq_self_eq_true t.name)]

theorem sdlEnumValues_of_some {typeName p rest value : CStr} (hne : p ≠ [])
    (hbrace : p.head? ≠ some 125) (h : gqlParseName p gqlMaxNameLen = some (value, rest))
    (s : GqlSchema) :
    sdlEnumValues typeName p s = sdlEnumValues typeName rest (updateType s typeName fun t =>
      if gqlMaxFields ≤ t.enumValues.length then t
      else { t with enumValues := t.enumValues ++ [strncpy value (gqlMaxNameLen - 1)] }) := by
  rw [sdlEnumValues, if_neg (not_or.mpr ⟨hne, hbrace⟩)]
  split
  · next hnone => rw [h] at hnone; exact absurd hnone (by simp)
  · next hsome =>
      rw [h] at hsome
      obtain ⟨rfl, rfl⟩ := Prod.mk.inj (Option.some.inj hsome)
      rfl

theorem sdlEnumValues_brace (typeName p : CStr) (s : GqlSchema) :
    sdlEnumValues typeName (125 :: p) s = (s, p) := by
  rw [sdlEnumValues, if_pos (.inr List.head?_cons), List.tail_cons]

theorem sdlEnumValues_of_none {typeName p : CStr} (hne : p ≠ []) (hbrace : p.head? ≠ some 125)
    (h : gqlParseName p gqlMaxNameLen = none) (s : GqlSchema) :
    sdlEnumValues typeName p s = (s, skipByte 125 (gqlSkipWhitespace p)) := by
  rw [sdlEnumValues, if_neg (not_or.mpr ⟨hne, hbrace⟩)]
  split
  · rfl
  · next hsome => rw [h] at hsome; exact absurd hsome (by simp)

theorem sdlEnumValues_skip {p : CStr} (typeName : CStr) (s : GqlSchema)
    (hp : gqlSkipWhitespace p ≠ []) :
    sdlEnumValues typeName (gqlSkipWhitespace p) s = sdlEnumValues typeName p s := by
  have hne : p ≠ [] := by
    rintro rfl
    exact hp rfl
  by_cases hsame : p.head? = some 125
  · obtain ⟨q, rfl⟩ := List.head?_eq_some_iff.mp hsame
    rw [skip_of_stops (stops_cons (by decide) q)]
  by_cases hbrace : (gqlSkipWhitespace p).head? = some 125
  · obtain ⟨q, hq⟩ := List.head?_eq_some_iff.mp hbrace
    have hnone : gqlParseName p gqlMaxNameLen = none := by
      apply gqlParseName_of_stops
      rw [hq]
      exact stops_cons (by decide) q
    rw [sdlEnumValues_of_none hne hsame hnone, hq, sdlEnumValues_brace, skipByte_cons]
  · have hname := gqlParseName_skip p gqlMaxNameLen
    cases hread : gqlParseName p gqlMaxNameLen with
    | none =>
        rw [hread] at hname
        rw [sdlEnumValues_of_none hp hbrace hname, sdlEnumValues_of_none hne hsame hread, skip_skip]
    | some result =>
        obtain ⟨value, rest⟩ := result
        rw [hread] at hname
        rw [sdlEnumValues_of_some hp hbrace hname, sdlEnumValues_of_some hne hsame hread]

theorem skip_brace_ne (p more : CStr) : gqlSkipWhitespace (p ++ 125 :: more) ≠ [] := by
  intro hnil
  have hall := List.dropWhile_eq_nil_iff.mp hnil 125 (by simp)
  exact absurd hall (by decide)

theorem sdlEnumValues_eq {done : List GqlType} {name : CStr} (query : CStr)
    (hfresh : name ∉ done.map GqlType.name) {values : List CStr}
    (hvalues : ∀ value ∈ values, FitsName value gqlMaxNameLen) {before : List CStr}
    (hroom : (before ++ values).length ≤ gqlMaxFields) (more : CStr) :
    sdlEnumValues name (10 :: (enumText values ++ 125 :: more))
        ⟨done ++ [⟨name, [], true, before⟩], query⟩ =
      (⟨done ++ [⟨name, [], true, before ++ values⟩], query⟩, more) := by
  induction values generalizing before with
  | nil =>
      have hskip : gqlSkipWhitespace (10 :: (enumText [] ++ 125 :: more)) = 125 :: more :=
        (skip_newline _).trans (skip_of_stops (stops_cons (by decide) more))
      rw [← sdlEnumValues_skip name _ (by rw [hskip]; simp), hskip, sdlEnumValues_brace,
        List.append_nil]
  | cons value values ih =>
      obtain ⟨hvalue, hrest⟩ := List.forall_mem_cons.mp hvalues
      have hblank : Blank (lit "\n  ") := by decide +kernel
      have hshape : 10 :: (enumText (value :: values) ++ 125 :: more) =
          lit "\n  " ++ (value ++ 10 :: (enumText values ++ 125 :: more)) := by
        simp [enumText, lit]
      have hread := gqlParseName_fits hblank hvalue
        (stops_cons (by decide : isNameByte 10 = false) (enumText values ++ 125 :: more))
      have hlength : ¬gqlMaxFields ≤ before.length := by
        rw [List.length_append, List.length_cons] at hroom
        omega
      have hadd := updateType_append (t := ⟨name, [], true, before⟩) query hfresh fun t =>
        if gqlMaxFields ≤ t.enumValues.length then t
        else { t with enumValues := t.enumValues ++ [strncpy value (gqlMaxNameLen - 1)] }
      dsimp only at hadd
      rw [if_neg hlength] at hadd
      have hcut : strncpy value (gqlMaxNameLen - 1) = value := hvalue.take_eq
      have hroom' : (before ++ [value] ++ values).length ≤ gqlMaxFields := by
        simpa [Nat.add_assoc, Nat.add_comm] using hroom
      have hgo := sdlEnumValues_skip (p := 10 :: (enumText values ++ 125 :: more)) name
        ⟨done ++ [⟨name, [], true, before ++ [value]⟩], query⟩
        (by rw [skip_newline]; exact skip_brace_ne _ more)
      rw [hshape, sdlEnumValues_of_some (by simp [lit]) (by simp [lit]) hread, hadd, hcut,
        hgo, ih hrest hroom', List.append_assoc]
      rfl

/-! ## Types -/

theorem sdlLoop_eq (p : CStr) (s : GqlSchema) :
    sdlLoop p s = if gqlSkipWhitespace p = [] then s
      else match sdlDefinition (gqlSkipWhitespace p) s with
        | (s, none) => s
        | (s, some rest) => sdlLoop rest s := by
  rw [sdlLoop]
  split
  · rfl
  · split
    · next h => rw [h]
    · next h => rw [h]

theorem sdlLoop_skip (p : CStr) (s : GqlSchema) :
    sdlLoop (gqlSkipWhitespace p) s = sdlLoop p s := by
  rw [sdlLoop_eq, sdlLoop_eq p, skip_skip]

theorem sdlLoop_blankLine (p : CStr) (s : GqlSchema) : sdlLoop (10 :: 10 :: p) s = sdlLoop p s := by
  rw [← sdlLoop_skip, skip_newline, skip_newline, sdlLoop_skip]

theorem addType_fresh {done : List GqlType} {name : CStr} (query : CStr)
    (hname : FitsName name gqlMaxNameLen) (hroom : done.length < gqlMaxTypes) :
    gqlSchemaAddType ⟨done, query⟩ name = working done name [] query := by
  rw [gqlSchemaAddType, if_neg (Nat.not_le.mpr hroom), strncpy, hname.take_eq, working]

theorem gqlParseName_open {name : CStr} (hname : FitsName name gqlMaxNameLen) (p : CStr) :
    gqlParseName (32 :: (name ++ 32 :: 123 :: p)) gqlMaxNameLen = some (name, 123 :: p) := by
  have hread := gqlParseName_fits blank_space hname (stops_cons (by decide : isNameByte 32 = false)
    (123 :: p))
  have hskip : gqlSkipWhitespace (32 :: 123 :: p) = 123 :: p :=
    skip_blank blank_space (stops_cons (by decide) p)
  rwa [hskip] at hread

theorem skip_open (p : CStr) : gqlSkipWhitespace (123 :: p) = 123 :: p :=
  skip_of_stops (stops_cons (by decide) p)

theorem sdlLoop_type {done : List GqlType} {name : CStr} (query : CStr)
    (hname : FitsName name gqlMaxNameLen) (hroom : done.length < gqlMaxTypes) (p : CStr) :
    sdlLoop (lit "type " ++ (name ++ 32 :: 123 :: p)) ⟨done, query⟩ =
      sdlLoop (sdlFields name p (working done name [] query)).2
        (sdlFields name p (working done name [] query)).1 := by
  have hskip : gqlSkipWhitespace (lit "type " ++ (name ++ 32 :: 123 :: p)) =
      lit "type" ++ 32 :: (name ++ 32 :: 123 :: p) := skip_of_stops (stops_cons (by decide) _)
  have hkeyword : afterKeyword (lit "type") (lit "type" ++ 32 :: (name ++ 32 :: 123 :: p)) =
      some (32 :: (name ++ 32 :: 123 :: p)) :=
    if_pos ⟨List.prefix_append _ _, by simp [lit, isAlnum, isAlpha, isDigit]⟩
  rw [sdlLoop_eq, hskip, if_neg (by simp [lit]), sdlDefinition, if_neg (by simp [lit]), hkeyword]
  dsimp only
  rw [sdlType, gqlParseName_open hname]
  dsimp only
  rw [skip_open, if_pos List.head?_cons, List.tail_cons, addType_fresh query hname hroom]

theorem sdlLoop_enum {done : List GqlType} {name : CStr} (query : CStr)
    (hname : FitsName name gqlMaxNameLen) (hroom : done.length < gqlMaxTypes)
    (hfresh : name ∉ done.map GqlType.name) (p : CStr) :
    sdlLoop (lit "enum " ++ (name ++ 32 :: 123 :: p)) ⟨done, query⟩ =
      sdlLoop (sdlEnumValues name p ⟨done ++ [⟨name, [], true, []⟩], query⟩).2
        (sdlEnumValues name p ⟨done ++ [⟨name, [], true, []⟩], query⟩).1 := by
  have hskip : gqlSkipWhitespace (lit "enum " ++ (name ++ 32 :: 123 :: p)) =
      lit "enum" ++ 32 :: (name ++ 32 :: 123 :: p) := skip_of_stops (stops_cons (by decide) _)
  have hother : afterKeyword (lit "type") (lit "enum" ++ 32 :: (name ++ 32 :: 123 :: p)) = none :=
    if_neg fun h => absurd h.1 (by simp [lit])
  have hkeyword : afterKeyword (lit "enum") (lit "enum" ++ 32 :: (name ++ 32 :: 123 :: p)) =
      some (32 :: (name ++ 32 :: 123 :: p)) :=
    if_pos ⟨List.prefix_append _ _, by simp [lit, isAlnum, isAlpha, isDigit]⟩
  have hnew : hasType ⟨done, query⟩ name = false := by
    rw [hasType, List.any_eq_false]
    intro t ht
    rw [beq_iff_eq]
    exact fun heq => hfresh (heq ▸ List.mem_map_of_mem ht)
  rw [sdlLoop_eq, hskip, if_neg (by simp [lit]), sdlDefinition, if_neg (by simp [lit]), hother]
  dsimp only
  rw [hkeyword]
  dsimp only
  rw [sdlEnum, gqlParseName_open hname]
  dsimp only
  rw [hnew, if_neg Bool.false_ne_true, skip_open, if_pos List.head?_cons, List.tail_cons,
    addType_fresh query hname hroom, updateType_working hfresh]

theorem typeText_enum {t : GqlType} (henum : t.isEnum = true) (rest : CStr) :
    typeText t ++ rest = lit "enum " ++ (t.name ++ 32 :: 123 :: 10 ::
      (enumText t.enumValues ++ 125 :: 10 :: 10 :: rest)) := by
  rw [typeText, if_pos henum]
  simp [lit]

theorem typeText_object {t : GqlType} (henum : t.isEnum = false) (rest : CStr) :
    typeText t ++ rest = lit "type " ++ (t.name ++ 32 :: 123 :: 10 ::
      (t.fields.flatMap fieldText ++ 125 :: 10 :: 10 :: rest)) := by
  rw [typeText, if_neg (by simp [henum])]
  simp [lit]

/-- The loop over the fields skips the line break behind the opening brace. -/
theorem sdlFields_newline (typeName p more : CStr) (s : GqlSchema) :
    sdlFields typeName (10 :: (p ++ 125 :: more)) s = sdlFields typeName (p ++ 125 :: more) s := by
  have hne := skip_brace_ne p more
  rw [← sdlFields_skip typeName s (by rw [skip_newline]; exact hne), skip_newline,
    sdlFields_skip typeName s hne]

theorem sdlLoop_typeText {done : List GqlType} (query : CStr) {t : GqlType} (ht : TypeOk t)
    (hdistinct : DistinctFields t) (hlists : NoLists t) (hroom : done.length < gqlMaxTypes)
    (hfresh : t.name ∉ done.map GqlType.name) (rest : CStr) :
    sdlLoop (typeText t ++ rest) ⟨done, query⟩ = sdlLoop rest ⟨done ++ [strip t], query⟩ := by
  cases henum : t.isEnum with
  | true =>
      have hle : ([] ++ t.enumValues).length ≤ gqlMaxFields := ht.values_le
      have hvalues := sdlEnumValues_eq query hfresh ht.values hle (10 :: 10 :: rest)
      rw [typeText_enum henum, sdlLoop_enum query ht.name hroom hfresh, hvalues, sdlLoop_blankLine,
        strip, if_pos henum, List.nil_append]
  | false =>
      have hnodup : (([] ++ t.fields).map GqlField.name).Nodup := hdistinct
      have hfields := sdlFields_eq query hfresh ht.fields hnodup ht.fields_le (hlists henum)
        (10 :: 10 :: rest)
      rw [typeText_object henum, sdlLoop_type query ht.name hroom, sdlFields_newline, hfields,
        sdlLoop_blankLine, strip, if_neg (by simp [henum]), List.nil_append]
      rfl

end MiniBackend.Api.Proofs.SchemaParsing
