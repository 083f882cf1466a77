import MiniBackend.Lib.QuotedNames
import MiniBackend.Framework.Serializer

/-!
# What a serializer reads back

The reader looks for each quoted name in the whole text.  The text of a member with another
name only contains it at the end of a string whose text after the last quote is the name; the
reader then takes the comma behind that string for the value.
-/

namespace MiniBackend.Framework.Proofs.SerializerRoundTrip

open MiniBackend.Lib MiniBackend.Lib.CString MiniBackend.Lib.FlatObject
open MiniBackend.Lib.QuotedNames
open MiniBackend.Framework.Ser

def IdentifierLike (name : CStr) : Prop :=
  name ≠ [] ∧ ∀ b ∈ name, b = 95 ∨ (48 ≤ b ∧ b ≤ 57) ∨ (65 ≤ b ∧ b ≤ 90) ∨ (97 ≤ b ∧ b ≤ 122)

instance (name : CStr) : Decidable (IdentifierLike name) :=
  inferInstanceAs (Decidable (_ ∧ ∀ b ∈ name, _))

/-- A serializer with distinct names for fields that do not overlap, and an object whose
strings are short. -/
structure Serializable (s : Serializer) (obj : SerObject) : Prop where
  names_nodup : (s.fields.map SerField.jsonName).Nodup
  offsets_nodup : (s.fields.map SerField.offset).Nodup
  identifier : ∀ f ∈ s.fields, IdentifierLike f.jsonName ∧ f.jsonName.length < serMaxName
  short : ∀ f ∈ s.fields, f.type = .string →
    ((obj.strings f.offset).flatMap escapeByte).length < 250

def SameValue (f : SerField) (obj obj' : SerObject) : Prop :=
  match f.type with
  | .int => obj.ints f.offset = obj'.ints f.offset
  | .int64 => obj.int64s f.offset = obj'.int64s f.offset
  | .string => obj.strings f.offset = obj'.strings f.offset
  | .bool => obj.bools f.offset = obj'.bools f.offset

/-- Every field that is not ignored is read back from the text into a zeroed object. -/
def ReadsBack (s : Serializer) (obj : SerObject) (json : CStr) : Prop :=
  ∀ f ∈ s.fields, f.ignore = false → SameValue f (serFromJson s zeroed json) obj

/-- The field has a string that ends, after its last quote, in the name. -/
def EndsInName (obj : SerObject) (name : CStr) (g : SerField) : Prop :=
  g.ignore = false ∧ g.type = .string ∧ afterLastQuote (obj.strings g.offset) = name

instance (obj : SerObject) (name : CStr) (g : SerField) : Decidable (EndsInName obj name g) :=
  inferInstanceAs (Decidable (_ ∧ _ ∧ _))

def Shadowed (s : Serializer) (obj : SerObject) (f : SerField) : Prop :=
  ∃ g ∈ s.fields.takeWhile (· ≠ f), EndsInName obj f.jsonName g

instance (s : Serializer) (obj : SerObject) (f : SerField) : Decidable (Shadowed s obj f) :=
  inferInstanceAs (Decidable (∃ g ∈ s.fields.takeWhile (· ≠ f), _))

/-- The value is what the reader makes of it: 0 for an `int64_t`, for a shadowed field what it
reads out of a comma, and otherwise any value without bytes that are escaped. -/
def Survives (s : Serializer) (obj : SerObject) (f : SerField) : Prop :=
  match f.type with
  | .int => Shadowed s obj f → obj.ints f.offset = 0
  | .int64 => obj.int64s f.offset = 0
  | .string => if Shadowed s obj f then obj.strings f.offset = [44]
      else ∀ b ∈ obj.strings f.offset, escapeByte b = [b]
  | .bool => Shadowed s obj f → obj.bools f.offset = false

/-! ## Names and escapes -/

theorem escapes_escapeByte : Escapes escapeByte where
  quote := rfl
  other := by
    intro b hb
    rw [escapeByte, if_neg hb]
    split
    · exact .inr ⟨92, by decide, rfl⟩
    · next hslash =>
        split
        · exact .inr ⟨110, by decide, rfl⟩
        · split
          · exact .inr ⟨114, by decide, rfl⟩
          · split
            · exact .inr ⟨116, by decide, rfl⟩
            · exact .inl ⟨rfl, hslash⟩

theorem identifier_byte {b : UInt8} (hb : b = 95 ∨ (48 ≤ b ∧ b ≤ 57) ∨ (65 ≤ b ∧ b ≤ 90) ∨
    (97 ≤ b ∧ b ≤ 122)) : (b ≠ 34 ∧ b ≠ 44 ∧ b ≠ 58 ∧ b ≠ 92 ∧ b ≠ 125) ∧ escapeByte b = [b] := by
  have hall : ∀ b : UInt8, (b = 95 ∨ (48 ≤ b ∧ b ≤ 57) ∨ (65 ≤ b ∧ b ≤ 90) ∨ (97 ≤ b ∧ b ≤ 122)) →
      (b ≠ 34 ∧ b ≠ 44 ∧ b ≠ 58 ∧ b ≠ 92 ∧ b ≠ 125) ∧ escapeByte b = [b] := by
    refine fun b => forall_byte (motive := fun b =>
      (b = 95 ∨ (48 ≤ b ∧ b ≤ 57) ∨ (65 ≤ b ∧ b ≤ 90) ∨ (97 ≤ b ∧ b ≤ 122)) →
        (b ≠ 34 ∧ b ≠ 44 ∧ b ≠ 58 ∧ b ≠ 92 ∧ b ≠ 125) ∧ escapeByte b = [b]) ?_ b
    decide +kernel
  exact hall b hb

theorem IdentifierLike.plainName {name : CStr} (h : IdentifierLike name) : PlainName name :=
  ⟨h.1, fun b hb => (identifier_byte (h.2 b hb)).1⟩

theorem IdentifierLike.not_escaped {name : CStr} (h : IdentifierLike name) :
    ∀ b ∈ name, escapeByte b = [b] := fun b hb => (identifier_byte (h.2 b hb)).2

/-! ## The text -/

def valueText (obj : SerObject) (f : SerField) : CStr :=
  match f.type with
  | .int => decimalInt (obj.ints f.offset).toInt
  | .int64 => decimalInt (obj.int64s f.offset).toInt
  | .string => 34 :: ((obj.strings f.offset).flatMap escapeByte ++ [34])
  | .bool => if obj.bools f.offset then lit "true" else lit "false"

def memberText (obj : SerObject) (f : SerField) : CStr :=
  34 :: (f.jsonName ++ 34 :: 58 :: valueText obj f)

def membersText (obj : SerObject) : Bool → List SerField → CStr
  | _, [] => []
  | first, f :: fields =>
      if f.ignore then membersText obj first fields
      else (if first then [] else [44]) ++ memberText obj f ++ membersText obj false fields

def jsonText (s : Serializer) (obj : SerObject) : CStr :=
  123 :: (membersText obj true s.fields ++ [125])

theorem serEscapeJson_eq {maxLen : Nat} {src : CStr} {pos : Nat}
    (h : pos + (src.flatMap escapeByte).length ≤ maxLen - 2) :
    serEscapeJson maxLen src pos = src.flatMap escapeByte := by
  induction src generalizing pos with
  | nil => rfl
  | cons b src ih =>
      rw [List.flatMap_cons, List.length_append] at h
      have hpos : 1 ≤ (escapeByte b).length := by
        have := escapes_escapeByte.length_le [b]
        simpa using this
      rw [serEscapeJson, if_pos (by omega), ih (by omega), List.flatMap_cons]

theorem serWriteValue_eq {obj : SerObject} {f : SerField} (hshort : f.type = .string →
    ((obj.strings f.offset).flatMap escapeByte).length < 250) :
    serWriteValue f obj 1024 = valueText obj f := by
  rw [serWriteValue, valueText]
  cases htype : f.type with
  | int =>
      have hlo := (obj.ints f.offset).le_toInt
      have hhi := (obj.ints f.offset).toInt_lt
      have hlen := length_decimalInt_le (z := (obj.ints f.offset).toInt) (k := 10) (by omega)
        (by omega)
      exact snprintf_of_lt (by omega)
  | int64 =>
      have hlo := (obj.int64s f.offset).le_toInt
      have hhi := (obj.int64s f.offset).toInt_lt
      have hlen := length_decimalInt_le (z := (obj.int64s f.offset).toInt) (k := 19) (by omega)
        (by omega)
      exact snprintf_of_lt (by omega)
  | string =>
      have hlen := hshort htype
      dsimp only
      rw [serEscapeJson_eq (by omega)]
      refine snprintf_of_lt ?_
      simp only [List.length_cons, List.length_append, List.length_nil]
      omega
  | bool =>
      dsimp only
      split
      · decide
      · decide

theorem toJsonLoop_holds {obj : SerObject} {maxLen : Nat} {fields : List SerField}
    (hshort : ∀ f ∈ fields, f.type = .string →
      ((obj.strings f.offset).flatMap escapeByte).length < 250)
    {first : Bool} {out out' : TextBuffer} {text : CStr} (h : out.Holds maxLen text)
    (hloop : toJsonLoop obj maxLen fields first out = some out') :
    out'.Holds maxLen (text ++ membersText obj first fields) := by
  induction fields generalizing first out text with
  | nil =>
      obtain rfl := Option.some.inj hloop
      rwa [membersText, List.append_nil]
  | cons f fields ih =>
      have hrest := fun g hg => hshort g (List.mem_cons_of_mem f hg)
      rw [toJsonLoop] at hloop
      rw [membersText]
      by_cases hignore : f.ignore = true
      · rw [if_pos hignore] at hloop ⊢
        exact ih hrest h hloop
      · rw [if_neg hignore] at hloop ⊢
        dsimp only at hloop
        rw [serWriteValue_eq (hshort f List.mem_cons_self)] at hloop
        have hcomma : (if first then out else out.print maxLen [44]).Holds maxLen
            (text ++ if first then [] else [44]) := by
          cases first with
          | true => simpa using h
          | false => exact h.print [44]
        split at hloop
        · exact absurd hloop (by simp)
        · next out₁ hprint =>
            have hmember := (hcomma.printAll hprint).1
            have hfinal := ih hrest hmember hloop
            simpa [memberText] using hfinal

theorem serToJson_eq {s : Serializer} {obj : SerObject} (h : Serializable s obj) {maxLen : Nat}
    {json : CStr} (hjson : serToJson s obj maxLen = some json) : json = jsonText s obj := by
  obtain ⟨out, hbind, rfl⟩ := Option.map_eq_some_iff.mp hjson
  obtain ⟨out₁, hloop, hprint⟩ := Option.bind_eq_some_iff.mp hbind
  have hopen := (TextBuffer.holds_empty maxLen).print [123]
  obtain ⟨hall, hlt⟩ := (toJsonLoop_holds h.short hopen hloop).printAll hprint
  rw [hall.text_eq hlt, jsonText]
  simp

theorem membersText_true {obj : SerObject} {fields : List SerField}
    (h : ∃ f ∈ fields, f.ignore = false) : ∃ rest, membersText obj true fields = 34 :: rest := by
  induction fields with
  | nil => exact absurd h (by simp)
  | cons f fields ih =>
      rw [membersText]
      by_cases hignore : f.ignore = true
      · rw [if_pos hignore]
        obtain ⟨g, hg, hgignore⟩ := h
        rcases List.mem_cons.mp hg with rfl | hg
        · exact absurd (hignore.symm.trans hgignore) (by decide)
        · exact ih ⟨g, hg, hgignore⟩
      · rw [if_neg hignore]
        exact ⟨_, rfl⟩

theorem membersText_false {obj : SerObject} {fields : List SerField}
    (h : ∃ f ∈ fields, f.ignore = false) :
    membersText obj false fields = 44 :: membersText obj true fields := by
  induction fields with
  | nil => exact absurd h (by simp)
  | cons f fields ih =>
      rw [membersText, membersText]
      by_cases hignore : f.ignore = true
      · rw [if_pos hignore, if_pos hignore]
        obtain ⟨g, hg, hgignore⟩ := h
        rcases List.mem_cons.mp hg with rfl | hg
        · exact absurd (hignore.symm.trans hgignore) (by decide)
        · exact ih ⟨g, hg, hgignore⟩
      · rw [if_neg hignore, if_neg hignore]
        rfl

theorem membersText_closing (obj : SerObject) (fields : List SerField) :
    ∃ c rest, (c = 44 ∨ c = 125) ∧ membersText obj false fields ++ [125] = c :: rest := by
  by_cases h : ∃ f ∈ fields, f.ignore = false
  · rw [membersText_false h]
    exact ⟨44, _, .inl rfl, rfl⟩
  · refine ⟨125, [], .inr rfl, ?_⟩
    have hnone : ∀ f ∈ fields, f.ignore = true := by
      intro f hf
      by_contra hne
      exact h ⟨f, hf, by simpa using hne⟩
    induction fields with
    | nil => rfl
    | cons f fields ih =>
        obtain ⟨hf, hnone⟩ := List.forall_mem_cons.mp hnone
        rw [membersText, if_pos hf]
        refine ih (fun hactive => ?_) hnone
        obtain ⟨g, hg, hgignore⟩ := hactive
        exact absurd ((hnone g hg).symm.trans hgignore) (by decide)

/-! ## The search -/

section Search

variable {obj : SerObject} {name : CStr} (hname : IdentifierLike name)
include hname

/-- The search runs over the value of another member, unless its string ends in the name. -/
theorem strstr_value {f : SerField} (hignore : f.ignore = false) {c : UInt8}
    (hc : c = 44 ∨ c = 125) (rest : CStr) :
    strstr (34 :: 58 :: (valueText obj f ++ c :: rest)) (namePattern name) =
      if EndsInName obj name f then some (34 :: (name ++ 34 :: c :: rest))
      else strstr rest (namePattern name) := by
  have hplain := hname.plainName
  have hpunct : c = 44 ∨ c = 58 ∨ c = 125 := by tauto
  have hquote : c ≠ 34 := by
    rcases hc with rfl | rfl
    · decide
    · decide
  rw [strstr_punctuation hplain (.inr (.inl rfl))]
  by_cases htype : f.type = .string
  · have hvalue : valueText obj f ++ c :: rest =
        34 :: ((obj.strings f.offset).flatMap escapeByte ++ 34 :: c :: rest) := by
      simp [valueText, htype]
    have hiff : afterLastQuote (obj.strings f.offset) = name ↔ EndsInName obj name f := by
      simp [EndsInName, hignore, htype]
    rw [hvalue, escapes_escapeByte.strstr_string hplain hname.not_escaped,
      strstr_punctuation hplain hpunct]
    exact if_congr hiff rfl rfl
  · have hbare : 34 ∉ valueText obj f := by
      have hint : ∀ z, 34 ∉ decimalInt z := by
        intro z hmem
        rcases isDigit_of_mem_decimalInt hmem with h | h
        · exact absurd h (by decide)
        · exact absurd h (by decide)
      rw [valueText]
      cases hcases : f.type with
      | int => exact hint _
      | int64 => exact hint _
      | string => exact absurd hcases htype
      | bool =>
          dsimp only
          split
          · decide
          · decide
    have hno : ¬EndsInName obj name f := fun h => htype h.2.1
    rw [if_neg hno, namePattern, strstr_append_of_not_mem hbare, strstr_cons_of_ne hquote]

theorem strstr_membersText {l₁ l₂ : List SerField} {f : SerField} (hf : f.ignore = false)
    (hfname : f.jsonName = name) (hnames : ∀ g ∈ l₁, g.jsonName ≠ name)
    (hquotes : ∀ g ∈ l₁, 34 ∉ g.jsonName) :
    (∃ rest, strstr (membersText obj true (l₁ ++ f :: l₂) ++ [125]) (namePattern name) =
        some (34 :: (name ++ 34 :: 44 :: 34 :: rest)) ∧ ∃ g ∈ l₁, EndsInName obj name g) ∨
      (∃ c rest, (c = 44 ∨ c = 125) ∧
        strstr (membersText obj true (l₁ ++ f :: l₂) ++ [125]) (namePattern name) =
          some (34 :: (name ++ 34 :: 58 :: (valueText obj f ++ c :: rest))) ∧
        ¬∃ g ∈ l₁, EndsInName obj name g) := by
  induction l₁ with
  | nil =>
      obtain ⟨c, rest, hc, hclosing⟩ := membersText_closing obj l₂
      refine .inr ⟨c, rest, hc, ?_, by simp⟩
      have htext : membersText obj true ([] ++ f :: l₂) ++ [125] =
          34 :: (name ++ 34 :: 58 :: (valueText obj f ++ c :: rest)) := by
        rw [List.nil_append, membersText, if_neg (by simp [hf]), ← hclosing, memberText, hfname]
        simp
      rw [htext]
      refine strstr_eq_self ⟨58 :: (valueText obj f ++ c :: rest), ?_⟩
      simp [namePattern]
  | cons g l₁ ih =>
      obtain ⟨hg, hnames⟩ := List.forall_mem_cons.mp hnames
      obtain ⟨hgquote, hquotes⟩ := List.forall_mem_cons.mp hquotes
      have ih := ih hnames hquotes
      rw [List.cons_append, membersText]
      by_cases hignore : g.ignore = true
      · have hno : ¬EndsInName obj name g := fun h => absurd (hignore.symm.trans h.1) (by decide)
        simpa [hignore, hno] using ih
      · have hgactive : g.ignore = false := by simpa using hignore
        have hactive : ∃ f' ∈ l₁ ++ f :: l₂, f'.ignore = false := ⟨f, by simp, hf⟩
        obtain ⟨rest, hrest⟩ : ∃ rest, membersText obj true (l₁ ++ f :: l₂) = 34 :: rest :=
          membersText_true hactive
        have htext : (if true then [] else [44]) ++ memberText obj g ++
            membersText obj false (l₁ ++ f :: l₂) ++ [125] =
            34 :: (g.jsonName ++ 34 :: 58 :: (valueText obj g ++
              44 :: (membersText obj true (l₁ ++ f :: l₂) ++ [125]))) := by
          rw [membersText_false hactive, memberText]
          simp
        rw [if_neg hignore, htext, strstr_segment hname.plainName.quote_not_mem hgquote,
          if_neg hg, strstr_value hname hgactive (.inl rfl)]
        by_cases hends : EndsInName obj name g
        · rw [if_pos hends, hrest]
          exact .inl ⟨rest ++ [125], rfl, g, List.mem_cons_self, hends⟩
        · rw [if_neg hends]
          simpa [hends] using ih

end Search

/-! ## One field -/

/-- What is stored for a text that does not begin with the separators of the reader. -/
theorem serFindJsonValue_eq {json name value : CStr} (hlen : name.length < serMaxName)
    (hfound : strstr json (namePattern name) = some (34 :: (name ++ 34 :: value))) :
    serFindJsonValue json name = some (value.dropWhile fun b => b = 32 ∨ b = 58) := by
  have hpattern : snprintf (34 :: (name ++ [34])) 128 = namePattern name := by
    refine snprintf_of_lt ?_
    rw [serMaxName] at hlen
    simp only [List.length_cons, List.length_append, List.length_nil]
    omega
  have hdrop : (34 :: (name ++ 34 :: value)).drop (name.length + 2) = value := by
    have hsplit : 34 :: (name ++ 34 :: value) = namePattern name ++ value := by
      simp [namePattern]
    rw [hsplit]
    exact List.drop_left' (by simp [namePattern])
  rw [serFindJsonValue, hpattern, hfound]
  dsimp only
  rw [hdrop]

theorem storeValue_comma (f : SerField) (rest : CStr) (obj₀ obj : SerObject) :
    SameValue f (storeValue f (44 :: 34 :: rest) obj₀) obj ↔
      match f.type with
      | .int => obj.ints f.offset = 0
      | .int64 => obj.int64s f.offset = 0
      | .string => obj.strings f.offset = [44]
      | .bool => obj.bools f.offset = false := by
  have hcopy : ∀ size, copyValue (44 :: 34 :: rest) size = [] := by
    intro size
    simp [copyValue, valueLength]
  rw [SameValue, storeValue]
  cases f.type with
  | int =>
      have hzero : Int32.ofInt (atoi []) = 0 := by decide
      simp only [hcopy, hzero, Function.update_self]
      exact eq_comm
  | int64 =>
      simp only [Function.update_self]
      exact eq_comm
  | string =>
      have hcut : (cutAtQuote (44 :: 34 :: rest)).take 254 = [44] := by
        simp [cutAtQuote]
      simp only [List.head?_cons, Option.some.injEq, Function.update_self]
      rw [if_neg (by decide), hcut]
      exact eq_comm
  | bool =>
      have hfalse : (([] : CStr) == lit "true") = false := by decide
      simp only [hcopy, hfalse, Function.update_self]
      exact eq_comm

def BareWord (word : CStr) : Prop :=
  word ≠ [] ∧ ∀ b ∈ word, b ≠ 32 ∧ b ≠ 34 ∧ b ≠ 44 ∧ b ≠ 58 ∧ b ≠ 91 ∧ b ≠ 93 ∧ b ≠ 123 ∧ b ≠ 125

theorem bareWord_decimalInt (z : Int) : BareWord (decimalInt z) := by
  constructor
  · rw [decimalInt]
    split
    · simp
    · exact decimal_ne_nil _
  · intro b hb
    have hdigit : ∀ b : UInt8, b = 45 ∨ isDigit b = true → b ≠ 32 ∧ b ≠ 34 ∧ b ≠ 44 ∧ b ≠ 58 ∧
        b ≠ 91 ∧ b ≠ 93 ∧ b ≠ 123 ∧ b ≠ 125 := by
      refine fun b => forall_byte (motive := fun b => b = 45 ∨ isDigit b = true → b ≠ 32 ∧
        b ≠ 34 ∧ b ≠ 44 ∧ b ≠ 58 ∧ b ≠ 91 ∧ b ≠ 93 ∧ b ≠ 123 ∧ b ≠ 125) ?_ b
      decide +kernel
    exact hdigit b (isDigit_of_mem_decimalInt hb)

theorem bareWord_bool (b : Bool) : BareWord (if b then lit "true" else lit "false") := by
  have htrue : ∀ c ∈ lit "true", c ≠ 32 ∧ c ≠ 34 ∧ c ≠ 44 ∧ c ≠ 58 ∧ c ≠ 91 ∧ c ≠ 93 ∧ c ≠ 123 ∧
      c ≠ 125 := by decide +kernel
  have hfalse : ∀ c ∈ lit "false", c ≠ 32 ∧ c ≠ 34 ∧ c ≠ 44 ∧ c ≠ 58 ∧ c ≠ 91 ∧ c ≠ 93 ∧
      c ≠ 123 ∧ c ≠ 125 := by decide +kernel
  cases b with
  | true => exact ⟨by decide, htrue⟩
  | false => exact ⟨by decide, hfalse⟩

theorem BareWord.copyValue_eq {word : CStr} (h : BareWord word) {size : Nat}
    (hsize : word.length < size) {c : UInt8} (hc : c = 44 ∨ c = 125) (rest : CStr) :
    copyValue (word ++ c :: rest) size = word := by
  have hstop : ∀ b ∈ word, decide (b ≠ 44 ∧ b ≠ 125 ∧ b ≠ 93) = true := by
    intro b hb
    obtain ⟨-, -, h44, -, -, h93, -, h125⟩ := h.2 b hb
    exact decide_eq_true ⟨h44, h125, h93⟩
  have htake : (word ++ c :: rest).takeWhile (fun b => b ≠ 44 ∧ b ≠ 125 ∧ b ≠ 93) = word := by
    rw [List.takeWhile_append_of_pos hstop, List.takeWhile_cons_of_neg, List.append_nil]
    rcases hc with rfl | rfl
    · decide
    · decide
  have hlength : valueLength (word ++ c :: rest) = word.length := by
    cases word with
    | nil => exact absurd rfl h.1
    | cons b word =>
        obtain ⟨-, h34, -, -, h91, -, h123, -⟩ := h.2 b List.mem_cons_self
        rw [List.cons_append] at htake ⊢
        rw [valueLength, if_neg h34, if_neg h123, if_neg h91, htake]
  rw [copyValue, hlength, Nat.min_eq_left (by omega), List.take_left]

theorem BareWord.dropWhile_eq {word : CStr} (h : BareWord word) (rest : CStr) :
    (58 :: (word ++ rest)).dropWhile (fun b => b = 32 ∨ b = 58) = word ++ rest := by
  cases word with
  | nil => exact absurd rfl h.1
  | cons b word =>
      obtain ⟨h32, -, -, h58, -⟩ := h.2 b List.mem_cons_self
      simp [h32, h58]

theorem dropWhile_valueText (obj : SerObject) (f : SerField) (rest : CStr) :
    (58 :: (valueText obj f ++ rest)).dropWhile (fun b => b = 32 ∨ b = 58) =
      valueText obj f ++ rest := by
  rw [valueText]
  cases f.type with
  | int => exact (bareWord_decimalInt _).dropWhile_eq rest
  | int64 => exact (bareWord_decimalInt _).dropWhile_eq rest
  | string => simp
  | bool => exact (bareWord_bool _).dropWhile_eq rest

theorem atoi_decimalInt (x : Int32) : atoi (decimalInt x.toInt) = x.toInt := by
  have hlo := x.le_toInt
  have hhi := x.toInt_lt
  have hatoll : atoll (decimalInt x.toInt ++ []) = x.toInt :=
    atoll_decimalInt_append (by omega) (by omega) (by simp)
  rw [List.append_nil] at hatoll
  rw [atoi, hatoll]
  omega

/-- Out of its own text the reader makes the value of the field, unless it is an `int64_t` or a
string with bytes that are escaped. -/
theorem storeValue_own {f : SerField} {obj : SerObject} (hshort : f.type = .string →
      ((obj.strings f.offset).flatMap escapeByte).length < 250)
    {c : UInt8} (hc : c = 44 ∨ c = 125) (rest : CStr) (obj₀ : SerObject) :
    SameValue f (storeValue f (valueText obj f ++ c :: rest) obj₀) obj ↔
      match f.type with
      | .int => True
      | .int64 => obj.int64s f.offset = 0
      | .string => ∀ b ∈ obj.strings f.offset, escapeByte b = [b]
      | .bool => True := by
  rw [SameValue, storeValue, valueText]
  cases htype : f.type with
  | int =>
      have hlo := (obj.ints f.offset).le_toInt
      have hhi := (obj.ints f.offset).toInt_lt
      have hlen := length_decimalInt_le (z := (obj.ints f.offset).toInt) (k := 10) (by omega)
        (by omega)
      have hcopy := (bareWord_decimalInt (obj.ints f.offset).toInt).copyValue_eq
        (by omega : _ < 32) hc rest
      simp only [hcopy, atoi_decimalInt, Int32.ofInt_toInt, Function.update_self]
  | int64 =>
      simp only [Function.update_self]
      exact eq_comm
  | string =>
      have hlen := hshort htype
      have hcut := length_cutAtQuote_le ((obj.strings f.offset).flatMap escapeByte) (c :: rest)
      simp only [List.cons_append, List.head?_cons, if_true, List.tail_cons, Function.update_self,
        List.append_assoc, List.nil_append]
      rw [List.take_of_length_le (by omega)]
      exact escapes_escapeByte.cutAtQuote_eq_iff _ _
  | bool =>
      have hlen : (if obj.bools f.offset then lit "true" else lit "false").length < 8 := by
        split
        · decide
        · decide
      have hcopy := (bareWord_bool (obj.bools f.offset)).copyValue_eq hlen hc rest
      simp only [hcopy, Function.update_self]
      cases obj.bools f.offset with
      | true => decide
      | false => decide

/-! ## All fields -/

theorem sameValue_foldl {json : CStr} {f : SerField} {fields : List SerField}
    (hoffset : ∀ g ∈ fields, g.offset ≠ f.offset) (obj₀ obj : SerObject) :
    SameValue f (fields.foldl (readField json) obj₀) obj ↔ SameValue f obj₀ obj := by
  induction fields generalizing obj₀ with
  | nil => rfl
  | cons g fields ih =>
      obtain ⟨hg, hoffset⟩ := List.forall_mem_cons.mp hoffset
      have hread : SameValue f (readField json obj₀ g) obj ↔ SameValue f obj₀ obj := by
        rw [readField]
        split
        · rfl
        · split
          · rfl
          · rw [SameValue, SameValue, storeValue]
            cases f.type <;> cases g.type <;> simp [Ne.symm hg]
      rw [List.foldl_cons, ih hoffset, hread]

theorem sameValue_serFromJson {s : Serializer} {l₁ l₂ : List SerField} {f : SerField}
    (hsplit : s.fields = l₁ ++ f :: l₂) (hnodup : (s.fields.map SerField.offset).Nodup)
    (hignore : f.ignore = false) {json value : CStr}
    (hvalue : serFindJsonValue json f.jsonName = some value) (obj : SerObject) :
    ∃ obj₀, SameValue f (serFromJson s zeroed json) obj ↔
      SameValue f (storeValue f value obj₀) obj := by
  have hoffset : ∀ g ∈ l₂, g.offset ≠ f.offset := by
    intro g hg heq
    rw [hsplit, List.map_append, List.map_cons] at hnodup
    have hnot := (List.nodup_cons.mp (List.nodup_append.mp hnodup).2.1).1
    exact hnot (heq ▸ List.mem_map_of_mem hg)
  refine ⟨l₁.foldl (readField json) zeroed, ?_⟩
  rw [serFromJson, hsplit, List.foldl_append, List.foldl_cons, sameValue_foldl hoffset, readField,
    if_neg (by simp [hignore]), hvalue]

theorem sameValue_iff {s : Serializer} {obj : SerObject} (h : Serializable s obj) {f : SerField}
    (hf : f ∈ s.fields) (hignore : f.ignore = false) :
    SameValue f (serFromJson s zeroed (jsonText s obj)) obj ↔ Survives s obj f := by
  obtain ⟨l₁, l₂, hsplit, hl₁⟩ := List.eq_append_cons_of_mem hf
  have hbefore : s.fields.takeWhile (· ≠ f) = l₁ := by
    rw [hsplit, List.takeWhile_append_of_pos, List.takeWhile_cons_of_neg (by simp),
      List.append_nil]
    intro g hg
    have hne : g ≠ f := fun heq => hl₁ (heq ▸ hg)
    exact decide_eq_true hne
  have hshadowed : Shadowed s obj f ↔ ∃ g ∈ l₁, EndsInName obj f.jsonName g := by
    rw [Shadowed, hbefore]
  obtain ⟨hname, hlen⟩ := h.identifier f hf
  have hnames : ∀ g ∈ l₁, g.jsonName ≠ f.jsonName := by
    intro g hg heq
    have hnodup := h.names_nodup
    rw [hsplit, List.map_append, List.map_cons] at hnodup
    exact (List.nodup_append.mp hnodup).2.2 _ (List.mem_map_of_mem hg) _ List.mem_cons_self heq
  have hquotes : ∀ g ∈ l₁, 34 ∉ g.jsonName := fun g hg =>
    (h.identifier g (by simp [hsplit, hg])).1.plainName.quote_not_mem
  have hsearch : strstr (jsonText s obj) (namePattern f.jsonName) =
      strstr (membersText obj true (l₁ ++ f :: l₂) ++ [125]) (namePattern f.jsonName) := by
    rw [jsonText, namePattern, strstr_cons_of_ne (by decide), hsplit]
  rw [Survives]
  rcases strstr_membersText hname hignore rfl hnames hquotes with
    ⟨rest, hfound, hends⟩ | ⟨c, rest, hc, hfound, hends⟩
  · have hvalue := serFindJsonValue_eq hlen (hsearch.trans hfound)
    rw [List.dropWhile_cons_of_neg (by decide)] at hvalue
    obtain ⟨obj₀, hread⟩ := sameValue_serFromJson hsplit h.offsets_nodup hignore hvalue obj
    have hshadow := hshadowed.mpr hends
    rw [hread, storeValue_comma]
    cases f.type <;> simp [hshadow]
  · have hvalue := serFindJsonValue_eq hlen (hsearch.trans hfound)
    rw [dropWhile_valueText] at hvalue
    obtain ⟨obj₀, hread⟩ := sameValue_serFromJson hsplit h.offsets_nodup hignore hvalue obj
    have hshadow : ¬Shadowed s obj f := fun hs => hends (hshadowed.mp hs)
    rw [hread, storeValue_own (h.short f hf) hc]
    cases f.type <;> simp [hshadow]

/-- The round trip works exactly for the fields whose values survive it. -/
theorem readsBack_iff {s : Serializer} {obj : SerObject} (h : Serializable s obj) {maxLen : Nat}
    {json : CStr} (hjson : serToJson s obj maxLen = some json) :
    ReadsBack s obj json ↔ ∀ f ∈ s.fields, f.ignore = false → Survives s obj f := by
  rw [serToJson_eq h hjson, ReadsBack]
  exact forall₃_congr fun f hf hignore => sameValue_iff h hf hignore

/-- A string, an `int` and a `bool`. -/
def userFields : Serializer :=
  serAddBool (serAddInt (serAddString serInit (lit "name") 0 none) (lit "age") 64 none)
    (lit "admin") 68 (some (lit "is_admin"))

def user : SerObject where
  ints := fun _ => -7
  int64s := fun _ => 0
  bools := fun _ => true
  strings := fun _ => lit "Ann Lee"

theorem readsBack_iff_user :
    ReadsBack userFields user
      (lit "\x7b\"name\":\"Ann Lee\",\"age\":-7,\"is_admin\":true\x7d") := by
  have hjson : serToJson userFields user 128 =
      some (lit "\x7b\"name\":\"Ann Lee\",\"age\":-7,\"is_admin\":true\x7d") := by decide +kernel
  have hshort : ∀ f ∈ userFields.fields, f.type = .string →
      ((user.strings f.offset).flatMap escapeByte).length < 250 := by decide +kernel
  refine (readsBack_iff ⟨by decide +kernel, by decide +kernel, by decide +kernel, hshort⟩
    hjson).mpr ?_
  have hage : ¬Shadowed userFields user ⟨lit "age", lit "age", .int, 64, false⟩ := by
    decide +kernel
  have hadmin : ¬Shadowed userFields user ⟨lit "admin", lit "is_admin", .bool, 68, false⟩ := by
    decide +kernel
  have hname : if Shadowed userFields user ⟨lit "name", lit "name", .string, 0, false⟩ then
      lit "Ann Lee" = [44] else ∀ b ∈ lit "Ann Lee", escapeByte b = [b] := by decide +kernel
  intro f hf _
  have hfields : userFields.fields = [⟨lit "name", lit "name", .string, 0, false⟩,
      ⟨lit "age", lit "age", .int, 64, false⟩,
      ⟨lit "admin", lit "is_admin", .bool, 68, false⟩] := by decide +kernel
  rw [hfields] at hf
  simp only [List.mem_cons, List.not_mem_nil, or_false] at hf
  rcases hf with rfl | rfl | rfl
  · exact hname
  · exact fun hshadow => absurd hshadow hage
  · exact fun hshadow => absurd hshadow hadmin

def idField : Serializer := serAddInt64 serInit (lit "id") 0 none

theorem id_is_not_read_back :
    ¬∀ s obj maxLen json, Serializable s obj → serToJson s obj maxLen = some json →
      ReadsBack s obj json := by
  intro h
  have hjson : serToJson idField { zeroed with int64s := fun _ => 42 } 64 =
      some (lit "\x7b\"id\":42\x7d") := by decide +kernel
  have hshort : ∀ f ∈ idField.fields, f.type = .string →
      ((zeroed.strings f.offset).flatMap escapeByte).length < 250 := by decide +kernel
  have hread : SameValue ⟨lit "id", lit "id", .int64, 0, false⟩
      (serFromJson idField zeroed (lit "\x7b\"id\":42\x7d"))
      { zeroed with int64s := fun _ => 42 } :=
    h idField { zeroed with int64s := fun _ => 42 } 64 (lit "\x7b\"id\":42\x7d")
      ⟨by decide +kernel, by decide +kernel, by decide +kernel, hshort⟩ hjson
      ⟨lit "id", lit "id", .int64, 0, false⟩ (by decide +kernel) rfl
  have hzero : (serFromJson idField zeroed (lit "\x7b\"id\":42\x7d")).int64s 0 = 0 := by
    decide +kernel
  simp only [SameValue, hzero] at hread
  exact absurd hread (by decide)

end MiniBackend.Framework.Proofs.SerializerRoundTrip
