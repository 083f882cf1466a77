import MiniBackend.WebServer.Proofs.JsonReading

/-!
# Why the condition is needed

Every text that is parsed as a value weighs at least as much as the value, when digits are
free and a backslash counts twice.  The text that the serializer writes weighs no more than
the value, and less when it leaves a key without an escape that it needs; such a text is
therefore not parsed as the value.
-/

namespace MiniBackend.WebServer.Proofs.JsonRoundTrip

section JsonWeight

open MiniBackend.Lib.Binary64 MiniBackend.Lib.CArray MiniBackend.Lib.CString
open MiniBackend.WebServer.Json MiniBackend.WebServer.Proofs.JsonText
open MiniBackend.WebServer.Proofs.JsonTokens MiniBackend.WebServer.Proofs.JsonGrammar
open MiniBackend.WebServer.Proofs.JsonReading

/-! ## Texts -/

def byteWeight (b : UInt8) : Nat :=
  if isDigit b then 0 else if b = backslash then 2 else 1

def weight (s : CStr) : Nat := (s.map byteWeight).sum

@[simp]
theorem weight_nil : weight [] = 0 := rfl

@[simp]
theorem weight_cons (b : UInt8) (s : CStr) : weight (b :: s) = byteWeight b + weight s := by
  rw [weight, List.map_cons, List.sum_cons, weight]

@[simp]
theorem weight_append (s t : CStr) : weight (s ++ t) = weight s + weight t := by
  rw [weight, List.map_append, List.sum_append, weight, weight]

theorem weight_of_high {b : UInt8} (h : 128 ≤ b.toNat) : weight (escapeByte b) = 1 := by
  revert h
  apply forall_byte (motive := fun b => 128 ≤ b.toNat → weight (escapeByte b) = 1)
  decide +kernel

/-- An escape by a letter is never lighter than what the serializer writes. -/
theorem weight_escaped {esc b : UInt8} (h : escaped esc = some b) :
    weight (escapeByte b) ≤ weight [backslash, esc] := by
  have hall : (escaped esc).all fun b => weight (escapeByte b) ≤ weight [backslash, esc] := by
    apply forall_byte (motive := fun esc => (escaped esc).all fun b =>
      weight (escapeByte b) ≤ weight [backslash, esc])
    decide +kernel
  rw [h] at hall
  exact of_decide_eq_true hall

theorem byteWeight_hex {h : UInt8} {d : Nat} (hd : hexValue h = some d) :
    d < 16 ∧ (if 10 ≤ d then 1 else 0) ≤ byteWeight h := by
  have hall : ∀ d ∈ hexValue h, d < 16 ∧ (if 10 ≤ d then 1 else 0) ≤ byteWeight h := by
    apply forall_byte (motive := fun h => ∀ d ∈ hexValue h,
      d < 16 ∧ (if 10 ≤ d then 1 else 0) ≤ byteWeight h)
    decide +kernel
  exact hall d hd

/-- The last digit of an ASCII character that is escaped by a letter, and of a control
character, can be a letter too. -/
theorem weight_utf8 {cp : Nat} (h : cp < 65536) :
    weight ((utf8 cp).flatMap escapeByte) ≤ 3 + if 10 ≤ cp % 16 then 1 else 0 := by
  unfold utf8
  split
  next hascii =>
    have hall : ∀ n : Fin 128, weight ([UInt8.ofNat n.val].flatMap escapeByte) ≤
        3 + if 10 ≤ n.val % 16 then 1 else 0 := by decide
    exact hall ⟨cp, hascii⟩
  split
  next htwo =>
    have h₁ : weight (escapeByte (UInt8.ofNat (192 + cp / 64))) = 1 :=
      weight_of_high (by rw [UInt8.toNat_ofNat']; omega)
    have h₂ : weight (escapeByte (UInt8.ofNat (128 + cp % 64))) = 1 :=
      weight_of_high (by rw [UInt8.toNat_ofNat']; omega)
    simp only [List.flatMap_cons, List.flatMap_nil, weight_append, h₁, h₂, weight_nil]
    omega
  next =>
    have h₁ : weight (escapeByte (UInt8.ofNat (224 + cp / 4096))) = 1 :=
      weight_of_high (by rw [UInt8.toNat_ofNat']; omega)
    have h₂ : weight (escapeByte (UInt8.ofNat (128 + cp / 64 % 64))) = 1 :=
      weight_of_high (by rw [UInt8.toNat_ofNat']; omega)
    have h₃ : weight (escapeByte (UInt8.ofNat (128 + cp % 64))) = 1 :=
      weight_of_high (by rw [UInt8.toNat_ofNat']; omega)
    simp only [List.flatMap_cons, List.flatMap_nil, weight_append, h₁, h₂, h₃, weight_nil]
    omega

theorem weight_unicode {h₁ h₂ h₃ h₄ : UInt8} {cp : Nat} (h : codePoint h₁ h₂ h₃ h₄ = some cp) :
    weight ((utf8 cp).flatMap escapeByte) ≤ weight [backslash, 117, h₁, h₂, h₃, h₄] := by
  unfold codePoint at h
  obtain ⟨d₁, hd₁, h⟩ := Option.bind_eq_some_iff.mp h
  obtain ⟨d₂, hd₂, h⟩ := Option.bind_eq_some_iff.mp h
  obtain ⟨d₃, hd₃, h⟩ := Option.bind_eq_some_iff.mp h
  obtain ⟨d₄, hd₄, h⟩ := Option.bind_eq_some_iff.mp h
  cases h
  have hlt₁ := (byteWeight_hex hd₁).1
  have hlt₂ := (byteWeight_hex hd₂).1
  have hlt₃ := (byteWeight_hex hd₃).1
  obtain ⟨hlt₄, hletter⟩ := byteWeight_hex hd₄
  have hle := @weight_utf8 (((d₁ * 16 + d₂) * 16 + d₃) * 16 + d₄) (by omega)
  have hlast : (((d₁ * 16 + d₂) * 16 + d₃) * 16 + d₄) % 16 = d₄ := by omega
  have hescape : byteWeight backslash + byteWeight 117 = 3 := rfl
  rw [hlast] at hle
  simp only [weight_cons, weight_nil]
  omega

theorem weight_spellsString {text : List UInt8} {bytes : CStr} (h : SpellsString text bytes) :
    weight (text.flatMap escapeByte) ≤ weight bytes := by
  induction h with
  | nil => exact Nat.le_refl 0
  | @escaped esc b text bytes hesc _ ih =>
      have hle := weight_escaped hesc
      simp only [List.flatMap_cons, weight_append, weight_cons, weight_nil] at hle ⊢
      omega
  | @unicode h₁ h₂ h₃ h₄ cp text bytes hcp _ ih =>
      have hle := weight_unicode hcp
      simp only [List.flatMap_append, weight_append, weight_cons, weight_nil] at hle ⊢
      omega
  | @plain b text bytes hb _ ih =>
      rw [List.flatMap_cons, escapeByte_of_plain hb]
      simp only [weight_append, weight_cons, weight_nil]
      omega

/-! ## Values -/

mutual

/-- The weight of a value: that of its text with all escapes.  In an array and in an object a
comma or the closing bracket stands behind each entry. -/
def valueWeight : JsonValue → Nat
  | .null => weight (lit "null")
  | .bool value => if value then weight (lit "true") else weight (lit "false")
  | .number value => if value.negative then 1 else 0
  | .string s => weight (stringText s)
  | .array items => 1 + max 1 (itemsWeight items)
  | .object members => 1 + max 1 (membersWeight members)

def itemsWeight : List JsonValue → Nat
  | [] => 0
  | val :: items => valueWeight val + 1 + itemsWeight items

def membersWeight : List (CStr × JsonValue) → Nat
  | [] => 0
  | (key, val) :: members =>
      weight (stringText key) + 1 + valueWeight val + 1 + membersWeight members

end

theorem itemsWeight_append (items : List JsonValue) (val : JsonValue) :
    itemsWeight (items ++ [val]) = itemsWeight items + (valueWeight val + 1) := by
  induction items with
  | nil => simp only [List.nil_append, itemsWeight, Nat.zero_add, Nat.add_zero]
  | cons first items ih =>
      rw [List.cons_append, itemsWeight, ih, itemsWeight]
      omega

theorem membersWeight_append (members : List (CStr × JsonValue)) (key : CStr) (val : JsonValue) :
    membersWeight (members ++ [(key, val)]) =
      membersWeight members + (weight (stringText key) + 1 + valueWeight val + 1) := by
  induction members with
  | nil => simp only [List.nil_append, membersWeight, Nat.zero_add, Nat.add_zero]
  | cons m members ih =>
      rw [List.cons_append, membersWeight, ih, membersWeight]
      omega

/-! ## Parsing -/

def tokenWeight : JsonToken → Nat
  | .lbrace | .rbrace | .lbracket | .rbracket | .comma | .colon => 1
  | .string text => weight (stringText text)
  | .number value => if value.negative then 1 else 0
  | .true => weight (lit "true")
  | .false => weight (lit "false")
  | .null => weight (lit "null")
  | .eof => 0

theorem tokenWeight_le {tok : JsonToken} {bytes : CStr} (h : Spells tok bytes) :
    tokenWeight tok ≤ weight bytes := by
  cases h with
  | string hspells =>
      have hle := weight_spellsString hspells
      simp only [tokenWeight, stringText, List.cons_append, List.nil_append, weight_cons,
        weight_append, weight_nil]
      omega
  | @number bytes =>
      rw [tokenWeight]
      split
      next hnegative =>
        -- a number is negative when its spelling starts with a minus sign
        cases bytes with
        | nil => cases hnegative
        | cons c bytes =>
            have hc : c = 45 := by simpa [strtod] using hnegative
            rw [hc, weight_cons]
            exact Nat.le_add_right 1 _
      next => exact Nat.zero_le _
  | _ => decide

def parserWeight (p : JsonParser) : Nat :=
  match p.current with
  | none => 0
  | some tok => tokenWeight tok + weight p.rest

theorem parserWeight_of_current {p : JsonParser} {tok : JsonToken} (h : p.current = some tok) :
    parserWeight p = tokenWeight tok + weight p.rest := by
  rw [parserWeight, h]

theorem parserWeight_parserAdvance_le (p : JsonParser) :
    parserWeight (parserAdvance p) ≤ weight p.rest := by
  unfold parserAdvance
  split
  next tok rest hnext =>
    rcases spells_of_jsonTokenizerNext hnext with ⟨rfl, rfl⟩ | ⟨blanks, bytes, hinput, hspells⟩
    · exact Nat.zero_le _
    · have hle := tokenWeight_le hspells
      rw [parserWeight, hinput, weight_append, weight_append]
      dsimp only
      omega
  next => exact Nat.zero_le _

theorem tokenWeight_add_le {p : JsonParser} {tok : JsonToken} (h : p.current = some tok) :
    tokenWeight tok + parserWeight (parserAdvance p) ≤ parserWeight p := by
  rw [parserWeight_of_current h]
  exact Nat.add_le_add_left (parserWeight_parserAdvance_le p) _

theorem weight_takeWhile_le (f : UInt8 → Bool) (s : List UInt8) :
    weight ((s.takeWhile f).flatMap escapeByte) ≤ weight (s.flatMap escapeByte) := by
  have hsplit : s.takeWhile f ++ s.dropWhile f = s := List.takeWhile_append_dropWhile
  conv_rhs => rw [← hsplit]
  rw [List.flatMap_append, weight_append]
  exact Nat.le_add_right _ _

theorem weight_stringText_ofBuffer_le (text : List UInt8) :
    weight (stringText (ofBuffer text)) ≤ weight (stringText text) := by
  have hle := weight_takeWhile_le (· ≠ 0) text
  simp only [stringText, List.cons_append, List.nil_append, weight_cons, weight_append, weight_nil]
  exact Nat.add_le_add_left (Nat.add_le_add_right hle _) _

theorem valueWeight_le_tokenWeight {tok : JsonToken} {val : JsonValue}
    (h : tokenValue tok = some val) : valueWeight val ≤ tokenWeight tok := by
  cases tok with
  | string text =>
      cases h
      exact weight_stringText_ofBuffer_le text
  | number | true | false | null =>
      cases h
      exact Nat.le_refl _
  | _ => cases h

/-- What the entries that are read already weigh, with the opening bracket. -/
def phaseWeight : Phase → Nat
  | .value => 0
  | .items acc => 1 + itemsWeight acc
  | .members acc => 1 + membersWeight acc

/-- A text weighs at least as much as the value that is read from it. -/
theorem valueWeight_le_of_parsed {phase : Phase} {depth : Nat} {p p' : JsonParser}
    {val : JsonValue} (h : Parsed phase depth p val p') :
    valueWeight val + parserWeight p' ≤ phaseWeight phase + parserWeight p := by
  induction h with
  | token hcurrent hval =>
      have hle := valueWeight_le_tokenWeight hval
      have htoken := tokenWeight_add_le hcurrent
      omega
  | emptyArray hcurrent _ hclose =>
      have hopen := tokenWeight_add_le hcurrent
      have hclose := tokenWeight_add_le hclose
      simp only [tokenWeight] at hopen hclose
      rw [valueWeight, itemsWeight]
      omega
  | array hcurrent _ _ ih =>
      have hopen := tokenWeight_add_le hcurrent
      rw [tokenWeight] at hopen
      rw [phaseWeight, itemsWeight] at ih
      omega
  | emptyObject hcurrent _ hclose =>
      have hopen := tokenWeight_add_le hcurrent
      have hclose := tokenWeight_add_le hclose
      simp only [tokenWeight] at hopen hclose
      rw [valueWeight, membersWeight]
      omega
  | object hcurrent _ _ ih =>
      have hopen := tokenWeight_add_le hcurrent
      rw [tokenWeight] at hopen
      rw [phaseWeight, membersWeight] at ih
      omega
  | lastItem _ hclose ih =>
      have hclose := tokenWeight_add_le hclose
      rw [tokenWeight] at hclose
      rw [phaseWeight] at ih
      rw [valueWeight, itemsWeight_append, phaseWeight]
      omega
  | nextItem _ hcomma _ ih ihrest =>
      have hcomma := tokenWeight_add_le hcomma
      rw [tokenWeight] at hcomma
      rw [phaseWeight, itemsWeight_append] at ihrest
      simp only [phaseWeight] at ih ⊢
      omega
  | @lastMember _ acc _ _ text val hkey hcolon _ _ hclose ih =>
      have hset := membersWeight_append acc (ofBuffer text) val
      have htext := weight_stringText_ofBuffer_le text
      have hkey := tokenWeight_add_le hkey
      have hcolon := tokenWeight_add_le hcolon
      have hclose := tokenWeight_add_le hclose
      simp only [tokenWeight] at hkey hcolon hclose
      simp only [phaseWeight] at ih ⊢
      rw [valueWeight]
      omega
  | @nextMember _ acc _ _ _ text val _ hkey hcolon _ _ hcomma _ ih ihrest =>
      have hset := membersWeight_append acc (ofBuffer text) val
      have htext := weight_stringText_ofBuffer_le text
      have hkey := tokenWeight_add_le hkey
      have hcolon := tokenWeight_add_le hcolon
      have hcomma := tokenWeight_add_le hcomma
      simp only [tokenWeight] at hkey hcolon hcomma
      simp only [phaseWeight] at ih ihrest ⊢
      omega

/-! ## The text of the serializer -/

theorem byteWeight_le (b : UInt8) : byteWeight b ≤ weight (escapeByte b) := by
  apply forall_byte (motive := fun b => byteWeight b ≤ weight (escapeByte b))
  decide +kernel

theorem byteWeight_lt {b : UInt8} (h : ¬PlainByte b) : byteWeight b < weight (escapeByte b) := by
  revert h
  apply forall_byte (motive := fun b => ¬PlainByte b → byteWeight b < weight (escapeByte b))
  decide +kernel

theorem weight_le_weight_escape (s : CStr) : weight s ≤ weight (s.flatMap escapeByte) := by
  induction s with
  | nil => exact Nat.le_refl 0
  | cons b s ih =>
      have hb := byteWeight_le b
      rw [weight_cons, List.flatMap_cons, weight_append]
      omega

theorem plain_of_weight_escape_le {s : CStr} (h : weight (s.flatMap escapeByte) ≤ weight s) :
    ∀ b ∈ s, PlainByte b := by
  induction s with
  | nil => nofun
  | cons b s ih =>
      have hb := byteWeight_le b
      have hs := weight_le_weight_escape s
      rw [weight_cons, List.flatMap_cons, weight_append] at h
      rw [List.forall_mem_cons]
      refine ⟨?_, ih (by omega)⟩
      by_contra hplain
      have hlt := byteWeight_lt hplain
      omega

theorem weight_decimal (n : Nat) : weight (decimal n) = 0 := by
  have hdigits : ∀ b ∈ decimal n, byteWeight b = 0 := by
    intro b hb
    rw [byteWeight, if_pos (isDigit_of_mem_decimal hb)]
  rw [weight, List.sum_eq_zero_iff]
  intro w hw
  obtain ⟨b, hb, rfl⟩ := List.mem_map.mp hw
  exact hdigits b hb

def PlainKeysNode : JsonValue → Prop
  | .object members => ∀ m ∈ members, ∀ b ∈ m.1, PlainByte b
  | _ => True

section

variable {formatG17 : Double → CStr}

/-- The text weighs no more than the value, and less unless all keys are plain. -/
def Light (formatG17 : Double → CStr) (val : JsonValue) : Prop :=
  weight (jsonText formatG17 val) ≤ valueWeight val ∧
    (valueWeight val ≤ weight (jsonText formatG17 val) → Every PlainKeysNode val)

theorem light_number {value : Double} (h : OrdinaryNode (.number value)) :
    Light formatG17 (.number value) := by
  obtain ⟨n, hn, hmagnitude⟩ := h
  have hweight : weight (jsonText formatG17 (.number value)) = valueWeight (.number value) := by
    rw [jsonText, numberText_integer hn hmagnitude, weight_append, weight_decimal, valueWeight]
    split
    all_goals rfl
  exact ⟨Nat.le_of_eq hweight, fun _ => trivial⟩

/-- The comma in front of the first entry would weigh as much as the closing bracket. -/
theorem weight_jsonText_array (items : List JsonValue) :
    weight (jsonText formatG17 (.array items)) =
      1 + max 1 (weight (itemsText formatG17 false items)) := by
  have hopen : weight [91] = 1 := rfl
  have hclose : weight [93] = 1 := rfl
  have hcomma : weight [comma] = 1 := rfl
  cases items with
  | nil => rfl
  | cons val items =>
      simp only [jsonText, itemsText, separator, weight_append, hopen, hclose, hcomma, if_true,
        Bool.false_eq_true, if_false, weight_nil]
      omega

theorem weight_jsonText_object (members : List (CStr × JsonValue)) :
    weight (jsonText formatG17 (.object members)) =
      1 + max 1 (weight (membersText formatG17 false members)) := by
  have hopen : weight [123] = 1 := rfl
  have hclose : weight [125] = 1 := rfl
  have hcomma : weight [comma] = 1 := rfl
  cases members with
  | nil => rfl
  | cons m members =>
      simp only [jsonText, membersText, separator, weight_append, hopen, hclose, hcomma, if_true,
        Bool.false_eq_true, if_false, weight_nil]
      omega

theorem light_items {items : List JsonValue} (h : ∀ val ∈ items, Light formatG17 val) :
    weight (itemsText formatG17 false items) ≤ itemsWeight items ∧
      (itemsWeight items ≤ max 1 (weight (itemsText formatG17 false items)) →
        ∀ val ∈ items, Every PlainKeysNode val) := by
  induction items with
  | nil => exact ⟨Nat.le_refl 0, fun _ => nofun⟩
  | cons val items ih =>
      obtain ⟨hval, hvalPlain⟩ := h val List.mem_cons_self
      obtain ⟨hitems, hitemsPlain⟩ := ih fun v hv => h v (List.mem_cons_of_mem val hv)
      have hcomma : weight (separator false) = 1 := rfl
      rw [itemsText, itemsWeight, weight_append, weight_append, hcomma]
      refine ⟨by omega, ?_⟩
      intro hle
      exact List.forall_mem_cons.mpr ⟨hvalPlain (by omega), hitemsPlain (by omega)⟩

theorem light_members {members : List (CStr × JsonValue)}
    (h : ∀ m ∈ members, Light formatG17 m.2) :
    weight (membersText formatG17 false members) ≤ membersWeight members ∧
      (membersWeight members ≤ max 1 (weight (membersText formatG17 false members)) →
        ∀ m ∈ members, (∀ b ∈ m.1, PlainByte b) ∧ Every PlainKeysNode m.2) := by
  induction members with
  | nil => exact ⟨Nat.le_refl 0, fun _ => nofun⟩
  | cons m members ih =>
      obtain ⟨key, val⟩ := m
      obtain ⟨hval, hvalPlain⟩ := h (key, val) List.mem_cons_self
      obtain ⟨hmembers, hmembersPlain⟩ := ih fun v hv => h v (List.mem_cons_of_mem _ hv)
      have hcomma : weight (separator false) = 1 := rfl
      have hkey : weight (keyText key) = weight key + 3 := by
        simp only [keyText, List.cons_append, List.nil_append, weight_cons, weight_append,
          weight_nil, show byteWeight quote = 1 from rfl, show byteWeight colon = 1 from rfl]
        omega
      have hescaped : weight (stringText key) = weight (key.flatMap escapeByte) + 2 := by
        simp only [stringText, List.cons_append, List.nil_append, weight_cons, weight_append,
          weight_nil, show byteWeight quote = 1 from rfl]
        omega
      have hle := weight_le_weight_escape key
      dsimp only at hval hvalPlain
      rw [membersText, membersWeight, weight_append, weight_append, weight_append, hcomma, hkey,
        hescaped]
      refine ⟨by omega, ?_⟩
      intro htotal
      have hplain := plain_of_weight_escape_le (s := key) (by omega)
      exact List.forall_mem_cons.mpr ⟨⟨hplain, hvalPlain (by omega)⟩, hmembersPlain (by omega)⟩

theorem light_of_ordinary (val : JsonValue) (h : Every OrdinaryNode val) :
    Light formatG17 val := by
  induction val using valueInduction with
  | null => exact ⟨Nat.le_refl _, fun _ => trivial⟩
  | bool value =>
      cases value with
      | true => exact ⟨Nat.le_refl _, fun _ => trivial⟩
      | false => exact ⟨Nat.le_refl _, fun _ => trivial⟩
  | number value => exact light_number h
  | string s => exact ⟨Nat.le_refl _, fun _ => trivial⟩
  | array items ih =>
      rw [Every, everyItem_iff] at h
      obtain ⟨hle, hplain⟩ := @light_items formatG17 items fun val hval =>
        ih val hval (h.2 val hval)
      rw [Light, weight_jsonText_array, valueWeight, Every, everyItem_iff]
      refine ⟨by omega, ?_⟩
      intro htotal
      exact ⟨trivial, hplain (by omega)⟩
  | object members ih =>
      rw [Every, everyMember_iff] at h
      obtain ⟨hle, hplain⟩ := @light_members formatG17 members fun m hm => ih m hm (h.2 m hm)
      rw [Light, weight_jsonText_object, valueWeight, Every, everyMember_iff]
      refine ⟨by omega, ?_⟩
      intro htotal
      have hmembers := hplain (by omega)
      exact ⟨fun m hm => (hmembers m hm).1, fun m hm => (hmembers m hm).2⟩

theorem plainKeys_of_parsed {val : JsonValue} (hordinary : Every OrdinaryNode val)
    {depth : Nat} {p' : JsonParser}
    (h : Parsed .value depth (start (jsonText formatG17 val)) val p') :
    Every PlainKeysNode val := by
  have hparsed := valueWeight_le_of_parsed h
  have hstart : parserWeight (start (jsonText formatG17 val)) ≤ weight (jsonText formatG17 val) :=
    parserWeight_parserAdvance_le ⟨none, jsonText formatG17 val⟩
  have hlight : Light formatG17 val := light_of_ordinary val hordinary
  rw [phaseWeight] at hparsed
  apply hlight.2
  omega

end

/-! ## Lengths -/

def ShortNode : JsonValue → Prop
  | .string s => s.length < jsonMaxStringLen - 1
  | .object members => ∀ m ∈ members, m.1.length < jsonMaxStringLen - 1
  | _ => True

def ShortToken (p : JsonParser) : Prop :=
  ∀ text, p.current = some (.string text) → text.length < jsonMaxStringLen - 1

theorem shortToken_parserAdvance (p : JsonParser) : ShortToken (parserAdvance p) := by
  intro text hcurrent
  unfold parserAdvance at hcurrent
  split at hcurrent
  next tok rest hnext =>
    cases hcurrent
    rcases spells_of_jsonTokenizerNext hnext with ⟨heof, _⟩ | ⟨_, _, _, hspells⟩
    · cases heof
    · cases hspells with
      | string _ hlength => exact hlength
  next => cases hcurrent

theorem length_ofBuffer_lt {text : List UInt8} (h : text.length < jsonMaxStringLen - 1) :
    (ofBuffer text).length < jsonMaxStringLen - 1 :=
  Nat.lt_of_le_of_lt (List.takeWhile_prefix _).length_le h

def ShortPhase : Phase → Prop
  | .value => True
  | .items acc => ∀ val ∈ acc, Every ShortNode val
  | .members acc => ∀ m ∈ acc, m.1.length < jsonMaxStringLen - 1 ∧ Every ShortNode m.2

theorem shortPhase_items {acc : List JsonValue} {val : JsonValue} (h : ShortPhase (.items acc))
    (hval : Every ShortNode val) : ShortPhase (.items (acc ++ [val])) := by
  intro v hv
  rcases List.mem_append.mp hv with hacc | hnew
  · exact h v hacc
  · rw [List.mem_singleton.mp hnew]
    exact hval

theorem shortPhase_members {acc : List (CStr × JsonValue)} {text : List UInt8} {val : JsonValue}
    (h : ShortPhase (.members acc)) (htext : text.length < jsonMaxStringLen - 1)
    (hval : Every ShortNode val) :
    ShortPhase (.members (acc ++ [(ofBuffer text, val)])) := by
  intro m hm
  rcases List.mem_append.mp hm with hacc | hnew
  · exact h m hacc
  · rw [List.mem_singleton.mp hnew]
    exact ⟨length_ofBuffer_lt htext, hval⟩

theorem short_of_parsed {phase : Phase} {depth : Nat} {p p' : JsonParser} {val : JsonValue}
    (h : Parsed phase depth p val p') (hp : ShortToken p) (hphase : ShortPhase phase) :
    Every ShortNode val := by
  induction h with
  | @token _ p tok val hcurrent hval =>
      cases tok with
      | string text =>
          cases hval
          exact length_ofBuffer_lt (hp text hcurrent)
      | number | true | false | null =>
          cases hval
          trivial
      | _ => cases hval
  | emptyArray => exact ⟨trivial, trivial⟩
  | array _ _ _ ih => exact ih (shortToken_parserAdvance _) nofun
  | emptyObject => exact ⟨nofun, trivial⟩
  | object _ _ _ ih => exact ih (shortToken_parserAdvance _) nofun
  | lastItem _ _ ih =>
      rw [Every, everyItem_iff]
      exact ⟨trivial, shortPhase_items hphase (ih hp trivial)⟩
  | nextItem _ _ _ ih ihrest =>
      exact ihrest (shortToken_parserAdvance _) (shortPhase_items hphase (ih hp trivial))
  | lastMember hkey _ _ _ _ ih =>
      have hval := ih (shortToken_parserAdvance _) trivial
      have hmembers := shortPhase_members hphase (hp _ hkey) hval
      rw [Every, everyMember_iff]
      exact ⟨fun m hm => (hmembers m hm).1, fun m hm => (hmembers m hm).2⟩
  | nextMember hkey _ _ _ _ _ ih ihrest =>
      have hval := ih (shortToken_parserAdvance _) trivial
      exact ihrest (shortToken_parserAdvance _) (shortPhase_members hphase (hp _ hkey) hval)

end JsonWeight

/-!
# The round trip through text

`json_serialize` followed by `json_parse` gives the value back exactly when every key can
stand in a text as it is and no string or key fills a token.
-/

open MiniBackend.Lib.Binary64 MiniBackend.Lib.CString MiniBackend.WebServer.Json
open MiniBackend.WebServer.Proofs.JsonText MiniBackend.WebServer.Proofs.JsonTokens
open MiniBackend.WebServer.Proofs.JsonGrammar MiniBackend.WebServer.Proofs.JsonReading

/-! ## The text has no zero byte -/

def Nonzero (s : CStr) : Prop := ∀ b ∈ s, b ≠ 0

instance (s : CStr) : Decidable (Nonzero s) := List.decidableBAll (fun b => b ≠ 0) s

theorem nonzero_append {s t : CStr} : Nonzero (s ++ t) ↔ Nonzero s ∧ Nonzero t :=
  List.forall_mem_append

theorem nonzero_escapeByte (b : UInt8) : Nonzero (escapeByte b) := by
  apply forall_byte (motive := fun b => Nonzero (escapeByte b))
  decide +kernel

theorem nonzero_stringText (s : CStr) : Nonzero (stringText s) := by
  have hbytes : Nonzero (s.flatMap escapeByte) := by
    intro c hc
    obtain ⟨b, _, hb⟩ := List.mem_flatMap.mp hc
    exact nonzero_escapeByte b c hb
  have hquote : Nonzero [quote] := by decide
  rw [stringText, nonzero_append, nonzero_append]
  exact ⟨⟨hquote, hbytes⟩, hquote⟩

theorem nonzero_decimal (n : Nat) : Nonzero (decimal n) := by
  rintro b hb rfl
  exact absurd (isDigit_of_mem_decimal hb) (by decide)

section

variable {formatG17 : Double → CStr}

theorem nonzero_itemsText {items : List JsonValue}
    (h : ∀ val ∈ items, Nonzero (jsonText formatG17 val)) (first : Bool) :
    Nonzero (itemsText formatG17 first items) := by
  induction items generalizing first with
  | nil => exact nofun
  | cons val items ih =>
      have hseparator : Nonzero (separator first) := by cases first <;> decide
      rw [itemsText, nonzero_append, nonzero_append]
      exact ⟨⟨hseparator, h val List.mem_cons_self⟩,
        ih (fun v hv => h v (List.mem_cons_of_mem val hv)) false⟩

theorem nonzero_membersText {members : List (CStr × JsonValue)}
    (h : ∀ m ∈ members, Nonzero m.1 ∧ Nonzero (jsonText formatG17 m.2)) (first : Bool) :
    Nonzero (membersText formatG17 first members) := by
  induction members generalizing first with
  | nil => exact nofun
  | cons m members ih =>
      have hseparator : Nonzero (separator first) := by cases first <;> decide
      have hquote : Nonzero [quote] := by decide
      have hend : Nonzero [quote, colon] := by decide
      obtain ⟨hkey, hval⟩ := h m List.mem_cons_self
      rw [membersText, nonzero_append, nonzero_append, nonzero_append, keyText, nonzero_append,
        nonzero_append]
      exact ⟨⟨⟨hseparator, ⟨hquote, hkey⟩, hend⟩, hval⟩,
        ih (fun m' hm' => h m' (List.mem_cons_of_mem m hm')) false⟩

theorem nonzero_jsonText (val : JsonValue) (h : Every OrdinaryNode val) :
    Nonzero (jsonText formatG17 val) := by
  induction val using valueInduction with
  | null =>
      rw [jsonText]
      decide
  | bool value =>
      rw [jsonText]
      cases value <;> decide
  | number value =>
      obtain ⟨n, hn, hmagnitude⟩ := h
      have hsign : Nonzero (if value.negative then [45] else []) := by
        cases value.negative <;> decide
      rw [jsonText, numberText_integer hn hmagnitude, nonzero_append]
      exact ⟨hsign, nonzero_decimal n⟩
  | string s => exact nonzero_stringText s
  | array items ih =>
      have hbrackets : Nonzero [91] ∧ Nonzero [93] := by decide
      rw [Every, everyItem_iff] at h
      rw [jsonText, nonzero_append, nonzero_append]
      exact ⟨⟨hbrackets.1, nonzero_itemsText (fun val hval => ih val hval (h.2 val hval)) true⟩,
        hbrackets.2⟩
  | object members ih =>
      have hbrackets : Nonzero [123] ∧ Nonzero [125] := by decide
      rw [Every, everyMember_iff] at h
      rw [jsonText, nonzero_append, nonzero_append]
      refine ⟨⟨hbrackets.1, nonzero_membersText ?_ true⟩, hbrackets.2⟩
      intro m hm
      exact ⟨h.1.2 m hm, ih m hm (h.2 m hm)⟩

/-! ## The round trip -/

/-- A node is readable when it is short and its keys are plain. -/
theorem readable_of_short_of_plain (val : JsonValue) (hshort : Every ShortNode val)
    (hplain : Every PlainKeysNode val) : Every ReadableNode val := by
  induction val using valueInduction with
  | null | bool | number => trivial
  | string s => exact hshort
  | array items ih =>
      rw [Every, everyItem_iff] at hshort hplain ⊢
      exact ⟨trivial, fun val hval => ih val hval (hshort.2 val hval) (hplain.2 val hval)⟩
  | object members ih =>
      rw [Every, everyMember_iff] at hshort hplain ⊢
      exact ⟨fun m hm => ⟨hshort.1 m hm, hplain.1 m hm⟩,
        fun m hm => ih m hm (hshort.2 m hm) (hplain.2 m hm)⟩

theorem jsonParse_jsonText_iff {val : JsonValue} (hordinary : Every OrdinaryNode val)
    (hdepth : nesting val ≤ jsonMaxDepth + 1) :
    jsonParse (jsonText formatG17 val) = .value val ↔ Every ReadableNode val := by
  rw [jsonParse_eq_value_iff]
  constructor
  · rintro ⟨p', h⟩
    have hshort : Every ShortNode val := short_of_parsed h (shortToken_parserAdvance _) trivial
    exact readable_of_short_of_plain val hshort (plainKeys_of_parsed hordinary h)
  · intro hreadable
    have hread : Reads formatG17 val := reads_of_readable val hordinary hreadable
    have hparsed := @hread 0 [] (by omega) nofun
    rw [List.append_nil] at hparsed
    exact ⟨start [], hparsed⟩

end

/-- A value of small integers, strings and distinct keys that is written to a buffer and
parsed again is the same exactly when its keys need no escape and each string and key leaves
room for the terminator of a token. -/
theorem jsonParse_jsonSerialize_iff (formatG17 : Double → CStr) (val : JsonValue)
    (mem : Nat → UInt8) (bufSz : Nat) (hordinary : Every OrdinaryNode val)
    (hdepth : nesting val ≤ jsonMaxDepth + 1)
    (hfits : (jsonText formatG17 val).length < bufSz) :
    jsonParse (bufferText (jsonSerialize formatG17 val mem bufSz).mem bufSz) = .value val ↔
      Every ReadableNode val := by
  rw [bufferText_jsonSerialize hfits (nonzero_jsonText val hordinary) mem]
  exact jsonParse_jsonText_iff hordinary hdepth

/-- `%.17g` of an integer below `10 ^ 15`. -/
def formatSmall (value : Double) : CStr :=
  formatInteger value.negative (value.magnitude.getD 0)

/-- An array of a string with escapes, a negative number and an object. -/
def sample : JsonValue :=
  .array [.string (lit "a\"b\\c\n"), .number ⟨true, some 42⟩,
    .object [(lit "id", .bool true), (lit "tags", .array [])]]

theorem jsonParse_jsonSerialize_sample :
    jsonParse (bufferText (jsonSerialize formatSmall sample (fun _ => 7) 64).mem 64) =
      .value sample := by
  apply (jsonParse_jsonSerialize_iff formatSmall sample (fun _ => 7) 64 ?_ ?_ ?_).mpr
  · simp only [sample, Every, EveryItem, EveryMember, ReadableNode]
    decide +kernel
  · simp only [sample, Every, EveryItem, EveryMember, OrdinaryNode]
    refine ⟨trivial, ?_, ⟨42, by decide, rfl⟩, ⟨?_, trivial, ⟨trivial, trivial⟩, trivial⟩, trivial⟩
    · decide +kernel
    · decide +kernel
  · decide +kernel
  · decide +kernel

/-- The text `{"a"b":null}` is not parsed: the key is written without an escape. -/
theorem jsonParse_jsonSerialize_quote :
    Every OrdinaryNode (.object [(lit "a\"b", .null)]) ∧
      nesting (.object [(lit "a\"b", .null)]) ≤ jsonMaxDepth ∧
      ((lit "a\"b").flatMap escapeByte).length < jsonMaxStringLen ∧
      (jsonText formatSmall (.object [(lit "a\"b", .null)])).length < 64 ∧
      jsonParse (bufferText (jsonSerialize formatSmall (.object [(lit "a\"b", .null)])
        (fun _ => 7) 64).mem 64) = .null := by
  refine ⟨?_, by decide, by decide, by decide, ?_⟩
  · simp only [Every, EveryMember, OrdinaryNode]
    decide +kernel
  · decide +kernel

end MiniBackend.WebServer.Proofs.JsonRoundTrip
