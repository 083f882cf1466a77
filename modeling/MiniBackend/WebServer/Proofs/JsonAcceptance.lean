import MiniBackend.WebServer.Proofs.JsonNumbers
import MiniBackend.WebServer.Proofs.JsonGrammar

/-!
# Which texts `json_parse` accepts

The tokenizer reads the tokens of RFC 8259, and the parser the values, up to four limits.  A
value at the front of the text is enough: `json_parse` does not look at what stands behind it.
An array or object of which an entry is read cannot be freed again, so that an error behind its
first entry is not answered with NULL.
-/

namespace MiniBackend.WebServer.Proofs.JsonAcceptance

open MiniBackend.Lib.Binary64 MiniBackend.Lib.CString MiniBackend.Lib.Rfc8259
open MiniBackend.WebServer.Json MiniBackend.WebServer.Proofs.JsonGrammar
open MiniBackend.WebServer.Proofs.JsonNumbers MiniBackend.WebServer.Proofs.JsonTokens

/-- The name under which a member is stored. -/
def storedName (key : CStr) : Option CStr :=
  (parseStringToken 0 (key ++ [quote])).map fun (text, _) => ofBuffer text

/-- A string leaves one byte more than its terminator needs, the depth is counted from 0, and no
member of an object is stored under the name of another one. -/
def taken : Limits where
  string := (· < jsonMaxStringLen - 1)
  number := (· < jsonMaxNumberLen)
  depth := (· ≤ jsonMaxDepth)
  names := fun keys => (keys.map storedName).Nodup

/-! ## Strings -/

theorem hexValue_eq (b : UInt8) : hexValue b = hexDigitValue b := by
  have hall : ∀ b : UInt8, hexValue b = hexDigitValue b := by
    apply forall_byte
    decide +kernel
  exact hall b

theorem codePoint_eq_some_iff {h₁ h₂ h₃ h₄ : UInt8} {cp : Nat} :
    codePoint h₁ h₂ h₃ h₄ = some cp ↔
      ∃ d₁ d₂ d₃ d₄, hexDigitValue h₁ = some d₁ ∧ hexDigitValue h₂ = some d₂ ∧
        hexDigitValue h₃ = some d₃ ∧ hexDigitValue h₄ = some d₄ ∧
        cp = ((d₁ * 16 + d₂) * 16 + d₃) * 16 + d₄ := by
  simp only [codePoint, hexValue_eq, Option.pure_def, Option.bind_eq_bind,
    Option.bind_eq_some_iff, Option.some.injEq]
  constructor
  · rintro ⟨d₁, hd₁, d₂, hd₂, d₃, hd₃, d₄, hd₄, heq⟩
    exact ⟨d₁, d₂, d₃, d₄, hd₁, hd₂, hd₃, hd₄, heq.symm⟩
  · rintro ⟨d₁, d₂, d₃, d₄, hd₁, hd₂, hd₃, hd₄, heq⟩
    exact ⟨d₁, hd₁, d₂, hd₂, d₃, hd₃, d₄, hd₄, heq.symm⟩

theorem length_utf8 (cp : Nat) : (utf8 cp).length = utf8Length cp := by
  unfold utf8 utf8Length
  split
  · rfl
  · split <;> rfl

theorem escaped_isSome_iff (e : UInt8) :
    (escaped e).isSome = true ↔ e ∈ [34, 92, 47, 98, 102, 110, 114, 116] := by
  have hall : ∀ e : UInt8,
      (escaped e).isSome = true ↔ e ∈ [34, 92, 47, 98, 102, 110, 114, 116] := by
    apply forall_byte
    decide +kernel
  exact hall e

theorem chars_of_spells {text : List UInt8} {s : CStr} (h : SpellsString text s) :
    Chars s text.length := by
  induction h with
  | nil => exact .nil
  | escaped hesc _ ih =>
      refine .escape ((escaped_isSome_iff _).mp ?_) ih
      rw [hesc]
      rfl
  | unicode hcp _ ih =>
      obtain ⟨d₁, d₂, d₃, d₄, hd₁, hd₂, hd₃, hd₄, rfl⟩ := codePoint_eq_some_iff.mp hcp
      rw [List.length_append, length_utf8, Nat.add_comm]
      exact .unicode hd₁ hd₂ hd₃ hd₄ ih
  | plain hb _ ih => exact .unescaped (UInt8.not_lt.mp hb.2.2) hb.1 hb.2.1 ih

theorem spells_of_chars {s : CStr} {n : Nat} (h : Chars s n) :
    ∃ text, SpellsString text s ∧ text.length = n := by
  induction h with
  | nil => exact ⟨[], .nil, rfl⟩
  | unescaped hb hquote hslash _ ih =>
      obtain ⟨text, htext, rfl⟩ := ih
      exact ⟨_, .plain ⟨hquote, hslash, UInt8.not_lt.mpr hb⟩ htext, rfl⟩
  | escape he _ ih =>
      obtain ⟨text, htext, rfl⟩ := ih
      obtain ⟨b, hb⟩ := Option.isSome_iff_exists.mp ((escaped_isSome_iff _).mpr he)
      exact ⟨_, .escaped hb htext, rfl⟩
  | unicode hd₁ hd₂ hd₃ hd₄ _ ih =>
      obtain ⟨text, htext, rfl⟩ := ih
      refine ⟨_, .unicode (codePoint_eq_some_iff.mpr ⟨_, _, _, _, hd₁, hd₂, hd₃, hd₄, rfl⟩)
        htext, ?_⟩
      rw [List.length_append, length_utf8, Nat.add_comm]

theorem parseStringToken_of_spells {text : List UInt8} {s : CStr} {out : Nat}
    (h : SpellsString text s) (hroom : out + text.length < jsonMaxStringLen - 1) (rest : CStr) :
    parseStringToken out (s ++ quote :: rest) = some (text, rest) := by
  induction h generalizing out with
  | nil => exact parseStringToken_quote hroom rest
  | escaped hesc _ ih =>
      rw [List.length_cons] at hroom
      rw [List.cons_append, List.cons_append, parseStringToken_escaped (by omega) hesc,
        ih (by omega)]
      rfl
  | @unicode _ _ _ _ cp text _ hcp _ ih =>
      rw [List.length_append] at hroom
      simp only [List.cons_append]
      rw [parseStringToken_unicode (by omega) hcp, ih (by omega)]
      rfl
  | plain hb _ ih =>
      rw [List.length_cons] at hroom
      rw [List.cons_append, parseStringToken_plain (by omega) hb, ih (by omega)]
      rfl

theorem storedName_of_spells {text : List UInt8} {key : CStr} (h : SpellsString text key)
    (hlength : text.length < jsonMaxStringLen - 1) : storedName key = some (ofBuffer text) := by
  rw [storedName, @parseStringToken_of_spells text key 0 h (by omega) []]
  rfl

/-! ## Tokens -/

inductive Lexeme : JsonToken → CStr → Prop
  | lbrace : Lexeme .lbrace [123]
  | rbrace : Lexeme .rbrace [125]
  | lbracket : Lexeme .lbracket [91]
  | rbracket : Lexeme .rbracket [93]
  | comma : Lexeme .comma [44]
  | colon : Lexeme .colon [58]
  | string {text : List UInt8} {s : CStr} : SpellsString text s →
      text.length < jsonMaxStringLen - 1 → Lexeme (.string text) (34 :: (s ++ [34]))
  | number {s : CStr} : IsNumber s → s.length < jsonMaxNumberLen →
      Lexeme (.number (strtod s)) s
  | true : Lexeme .true (lit "true")
  | false : Lexeme .false (lit "false")
  | null : Lexeme .null (lit "null")

theorem stops_of_head {v rest : CStr} {b : UInt8}
    (hb : kindOf b ≠ some .number ∧ b ≠ 110 ∧ b ≠ 116 ∧ b ≠ 102) : Stops (b :: v) rest := by
  intro c _ hgoes
  rcases hgoes with ⟨hnumber, _⟩ | ⟨hkw, _⟩
  · obtain ⟨d, t, heq, hd⟩ := hnumber.head
    cases heq
    exact hb.1 (kindOf_number hd)
  · rcases hkw with hkw | hkw | hkw
    · exact hb.2.1 (List.cons.inj hkw).1
    · exact hb.2.2.1 (List.cons.inj hkw).1
    · exact hb.2.2.2 (List.cons.inj hkw).1

theorem isAlnum_eq (b : UInt8) : (isAlnum b || b == 95) = isWordByte b := by
  have hall : ∀ b : UInt8, (isAlnum b || b == 95) = isWordByte b := by
    apply forall_byte
    decide +kernel
  exact hall b

theorem matchKeyword_eq_some_iff {input kw rest : CStr} {tok tok' : JsonToken} :
    matchKeyword input kw tok = some (tok', rest) ↔
      input = kw ++ rest ∧ tok' = tok ∧ ∀ b ∈ rest.head?, isWordByte b = false := by
  constructor
  · intro h
    obtain ⟨hinput, htok⟩ := eq_of_matchKeyword h
    refine ⟨hinput, htok, ?_⟩
    subst hinput
    intro b hb
    rw [matchKeyword, if_pos (by simp), List.drop_left' rfl] at h
    cases rest with
    | nil => cases hb
    | cons c rest =>
        cases hb
        rw [← isAlnum_eq]
        by_contra hword
        rw [Bool.not_eq_false] at hword
        simp [hword] at h
  · rintro ⟨rfl, rfl, hrest⟩
    rw [matchKeyword, if_pos (by simp), List.drop_left' rfl]
    cases rest with
    | nil => rfl
    | cons c rest =>
        dsimp only
        rw [isAlnum_eq, hrest c rfl]
        rfl

theorem stops_keyword_iff {kw rest : CStr}
    (hkw : kw = lit "null" ∨ kw = lit "true" ∨ kw = lit "false") :
    Stops kw rest ↔ ∀ b ∈ rest.head?, isWordByte b = Bool.false := by
  constructor
  · intro h b hb
    by_contra hword
    rw [Bool.not_eq_false] at hword
    exact h b hb (Or.inr ⟨hkw, hword⟩)
  · intro h b hb hgoes
    rcases hgoes with ⟨hnumber, _⟩ | ⟨_, hword⟩
    · obtain ⟨d, t, heq, hd⟩ := hnumber.head
      rcases hkw with rfl | rfl | rfl
      all_goals
        cases heq
        rcases hd with hd | hd
        · exact absurd hd (by decide)
        · exact absurd hd (by decide)
    · rw [h b hb] at hword
      cases hword

theorem parseNumberToken_eq_some_iff {input rest : CStr} {tok : JsonToken} :
    parseNumberToken input = some (tok, rest) ↔
      ∃ s, input = s ++ rest ∧ IsNumber s ∧ Stops s rest ∧ s.length < jsonMaxNumberLen ∧
        tok = .number (strtod s) := by
  have htake : ∀ s rest : CStr, (s ++ rest).take ((s ++ rest).length - rest.length) = s := by
    intro s rest
    rw [List.length_append, Nat.add_sub_cancel, List.take_left' rfl]
  constructor
  · intro h
    obtain ⟨rest', hend, h⟩ := Option.bind_eq_some_iff.mp h
    obtain ⟨s, rfl, hnumber, hstop⟩ := numberEnd_eq_some_iff_stops.mp hend
    dsimp only at h
    rw [htake] at h
    split at h
    next => cases h
    next hlength =>
      cases h
      exact ⟨s, rfl, hnumber, hstop, Nat.lt_of_not_le hlength, rfl⟩
  · rintro ⟨s, rfl, hnumber, hstop, hlength, rfl⟩
    rw [parseNumberToken, numberEnd_eq_some_iff_stops.mpr ⟨s, rfl, hnumber, hstop⟩,
      Option.bind_some]
    dsimp only
    rw [htake, if_neg (Nat.not_le_of_lt hlength)]

theorem jsonTokenizerNext_skip {ws : CStr} (hws : Ws ws) (input : CStr) :
    jsonTokenizerNext (ws ++ input) = jsonTokenizerNext input := by
  have hdrop : (ws ++ input).dropWhile isBlank = input.dropWhile isBlank :=
    List.dropWhile_append_of_pos hws
  unfold jsonTokenizerNext
  rw [hdrop]

theorem jsonTokenizerNext_number {b : UInt8} (hb : b = 45 ∨ isDigit b = Bool.true)
    (input : CStr) : jsonTokenizerNext (b :: input) = parseNumberToken (b :: input) := by
  have hbytes : ∀ b : UInt8, b = 45 ∨ isDigit b = Bool.true →
      isBlank b = Bool.false ∧ b ≠ 123 ∧ b ≠ 125 ∧ b ≠ 91 ∧ b ≠ 93 ∧ b ≠ comma ∧ b ≠ colon ∧
        b ≠ quote ∧ b ≠ 116 ∧ b ≠ 102 ∧ b ≠ 110 := by
    apply forall_byte
    decide +kernel
  obtain ⟨hblank, h₁, h₂, h₃, h₄, h₅, h₆, h₇, h₈, h₉, h₁₀⟩ := hbytes b hb
  unfold jsonTokenizerNext
  rw [List.dropWhile_cons_of_neg (by simp [hblank])]
  dsimp only
  rw [if_neg h₁, if_neg h₂, if_neg h₃, if_neg h₄, if_neg h₅, if_neg h₆, if_neg h₇, if_neg h₈,
    if_neg h₉, if_neg h₁₀, if_pos hb]

/-- A token behind blanks is read, when the input does not go on with it. -/
theorem next_of_lexeme {tok : JsonToken} {ws s rest : CStr} (h : Lexeme tok s) (hws : Ws ws)
    (hstop : Stops s rest) : jsonTokenizerNext (ws ++ (s ++ rest)) = some (tok, rest) := by
  rw [jsonTokenizerNext_skip hws]
  cases h with
  | lbrace | rbrace | lbracket | rbracket | comma | colon => rfl
  | @string text s hs hlength =>
      have hnext : ∀ input : CStr, jsonTokenizerNext (34 :: input) =
          (parseStringToken 0 input).map fun r => (.string r.1, r.2) := fun _ => rfl
      have hread : parseStringToken 0 (s ++ 34 :: rest) = some (text, rest) :=
        parseStringToken_of_spells hs (by omega) rest
      rw [List.cons_append, List.append_assoc, List.singleton_append, hnext, hread]
      rfl
  | number hnumber hlength =>
      obtain ⟨b, t, heq, hb⟩ := hnumber.head
      have hread := parseNumberToken_eq_some_iff.mpr
        ⟨s, rfl, hnumber, hstop, hlength, rfl⟩
      rw [heq, List.cons_append] at hread ⊢
      rw [jsonTokenizerNext_number hb, hread]
  | true =>
      have hend := (stops_keyword_iff (Or.inr (Or.inl rfl))).mp hstop
      have hnext : jsonTokenizerNext (lit "true" ++ rest) =
          matchKeyword (lit "true" ++ rest) (lit "true") .true := rfl
      rw [hnext]
      exact matchKeyword_eq_some_iff.mpr ⟨rfl, rfl, hend⟩
  | false =>
      have hend := (stops_keyword_iff (Or.inr (Or.inr rfl))).mp hstop
      have hnext : jsonTokenizerNext (lit "false" ++ rest) =
          matchKeyword (lit "false" ++ rest) (lit "false") .false := rfl
      rw [hnext]
      exact matchKeyword_eq_some_iff.mpr ⟨rfl, rfl, hend⟩
  | null =>
      have hend := (stops_keyword_iff (Or.inl rfl)).mp hstop
      have hnext : jsonTokenizerNext (lit "null" ++ rest) =
          matchKeyword (lit "null" ++ rest) (lit "null") .null := rfl
      rw [hnext]
      exact matchKeyword_eq_some_iff.mpr ⟨rfl, rfl, hend⟩

theorem lexeme_of_punctuation {tok : JsonToken} {b : UInt8} (h : punctuation tok = some b) :
    Lexeme tok [b] ∧ kindOf b ≠ some .number ∧ b ≠ 110 ∧ b ≠ 116 ∧ b ≠ 102 := by
  cases tok with
  | lbrace =>
      cases h
      exact ⟨.lbrace, by decide⟩
  | rbrace =>
      cases h
      exact ⟨.rbrace, by decide⟩
  | lbracket =>
      cases h
      exact ⟨.lbracket, by decide⟩
  | rbracket =>
      cases h
      exact ⟨.rbracket, by decide⟩
  | comma =>
      cases h
      exact ⟨.comma, by decide⟩
  | colon =>
      cases h
      exact ⟨.colon, by decide⟩
  | _ => cases h

theorem lexeme_of_keyword {tok : JsonToken} {kw : CStr} (h : keyword tok = some kw) :
    Lexeme tok kw ∧ (kw = lit "null" ∨ kw = lit "true" ∨ kw = lit "false") := by
  cases tok with
  | true =>
      cases h
      exact ⟨.true, Or.inr (Or.inl rfl)⟩
  | false =>
      cases h
      exact ⟨.false, Or.inr (Or.inr rfl)⟩
  | null =>
      cases h
      exact ⟨.null, Or.inl rfl⟩
  | _ => cases h

/-- What is read is a token behind blanks, up to where the input does not go on with it. -/
theorem lexeme_of_next {tok : JsonToken} {input rest : CStr}
    (h : jsonTokenizerNext input = some (tok, rest)) :
    tok = .eof ∨ ∃ ws s, input = ws ++ (s ++ rest) ∧ Ws ws ∧ Lexeme tok s ∧ Stops s rest := by
  obtain ⟨ws, behind, rfl, hws, htakes⟩ := takesToken_of_jsonTokenizerNext h
  cases htakes with
  | eof => exact Or.inl rfl
  | punctuation hb =>
      obtain ⟨hlexeme, hends⟩ := lexeme_of_punctuation hb
      exact Or.inr ⟨ws, _, rfl, hws, hlexeme, stops_of_head hends⟩
  | string hread =>
      obtain ⟨bytes, rfl, hspells, hlength⟩ := spellsString_of_parseStringToken hread
      exact Or.inr ⟨ws, _, by simp [quote], hws, .string hspells (by simpa using hlength),
        stops_of_head (by decide)⟩
  | keyword hkw hmatch =>
      obtain ⟨hlexeme, hword⟩ := lexeme_of_keyword hkw
      obtain ⟨rfl, _, hend⟩ := matchKeyword_eq_some_iff.mp hmatch
      exact Or.inr ⟨ws, _, rfl, hws, hlexeme, (stops_keyword_iff hword).mpr hend⟩
  | number hread =>
      obtain ⟨s, rfl, hnumber, hstop, hlength, rfl⟩ := parseNumberToken_eq_some_iff.mp hread
      exact Or.inr ⟨ws, s, rfl, hws, .number hnumber hlength, hstop⟩

/-! ## The state of the parser -/

theorem parserAdvance_eq_start (p : JsonParser) : parserAdvance p = start p.rest := rfl

theorem start_of_lexeme {tok : JsonToken} {ws s rest : CStr} (h : Lexeme tok s) (hws : Ws ws)
    (hstop : Stops s rest) : start (ws ++ (s ++ rest)) = ⟨some tok, rest⟩ := by
  have hnext := next_of_lexeme h hws hstop
  unfold start parserAdvance
  rw [hnext]

theorem lexeme_of_start {tok : JsonToken} {input : CStr}
    (h : (start input).current = some tok) (hne : tok ≠ .eof) :
    ∃ ws s rest, input = ws ++ (s ++ rest) ∧ Ws ws ∧ Lexeme tok s ∧ Stops s rest ∧
      parserAdvance (start input) = start rest := by
  cases hnext : jsonTokenizerNext input with
  | none => simp [start, parserAdvance, hnext] at h
  | some r =>
      obtain ⟨tok', rest⟩ := r
      have hstart : start input = ⟨some tok', rest⟩ := by
        unfold start parserAdvance
        rw [hnext]
      rw [hstart] at h ⊢
      cases h
      rcases lexeme_of_next hnext with heof | ⟨ws, s, hinput, hws, hlexeme, hstop⟩
      · exact absurd heof hne
      · exact ⟨ws, s, rest, hinput, hws, hlexeme, hstop, rfl⟩

/-! ## What is parsed is derived -/

theorem derives_of_lexeme {tok : JsonToken} {s : CStr} {val : JsonValue} (h : Lexeme tok s)
    (hval : tokenValue tok = some val) (d : Nat) : Derives taken .value d [] s := by
  cases h with
  | string hs hlength => exact .string (chars_of_spells hs) hlength
  | number hnumber hlength => exact .number hnumber hlength
  | true => exact .true
  | false => exact .false
  | null => exact .null
  | _ => cases hval

/-- The names can be stored in an object that has some members already. -/
def Fresh (acc : List (CStr × JsonValue)) (names : List CStr) : Prop :=
  (names.map storedName).Nodup ∧ ∀ m ∈ acc, some m.1 ∉ names.map storedName

theorem fresh_cons_iff {acc : List (CStr × JsonValue)} {key name : CStr} {names : List CStr}
    {val : JsonValue} (h : storedName key = some name) :
    Fresh acc (key :: names) ↔
      name ∉ acc.map Prod.fst ∧ Fresh (acc ++ [(name, val)]) names := by
  simp only [Fresh, List.map_cons, h, List.nodup_cons, List.mem_cons, Option.some.injEq, not_or,
    List.mem_append, List.not_mem_nil, or_false, List.mem_map, not_exists, not_and]
  constructor
  · rintro ⟨⟨hnew, hnodup⟩, hacc⟩
    refine ⟨fun m hm => (hacc m hm).1, hnodup, ?_⟩
    rintro m (hm | rfl)
    · exact (hacc m hm).2
    · exact hnew
  · rintro ⟨hname, hnodup, hacc⟩
    refine ⟨⟨hacc (name, val) (.inr rfl), hnodup⟩, fun m hm => ⟨hname m hm, hacc m (.inl hm)⟩⟩

theorem fresh_nil (acc : List (CStr × JsonValue)) : Fresh acc [] :=
  ⟨List.nodup_nil, fun _ _ => List.not_mem_nil⟩

def HasRead : Phase → Nat → CStr → JsonParser → Prop
  | .value, d, input, p' => ∃ v rest, Front taken d input v rest ∧ p' = start rest
  | .items _, d, input, p' => ∃ s rest, input = s ++ 93 :: rest ∧
      Derives taken (.entries .square) d [] s ∧ p' = start rest
  | .members acc, d, input, p' => ∃ names s rest, input = s ++ 125 :: rest ∧
      Derives taken (.entries .curly) d names s ∧ Fresh acc names ∧ p' = start rest

theorem punct_of_start {tok : JsonToken} {input : CStr} {b : UInt8}
    (h : (start input).current = some tok) (hb : punctuation tok = some b) :
    ∃ ws rest, input = ws ++ b :: rest ∧ Ws ws ∧ parserAdvance (start input) = start rest := by
  have hne : tok ≠ .eof := by
    rintro rfl
    cases hb
  obtain ⟨ws, s, rest, hinput, hws, hlexeme, _, hnext⟩ := lexeme_of_start h hne
  have hs : s = [b] := by
    cases hlexeme with
    | lbrace | rbrace | lbracket | rbracket | comma | colon =>
        cases hb
        rfl
    | _ => cases hb
  rw [hs] at hinput
  exact ⟨ws, rest, hinput, hws, hnext⟩

/-- A key and a colon. -/
theorem key_of_start {text : List UInt8} {input : CStr}
    (hkey : (start input).current = some (.string text))
    (hcolon : (parserAdvance (start input)).current = some .colon) :
    ∃ ws key ws' rest, input = ws ++ 34 :: (key ++ 34 :: (ws' ++ 58 :: rest)) ∧ Ws ws ∧
      Chars key text.length ∧ text.length < jsonMaxStringLen - 1 ∧
      storedName key = some (ofBuffer text) ∧ Ws ws' ∧
      parserAdvance (parserAdvance (start input)) = start rest := by
  obtain ⟨ws, s, rest, rfl, hws, hlexeme, _, hnext⟩ := lexeme_of_start hkey nofun
  rw [hnext] at hcolon ⊢
  obtain ⟨ws', rest', rfl, hws', hnext'⟩ := punct_of_start hcolon rfl
  cases hlexeme with
  | @string _ key hspells hlength =>
      refine ⟨ws, key, ws', rest', ?_, hws, chars_of_spells hspells, hlength,
        storedName_of_spells hspells hlength, hws', hnext'⟩
      simp

theorem hasRead_of_parsed {phase : Phase} {d : Nat} {p p' : JsonParser} {val : JsonValue}
    (h : Parsed phase d p val p') {input : CStr} (hp : p = start input) :
    HasRead phase d input p' := by
  induction h generalizing input with
  | token hcurrent hval =>
      subst hp
      obtain ⟨ws, s, rest, hinput, hws, hlexeme, hstop, hnext⟩ :=
        lexeme_of_start hcurrent (ne_eof_of_tokenValue hval)
      exact ⟨s, rest, ⟨ws, hinput, hws, derives_of_lexeme hlexeme hval _, hstop⟩, hnext⟩
  | emptyArray hcurrent hdepth hclose =>
      subst hp
      obtain ⟨ws, rest, rfl, hws, hnext⟩ := punct_of_start hcurrent rfl
      rw [hnext] at hclose ⊢
      obtain ⟨ws', rest', rfl, hws', hnext'⟩ := punct_of_start hclose rfl
      exact ⟨91 :: (ws' ++ [93]), rest', ⟨ws, by simp, hws,
        @Derives.empty _ _ .square _ hdepth hws', stops_of_head (by decide)⟩, hnext'⟩
  | array hcurrent hdepth _ ih =>
      subst hp
      obtain ⟨ws, rest, rfl, hws, hnext⟩ := punct_of_start hcurrent rfl
      obtain ⟨s, rest', rfl, hs, hp'⟩ := ih hnext
      exact ⟨91 :: (s ++ [93]), rest', ⟨ws, by simp, hws, .entries hdepth hs List.nodup_nil,
        stops_of_head (by decide)⟩, hp'⟩
  | emptyObject hcurrent hdepth hclose =>
      subst hp
      obtain ⟨ws, rest, rfl, hws, hnext⟩ := punct_of_start hcurrent rfl
      rw [hnext] at hclose ⊢
      obtain ⟨ws', rest', rfl, hws', hnext'⟩ := punct_of_start hclose rfl
      exact ⟨123 :: (ws' ++ [125]), rest', ⟨ws, by simp, hws,
        @Derives.empty _ _ .curly _ hdepth hws', stops_of_head (by decide)⟩, hnext'⟩
  | object hcurrent hdepth _ ih =>
      subst hp
      obtain ⟨ws, rest, rfl, hws, hnext⟩ := punct_of_start hcurrent rfl
      obtain ⟨names, s, rest', rfl, hs, hfresh, hp'⟩ := ih hnext
      exact ⟨123 :: (s ++ [125]), rest', ⟨ws, by simp, hws, .entries hdepth hs hfresh.1,
        stops_of_head (by decide)⟩, hp'⟩
  | lastItem _ hclose ih =>
      obtain ⟨v, rest, ⟨ws, rfl, hws, hv, _⟩, rfl⟩ := ih hp
      obtain ⟨ws', rest', rfl, hws', hnext⟩ := punct_of_start hclose rfl
      exact ⟨ws ++ (v ++ ws'), rest', by simp,
        @Derives.last _ _ .square _ _ (.element hws hv hws'), hnext⟩
  | nextItem _ hcomma _ ih ihrest =>
      obtain ⟨v, rest, ⟨ws, rfl, hws, hv, _⟩, rfl⟩ := ih hp
      obtain ⟨ws', rest', rfl, hws', hnext⟩ := punct_of_start hcomma rfl
      obtain ⟨s, last, rfl, hs, hp'⟩ := ihrest hnext
      exact ⟨ws ++ (v ++ ws') ++ 44 :: s, last, by simp,
        @Derives.next _ _ .square _ _ _ _ (.element hws hv hws') hs, hp'⟩
  | @lastMember _ acc _ _ text val hkey hcolon _ hnew hclose ih =>
      subst hp
      obtain ⟨ws, key, ws₁, rest, rfl, hws, hchars, hlength, hname, hws₁, hnext⟩ :=
        key_of_start hkey hcolon
      obtain ⟨v, rest', ⟨ws₂, rfl, hws₂, hv, _⟩, rfl⟩ := ih hnext
      obtain ⟨ws₃, last, rfl, hws₃, hnext'⟩ := punct_of_start hclose rfl
      have hmember : Derives taken .member _ [key] _ :=
        .member hws hchars hlength hws₁ (.element hws₂ hv hws₃)
      exact ⟨[key], _, last, by simp, @Derives.last _ _ .curly _ _ hmember,
        (@fresh_cons_iff acc key _ [] val hname).mpr ⟨hnew, fresh_nil _⟩, hnext'⟩
  | nextMember hkey hcolon _ hnew hcomma _ ih ihrest =>
      subst hp
      obtain ⟨ws, key, ws₁, rest, rfl, hws, hchars, hlength, hname, hws₁, hnext⟩ :=
        key_of_start hkey hcolon
      obtain ⟨v, rest', ⟨ws₂, rfl, hws₂, hv, _⟩, rfl⟩ := ih hnext
      obtain ⟨ws₃, more, rfl, hws₃, hnext'⟩ := punct_of_start hcomma rfl
      obtain ⟨names, s, last, rfl, hs, hfresh, hp'⟩ := ihrest hnext'
      have hmember : Derives taken .member _ [key] _ :=
        .member hws hchars hlength hws₁ (.element hws₂ hv hws₃)
      exact ⟨key :: names, _, last, by simp, @Derives.next _ _ .curly _ _ _ _ hmember hs,
        (fresh_cons_iff hname).mpr ⟨hnew, hfresh⟩, hp'⟩

/-! ## What is derived is parsed -/

def IsParsed : Place → Nat → List CStr → CStr → Prop
  | .value, d, _, v => ∀ ws rest, Ws ws → Stops v rest →
      ∃ val, Parsed .value d (start (ws ++ (v ++ rest))) val (start rest)
  | .element, d, _, s => ∀ tok b rest, Lexeme tok [b] → b = 44 ∨ b = 93 ∨ b = 125 →
      ∃ val, Parsed .value d (start (s ++ b :: rest)) val ⟨some tok, rest⟩
  | .member, d, names, s => ∀ tok b rest, Lexeme tok [b] → b = 44 ∨ b = 93 ∨ b = 125 →
      ∃ key text val, names = [key] ∧ storedName key = some (ofBuffer text) ∧
        (start (s ++ b :: rest)).current = some (.string text) ∧
        (parserAdvance (start (s ++ b :: rest))).current = some .colon ∧
        Parsed .value d (parserAdvance (parserAdvance (start (s ++ b :: rest)))) val
          ⟨some tok, rest⟩
  | .entries .square, d, _, s => ∀ acc rest,
      ∃ val, Parsed (.items acc) d (start (s ++ 93 :: rest)) val (start rest)
  | .entries .curly, d, names, s => ∀ acc rest, Fresh acc names →
      ∃ val, Parsed (.members acc) d (start (s ++ 125 :: rest)) val (start rest)

theorem start_of_punct {tok : JsonToken} {ws rest : CStr} {b : UInt8} (h : Lexeme tok [b])
    (hb : kindOf b ≠ some .number ∧ b ≠ 110 ∧ b ≠ 116 ∧ b ≠ 102) (hws : Ws ws) :
    start (ws ++ b :: rest) = ⟨some tok, rest⟩ :=
  start_of_lexeme h hws (stops_of_head hb)

theorem parsed_of_lexeme {tok : JsonToken} {v ws rest : CStr} {val : JsonValue} {d : Nat}
    (h : Lexeme tok v) (hval : tokenValue tok = some val) (hws : Ws ws) (hstop : Stops v rest) :
    ∃ val, Parsed .value d (start (ws ++ (v ++ rest))) val (start rest) := by
  rw [start_of_lexeme h hws hstop]
  exact ⟨val, .token rfl hval⟩

theorem delimiter_of_punct {b : UInt8} (hb : b = 44 ∨ b = 93 ∨ b = 125) :
    kindOf b ≠ some .number ∧ b ≠ 110 ∧ b ≠ 116 ∧ b ≠ 102 := by
  rcases hb with rfl | rfl | rfl
  all_goals decide

theorem parsed_empty {d : Nat} {b : Bracket} {ws : CStr} (hdepth : d ≤ jsonMaxDepth)
    (hws : Ws ws) : IsParsed .value d [] (b.opening :: (ws ++ [b.closing])) := by
  intro ws' rest hws' _
  have hinput : ws' ++ (b.opening :: (ws ++ [b.closing]) ++ rest) =
      ws' ++ b.opening :: (ws ++ b.closing :: rest) := by simp
  rw [hinput]
  cases b with
  | square =>
      have hclose : start (ws ++ 93 :: rest) = ⟨some .rbracket, rest⟩ :=
        start_of_punct .rbracket (by decide) hws
      have hparsed := @Parsed.emptyArray d ⟨some .lbracket, ws ++ 93 :: rest⟩ rfl hdepth
        (congrArg JsonParser.current hclose)
      rw [parserAdvance_eq_start ⟨some .lbracket, ws ++ 93 :: rest⟩, hclose] at hparsed
      refine ⟨.array [], ?_⟩
      rw [Bracket.opening, start_of_punct .lbracket (by decide) hws']
      exact hparsed
  | curly =>
      have hclose : start (ws ++ 125 :: rest) = ⟨some .rbrace, rest⟩ :=
        start_of_punct .rbrace (by decide) hws
      have hparsed := @Parsed.emptyObject d ⟨some .lbrace, ws ++ 125 :: rest⟩ rfl hdepth
        (congrArg JsonParser.current hclose)
      rw [parserAdvance_eq_start ⟨some .lbrace, ws ++ 125 :: rest⟩, hclose] at hparsed
      refine ⟨.object [], ?_⟩
      rw [Bracket.opening, start_of_punct .lbrace (by decide) hws']
      exact hparsed

theorem parsed_entries {d : Nat} {b : Bracket} {names : List CStr} {s : CStr}
    (hdepth : d ≤ jsonMaxDepth) (hall : (names.map storedName).Nodup)
    (h : IsParsed (.entries b) d names s) :
    IsParsed .value d [] (b.opening :: (s ++ [b.closing])) := by
  intro ws rest hws _
  have hinput : ws ++ (b.opening :: (s ++ [b.closing]) ++ rest) =
      ws ++ b.opening :: (s ++ b.closing :: rest) := by simp
  rw [hinput]
  cases b with
  | square =>
      obtain ⟨val, hitems⟩ := h [] rest
      rw [Bracket.opening, start_of_punct .lbracket (by decide) hws]
      exact ⟨val, .array rfl hdepth hitems⟩
  | curly =>
      obtain ⟨val, hmembers⟩ := h [] rest ⟨hall, nofun⟩
      rw [Bracket.opening, start_of_punct .lbrace (by decide) hws]
      exact ⟨val, .object rfl hdepth hmembers⟩

theorem parsed_member {d n : Nat} {ws key ws' s : CStr} (hws : Ws ws) (hchars : Chars key n)
    (hlength : n < jsonMaxStringLen - 1) (hws' : Ws ws') (h : IsParsed .element d [] s) :
    IsParsed .member d [key] (ws ++ 34 :: (key ++ 34 :: (ws' ++ 58 :: s))) := by
  intro tok b rest htok hb
  obtain ⟨text, hspells, rfl⟩ := spells_of_chars hchars
  obtain ⟨val, hval⟩ := h tok b rest htok hb
  have hinput : ws ++ 34 :: (key ++ 34 :: (ws' ++ 58 :: s)) ++ b :: rest =
      ws ++ (34 :: (key ++ [34]) ++ (ws' ++ 58 :: (s ++ b :: rest))) := by simp
  rw [hinput]
  have hkey : start (ws ++ (34 :: (key ++ [34]) ++ (ws' ++ 58 :: (s ++ b :: rest)))) =
      ⟨some (.string text), ws' ++ 58 :: (s ++ b :: rest)⟩ :=
    start_of_lexeme (.string hspells hlength) hws (stops_of_head (by decide))
  have hcolon : start (ws' ++ 58 :: (s ++ b :: rest)) = ⟨some .colon, s ++ b :: rest⟩ :=
    start_of_punct .colon (by decide) hws'
  refine ⟨key, text, val, rfl, storedName_of_spells hspells hlength, ?_, ?_, ?_⟩
  · rw [hkey]
  · rw [hkey, parserAdvance_eq_start, hcolon]
  · rw [hkey, parserAdvance_eq_start ⟨some (.string text), _⟩, hcolon]
    exact hval

theorem parsed_last {d : Nat} {b : Bracket} {names : List CStr} {s : CStr}
    (h : IsParsed b.entry (d + 1) names s) : IsParsed (.entries b) d names s := by
  cases b with
  | square =>
      intro acc rest
      obtain ⟨val, hval⟩ := h .rbracket 93 rest .rbracket (.inr (.inl rfl))
      have hlast : Parsed (.items acc) d _ _ (parserAdvance ⟨some .rbracket, rest⟩) :=
        .lastItem hval rfl
      exact ⟨_, hlast⟩
  | curly =>
      intro acc rest hfresh
      obtain ⟨key, text, val, rfl, hname, hkey, hcolon, hval⟩ :=
        h .rbrace 125 rest .rbrace (.inr (.inr rfl))
      have hnew := ((@fresh_cons_iff acc key _ [] val hname).mp hfresh).1
      have hlast : Parsed (.members acc) d _ _ (parserAdvance ⟨some .rbrace, rest⟩) :=
        .lastMember hkey hcolon hval hnew rfl
      exact ⟨_, hlast⟩

theorem parsed_next {d : Nat} {b : Bracket} {names names' : List CStr} {s more : CStr}
    (h : IsParsed b.entry (d + 1) names s) (hmore : IsParsed (.entries b) d names' more) :
    IsParsed (.entries b) d (names ++ names') (s ++ 44 :: more) := by
  cases b with
  | square =>
      intro acc rest
      rw [List.append_assoc, List.cons_append]
      obtain ⟨val, hval⟩ := h .comma 44 (more ++ 93 :: rest) .comma (.inl rfl)
      obtain ⟨val', hrest⟩ := hmore (acc ++ [val]) rest
      exact ⟨val', .nextItem hval rfl hrest⟩
  | curly =>
      intro acc rest hfresh
      rw [List.append_assoc, List.cons_append]
      obtain ⟨key, text, val, rfl, hname, hkey, hcolon, hval⟩ :=
        h .comma 44 (more ++ 125 :: rest) .comma (.inl rfl)
      obtain ⟨hnew, hfresh'⟩ := (@fresh_cons_iff acc key _ names' val hname).mp hfresh
      obtain ⟨val', hrest⟩ := hmore (acc ++ [(ofBuffer text, val)]) rest hfresh'
      exact ⟨val', .nextMember hkey hcolon hval hnew rfl hrest⟩

theorem isParsed_of_derives {place : Place} {d : Nat} {names : List CStr} {s : CStr}
    (h : Derives taken place d names s) : IsParsed place d names s := by
  induction h with
  | null => exact fun ws rest hws hstop => parsed_of_lexeme .null rfl hws hstop
  | true => exact fun ws rest hws hstop => parsed_of_lexeme .true rfl hws hstop
  | false => exact fun ws rest hws hstop => parsed_of_lexeme .false rfl hws hstop
  | number hnumber hlength =>
      exact fun ws rest hws hstop => parsed_of_lexeme (.number hnumber hlength) rfl hws hstop
  | string hchars hlength =>
      intro ws rest hws hstop
      obtain ⟨text, hspells, rfl⟩ := spells_of_chars hchars
      exact parsed_of_lexeme (.string hspells hlength) rfl hws hstop
  | empty hdepth hws => exact parsed_empty hdepth hws
  | entries hdepth _ hall ih => exact parsed_entries hdepth hall ih
  | @element _ ws v ws' hws _ hws' ih =>
      intro tok b rest htok hb
      have hstop : Stops v (ws' ++ b :: rest) := by
        apply stops_behind hws'
        intro c hc
        cases hc
        exact hb
      obtain ⟨val, hval⟩ := ih ws (ws' ++ b :: rest) hws hstop
      rw [start_of_punct htok (delimiter_of_punct hb) hws'] at hval
      refine ⟨val, ?_⟩
      have hinput : ws ++ (v ++ ws') ++ b :: rest = ws ++ (v ++ (ws' ++ b :: rest)) := by simp
      rw [hinput]
      exact hval
  | member hws hchars hlength hws' _ ih => exact parsed_member hws hchars hlength hws' ih
  | last _ ih => exact parsed_last ih
  | next _ _ ih ihmore => exact parsed_next ih ihmore

/-! ## Acceptance -/

theorem isValue_iff_front {s : CStr} :
    (∃ val, jsonParse s = .value val) ↔ ∃ v rest, Front taken 0 s v rest := by
  constructor
  · rintro ⟨val, h⟩
    obtain ⟨p', hparsed⟩ := jsonParse_eq_value_iff.mp h
    obtain ⟨v, rest, hfront, _⟩ := hasRead_of_parsed hparsed rfl
    exact ⟨v, rest, hfront⟩
  · rintro ⟨v, rest, ws, rfl, hws, hv, hstop⟩
    obtain ⟨val, hparsed⟩ := isParsed_of_derives hv ws rest hws hstop
    exact ⟨val, jsonParse_eq_value_iff.mpr ⟨_, hparsed⟩⟩

theorem firstValue_of_begun {d : Nat} {p : JsonParser} (h : Begun d p) {s : CStr}
    (hp : p = start s) : FirstValue taken d s := by
  induction h generalizing s with
  | parsed h =>
      obtain ⟨v, rest, hfront, _⟩ := hasRead_of_parsed h hp
      exact .here hfront
  | array hcurrent hdepth _ ih =>
      subst hp
      obtain ⟨ws, rest, rfl, hws, hnext⟩ := punct_of_start hcurrent rfl
      exact .array hws hdepth (ih hnext)
  | object hcurrent hdepth hkey hcolon _ ih =>
      subst hp
      obtain ⟨ws, rest, rfl, hws, hnext⟩ := punct_of_start hcurrent rfl
      rw [hnext] at hkey hcolon ih
      obtain ⟨ws', key, ws'', rest', rfl, hws', hchars, hlength, _, hws'', hnext'⟩ :=
        key_of_start hkey hcolon
      exact .object hws hdepth hws' hchars hlength hws'' (ih hnext')

theorem begun_of_firstValue {d : Nat} {s : CStr} (h : FirstValue taken d s) :
    Begun d (start s) := by
  induction h with
  | here hfront =>
      obtain ⟨ws, rfl, hws, hv, hstop⟩ := hfront
      obtain ⟨val, hparsed⟩ := isParsed_of_derives hv ws _ hws hstop
      exact .parsed hparsed
  | array hws hdepth _ ih =>
      rw [start_of_punct .lbracket (by decide) hws]
      exact .array rfl hdepth ih
  | @object _ _ ws ws' key ws'' rest hws hdepth hws' hchars hlength hws'' _ ih =>
      obtain ⟨text, hspells, rfl⟩ := spells_of_chars hchars
      have hinput : ws' ++ 34 :: (key ++ 34 :: (ws'' ++ 58 :: rest)) =
          ws' ++ (34 :: (key ++ [34]) ++ (ws'' ++ 58 :: rest)) := by simp
      rw [start_of_punct .lbrace (by decide) hws, hinput]
      have hkey : parserAdvance ⟨some .lbrace, ws' ++ (34 :: (key ++ [34]) ++
          (ws'' ++ 58 :: rest))⟩ = ⟨some (.string text), ws'' ++ 58 :: rest⟩ :=
        start_of_lexeme (.string hspells hlength) hws' (stops_of_head (by decide))
      have hcolon : parserAdvance ⟨some (.string text), ws'' ++ 58 :: rest⟩ = ⟨some .colon, rest⟩ :=
        start_of_punct .colon (by decide) hws''
      refine @Begun.object _ _ text rfl hdepth ?_ ?_ ?_
      · rw [hkey]
      · rw [hkey, hcolon]
      · rw [hkey, hcolon]
        exact ih

/-- NULL comes back only when no first value ends before the first error. -/
theorem isNull_iff_not_firstValue {s : CStr} :
    jsonParse s = .null ↔ ¬ FirstValue taken 0 s := by
  rw [jsonParse_eq_null_iff, not_iff_not]
  exact ⟨fun h => firstValue_of_begun h rfl, begun_of_firstValue⟩

/-- A value comes back for a JSON text, and NULL for everything else. -/
def TellsTexts (s : CStr) : Prop :=
  (IsText unlimited s → ∃ val, jsonParse s = .value val) ∧
    (¬ IsText unlimited s → jsonParse s = .null)

/-- `json_parse` tells JSON texts from other texts exactly when a JSON text is within the limits
and no other text has a first value. -/
theorem jsonParse_tells_texts_iff (s : CStr) :
    TellsTexts s ↔
      (IsText unlimited s → IsText taken s) ∧ (¬ IsText unlimited s → ¬ FirstValue taken 0 s) := by
  unfold TellsTexts
  rw [isNull_iff_not_firstValue, isValue_iff_front]
  have htaken : IsText unlimited s →
      ((∃ v rest, Front taken 0 s v rest) ↔ IsText taken s) := by
    intro htext
    rw [isText_iff_front]
    constructor
    · rintro ⟨v, rest, hfront⟩
      exact ⟨v, rest, hfront, htext.ws_of_front hfront⟩
    · rintro ⟨v, rest, hfront, _⟩
      exact ⟨v, rest, hfront⟩
  exact and_congr_left' (forall_congr' htaken)

theorem not_tellsTexts_of_badFree {s : CStr} (h : jsonParse s = .badFree) : ¬ TellsTexts s := by
  rintro ⟨htext, hother⟩
  by_cases hs : IsText unlimited s
  · obtain ⟨val, hval⟩ := htext hs
    rw [h] at hval
    cases hval
  · have hnull := hother hs
    rw [h] at hnull
    cases hnull

/-- The text behind the first value is not looked at. -/
theorem jsonParse_accepts_null_x : ¬ TellsTexts (lit "null x") := by
  have hfront : Front unlimited 0 (lit "null x") (lit "null") (lit " x") := by
    refine ⟨[], rfl, nofun, .null, stops_of_delimiter ?_⟩
    intro b hb
    rw [← Option.some.inj hb]
    decide
  have hother : ¬ IsText unlimited (lit "null x") := by
    intro htext
    exact absurd (htext.ws_of_front hfront 120 (by decide)) (by decide)
  intro h
  exact absurd (h.2 hother) (by decide)

/-- A value is missing behind the comma, and the item before it is freed. -/
theorem jsonParse_frees_item : ¬ TellsTexts (lit "[1,]") :=
  not_tellsTexts_of_badFree rfl

end MiniBackend.WebServer.Proofs.JsonAcceptance
