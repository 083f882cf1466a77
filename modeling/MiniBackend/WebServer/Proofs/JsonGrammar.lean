import MiniBackend.WebServer.Proofs.JsonTokens

/-!
# What the parser accepts

How the tokens are spelled, and the grammar over them, as relations without fuel.  The
tokenizer and the parser stay within them, and `jsonParse` finds every value that the
grammar derives: its fuel does not run out.
-/

namespace MiniBackend.WebServer.Proofs.JsonGrammar

open MiniBackend.Lib.Binary64 MiniBackend.Lib.CString MiniBackend.WebServer.Json
open MiniBackend.WebServer.Proofs.JsonTokens

/-! ## Spelling of tokens -/

inductive SpellsString : List UInt8 → CStr → Prop
  | nil : SpellsString [] []
  | escaped {esc b : UInt8} {text : List UInt8} {bytes : CStr} :
      escaped esc = some b → SpellsString text bytes →
      SpellsString (b :: text) (backslash :: esc :: bytes)
  | unicode {h₁ h₂ h₃ h₄ : UInt8} {cp : Nat} {text : List UInt8} {bytes : CStr} :
      codePoint h₁ h₂ h₃ h₄ = some cp → SpellsString text bytes →
      SpellsString (utf8 cp ++ text) (backslash :: 117 :: h₁ :: h₂ :: h₃ :: h₄ :: bytes)
  | plain {b : UInt8} {text : List UInt8} {bytes : CStr} :
      PlainByte b → SpellsString text bytes → SpellsString (b :: text) (b :: bytes)

inductive Spells : JsonToken → CStr → Prop
  | lbrace : Spells .lbrace [123]
  | rbrace : Spells .rbrace [125]
  | lbracket : Spells .lbracket [91]
  | rbracket : Spells .rbracket [93]
  | comma : Spells .comma [comma]
  | colon : Spells .colon [colon]
  | string {text : List UInt8} {bytes : CStr} : SpellsString text bytes →
      text.length < jsonMaxStringLen - 1 → Spells (.string text) (quote :: bytes ++ [quote])
  | number {bytes : CStr} : bytes ≠ [] → Spells (.number (strtod bytes)) bytes
  | true : Spells .true (lit "true")
  | false : Spells .false (lit "false")
  | null : Spells .null (lit "null")

theorem spellsString_of_parseStringToken {out : Nat} {input : CStr} {text : List UInt8}
    {rest : CStr} (h : parseStringToken out input = some (text, rest)) :
    ∃ bytes, input = bytes ++ quote :: rest ∧ SpellsString text bytes ∧
      out + text.length < jsonMaxStringLen - 1 := by
  fun_induction parseStringToken out input generalizing text rest with
  | case1 => cases h
  | case2 => cases h
  | case3 out rest' hout =>
      cases h
      exact ⟨[], rfl, .nil, Nat.lt_of_not_le hout⟩
  | case4 => cases h
  | case5 out hout esc rest' b hesc _ ih =>
      obtain ⟨⟨text, rest⟩, hread, heq⟩ := Option.map_eq_some_iff.mp h
      cases heq
      obtain ⟨bytes, rfl, hspells, hlength⟩ := ih hread
      refine ⟨_, rfl, .escaped hesc hspells, ?_⟩
      rw [List.length_cons]
      omega
  | case6 out hout h₁ h₂ h₃ h₄ rest' cp hcp _ _ ih =>
      obtain ⟨⟨text, rest⟩, hread, heq⟩ := Option.map_eq_some_iff.mp h
      cases heq
      obtain ⟨bytes, rfl, hspells, hlength⟩ := ih hread
      refine ⟨_, rfl, .unicode hcp hspells, ?_⟩
      rw [List.length_append]
      omega
  | case7 => cases h
  | case8 => cases h
  | case9 => cases h
  | case10 => cases h
  | case11 out c rest' hout hquote hslash hcontrol ih =>
      obtain ⟨⟨text, rest⟩, hread, heq⟩ := Option.map_eq_some_iff.mp h
      cases heq
      obtain ⟨bytes, rfl, hspells, hlength⟩ := ih hread
      refine ⟨_, rfl, .plain ⟨hquote, hslash, hcontrol⟩ hspells, ?_⟩
      rw [List.length_cons]
      omega

theorem digitsEnd_suffix {s rest : CStr} (h : digitsEnd s = some rest) :
    rest <:+ s ∧ rest.length < s.length := by
  unfold digitsEnd at h
  split at h
  next => cases h
  next d digits =>
    split at h
    · cases h
      have hsuffix := List.dropWhile_suffix (l := digits) isDigit
      exact ⟨hsuffix.trans (List.suffix_cons d digits),
        Nat.lt_succ_of_le hsuffix.length_le⟩
    · cases h

theorem dropSign_suffix (s : CStr) : dropSign s <:+ s := by
  unfold dropSign
  split
  · exact List.suffix_refl _
  next c rest =>
    split
    · exact List.suffix_cons c rest
    · exact List.suffix_refl _

theorem integerEnd_suffix {s rest : CStr} (h : integerEnd s = some rest) :
    rest <:+ s ∧ rest.length < s.length := by
  unfold integerEnd at h
  split at h
  next => cases h
  next d digits =>
    split at h
    · cases h
      exact ⟨List.suffix_cons d rest, Nat.lt_succ_self _⟩
    · exact digitsEnd_suffix h

theorem fractionEnd_suffix {s rest : CStr} (h : fractionEnd s = some rest) : rest <:+ s := by
  unfold fractionEnd at h
  split at h
  next =>
    cases h
    exact List.suffix_refl _
  next c digits =>
    split at h
    · exact (digitsEnd_suffix h).1.trans (List.suffix_cons c digits)
    · cases h
      exact List.suffix_refl _

theorem exponentEnd_suffix {s rest : CStr} (h : exponentEnd s = some rest) : rest <:+ s := by
  unfold exponentEnd at h
  split at h
  next =>
    cases h
    exact List.suffix_refl _
  next e tail =>
    split at h
    · split at h
      next => cases h
      next c digits =>
        have htail : rest <:+ c :: digits := by
          split at h
          · exact (digitsEnd_suffix h).1.trans (List.suffix_cons c digits)
          · exact (digitsEnd_suffix h).1
        exact htail.trans (List.suffix_cons e _)
    · cases h
      exact List.suffix_refl _

theorem numberEnd_suffix {s rest : CStr} (h : numberEnd s = some rest) :
    rest <:+ s ∧ rest.length < s.length := by
  obtain ⟨s₂, h₂, hexponent⟩ := Option.bind_eq_some_iff.mp h
  obtain ⟨s₁, hinteger, hfraction⟩ := Option.bind_eq_some_iff.mp h₂
  have hsign := dropSign_suffix s
  obtain ⟨hsuffix, hlength⟩ := integerEnd_suffix hinteger
  have htail := (exponentEnd_suffix hexponent).trans (fractionEnd_suffix hfraction)
  refine ⟨htail.trans (hsuffix.trans hsign), ?_⟩
  have h₁ := hsign.length_le
  have h₂ := htail.length_le
  omega

theorem spells_of_parseNumberToken {input rest : CStr} {tok : JsonToken}
    (h : parseNumberToken input = some (tok, rest)) :
    ∃ bytes, input = bytes ++ rest ∧ Spells tok bytes := by
  obtain ⟨end', hend, h⟩ := Option.bind_eq_some_iff.mp h
  dsimp only at h
  split at h
  · cases h
  · cases h
    obtain ⟨⟨bytes, rfl⟩, hlength⟩ := numberEnd_suffix hend
    rw [List.length_append] at hlength
    rw [List.length_append, Nat.add_sub_cancel, List.take_left']
    · refine ⟨bytes, rfl, .number ?_⟩
      rintro rfl
      simp at hlength
    · rfl

theorem eq_of_matchKeyword {input kw rest : CStr} {tok tok' : JsonToken}
    (h : matchKeyword input kw tok = some (tok', rest)) : input = kw ++ rest ∧ tok' = tok := by
  unfold matchKeyword at h
  split at h
  next hkw =>
    have hinput : kw ++ input.drop kw.length = input :=
      List.prefix_iff_eq_append.mp (List.isPrefixOf_iff_prefix.mp hkw)
    split at h
    next hdrop =>
      cases h
      exact ⟨by rw [← hinput, hdrop], rfl⟩
    next hdrop =>
      split at h
      · cases h
      · cases h
        exact ⟨by rw [← hinput, hdrop], rfl⟩
  next => cases h

theorem of_ite_eq {α : Type*} {c motive : Prop} [Decidable c] {a b res : α}
    (h : (if c then a else b) = res) (hthen : c → a = res → motive) (helse : b = res → motive) :
    motive := by
  split at h
  next hc => exact hthen hc h
  next => exact helse h

def punctuation : JsonToken → Option UInt8
  | .lbrace => some 123
  | .rbrace => some 125
  | .lbracket => some 91
  | .rbracket => some 93
  | .comma => some 44
  | .colon => some 58
  | _ => none

def keyword : JsonToken → Option CStr
  | .true => some (lit "true")
  | .false => some (lit "false")
  | .null => some (lit "null")
  | _ => none

/-- The ways in which the tokenizer takes a token from the input behind the blanks. -/
inductive TakesToken : CStr → JsonToken → CStr → Prop
  | eof : TakesToken [] .eof []
  | punctuation {b : UInt8} {tok : JsonToken} {rest : CStr} :
      punctuation tok = some b → TakesToken (b :: rest) tok rest
  | string {input rest : CStr} {text : List UInt8} :
      parseStringToken 0 input = some (text, rest) →
      TakesToken (quote :: input) (.string text) rest
  | keyword {input kw rest : CStr} {tok : JsonToken} :
      keyword tok = some kw → matchKeyword input kw tok = some (tok, rest) →
      TakesToken input tok rest
  | number {input rest : CStr} {tok : JsonToken} :
      parseNumberToken input = some (tok, rest) → TakesToken input tok rest

theorem TakesToken.of_matchKeyword {input kw rest : CStr} {tok tok' : JsonToken}
    (hkw : JsonGrammar.keyword tok = some kw)
    (h : matchKeyword input kw tok = some (tok', rest)) : TakesToken input tok' rest := by
  obtain ⟨_, rfl⟩ := eq_of_matchKeyword h
  exact .keyword hkw h

theorem takesToken_of_jsonTokenizerNext {input rest : CStr} {tok : JsonToken}
    (h : jsonTokenizerNext input = some (tok, rest)) :
    ∃ blanks behind, input = blanks ++ behind ∧ (∀ b ∈ blanks, isBlank b = true) ∧
      TakesToken behind tok rest := by
  refine ⟨input.takeWhile isBlank, input.dropWhile isBlank,
    List.takeWhile_append_dropWhile.symm, fun b hb => List.mem_takeWhile_imp hb, ?_⟩
  unfold jsonTokenizerNext at h
  generalize input.dropWhile isBlank = behind at h
  cases behind with
  | nil =>
      cases h
      exact .eof
  | cons c behind =>
      dsimp only at h
      -- one case for each branch on the first character
      refine of_ite_eq h (fun hc h => ?_) fun h => ?_
      · cases h
        exact .punctuation (congrArg some hc.symm)
      refine of_ite_eq h (fun hc h => ?_) fun h => ?_
      · cases h
        exact .punctuation (congrArg some hc.symm)
      refine of_ite_eq h (fun hc h => ?_) fun h => ?_
      · cases h
        exact .punctuation (congrArg some hc.symm)
      refine of_ite_eq h (fun hc h => ?_) fun h => ?_
      · cases h
        exact .punctuation (congrArg some hc.symm)
      refine of_ite_eq h (fun hc h => ?_) fun h => ?_
      · cases h
        exact .punctuation (congrArg some hc.symm)
      refine of_ite_eq h (fun hc h => ?_) fun h => ?_
      · cases h
        exact .punctuation (congrArg some hc.symm)
      refine of_ite_eq h (fun hc h => ?_) fun h => ?_
      · obtain ⟨⟨text, end'⟩, hread, heq⟩ := Option.map_eq_some_iff.mp h
        cases heq
        rw [hc]
        exact .string hread
      refine of_ite_eq h (fun _ h => ?_) fun h => ?_
      · exact .of_matchKeyword rfl h
      refine of_ite_eq h (fun _ h => ?_) fun h => ?_
      · exact .of_matchKeyword rfl h
      refine of_ite_eq h (fun _ h => ?_) fun h => ?_
      · exact .of_matchKeyword rfl h
      exact of_ite_eq h (fun _ h => .number h) nofun

theorem spells_of_punctuation {tok : JsonToken} {b : UInt8} (h : punctuation tok = some b) :
    Spells tok [b] := by
  cases tok with
  | lbrace =>
      cases h
      exact .lbrace
  | rbrace =>
      cases h
      exact .rbrace
  | lbracket =>
      cases h
      exact .lbracket
  | rbracket =>
      cases h
      exact .rbracket
  | comma =>
      cases h
      exact .comma
  | colon =>
      cases h
      exact .colon
  | _ => cases h

theorem spells_of_keyword {tok : JsonToken} {kw : CStr} (h : keyword tok = some kw) :
    Spells tok kw := by
  cases tok with
  | true =>
      cases h
      exact .true
  | false =>
      cases h
      exact .false
  | null =>
      cases h
      exact .null
  | _ => cases h

/-- A token is spelled at the front of the input, behind blanks. -/
theorem spells_of_jsonTokenizerNext {input rest : CStr} {tok : JsonToken}
    (h : jsonTokenizerNext input = some (tok, rest)) :
    (tok = .eof ∧ rest = []) ∨
      ∃ blanks bytes, input = blanks ++ (bytes ++ rest) ∧ Spells tok bytes := by
  obtain ⟨blanks, behind, rfl, _, htakes⟩ := takesToken_of_jsonTokenizerNext h
  cases htakes with
  | eof => exact Or.inl ⟨rfl, rfl⟩
  | punctuation hb => exact Or.inr ⟨blanks, _, rfl, spells_of_punctuation hb⟩
  | string hread =>
      obtain ⟨bytes, rfl, hspells, hlength⟩ := spellsString_of_parseStringToken hread
      exact Or.inr ⟨blanks, _, by simp, .string hspells (by simpa using hlength)⟩
  | keyword hkw hmatch =>
      obtain ⟨hinput, _⟩ := eq_of_matchKeyword hmatch
      exact Or.inr ⟨blanks, _, by rw [hinput], spells_of_keyword hkw⟩
  | number hread =>
      obtain ⟨bytes, rfl, hspells⟩ := spells_of_parseNumberToken hread
      exact Or.inr ⟨blanks, bytes, rfl, hspells⟩

theorem Spells.length_pos {tok : JsonToken} {bytes : CStr} (h : Spells tok bytes) :
    0 < bytes.length := by
  cases h with
  | string => simp
  | number hne => exact List.length_pos_of_ne_nil hne
  | _ => decide

/-! ## The grammar -/

/-- Where the parser is: in front of a value, or of the next item or member of an array or
object of which some are read already. -/
inductive Phase
  | value
  | items (acc : List JsonValue)
  | members (acc : List (CStr × JsonValue))

def parse : Phase → Nat → Nat → JsonParser → Outcome (JsonValue × JsonParser)
  | .value, fuel, depth, p => parseValue fuel depth p
  | .items acc, fuel, depth, p => parseItems fuel depth acc p
  | .members acc, fuel, depth, p => parseMembers fuel depth acc p

def tokenValue : JsonToken → Option JsonValue
  | .string text => some (.string (ofBuffer text))
  | .number value => some (.number value)
  | .true => some (.bool true)
  | .false => some (.bool false)
  | .null => some .null
  | _ => none

/-- `Parsed phase depth p val p'`: from `p` the parser reads `val` and then stands at `p'`. -/
inductive Parsed : Phase → Nat → JsonParser → JsonValue → JsonParser → Prop
  | token {depth : Nat} {p : JsonParser} {tok : JsonToken} {val : JsonValue} :
      p.current = some tok → tokenValue tok = some val → Parsed .value depth p val (parserAdvance p)
  | emptyArray {depth : Nat} {p : JsonParser} :
      p.current = some .lbracket → depth ≤ jsonMaxDepth →
      (parserAdvance p).current = some .rbracket →
      Parsed .value depth p (.array []) (parserAdvance (parserAdvance p))
  | array {depth : Nat} {p p' : JsonParser} {val : JsonValue} :
      p.current = some .lbracket → depth ≤ jsonMaxDepth →
      Parsed (.items []) depth (parserAdvance p) val p' → Parsed .value depth p val p'
  | emptyObject {depth : Nat} {p : JsonParser} :
      p.current = some .lbrace → depth ≤ jsonMaxDepth →
      (parserAdvance p).current = some .rbrace →
      Parsed .value depth p (.object []) (parserAdvance (parserAdvance p))
  | object {depth : Nat} {p p' : JsonParser} {val : JsonValue} :
      p.current = some .lbrace → depth ≤ jsonMaxDepth →
      Parsed (.members []) depth (parserAdvance p) val p' → Parsed .value depth p val p'
  | lastItem {depth : Nat} {acc : List JsonValue} {p p₁ : JsonParser} {val : JsonValue} :
      Parsed .value (depth + 1) p val p₁ → p₁.current = some .rbracket →
      Parsed (.items acc) depth p (.array (acc ++ [val])) (parserAdvance p₁)
  | nextItem {depth : Nat} {acc : List JsonValue} {p p₁ p' : JsonParser} {val res : JsonValue} :
      Parsed .value (depth + 1) p val p₁ → p₁.current = some .comma →
      Parsed (.items (acc ++ [val])) depth (parserAdvance p₁) res p' →
      Parsed (.items acc) depth p res p'
  | lastMember {depth : Nat} {acc : List (CStr × JsonValue)} {p p₁ : JsonParser}
      {text : List UInt8} {val : JsonValue} :
      p.current = some (.string text) → (parserAdvance p).current = some .colon →
      Parsed .value (depth + 1) (parserAdvance (parserAdvance p)) val p₁ →
      ofBuffer text ∉ acc.map Prod.fst → p₁.current = some .rbrace →
      Parsed (.members acc) depth p (.object (acc ++ [(ofBuffer text, val)])) (parserAdvance p₁)
  | nextMember {depth : Nat} {acc : List (CStr × JsonValue)} {p p₁ p' : JsonParser}
      {text : List UInt8} {val res : JsonValue} :
      p.current = some (.string text) → (parserAdvance p).current = some .colon →
      Parsed .value (depth + 1) (parserAdvance (parserAdvance p)) val p₁ →
      ofBuffer text ∉ acc.map Prod.fst → p₁.current = some .comma →
      Parsed (.members (acc ++ [(ofBuffer text, val)])) depth (parserAdvance p₁) res p' →
      Parsed (.members acc) depth p res p'

theorem freeAndFail_ne_value {α : Type} (val : JsonValue) (a : α) :
    freeAndFail val ≠ .value a := by
  unfold freeAndFail
  split <;> nofun

theorem jsonObjectSet_eq_some_iff {members members' : List (CStr × JsonValue)} {key : CStr}
    {val : JsonValue} :
    jsonObjectSet members key val = some members' ↔
      key ∉ members.map Prod.fst ∧ members ++ [(key, val)] = members' := by
  unfold jsonObjectSet
  have hany : (members.any fun m => m.1 == key) = true ↔ key ∈ members.map Prod.fst := by
    simp [List.any_eq_true]
  by_cases hmem : key ∈ members.map Prod.fst
  · simp [hany.mpr hmem, hmem]
  · rw [if_neg fun h => hmem (hany.mp h), Option.some.injEq]
    exact ⟨fun h => ⟨hmem, h⟩, And.right⟩

/-- What the parser returns is derived by the grammar. -/
theorem parsed_of_parse {fuel : Nat} (phase : Phase) {depth : Nat} {p p' : JsonParser}
    {val : JsonValue} (h : parse phase fuel depth p = .value (val, p')) :
    Parsed phase depth p val p' := by
  induction fuel generalizing phase depth p p' val with
  | zero =>
      cases phase with
      | value => rw [parse, parseValue] at h; cases h
      | items acc => rw [parse, parseItems] at h; cases h
      | members acc => rw [parse, parseMembers] at h; cases h
  | succ fuel ih =>
      cases phase with
      | value =>
          rw [parse, parseValue] at h
          split at h
          next hcurrent =>
            dsimp only at h
            split at h
            · cases h
            next hdepth =>
            split at h
            next hclose =>
              cases h
              exact .emptyObject hcurrent (Nat.le_of_not_lt hdepth) hclose
            next => exact .object hcurrent (Nat.le_of_not_lt hdepth) (ih (.members []) h)
          next hcurrent =>
            dsimp only at h
            split at h
            · cases h
            next hdepth =>
            split at h
            next hclose =>
              cases h
              exact .emptyArray hcurrent (Nat.le_of_not_lt hdepth) hclose
            next => exact .array hcurrent (Nat.le_of_not_lt hdepth) (ih (.items []) h)
          next hcurrent => cases h; exact .token hcurrent rfl
          next hcurrent => cases h; exact .token hcurrent rfl
          next hcurrent => cases h; exact .token hcurrent rfl
          next hcurrent => cases h; exact .token hcurrent rfl
          next hcurrent => cases h; exact .token hcurrent rfl
          next => cases h
      | items acc =>
          rw [parse, parseItems] at h
          split at h
          · cases h
          · exact absurd h (freeAndFail_ne_value _ _)
          next val p₁ hval =>
          have hval := ih .value hval
          dsimp only at h
          split at h
          next hcurrent =>
            cases h
            exact .lastItem hval hcurrent
          next hcurrent => exact .nextItem hval hcurrent (ih (.items _) h)
          next => exact absurd h (freeAndFail_ne_value _ _)
      | members acc =>
          rw [parse, parseMembers] at h
          split at h
          next text hcurrent =>
            dsimp only at h
            split at h
            next hcolon =>
              split at h
              · cases h
              · exact absurd h (freeAndFail_ne_value _ _)
              next val p₁ hval =>
              have hval := ih .value hval
              split at h
              · cases h
              next members hset =>
              obtain ⟨hkey, rfl⟩ := jsonObjectSet_eq_some_iff.mp hset
              split at h
              next hnext =>
                cases h
                exact .lastMember hcurrent hcolon hval hkey hnext
              next hnext => exact .nextMember hcurrent hcolon hval hkey hnext (ih (.members _) h)
              next => exact absurd h (freeAndFail_ne_value _ _)
            next => exact absurd h (freeAndFail_ne_value _ _)
          next => exact absurd h (freeAndFail_ne_value _ _)

/-! ## Enough fuel -/

/-- A bound on the bytes in front of the parser, with the current token as one more; there is
nothing behind the end of the input. -/
def ahead (p : JsonParser) : Nat :=
  match p.current with
  | none => 0
  | some .eof => 0
  | some _ => p.rest.length + 1

theorem ahead_of_current {p : JsonParser} {tok : JsonToken} (h : p.current = some tok)
    (hne : tok ≠ .eof) : ahead p = p.rest.length + 1 := by
  unfold ahead
  rw [h]
  cases tok with
  | eof => exact absurd rfl hne
  | _ => rfl

theorem ahead_le (p : JsonParser) : ahead p ≤ p.rest.length + 1 := by
  unfold ahead
  split
  · exact Nat.zero_le _
  · exact Nat.zero_le _
  · exact Nat.le_refl _

theorem ahead_parserAdvance_le (p : JsonParser) : ahead (parserAdvance p) ≤ p.rest.length := by
  unfold parserAdvance
  split
  next tok rest hnext =>
    rcases spells_of_jsonTokenizerNext hnext with ⟨rfl, rfl⟩ | ⟨blanks, bytes, hinput, hspells⟩
    · exact Nat.zero_le _
    · have hpos := hspells.length_pos
      have hle : ahead ⟨some tok, rest⟩ ≤ rest.length + 1 := ahead_le _
      rw [hinput, List.length_append, List.length_append]
      omega
  next => exact Nat.zero_le _

theorem ahead_parserAdvance_lt {p : JsonParser} {tok : JsonToken} (h : p.current = some tok)
    (hne : tok ≠ .eof) : ahead (parserAdvance p) < ahead p := by
  rw [ahead_of_current h hne]
  exact Nat.lt_succ_of_le (ahead_parserAdvance_le p)

theorem ne_eof_of_tokenValue {tok : JsonToken} {val : JsonValue} (h : tokenValue tok = some val) :
    tok ≠ .eof := by
  rintro rfl
  cases h

theorem Parsed.ahead_lt {phase : Phase} {depth : Nat} {p p' : JsonParser} {val : JsonValue}
    (h : Parsed phase depth p val p') : ahead p' < ahead p := by
  induction h with
  | token hcurrent hval => exact ahead_parserAdvance_lt hcurrent (ne_eof_of_tokenValue hval)
  | emptyArray hcurrent _ hclose =>
      exact (ahead_parserAdvance_lt hclose nofun).trans (ahead_parserAdvance_lt hcurrent nofun)
  | array hcurrent _ _ ih => exact ih.trans (ahead_parserAdvance_lt hcurrent nofun)
  | emptyObject hcurrent _ hclose =>
      exact (ahead_parserAdvance_lt hclose nofun).trans (ahead_parserAdvance_lt hcurrent nofun)
  | object hcurrent _ _ ih => exact ih.trans (ahead_parserAdvance_lt hcurrent nofun)
  | lastItem _ hclose ih => exact (ahead_parserAdvance_lt hclose nofun).trans ih
  | nextItem _ hcomma _ ih ihrest =>
      exact ihrest.trans ((ahead_parserAdvance_lt hcomma nofun).trans ih)
  | lastMember hkey hcolon _ _ hclose ih =>
      have hread := (ahead_parserAdvance_lt hcolon nofun).trans (ahead_parserAdvance_lt hkey nofun)
      exact (ahead_parserAdvance_lt hclose nofun).trans (ih.trans hread)
  | nextMember hkey hcolon _ _ hcomma _ ih ihrest =>
      have hread := (ahead_parserAdvance_lt hcolon nofun).trans (ahead_parserAdvance_lt hkey nofun)
      exact ihrest.trans ((ahead_parserAdvance_lt hcomma nofun).trans (ih.trans hread))

/-- Neither a value nor an item nor a member starts with a closing bracket. -/
theorem Parsed.current_ne {phase : Phase} {depth : Nat} {p p' : JsonParser} {val : JsonValue}
    (h : Parsed phase depth p val p') :
    p.current ≠ some .rbracket ∧ p.current ≠ some .rbrace := by
  induction h with
  | token hcurrent hval =>
      rw [hcurrent]
      refine ⟨?_, ?_⟩
      all_goals
        intro heq
        cases heq
        cases hval
  | lastItem _ _ ih => exact ih
  | nextItem _ _ _ ih _ => exact ih
  | emptyArray hcurrent | array hcurrent | emptyObject hcurrent | object hcurrent
  | lastMember hcurrent | nextMember hcurrent => simp [hcurrent]

section

variable {fuel depth : Nat} {p p₁ : JsonParser} {val : JsonValue}

attribute [local simp] parse parseValue parseItems parseMembers

theorem parse_token {tok : JsonToken} (hcurrent : p.current = some tok)
    (hval : tokenValue tok = some val) :
    parse .value (fuel + 1) depth p = .value (val, parserAdvance p) := by
  rw [parse, parseValue, hcurrent]
  cases tok with
  | string | number | true | false | null =>
      cases hval
      rfl
  | _ => cases hval

theorem parse_emptyArray (hcurrent : p.current = some .lbracket) (hdepth : depth ≤ jsonMaxDepth)
    (hclose : (parserAdvance p).current = some .rbracket) :
    parse .value (fuel + 1) depth p = .value (.array [], parserAdvance (parserAdvance p)) := by
  simp [hcurrent, Nat.not_lt.mpr hdepth, hclose]

theorem parse_array (hcurrent : p.current = some .lbracket) (hdepth : depth ≤ jsonMaxDepth)
    (hopen : (parserAdvance p).current ≠ some .rbracket) :
    parse .value (fuel + 1) depth p = parse (.items []) fuel depth (parserAdvance p) := by
  rw [parse, parseValue, hcurrent, parse]
  dsimp only
  rw [if_neg (Nat.not_lt.mpr hdepth), if_neg hopen]

theorem parse_emptyObject (hcurrent : p.current = some .lbrace) (hdepth : depth ≤ jsonMaxDepth)
    (hclose : (parserAdvance p).current = some .rbrace) :
    parse .value (fuel + 1) depth p = .value (.object [], parserAdvance (parserAdvance p)) := by
  simp [hcurrent, Nat.not_lt.mpr hdepth, hclose]

theorem parse_object (hcurrent : p.current = some .lbrace) (hdepth : depth ≤ jsonMaxDepth)
    (hopen : (parserAdvance p).current ≠ some .rbrace) :
    parse .value (fuel + 1) depth p = parse (.members []) fuel depth (parserAdvance p) := by
  rw [parse, parseValue, hcurrent, parse]
  dsimp only
  rw [if_neg (Nat.not_lt.mpr hdepth), if_neg hopen]

theorem parse_items {acc : List JsonValue}
    (hval : parse .value fuel (depth + 1) p = .value (val, p₁)) :
    parse (.items acc) (fuel + 1) depth p =
      match p₁.current with
      | some .rbracket => .value (.array (acc ++ [val]), parserAdvance p₁)
      | some .comma => parse (.items (acc ++ [val])) fuel depth (parserAdvance p₁)
      | _ => freeAndFail (.array (acc ++ [val])) := by
  rw [parse] at hval
  rw [parse, parseItems, hval]
  rfl

theorem parse_members {acc : List (CStr × JsonValue)} {text : List UInt8}
    (hkey : p.current = some (.string text)) (hcolon : (parserAdvance p).current = some .colon)
    (hval : parse .value fuel (depth + 1) (parserAdvance (parserAdvance p)) = .value (val, p₁))
    (hnew : ofBuffer text ∉ acc.map Prod.fst) :
    parse (.members acc) (fuel + 1) depth p =
      match p₁.current with
      | some .rbrace => .value (.object (acc ++ [(ofBuffer text, val)]), parserAdvance p₁)
      | some .comma => parse (.members (acc ++ [(ofBuffer text, val)])) fuel depth
          (parserAdvance p₁)
      | _ => freeAndFail (.object (acc ++ [(ofBuffer text, val)])) := by
  rw [parse] at hval
  rw [parse, parseMembers, hkey]
  dsimp only
  rw [if_pos hcolon, hval]
  dsimp only
  rw [jsonObjectSet_eq_some_iff.mpr ⟨hnew, rfl⟩]
  rfl

end

def enough : Phase → JsonParser → Nat
  | .value, p => 2 * ahead p
  | .items _, p => 2 * ahead p + 1
  | .members _, p => 2 * ahead p + 1

/-- What the grammar derives is found with enough fuel. -/
theorem parse_of_parsed {phase : Phase} {depth : Nat} {p p' : JsonParser} {val : JsonValue}
    (h : Parsed phase depth p val p') {fuel : Nat} (hfuel : enough phase p ≤ fuel) :
    parse phase fuel depth p = .value (val, p') := by
  induction h generalizing fuel with
  | token hcurrent hval =>
      have hlt := ahead_parserAdvance_lt hcurrent (ne_eof_of_tokenValue hval)
      rw [enough] at hfuel
      obtain ⟨fuel, rfl⟩ : ∃ n, fuel = n + 1 := ⟨fuel - 1, by omega⟩
      exact parse_token hcurrent hval
  | emptyArray hcurrent hdepth hclose =>
      have hlt := ahead_parserAdvance_lt hcurrent nofun
      rw [enough] at hfuel
      obtain ⟨fuel, rfl⟩ : ∃ n, fuel = n + 1 := ⟨fuel - 1, by omega⟩
      exact parse_emptyArray hcurrent hdepth hclose
  | array hcurrent hdepth hitems ih =>
      have hlt := ahead_parserAdvance_lt hcurrent nofun
      rw [enough] at hfuel
      obtain ⟨fuel, rfl⟩ : ∃ n, fuel = n + 1 := ⟨fuel - 1, by omega⟩
      rw [parse_array hcurrent hdepth hitems.current_ne.1]
      apply ih
      rw [enough]
      omega
  | emptyObject hcurrent hdepth hclose =>
      have hlt := ahead_parserAdvance_lt hcurrent nofun
      rw [enough] at hfuel
      obtain ⟨fuel, rfl⟩ : ∃ n, fuel = n + 1 := ⟨fuel - 1, by omega⟩
      exact parse_emptyObject hcurrent hdepth hclose
  | object hcurrent hdepth hmembers ih =>
      have hlt := ahead_parserAdvance_lt hcurrent nofun
      rw [enough] at hfuel
      obtain ⟨fuel, rfl⟩ : ∃ n, fuel = n + 1 := ⟨fuel - 1, by omega⟩
      rw [parse_object hcurrent hdepth hmembers.current_ne.2]
      apply ih
      rw [enough]
      omega
  | lastItem hval hclose ih =>
      rw [enough] at hfuel
      obtain ⟨fuel, rfl⟩ : ∃ n, fuel = n + 1 := ⟨fuel - 1, by omega⟩
      rw [parse_items (ih (by rw [enough]; omega)), hclose]
  | nextItem hval hcomma hrest ih ihrest =>
      have hlt := ahead_parserAdvance_lt hcomma nofun
      have hlt₁ := hval.ahead_lt
      rw [enough] at hfuel
      obtain ⟨fuel, rfl⟩ : ∃ n, fuel = n + 1 := ⟨fuel - 1, by omega⟩
      rw [parse_items (ih (by rw [enough]; omega)), hcomma]
      apply ihrest
      rw [enough]
      omega
  | lastMember hkey hcolon hval hnew hclose ih =>
      have hlt := ahead_parserAdvance_lt hkey nofun
      have hlt₁ := ahead_parserAdvance_lt hcolon nofun
      rw [enough] at hfuel
      obtain ⟨fuel, rfl⟩ : ∃ n, fuel = n + 1 := ⟨fuel - 1, by omega⟩
      rw [parse_members hkey hcolon (ih (by rw [enough]; omega)) hnew, hclose]
  | nextMember hkey hcolon hval hnew hcomma hrest ih ihrest =>
      have hlt := ahead_parserAdvance_lt hkey nofun
      have hlt₁ := ahead_parserAdvance_lt hcolon nofun
      have hlt₂ := ahead_parserAdvance_lt hcomma nofun
      have hlt₃ := hval.ahead_lt
      rw [enough] at hfuel
      obtain ⟨fuel, rfl⟩ : ∃ n, fuel = n + 1 := ⟨fuel - 1, by omega⟩
      rw [parse_members hkey hcolon (ih (by rw [enough]; omega)) hnew, hcomma]
      apply ihrest
      rw [enough]
      omega

/-! ## The first value -/

/-- A value is read, or the first entry of an array or object is begun. -/
inductive Begun : Nat → JsonParser → Prop
  | parsed {depth : Nat} {p p' : JsonParser} {val : JsonValue} :
      Parsed .value depth p val p' → Begun depth p
  | array {depth : Nat} {p : JsonParser} :
      p.current = some .lbracket → depth ≤ jsonMaxDepth → Begun (depth + 1) (parserAdvance p) →
      Begun depth p
  | object {depth : Nat} {p : JsonParser} {text : List UInt8} :
      p.current = some .lbrace → depth ≤ jsonMaxDepth →
      (parserAdvance p).current = some (.string text) →
      (parserAdvance (parserAdvance p)).current = some .colon →
      Begun (depth + 1) (parserAdvance (parserAdvance (parserAdvance p))) → Begun depth p

/-- The same in front of the next item or member, where nothing is read yet. -/
def BegunIn : Phase → Nat → JsonParser → Prop
  | .value, depth, p => Begun depth p
  | .items [], depth, p => Begun (depth + 1) p
  | .members [], depth, p => ∃ text, p.current = some (.string text) ∧
      (parserAdvance p).current = some .colon ∧
      Begun (depth + 1) (parserAdvance (parserAdvance p))
  | .items (_ :: _), _, _ | .members (_ :: _), _, _ => True

theorem begunIn_of_parse {fuel : Nat} (phase : Phase) {depth : Nat} {p : JsonParser}
    (h : parse phase fuel depth p ≠ .null) : BegunIn phase depth p := by
  induction fuel generalizing phase depth p with
  | zero =>
      cases phase with
      | value => exact absurd (by rw [parse, parseValue]) h
      | items acc => exact absurd (by rw [parse, parseItems]) h
      | members acc => exact absurd (by rw [parse, parseMembers]) h
  | succ fuel ih =>
      cases phase with
      | value =>
          rw [parse, parseValue] at h
          split at h
          next hcurrent =>
            dsimp only at h
            split at h
            · exact absurd rfl h
            next hdepth =>
            have hdepth := Nat.le_of_not_lt hdepth
            split at h
            next hclose => exact .parsed (.emptyObject hcurrent hdepth hclose)
            next =>
              obtain ⟨text, hkey, hcolon, hbegun⟩ := ih (.members []) h
              exact .object hcurrent hdepth hkey hcolon hbegun
          next hcurrent =>
            dsimp only at h
            split at h
            · exact absurd rfl h
            next hdepth =>
            have hdepth := Nat.le_of_not_lt hdepth
            split at h
            next hclose => exact .parsed (.emptyArray hcurrent hdepth hclose)
            next => exact .array hcurrent hdepth (ih (.items []) h)
          next hcurrent => exact .parsed (.token hcurrent rfl)
          next hcurrent => exact .parsed (.token hcurrent rfl)
          next hcurrent => exact .parsed (.token hcurrent rfl)
          next hcurrent => exact .parsed (.token hcurrent rfl)
          next hcurrent => exact .parsed (.token hcurrent rfl)
          next => exact absurd rfl h
      | items acc =>
          cases acc with
          | cons => trivial
          | nil =>
              refine ih .value fun hnull => h ?_
              rw [parse] at hnull
              rw [parse, parseItems, hnull]
              rfl
      | members acc =>
          cases acc with
          | cons => trivial
          | nil =>
              rw [parse, parseMembers] at h
              split at h
              next text hcurrent =>
                dsimp only at h
                split at h
                next hcolon =>
                  refine ⟨text, hcurrent, hcolon, ih .value fun hnull => h ?_⟩
                  rw [parse] at hnull
                  rw [hnull]
                  rfl
                next => exact absurd rfl h
              next => exact absurd rfl h

/-- An item or a member is read already. -/
def Loaded : Phase → Prop
  | .value => False
  | .items acc => acc ≠ []
  | .members acc => acc ≠ []

theorem value_ne_null {α : Type} (a : α) : Outcome.value a ≠ .null := by simp

theorem badFree_ne_null {α : Type} : (Outcome.badFree : Outcome α) ≠ .null := by simp

theorem freeAndFail_ne_null {α : Type} {val : JsonValue} (h : jsonValueFree val = false) :
    (freeAndFail val : Outcome α) ≠ .null := by
  rw [freeAndFail, h]
  exact badFree_ne_null

theorem freeAndFail_array_ne_null {α : Type} {items : List JsonValue} (h : items ≠ []) :
    (freeAndFail (.array items) : Outcome α) ≠ .null :=
  freeAndFail_ne_null (List.isEmpty_eq_false_iff.mpr h)

theorem freeAndFail_object_ne_null {α : Type} {members : List (CStr × JsonValue)}
    (h : members ≠ []) : (freeAndFail (.object members) : Outcome α) ≠ .null :=
  freeAndFail_ne_null (List.isEmpty_eq_false_iff.mpr h)

theorem parse_items_ne_null {acc : List JsonValue} {fuel depth : Nat} {p : JsonParser}
    (hnull : parse .value fuel (depth + 1) p = .null → acc ≠ [])
    (hrest : ∀ val p₁, parse .value fuel (depth + 1) p = .value (val, p₁) →
      p₁.current = some .comma →
      parse (.items (acc ++ [val])) fuel depth (parserAdvance p₁) ≠ .null) :
    parse (.items acc) (fuel + 1) depth p ≠ .null := by
  rw [parse, parseItems]
  split
  · exact badFree_ne_null
  next hval => exact freeAndFail_array_ne_null (hnull hval)
  next val p₁ hval =>
  dsimp only
  split
  · exact value_ne_null _
  next hcomma => exact hrest val p₁ hval hcomma
  · exact freeAndFail_array_ne_null (by simp)

theorem parse_members_ne_null {acc : List (CStr × JsonValue)} {text : List UInt8}
    {fuel depth : Nat} {p : JsonParser} (hkey : p.current = some (.string text))
    (hcolon : (parserAdvance p).current = some .colon)
    (hnull : parse .value fuel (depth + 1) (parserAdvance (parserAdvance p)) = .null → acc ≠ [])
    (hrest : ∀ val p₁,
      parse .value fuel (depth + 1) (parserAdvance (parserAdvance p)) = .value (val, p₁) →
      p₁.current = some .comma →
      parse (.members (acc ++ [(ofBuffer text, val)])) fuel depth (parserAdvance p₁) ≠ .null) :
    parse (.members acc) (fuel + 1) depth p ≠ .null := by
  rw [parse, parseMembers, hkey]
  dsimp only
  rw [if_pos hcolon]
  split
  · exact badFree_ne_null
  next hval => exact freeAndFail_object_ne_null (hnull hval)
  next val p₁ hval =>
  split
  · exact badFree_ne_null
  next members hset =>
  obtain ⟨-, rfl⟩ := jsonObjectSet_eq_some_iff.mp hset
  split
  · exact value_ne_null _
  next hcomma => exact hrest val p₁ hval hcomma
  · exact freeAndFail_object_ne_null (by simp)

/-- Behind the first item or member the parser does not return NULL any more. -/
theorem parse_ne_null_of_loaded {phase : Phase} (hloaded : Loaded phase) {fuel depth : Nat}
    {p : JsonParser} (hfuel : enough phase p ≤ fuel) : parse phase fuel depth p ≠ .null := by
  induction fuel generalizing phase p with
  | zero =>
      cases phase with
      | value => exact absurd hloaded id
      | items acc => exact absurd hfuel (by rw [enough]; omega)
      | members acc => exact absurd hfuel (by rw [enough]; omega)
  | succ fuel ih =>
      cases phase with
      | value => exact absurd hloaded id
      | items acc =>
          refine parse_items_ne_null (fun _ => hloaded) fun val p₁ hval hcomma => ?_
          have hlt := (parsed_of_parse .value hval).ahead_lt
          have hltcomma := ahead_parserAdvance_lt hcomma (by simp)
          refine @ih (.items (acc ++ [val])) (List.append_ne_nil_of_right_ne_nil _ (by simp)) _ ?_
          rw [enough] at hfuel ⊢
          omega
      | members acc =>
          by_cases hkey : ∃ text, p.current = some (.string text) ∧
              (parserAdvance p).current = some .colon
          · obtain ⟨text, hkey, hcolon⟩ := hkey
            refine parse_members_ne_null hkey hcolon (fun _ => hloaded) fun val p₁ hval hcomma => ?_
            have hlt := (parsed_of_parse .value hval).ahead_lt
            have hltcomma := ahead_parserAdvance_lt hcomma (by simp)
            have hltkey := ahead_parserAdvance_lt hkey (by simp)
            have hltcolon := ahead_parserAdvance_lt hcolon (by simp)
            refine @ih (.members (acc ++ [(ofBuffer text, val)]))
              (List.append_ne_nil_of_right_ne_nil _ (by simp)) _ ?_
            rw [enough] at hfuel ⊢
            omega
          · have hfail := @freeAndFail_object_ne_null (JsonValue × JsonParser) acc hloaded
            rw [parse, parseMembers]
            split
            next text hcurrent =>
              dsimp only
              rw [if_neg fun hcolon => hkey ⟨text, hcurrent, hcolon⟩]
              exact hfail
            next => exact hfail

theorem Begun.current_ne {depth : Nat} {p : JsonParser} (h : Begun depth p) :
    p.current ≠ some .rbracket ∧ p.current ≠ some .rbrace := by
  cases h with
  | parsed h => exact h.current_ne
  | array hcurrent | object hcurrent => simp [hcurrent]

theorem Begun.ahead_pos {depth : Nat} {p : JsonParser} (h : Begun depth p) : 0 < ahead p := by
  cases h with
  | parsed h => exact Nat.zero_lt_of_lt h.ahead_lt
  | array hcurrent => exact Nat.zero_lt_of_lt (ahead_parserAdvance_lt hcurrent nofun)
  | object hcurrent => exact Nat.zero_lt_of_lt (ahead_parserAdvance_lt hcurrent nofun)

theorem parse_ne_null_of_begun {depth : Nat} {p : JsonParser} (h : Begun depth p) {fuel : Nat}
    (hfuel : enough .value p ≤ fuel) : parse .value fuel depth p ≠ .null := by
  induction h generalizing fuel with
  | parsed h =>
      rw [parse_of_parsed h hfuel]
      exact value_ne_null _
  | @array depth p hcurrent hdepth hfirst ih =>
      have hlt := ahead_parserAdvance_lt hcurrent (by simp)
      have hpos := hfirst.ahead_pos
      rw [enough] at hfuel ih
      obtain ⟨fuel, rfl⟩ : ∃ n, fuel = n + 2 := ⟨fuel - 2, by omega⟩
      have hinner := @ih fuel (by omega)
      rw [parse_array hcurrent hdepth hfirst.current_ne.1]
      refine parse_items_ne_null (fun hnull => absurd hnull hinner) fun val p₁ hval hcomma => ?_
      have hlt₁ := (parsed_of_parse .value hval).ahead_lt
      have hltcomma := ahead_parserAdvance_lt hcomma (by simp)
      apply parse_ne_null_of_loaded
      · exact List.cons_ne_nil _ _
      · rw [enough]
        omega
  | @object depth p text hcurrent hdepth hkey hcolon hfirst ih =>
      have hlt := ahead_parserAdvance_lt hcurrent (by simp)
      have hltkey := ahead_parserAdvance_lt hkey (by simp)
      have hltcolon := ahead_parserAdvance_lt hcolon (by simp)
      have hpos := hfirst.ahead_pos
      rw [enough] at hfuel ih
      obtain ⟨fuel, rfl⟩ : ∃ n, fuel = n + 2 := ⟨fuel - 2, by omega⟩
      have hinner := @ih fuel (by omega)
      have hopen : (parserAdvance p).current ≠ some .rbrace := by simp [hkey]
      rw [parse_object hcurrent hdepth hopen]
      refine parse_members_ne_null hkey hcolon (fun hnull => absurd hnull hinner)
        fun val p₁ hval hcomma => ?_
      have hlt₁ := (parsed_of_parse .value hval).ahead_lt
      have hltcomma := ahead_parserAdvance_lt hcomma (by simp)
      apply parse_ne_null_of_loaded
      · exact List.cons_ne_nil _ _
      · rw [enough]
        omega

/-! ## Whole texts -/

def start (input : CStr) : JsonParser := parserAdvance ⟨none, input⟩

theorem jsonParse_eq (input : CStr) :
    jsonParse input = match parse .value (2 * input.length + 3) 0 (start input) with
      | .value (root, _) => .value root
      | .null => .null
      | .badFree => .badFree := by
  rw [jsonParse, parse, ← start]
  split
  next hnone => rw [parseValue, hnone]
  next heof => rw [parseValue, heof]
  next => rfl

theorem enough_start (input : CStr) : enough .value (start input) ≤ 2 * input.length + 3 := by
  have hahead : ahead (start input) ≤ input.length := ahead_parserAdvance_le ⟨none, input⟩
  rw [enough]
  omega

/-- `json_parse` returns exactly what the grammar derives; the input may go on behind it. -/
theorem jsonParse_eq_value_iff {input : CStr} {val : JsonValue} :
    jsonParse input = .value val ↔ ∃ p', Parsed .value 0 (start input) val p' := by
  rw [jsonParse_eq]
  constructor
  · intro h
    split at h
    next root p' hparse =>
      cases h
      exact ⟨p', parsed_of_parse .value hparse⟩
    · cases h
    · cases h
  · rintro ⟨p', h⟩
    rw [parse_of_parsed h (enough_start input)]

/-- `json_parse` returns NULL only if it reads no value before the first error. -/
theorem jsonParse_eq_null_iff {input : CStr} :
    jsonParse input = .null ↔ ¬ Begun 0 (start input) := by
  have hparse : jsonParse input = .null ↔
      parse .value (2 * input.length + 3) 0 (start input) = .null := by
    rw [jsonParse_eq]
    split <;> simp [*]
  rw [hparse]
  constructor
  · exact fun hnull hbegun => parse_ne_null_of_begun hbegun (enough_start input) hnull
  · intro hnone
    by_contra hne
    exact hnone (begunIn_of_parse .value hne)

end MiniBackend.WebServer.Proofs.JsonGrammar
