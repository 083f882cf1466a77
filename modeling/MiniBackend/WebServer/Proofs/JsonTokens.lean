import MiniBackend.WebServer.Proofs.JsonText

/-!
# Reading tokens back

The tokenizer undoes the escapes of the serializer, and reads numbers and keywords up to
the comma or bracket behind them.
-/

namespace MiniBackend.WebServer.Proofs.JsonTokens

open MiniBackend.Lib.Binary64 MiniBackend.Lib.CString MiniBackend.WebServer.Json
open MiniBackend.WebServer.Proofs.JsonText

/-! ## Strings -/

def PlainByte (b : UInt8) : Prop := b ≠ quote ∧ b ≠ backslash ∧ ¬b < 32

instance (b : UInt8) : Decidable (PlainByte b) :=
  inferInstanceAs (Decidable (b ≠ quote ∧ b ≠ backslash ∧ ¬b < 32))

/-- A byte is escaped by a letter, by its number, or not at all. -/
theorem escapeByte_cases (b : UInt8) :
    (∃ esc, escaped esc = some b ∧ escapeByte b = [backslash, esc]) ∨
      (b < 32 ∧ escapeByte b = unicodeEscape b) ∨ (PlainByte b ∧ escapeByte b = [b]) := by
  unfold escapeByte
  split
  next h => exact Or.inl ⟨quote, by rw [h]; rfl, rfl⟩
  next hquote =>
  split
  next h => exact Or.inl ⟨backslash, by rw [h]; rfl, rfl⟩
  next hslash =>
  split
  next h => exact Or.inl ⟨98, by rw [h]; rfl, rfl⟩
  next =>
  split
  next h => exact Or.inl ⟨102, by rw [h]; rfl, rfl⟩
  next =>
  split
  next h => exact Or.inl ⟨110, by rw [h]; rfl, rfl⟩
  next =>
  split
  next h => exact Or.inl ⟨114, by rw [h]; rfl, rfl⟩
  next =>
  split
  next h => exact Or.inl ⟨116, by rw [h]; rfl, rfl⟩
  next =>
  split
  next hcontrol => exact Or.inr (Or.inl ⟨hcontrol, rfl⟩)
  next hcontrol => exact Or.inr (Or.inr ⟨⟨hquote, hslash, hcontrol⟩, rfl⟩)

theorem escapeByte_of_plain {b : UInt8} (h : PlainByte b) : escapeByte b = [b] := by
  have hne : ∀ c : UInt8, c < 32 → b ≠ c := by
    rintro c hc rfl
    exact h.2.2 hc
  unfold escapeByte
  rw [if_neg h.1, if_neg h.2.1, if_neg (hne 8 (by decide)), if_neg (hne 12 (by decide)),
    if_neg (hne 10 (by decide)), if_neg (hne 13 (by decide)), if_neg (hne 9 (by decide)),
    if_neg h.2.2]

theorem flatMap_escapeByte_of_plain {s : CStr} (h : ∀ b ∈ s, PlainByte b) :
    s.flatMap escapeByte = s := by
  induction s with
  | nil => rfl
  | cons b s ih =>
      rw [List.flatMap_cons, escapeByte_of_plain (h b List.mem_cons_self),
        ih fun c hc => h c (List.mem_cons_of_mem b hc)]
      rfl

theorem codePoint_unicodeEscape {b : UInt8} (hb : b < 32) :
    codePoint 48 48 (hexDigit (b.toNat / 16)) (hexDigit (b.toNat % 16)) = some b.toNat := by
  have hall : ∀ n : Fin 32, codePoint 48 48 (hexDigit (n.val / 16)) (hexDigit (n.val % 16)) =
      some n.val := by decide
  exact hall ⟨b.toNat, UInt8.lt_iff_toNat_lt.mp hb⟩

theorem utf8_toNat {b : UInt8} (hb : b < 32) : utf8 b.toNat = [b] := by
  have hlt : b.toNat < 32 := UInt8.lt_iff_toNat_lt.mp hb
  rw [utf8, if_pos (by omega), UInt8.ofNat_toNat]

section

variable {out : Nat} (hout : out < jsonMaxStringLen - 1)

include hout

theorem parseStringToken_quote (rest : CStr) :
    parseStringToken out (quote :: rest) = some ([], rest) := by
  rw [parseStringToken.eq_def]
  simp [Nat.not_le_of_lt hout]

theorem parseStringToken_escaped {esc b : UInt8} (h : escaped esc = some b) (rest : CStr) :
    parseStringToken out (backslash :: esc :: rest) =
      (parseStringToken (out + 1) rest).map fun (text, end') => (b :: text, end') := by
  rw [parseStringToken.eq_def]
  simp [Nat.not_le_of_lt hout, h, show backslash ≠ quote by decide]

theorem parseStringToken_unicode {h₁ h₂ h₃ h₄ : UInt8} {cp : Nat}
    (h : codePoint h₁ h₂ h₃ h₄ = some cp) (rest : CStr) :
    parseStringToken out (backslash :: 117 :: h₁ :: h₂ :: h₃ :: h₄ :: rest) =
      (parseStringToken (out + (utf8 cp).length) rest).map
        fun (text, end') => (utf8 cp ++ text, end') := by
  rw [parseStringToken.eq_def]
  simp [Nat.not_le_of_lt hout, h, show backslash ≠ quote by decide,
    show escaped 117 = none by decide]

theorem parseStringToken_plain {c : UInt8} (h : PlainByte c) (rest : CStr) :
    parseStringToken out (c :: rest) =
      (parseStringToken (out + 1) rest).map fun (text, end') => (c :: text, end') := by
  rw [parseStringToken.eq_def]
  simp [Nat.not_le_of_lt hout, h.1, h.2.1, h.2.2]

theorem parseStringToken_escapeByte (b : UInt8) (rest : CStr) :
    parseStringToken out (escapeByte b ++ rest) =
      (parseStringToken (out + 1) rest).map fun (text, end') => (b :: text, end') := by
  rcases escapeByte_cases b with ⟨esc, hesc, heq⟩ | ⟨h32, heq⟩ | ⟨hplain, heq⟩
  · rw [heq]
    exact parseStringToken_escaped hout hesc rest
  · have h := parseStringToken_unicode hout (codePoint_unicodeEscape h32) rest
    rw [utf8_toNat h32] at h
    rw [heq]
    exact h
  · rw [heq]
    exact parseStringToken_plain hout hplain rest

end

/-- An escaped text is read as the text, when it leaves room for the terminator. -/
theorem parseStringToken_text {out : Nat} {s : CStr} (hroom : out + s.length < jsonMaxStringLen - 1)
    (rest : CStr) :
    parseStringToken out (s.flatMap escapeByte ++ quote :: rest) = some (s, rest) := by
  induction s generalizing out with
  | nil => exact parseStringToken_quote hroom rest
  | cons b s ih =>
      rw [List.length_cons] at hroom
      rw [List.flatMap_cons, List.append_assoc, parseStringToken_escapeByte (by omega),
        ih (by omega)]
      rfl

/-! ## Numbers and keywords -/

/-- What stands behind a value: nothing, or a comma or closing bracket. -/
def Ends (rest : CStr) : Prop := ∀ c ∈ rest.head?, c = comma ∨ c = 93 ∨ c = 125

theorem Ends.not_isDigit {c : UInt8} {rest : CStr} (h : Ends (c :: rest)) : isDigit c = false := by
  rcases h c rfl with rfl | rfl | rfl
  all_goals decide

theorem dropWhile_digits {digits rest : CStr} (hdigits : ∀ b ∈ digits, isDigit b = true)
    (h : Ends rest) : (digits ++ rest).dropWhile isDigit = rest := by
  rw [List.dropWhile_append_of_pos hdigits]
  cases rest with
  | nil => rfl
  | cons c rest => rw [List.dropWhile_cons_of_neg (by simp [h.not_isDigit])]

theorem fractionEnd_of_ends {rest : CStr} (h : Ends rest) : fractionEnd rest = some rest := by
  cases rest with
  | nil => rfl
  | cons c rest =>
      rcases h c rfl with rfl | rfl | rfl
      all_goals rfl

theorem exponentEnd_of_ends {rest : CStr} (h : Ends rest) : exponentEnd rest = some rest := by
  cases rest with
  | nil => rfl
  | cons c rest =>
      rcases h c rfl with rfl | rfl | rfl
      all_goals rfl

theorem integerEnd_decimal (n : Nat) {rest : CStr} (h : Ends rest) :
    integerEnd (decimal n ++ rest) = some rest := by
  by_cases hn : n = 0
  · subst hn
    rfl
  have hdigits : ∀ b ∈ decimal n, isDigit b = true := fun b hb => isDigit_of_mem_decimal hb
  have hhead := head?_decimal_ne hn
  cases hs : decimal n with
  | nil => exact absurd hs (decimal_ne_nil n)
  | cons d digits =>
      rw [hs] at hdigits hhead
      have hd : d ≠ 48 := fun heq => hhead (congrArg some heq)
      rw [List.cons_append, integerEnd, if_neg hd, digitsEnd, if_pos (hdigits d List.mem_cons_self),
        dropWhile_digits (fun b hb => hdigits b (List.mem_cons_of_mem d hb)) h]

theorem dropSign_decimal (negative : Bool) (n : Nat) (rest : CStr) :
    dropSign ((if negative then [45] else []) ++ decimal n ++ rest) = decimal n ++ rest := by
  cases negative with
  | true => rfl
  | false =>
      cases hs : decimal n with
      | nil => exact absurd hs (decimal_ne_nil n)
      | cons d digits =>
          have hd := isDigit_of_mem_decimal (n := n) (b := d) (by rw [hs]; exact List.mem_cons_self)
          have hne : d ≠ 45 := by
            rintro rfl
            exact absurd hd (by decide)
          simp [dropSign, hne]

theorem parseNumberToken_integer (negative : Bool) {n : Nat} (hn : n < 10 ^ 15) {rest : CStr}
    (h : Ends rest) :
    parseNumberToken ((if negative then [45] else []) ++ decimal n ++ rest) =
      some (.number ⟨negative, some (n : ℚ)⟩, rest) := by
  have hend : numberEnd ((if negative then [45] else []) ++ decimal n ++ rest) = some rest := by
    rw [numberEnd, dropSign_decimal, integerEnd_decimal n h, Option.bind_some,
      fractionEnd_of_ends h, Option.bind_some, exponentEnd_of_ends h]
  have hlength := length_decimal_le (n := n) (k := 15) (by decide) hn
  have hshort : ¬jsonMaxNumberLen ≤ ((if negative then [45] else []) ++ decimal n).length := by
    cases negative <;> simp [jsonMaxNumberLen] <;> omega
  rw [parseNumberToken, hend, Option.bind_some]
  dsimp only
  rw [List.length_append, Nat.add_sub_cancel, List.take_left', if_neg hshort,
    strtod_decimal negative (by omega)]
  rfl

/-- A keyword is read up to what stands behind it. -/
theorem matchKeyword_of_ends (kw : CStr) (tok : JsonToken) {rest : CStr} (h : Ends rest) :
    matchKeyword (kw ++ rest) kw tok = some (tok, rest) := by
  rw [matchKeyword, if_pos (by simp), List.drop_left']
  · cases rest with
    | nil => rfl
    | cons c rest =>
        rcases h c rfl with rfl | rfl | rfl
        all_goals rfl
  · rfl

end MiniBackend.WebServer.Proofs.JsonTokens
