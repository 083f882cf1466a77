import MiniBackend.WebServer.Proofs.JsonGrammar

/-!
# The text of a string token

The loop goes on while one byte and the terminator have room, and an escape stores up to three
bytes.  What can leave the buffer is the last byte of a `\\u` escape from 0x800 on.
-/

namespace MiniBackend.WebServer.Proofs.TokenBuffer

open MiniBackend.Lib.CString MiniBackend.WebServer.Json
open MiniBackend.WebServer.Proofs.JsonTokens MiniBackend.WebServer.Proofs.JsonGrammar

def StaysInText (input : CStr) : Prop :=
  ∀ store ∈ parseStringTokenWrites input, store.2 < jsonMaxStringLen

/-- An escape of three bytes where two have room: the bytes before it are read as a text that
leaves two. -/
inductive LongEscape (out : Nat) : CStr → Prop
  | intro {text : List UInt8} {bytes : CStr} {h₁ h₂ h₃ h₄ : UInt8} {cp : Nat} (rest : CStr) :
      SpellsString text bytes → out + text.length = jsonMaxStringLen - 2 →
      codePoint h₁ h₂ h₃ h₄ = some cp → 0x800 ≤ cp →
      LongEscape out (bytes ++ backslash :: 117 :: h₁ :: h₂ :: h₃ :: h₄ :: rest)

/-! ## One piece of the string -/

section

variable {out : Nat} (hout : out < jsonMaxStringLen - 1)

include hout

theorem textWrites_quote (rest : CStr) : textWrites out (quote :: rest) = [(0, out)] := by
  rw [textWrites.eq_def]
  simp [Nat.not_le_of_lt hout]

theorem textWrites_escaped {esc b : UInt8} (h : escaped esc = some b) (rest : CStr) :
    textWrites out (backslash :: esc :: rest) = (b, out) :: textWrites (out + 1) rest := by
  rw [textWrites.eq_def]
  simp [Nat.not_le_of_lt hout, h, show backslash ≠ quote by decide]

theorem textWrites_unicode {h₁ h₂ h₃ h₄ : UInt8} {cp : Nat}
    (h : codePoint h₁ h₂ h₃ h₄ = some cp) (rest : CStr) :
    textWrites out (backslash :: 117 :: h₁ :: h₂ :: h₃ :: h₄ :: rest) =
      (utf8 cp).zipIdx out ++ textWrites (out + (utf8 cp).length) rest := by
  rw [textWrites.eq_def]
  simp [Nat.not_le_of_lt hout, h, show backslash ≠ quote by decide,
    show escaped 117 = none by decide]

theorem textWrites_plain {c : UInt8} (h : PlainByte c) (rest : CStr) :
    textWrites out (c :: rest) = (c, out) :: textWrites (out + 1) rest := by
  rw [textWrites.eq_def]
  simp [Nat.not_le_of_lt hout, h.1, h.2.1, h.2.2]

end

theorem textWrites_spelled {text : List UInt8} {bytes : CStr} (h : SpellsString text bytes)
    {out : Nat} (hroom : out + text.length < jsonMaxStringLen - 1) (tail : CStr) :
    textWrites out (bytes ++ tail) =
      text.zipIdx out ++ textWrites (out + text.length) tail := by
  induction h generalizing out with
  | nil => rfl
  | escaped hesc _ ih =>
      rw [List.length_cons] at hroom
      rw [List.cons_append, List.cons_append, textWrites_escaped (by omega) hesc, ih (by omega),
        List.zipIdx_cons, List.length_cons, Nat.add_assoc, Nat.add_comm 1]
      rfl
  | @unicode h₁ h₂ h₃ h₄ cp text bytes hcp _ ih =>
      rw [List.length_append] at hroom
      have hbytes := @textWrites_unicode out (by omega) _ _ _ _ _ hcp (bytes ++ tail)
      rw [ih (by omega)] at hbytes
      rw [List.zipIdx_append, List.length_append, ← Nat.add_assoc, List.append_assoc]
      exact hbytes
  | plain hplain _ ih =>
      rw [List.length_cons] at hroom
      rw [List.cons_append, textWrites_plain (by omega) hplain, ih (by omega),
        List.zipIdx_cons, List.length_cons, Nat.add_assoc, Nat.add_comm 1]
      rfl

theorem textWrites_of_parseStringToken {out : Nat} {input rest : CStr} {text : List UInt8}
    (h : parseStringToken out input = some (text, rest)) :
    textWrites out input = (text ++ [0]).zipIdx out := by
  obtain ⟨bytes, rfl, hspells, hroom⟩ := spellsString_of_parseStringToken h
  rw [textWrites_spelled hspells hroom, textWrites_quote hroom, List.zipIdx_append]
  rfl

/-! ## The stores behind the buffer -/

theorem utf8_length_le (cp : Nat) : (utf8 cp).length ≤ 3 ∧ (3 ≤ (utf8 cp).length → 0x800 ≤ cp) := by
  rw [utf8]
  split
  · simp
  · split
    · simp
    · simp
      omega

theorem SpellsString.append {text more : List UInt8} {bytes tail : CStr}
    (h : SpellsString text bytes) (hmore : SpellsString more tail) :
    SpellsString (text ++ more) (bytes ++ tail) := by
  induction h with
  | nil => exact hmore
  | escaped hesc _ ih => exact .escaped hesc ih
  | unicode hcp _ ih =>
      rw [List.append_assoc]
      exact .unicode hcp ih
  | plain hplain _ ih => exact .plain hplain ih

theorem LongEscape.behind {text : List UInt8} {bytes tail : CStr} {out : Nat}
    (hlong : LongEscape (out + text.length) tail) (h : SpellsString text bytes) :
    LongEscape out (bytes ++ tail) := by
  cases hlong with
  | intro rest hspells htwo hcp hthree =>
      rw [← List.append_assoc]
      apply LongEscape.intro rest (SpellsString.append h hspells) _ hcp hthree
      rw [List.length_append]
      omega

theorem longEscape_of_store {out : Nat} {input : CStr} {store : UInt8 × Nat}
    (hmem : store ∈ textWrites out input) (hover : jsonMaxStringLen ≤ store.2) :
    LongEscape out input := by
  have hlen : jsonMaxStringLen = 8192 := rfl
  fun_induction textWrites out input with
  | case1 => cases hmem
  | case2 => cases hmem
  | case3 out rest hout =>
      obtain rfl := List.mem_singleton.mp hmem
      dsimp only at hover
      omega
  | case4 => cases hmem
  | case5 out hout esc rest b hesc _ ih =>
      rcases List.mem_cons.mp hmem with rfl | hmem
      · dsimp only at hover
        omega
      · exact (ih hmem).behind (.escaped hesc .nil)
  | case6 out hout h₁ h₂ h₃ h₄ rest cp hcp _ _ ih =>
      rcases List.mem_append.mp hmem with hmem | hmem
      · have hbound := utf8_length_le cp
        have hindex := (List.mem_zipIdx hmem).2.1
        exact .intro rest .nil (by rw [List.length_nil]; omega) hcp (hbound.2 (by omega))
      · have hpiece : SpellsString (utf8 cp) [backslash, 117, h₁, h₂, h₃, h₄] := by
          simpa using SpellsString.unicode hcp .nil
        exact (ih hmem).behind hpiece
  | case7 => cases hmem
  | case8 => cases hmem
  | case9 => cases hmem
  | case10 => cases hmem
  | case11 out c rest hout hquote hslash hcontrol ih =>
      rcases List.mem_cons.mp hmem with rfl | hmem
      · dsimp only at hover
        omega
      · exact (ih hmem).behind (.plain ⟨hquote, hslash, hcontrol⟩ .nil)

theorem store_of_longEscape {out : Nat} {input : CStr} (hlong : LongEscape out input) :
    ∃ store ∈ textWrites out input, jsonMaxStringLen ≤ store.2 := by
  have hlen : jsonMaxStringLen = 8192 := rfl
  cases hlong with
  | @intro text bytes h₁ h₂ h₃ h₄ cp rest hspells htwo hcp hthree =>
      have hutf8 : utf8 cp = [UInt8.ofNat (224 + cp / 4096), UInt8.ofNat (128 + cp / 64 % 64),
          UInt8.ofNat (128 + cp % 64)] := by
        rw [utf8, if_neg (by omega), if_neg (by omega)]
      refine ⟨(UInt8.ofNat (128 + cp % 64), out + text.length + 2), ?_, ?_⟩
      · rw [textWrites_spelled hspells (by omega), textWrites_unicode (by omega) hcp, hutf8]
        simp
      · dsimp only
        omega

/-- No store leaves the buffer unless an escape from `\\u0800` on begins where two bytes of the
buffer are left. -/
theorem stays_in_text_iff (input : CStr) :
    StaysInText input ↔ ∀ rest, input = quote :: rest → ¬ LongEscape 0 rest := by
  rw [StaysInText]
  constructor
  · rintro hstays rest rfl hlong
    obtain ⟨store, hmem, hover⟩ := store_of_longEscape hlong
    exact absurd (hstays store hmem) (Nat.not_lt_of_le hover)
  · intro hno store hmem
    by_contra hover
    cases input with
    | nil => cases hmem
    | cons c rest =>
        rw [parseStringTokenWrites] at hmem
        by_cases hquote : c = quote
        · rw [if_pos hquote] at hmem
          exact hno rest (hquote ▸ rfl) (longEscape_of_store hmem (Nat.le_of_not_lt hover))
        · rw [if_neg hquote] at hmem
          cases hmem

theorem spells_replicate (n : Nat) : SpellsString (List.replicate n 97) (List.replicate n 97) := by
  induction n with
  | zero => exact .nil
  | succ n ih => exact .plain (by decide) ih

/-- 8190 letters and `\\u0800`. -/
theorem long_escape_overflows :
    ¬ StaysInText (quote :: (List.replicate 8190 97 ++ [backslash, 117, 48, 56, 48, 48])) := by
  have hlong : LongEscape 0 (List.replicate 8190 97 ++ [backslash, 117, 48, 56, 48, 48]) := by
    apply LongEscape.intro [] (spells_replicate 8190)
    · rw [List.length_replicate]
      rfl
    · show codePoint 48 56 48 48 = some 2048
      decide
    · exact le_refl 2048
  intro hstays
  obtain ⟨store, hmem, hover⟩ := store_of_longEscape hlong
  exact absurd (hstays store hmem) (Nat.not_lt_of_le hover)

end MiniBackend.WebServer.Proofs.TokenBuffer
