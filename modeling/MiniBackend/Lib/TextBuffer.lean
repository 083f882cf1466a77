import MiniBackend.Lib.CString

/-!
# Text written piece by piece

A buffer of `maxLen` bytes that is filled by `snprintf(out + pos, max_len - pos, ...)`.  The
position moves on by the length of each piece, also of one that was cut off, so a writer has to
look for that.
-/

namespace MiniBackend.Lib

open MiniBackend.Lib.CString

structure TextBuffer where
  pos : Nat
  text : CStr
deriving DecidableEq

def TextBuffer.empty : TextBuffer := ⟨0, []⟩

def TextBuffer.put (out : TextBuffer) (maxLen : Nat) (piece : CStr) : TextBuffer :=
  { out with text :=
      if out.pos ≤ out.text.length ∧ out.pos < maxLen then
        out.text.take out.pos ++ snprintf piece (maxLen - out.pos)
      else out.text }

def TextBuffer.print (out : TextBuffer) (maxLen : Nat) (piece : CStr) : TextBuffer :=
  { out.put maxLen piece with pos := out.pos + piece.length }

def TextBuffer.printAll (out : TextBuffer) (maxLen : Nat) (piece : CStr) : Option TextBuffer :=
  if maxLen - out.pos ≤ piece.length then none else some (out.print maxLen piece)

/-- The buffer holds the text, if there is room for it. -/
structure TextBuffer.Holds (out : TextBuffer) (maxLen : Nat) (text : CStr) : Prop where
  pos_eq : out.pos = text.length
  text_eq : text.length < maxLen → out.text = text

theorem TextBuffer.holds_empty (maxLen : Nat) :
    TextBuffer.empty.Holds maxLen [] := ⟨rfl, fun _ => rfl⟩

theorem TextBuffer.Holds.put {maxLen : Nat} {out : TextBuffer} {text : CStr}
    (h : out.Holds maxLen text)
    {piece : CStr} (hlt : (text ++ piece).length < maxLen) :
    (out.put maxLen piece).text = text ++ piece := by
  rw [List.length_append] at hlt
  have htext := h.text_eq (by omega)
  have hroom : out.pos ≤ out.text.length ∧ out.pos < maxLen := by
    rw [htext, h.pos_eq]
    omega
  rw [TextBuffer.put]
  dsimp only
  rw [if_pos hroom, htext, h.pos_eq, List.take_length, snprintf_of_lt (by omega)]

theorem TextBuffer.Holds.print {maxLen : Nat} {out : TextBuffer} {text : CStr}
    (h : out.Holds maxLen text)
    (piece : CStr) : (out.print maxLen piece).Holds maxLen (text ++ piece) :=
  ⟨by rw [TextBuffer.print, h.pos_eq, List.length_append], fun hlt => h.put hlt⟩

theorem TextBuffer.Holds.printAll {maxLen : Nat} {out out' : TextBuffer} {text : CStr}
    (h : out.Holds maxLen text) {piece : CStr} (hprint : out.printAll maxLen piece = some out') :
    out'.Holds maxLen (text ++ piece) ∧ (text ++ piece).length < maxLen := by
  rw [TextBuffer.printAll] at hprint
  split at hprint
  · exact absurd hprint (by simp)
  · next hroom =>
      obtain rfl := Option.some.inj hprint
      rw [h.pos_eq] at hroom
      refine ⟨h.print piece, ?_⟩
      rw [List.length_append]
      omega

/-- What is written behind the end of the string is not seen. -/
theorem TextBuffer.printAll_behind {maxLen : Nat} {out out' : TextBuffer} {piece : CStr}
    (hbehind : out.text.length < out.pos) (hprint : out.printAll maxLen piece = some out') :
    out'.text = out.text ∧ out'.text.length < out'.pos := by
  rw [TextBuffer.printAll] at hprint
  split at hprint
  · exact absurd hprint (by simp)
  · obtain rfl := Option.some.inj hprint
    have hno : ¬(out.pos ≤ out.text.length ∧ out.pos < maxLen) := by omega
    rw [TextBuffer.print, TextBuffer.put]
    dsimp only
    rw [if_neg hno]
    exact ⟨rfl, by omega⟩

/-- The text, once something has been written; before that the buffer holds what it held. -/
structure TextBuffer.Shows (out : TextBuffer) (maxLen : Nat) (text : CStr) : Prop where
  pos_eq : out.pos = text.length
  text_eq : text ≠ [] → text.length < maxLen → out.text = text

theorem TextBuffer.shows_start (buf : CStr) (maxLen : Nat) :
    (⟨0, buf⟩ : TextBuffer).Shows maxLen [] := ⟨rfl, fun h => absurd rfl h⟩

theorem TextBuffer.Shows.print {maxLen : Nat} {out : TextBuffer} {text : CStr}
    (h : out.Shows maxLen text) (piece : CStr) :
    (out.print maxLen piece).Shows maxLen (text ++ piece) := by
  refine ⟨by rw [TextBuffer.print, h.pos_eq, List.length_append], fun _ hlt => ?_⟩
  have hlen := hlt
  rw [List.length_append] at hlen
  by_cases hempty : text = []
  · have hpos : out.pos = 0 := by rw [h.pos_eq, hempty]; rfl
    have hroom : out.pos ≤ out.text.length ∧ out.pos < maxLen := by omega
    rw [TextBuffer.print, TextBuffer.put]
    dsimp only
    rw [if_pos hroom, hpos, hempty, List.take_zero, snprintf_of_lt (by omega)]
  · exact TextBuffer.Holds.put ⟨h.pos_eq, fun hlt => h.text_eq hempty hlt⟩ hlt

end MiniBackend.Lib
