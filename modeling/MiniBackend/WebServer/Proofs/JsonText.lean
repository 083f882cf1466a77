import MiniBackend.WebServer.JsonHelper
import Mathlib.Data.List.GetD
import Mathlib.Data.List.Range

/-!
# What the serializer writes

The text of a value, and that it stands in the buffer after `json_serialize` when the
buffer is larger than the text.  In the text of a string every byte that needs it is
escaped; a key is written as it is.
-/

namespace MiniBackend.WebServer.Proofs.JsonText

open MiniBackend.Lib.Binary64 MiniBackend.Lib.CString MiniBackend.WebServer.Json

@[elab_as_elim]
theorem valueInduction {motive : JsonValue → Prop} (null : motive .null)
    (bool : ∀ value, motive (.bool value)) (number : ∀ value, motive (.number value))
    (string : ∀ s, motive (.string s))
    (array : ∀ items, (∀ val ∈ items, motive val) → motive (.array items))
    (object : ∀ members, (∀ m ∈ members, motive m.2) → motive (.object members))
    (val : JsonValue) : motive val :=
  @JsonValue.rec motive (fun items => ∀ val ∈ items, motive val)
    (fun members => ∀ m ∈ members, motive m.2) (fun m => motive m.2)
    null bool number string array object nofun
    (fun _ _ hval hitems => List.forall_mem_cons.mpr ⟨hval, hitems⟩) nofun
    (fun _ _ hm hmembers => List.forall_mem_cons.mpr ⟨hm, hmembers⟩) (fun _ _ hval => hval) val

/-! ## Texts -/

def escapeByte (b : UInt8) : CStr :=
  if b = quote then [backslash, quote]
  else if b = backslash then [backslash, backslash]
  else if b = 8 then [backslash, 98]
  else if b = 12 then [backslash, 102]
  else if b = 10 then [backslash, 110]
  else if b = 13 then [backslash, 114]
  else if b = 9 then [backslash, 116]
  else if b < 32 then unicodeEscape b
  else [b]

def stringText (s : CStr) : CStr := [quote] ++ s.flatMap escapeByte ++ [quote]

def keyText (key : CStr) : CStr := [quote] ++ key ++ [quote, colon]

def separator (first : Bool) : CStr := if first then [] else [comma]

section

variable (formatG17 : Double → CStr)

mutual

def jsonText : JsonValue → CStr
  | .null => lit "null"
  | .bool value => if value then lit "true" else lit "false"
  | .number value => numberText formatG17 value
  | .string s => stringText s
  | .array items => [91] ++ itemsText true items ++ [93]
  | .object members => [123] ++ membersText true members ++ [125]

def itemsText (first : Bool) : List JsonValue → CStr
  | [] => []
  | val :: items => separator first ++ jsonText val ++ itemsText false items

def membersText (first : Bool) : List (CStr × JsonValue) → CStr
  | [] => []
  | (key, val) :: members =>
      separator first ++ keyText key ++ jsonText val ++ membersText false members

end

end

/-! ## Writing to the buffer -/

/-- What stands in the buffer before `*pos`. -/
def Wrote (out : Output) (text : CStr) : Prop :=
  out.pos = text.length ∧ ∀ i, (hi : i < text.length) → out.mem i = text[i]

theorem Wrote.print {out : Output} {text : CStr} (h : Wrote out text) {bufSz : Nat} {more : CStr}
    (hfits : text.length + more.length < bufSz) : Wrote (print bufSz more out) (text ++ more) := by
  obtain ⟨hpos, hmem⟩ := h
  have hsize : sizeSub bufSz text.length = bufSz - text.length := sizeSub_of_le (by omega)
  have hall : more.take (bufSz - text.length - 1) = more := List.take_of_length_le (by omega)
  refine ⟨?_, ?_⟩
  · simp [Json.print, hpos]
  · intro i hi
    simp only [Json.print, hpos, hsize, hall]
    rw [List.length_append] at hi
    by_cases hold : i < text.length
    · rw [if_pos hold, hmem i hold, List.getElem_append_left hold]
    · rw [if_neg hold, if_pos hi, List.getElem_append_right (Nat.le_of_not_lt hold),
        List.getD_eq_getElem]

theorem Wrote.putByte {out : Output} {text : CStr} (h : Wrote out text) (b : UInt8) :
    Wrote (putByte b out) (text ++ [b]) := by
  obtain ⟨hpos, hmem⟩ := h
  refine ⟨?_, ?_⟩
  · simp [Json.putByte, hpos]
  · intro i hi
    simp only [Json.putByte, hpos]
    rw [List.length_append, List.length_singleton] at hi
    by_cases hold : i < text.length
    · rw [Function.update_of_ne (Nat.ne_of_lt hold), hmem i hold, List.getElem_append_left hold]
    · have hi : i = text.length := by omega
      subst hi
      simp

theorem Wrote.room {out : Output} {text : CStr} (h : Wrote out text) {bufSz more : Nat}
    (hfits : text.length + more < bufSz) : ¬ bufSz ≤ out.pos := by
  rw [h.1]
  omega

theorem wrote_ite {c : Prop} [Decidable c] {bufSz : Nat} {out₁ out₂ : Output}
    {text more₁ more₂ : CStr}
    (h₁ : text.length + more₁.length < bufSz → Wrote out₁ (text ++ more₁))
    (h₂ : text.length + more₂.length < bufSz → Wrote out₂ (text ++ more₂)) :
    text.length + (if c then more₁ else more₂).length < bufSz →
      Wrote (if c then out₁ else out₂) (text ++ if c then more₁ else more₂) := by
  split
  · exact h₁
  · exact h₂

theorem Wrote.serializeByte {out : Output} {text : CStr} (h : Wrote out text) {bufSz : Nat}
    {b : UInt8} : text.length + (escapeByte b).length < bufSz →
      Wrote (serializeByte bufSz b out) (text ++ escapeByte b) := by
  unfold Json.serializeByte escapeByte
  apply wrote_ite h.print
  apply wrote_ite h.print
  apply wrote_ite h.print
  apply wrote_ite h.print
  apply wrote_ite h.print
  apply wrote_ite h.print
  apply wrote_ite h.print
  apply wrote_ite h.print
  exact fun _ => h.putByte b

theorem escapeByte_length_pos (b : UInt8) : 0 < (escapeByte b).length := by
  unfold escapeByte
  repeat' split
  all_goals exact Nat.succ_pos _

/-- There is always room for the closing quote, so the loop does not stop early. -/
theorem Wrote.serializeBytes {out : Output} {text : CStr} (h : Wrote out text) {bufSz : Nat}
    {s : CStr} (hfits : text.length + (s.flatMap escapeByte).length + 1 < bufSz) :
    Wrote (serializeBytes bufSz s out) (text ++ s.flatMap escapeByte) := by
  induction s generalizing out text with
  | nil =>
      rw [List.flatMap_nil, List.append_nil]
      exact h
  | cons b s ih =>
      rw [List.flatMap_cons, List.length_append] at hfits
      have hpos := escapeByte_length_pos b
      have hroom : out.pos < sizeSub bufSz 2 := by
        rw [h.1, sizeSub_of_le (by omega)]
        omega
      unfold Json.serializeBytes
      rw [if_pos hroom, List.flatMap_cons, ← List.append_assoc]
      apply ih (h.serializeByte (by omega))
      rw [List.length_append]
      omega

theorem Wrote.printSeparator {out : Output} {text : CStr} (h : Wrote out text) {bufSz : Nat}
    {first : Bool} (hfits : text.length + (separator first).length < bufSz) :
    Wrote (if first then out else Json.print bufSz [comma] out) (text ++ separator first) := by
  cases first with
  | true =>
      have htext : text ++ separator true = text := List.append_nil text
      rw [if_pos rfl, htext]
      exact h
  | false => exact h.print hfits

section

variable {formatG17 : Double → CStr}

theorem Wrote.serializeItems {bufSz : Nat} {items : List JsonValue}
    (hvalue : ∀ val ∈ items, ∀ {out : Output} {text : CStr}, Wrote out text →
      text.length + (jsonText formatG17 val).length < bufSz →
      Wrote (jsonSerializeInternal formatG17 bufSz val out) (text ++ jsonText formatG17 val))
    {first : Bool} {out : Output} {text : CStr} (h : Wrote out text)
    (hfits : text.length + (itemsText formatG17 first items).length < bufSz) :
    Wrote (serializeItems formatG17 bufSz first items out)
      (text ++ itemsText formatG17 first items) := by
  induction items generalizing first out text with
  | nil =>
      rw [itemsText, List.append_nil, Json.serializeItems]
      exact h
  | cons val items ih =>
      rw [itemsText] at hfits ⊢
      rw [Json.serializeItems]
      rw [List.length_append, List.length_append] at hfits
      have hsep := @Wrote.printSeparator _ _ h bufSz first (by omega)
      have hval := hvalue val List.mem_cons_self hsep (by rw [List.length_append]; omega)
      have hrest := @ih (fun v hv => hvalue v (List.mem_cons_of_mem val hv)) false _ _ hval
        (by rw [List.length_append, List.length_append]; omega)
      simpa [List.append_assoc] using hrest

theorem Wrote.serializeMembers {bufSz : Nat} {members : List (CStr × JsonValue)}
    (hvalue : ∀ m ∈ members, ∀ {out : Output} {text : CStr}, Wrote out text →
      text.length + (jsonText formatG17 m.2).length < bufSz →
      Wrote (jsonSerializeInternal formatG17 bufSz m.2 out) (text ++ jsonText formatG17 m.2))
    {first : Bool} {out : Output} {text : CStr} (h : Wrote out text)
    (hfits : text.length + (membersText formatG17 first members).length < bufSz) :
    Wrote (serializeMembers formatG17 bufSz first members out)
      (text ++ membersText formatG17 first members) := by
  induction members generalizing first out text with
  | nil =>
      rw [membersText, List.append_nil, Json.serializeMembers]
      exact h
  | cons m members ih =>
      obtain ⟨key, val⟩ := m
      rw [membersText] at hfits ⊢
      rw [Json.serializeMembers]
      rw [List.length_append, List.length_append, List.length_append] at hfits
      have hsep := @Wrote.printSeparator _ _ h bufSz first (by omega)
      have hkey : Wrote (Json.print bufSz (keyText key) _)
          (text ++ separator first ++ keyText key) :=
        hsep.print (by rw [List.length_append]; omega)
      have hval := hvalue (key, val) List.mem_cons_self hkey
        (by rw [List.length_append, List.length_append]; dsimp only; omega)
      have hrest := @ih (fun v hv => hvalue v (List.mem_cons_of_mem _ hv)) false _ _ hval
        (by rw [List.length_append, List.length_append, List.length_append]; dsimp only; omega)
      have htext : text ++ (separator first ++ keyText key ++ jsonText formatG17 val ++
          membersText formatG17 false members) = text ++ separator first ++ keyText key ++
            jsonText formatG17 val ++ membersText formatG17 false members := by
        simp only [List.append_assoc]
      rw [htext]
      exact hrest

theorem Wrote.serializeInternal {bufSz : Nat} (val : JsonValue) :
    ∀ {out : Output} {text : CStr}, Wrote out text →
      text.length + (jsonText formatG17 val).length < bufSz →
      Wrote (jsonSerializeInternal formatG17 bufSz val out) (text ++ jsonText formatG17 val) := by
  induction val using valueInduction with
  | null =>
      intro out text h hfits
      rw [jsonSerializeInternal, if_neg (h.room hfits)]
      exact h.print hfits
  | bool value =>
      intro out text h hfits
      rw [jsonSerializeInternal, if_neg (h.room hfits)]
      exact h.print hfits
  | number value =>
      intro out text h hfits
      rw [jsonSerializeInternal, if_neg (h.room hfits)]
      exact h.print hfits
  | string s =>
      intro out text h hfits
      rw [jsonSerializeInternal, if_neg (h.room hfits)]
      rw [jsonText, stringText] at hfits ⊢
      simp only [List.length_append, List.length_singleton] at hfits
      have hopen : Wrote (Json.print bufSz [quote] out) (text ++ [quote]) :=
        h.print (by rw [List.length_singleton]; omega)
      have hbytes := @Wrote.serializeBytes _ _ hopen bufSz s
        (by rw [List.length_append, List.length_singleton]; omega)
      rw [← List.append_assoc, ← List.append_assoc]
      exact hbytes.print (by simp only [List.length_append, List.length_singleton]; omega)
  | array items ih =>
      intro out text h hfits
      rw [jsonSerializeInternal, if_neg (h.room hfits)]
      rw [jsonText] at hfits ⊢
      simp only [List.length_append, List.length_singleton] at hfits
      have hopen : Wrote (Json.print bufSz [91] out) (text ++ [91]) :=
        h.print (by rw [List.length_singleton]; omega)
      have hitems := @Wrote.serializeItems _ _ _ ih true _ _ hopen
        (by rw [List.length_append, List.length_singleton]; omega)
      rw [← List.append_assoc, ← List.append_assoc]
      exact hitems.print (by simp only [List.length_append, List.length_singleton]; omega)
  | object members ih =>
      intro out text h hfits
      rw [jsonSerializeInternal, if_neg (h.room hfits)]
      rw [jsonText] at hfits ⊢
      simp only [List.length_append, List.length_singleton] at hfits
      have hopen : Wrote (Json.print bufSz [123] out) (text ++ [123]) :=
        h.print (by rw [List.length_singleton]; omega)
      have hmembers := @Wrote.serializeMembers _ _ _ ih true _ _ hopen
        (by rw [List.length_append, List.length_singleton]; omega)
      rw [← List.append_assoc, ← List.append_assoc]
      exact hmembers.print (by simp only [List.length_append, List.length_singleton]; omega)

/-- The text stands in the buffer, ended by the zero byte behind it. -/
theorem bufferText_jsonSerialize {val : JsonValue} {bufSz : Nat}
    (hfits : (jsonText formatG17 val).length < bufSz)
    (hzero : ∀ b ∈ jsonText formatG17 val, b ≠ 0) (mem : Nat → UInt8) :
    bufferText (jsonSerialize formatG17 val mem bufSz).mem bufSz = jsonText formatG17 val := by
  have hstart : Wrote ⟨mem, 0⟩ [] := ⟨rfl, nofun⟩
  have hwrote := @Wrote.serializeInternal formatG17 bufSz val _ _ hstart (by simpa using hfits)
  rw [List.nil_append] at hwrote
  unfold jsonSerialize
  rw [if_neg (by omega)]
  dsimp only
  rw [if_pos (by rw [hwrote.1]; exact hfits)]
  generalize jsonSerializeInternal formatG17 bufSz val ⟨mem, 0⟩ = out at hwrote
  generalize jsonText formatG17 val = text at *
  obtain ⟨hpos, hmem⟩ := hwrote
  obtain ⟨k, rfl⟩ : ∃ k, bufSz = text.length + (k + 1) := ⟨bufSz - text.length - 1, by omega⟩
  have hbefore : (List.range text.length).map (Function.update out.mem out.pos 0) = text := by
    apply List.ext_getElem
    · simp
    · intro i hi hi'
      rw [List.getElem_map, List.getElem_range, hpos, Function.update_of_ne (Nat.ne_of_lt hi')]
      exact hmem i hi'
  have hend : Function.update out.mem out.pos 0 (text.length + 0) = 0 := by
    rw [hpos, Nat.add_zero, Function.update_self]
  rw [bufferText, List.range_add, List.map_append, hbefore, List.range_succ_eq_map, List.map_cons,
    List.map_cons]
  dsimp only
  rw [hend, ofBuffer, List.takeWhile_append_of_pos fun b hb => decide_eq_true (hzero b hb)]
  simp

end

end MiniBackend.WebServer.Proofs.JsonText
