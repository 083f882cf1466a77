import MiniBackend.Lib.CString

/-!
# Scanning a text

The character classes of `ctype.h` and what `while (isX(*p)) p++` leaves of a text: names, blanks,
and gaps of blanks and commas between tokens.
-/

namespace MiniBackend.Lib.Scanner

open MiniBackend.Lib.CString

def isAlpha (b : UInt8) : Bool := (65 ≤ b && b ≤ 90) || (97 ≤ b && b ≤ 122)

def isAlnum (b : UInt8) : Bool := isAlpha b || isDigit b

def isNameStart (b : UInt8) : Bool := isAlpha b || b == 95

def isNameByte (b : UInt8) : Bool := isAlnum b || b == 95

/-- `if (*p == b) p++`. -/
def skipByte (b : UInt8) : CStr → CStr
  | [] => []
  | c :: p => if c = b then p else c :: p

/-- The text does not go on with such a byte. -/
def Stops (f : UInt8 → Bool) (p : CStr) : Prop := ∀ b ∈ p.head?, f b = false

theorem stops_cons {f : UInt8 → Bool} {b : UInt8} (hb : f b = false) (p : CStr) :
    Stops f (b :: p) := by
  intro c hc
  rwa [← Option.some.inj hc]

theorem dropWhile_append {f : UInt8 → Bool} {s p : CStr} (hs : ∀ b ∈ s, f b = true)
    (hp : Stops f p) : (s ++ p).dropWhile f = p := by
  rw [List.dropWhile_append_of_pos hs]
  cases p with
  | nil => rfl
  | cons b p => rw [List.dropWhile_cons_of_neg (by simp [hp b rfl])]

theorem takeWhile_append {f : UInt8 → Bool} {s p : CStr} (hs : ∀ b ∈ s, f b = true)
    (hp : Stops f p) : (s ++ p).takeWhile f = s := by
  rw [List.takeWhile_append_of_pos hs]
  cases p with
  | nil => rw [List.takeWhile_nil, List.append_nil]
  | cons b p => rw [List.takeWhile_cons_of_neg (by simp [hp b rfl]), List.append_nil]

theorem dropWhile_of_stops {f : UInt8 → Bool} {p : CStr} (hp : Stops f p) : p.dropWhile f = p :=
  dropWhile_append (s := []) (by simp) hp

theorem length_skipByte_le (b : UInt8) (p : CStr) : (skipByte b p).length ≤ p.length := by
  cases p with
  | nil => exact le_rfl
  | cons c p =>
      rw [skipByte]
      split
      · exact Nat.le_succ _
      · exact le_rfl

theorem skipByte_cons (b : UInt8) (p : CStr) : skipByte b (b :: p) = p := if_pos rfl

theorem skipByte_of_ne {b : UInt8} {p : CStr} (hp : p.head? ≠ some b) : skipByte b p = p := by
  cases p with
  | nil => rfl
  | cons c p => exact if_neg fun hc => hp (congrArg some hc)

theorem length_dropWhile_le (f : UInt8 → Bool) (p : CStr) : (p.dropWhile f).length ≤ p.length :=
  (List.dropWhile_suffix f).length_le

/-! ## Names -/

/-- A letter or underscore, and letters, digits and underscores behind it. -/
structure IsName (name : CStr) : Prop where
  start : ∃ b ∈ name.head?, isNameStart b = true
  bytes : ∀ b ∈ name, isNameByte b = true

theorem isName_iff (name : CStr) :
    (name.head?.any isNameStart && name.all isNameByte) = true ↔ IsName name := by
  rw [Bool.and_eq_true, Option.any_eq_true, List.all_eq_true]
  exact ⟨fun h => ⟨h.1, h.2⟩, fun h => ⟨h.start, h.bytes⟩⟩

instance (name : CStr) : Decidable (IsName name) := decidable_of_bool _ (isName_iff name)

theorem IsName.exists_cons {name : CStr} (h : IsName name) :
    ∃ b rest, name = b :: rest ∧ isNameStart b = true := by
  obtain ⟨b, hb, hstart⟩ := h.start
  cases name with
  | nil => exact absurd hb (by simp)
  | cons c name => exact ⟨c, name, rfl, by rwa [Option.some.inj hb]⟩

theorem not_special_of_isNameByte {b : UInt8} (hb : isNameByte b = true) :
    isSpace b = false ∧ b ∉ [33, 34, 40, 41, 44, 58, 91, 93, 123, 125] := by
  refine forall_byte (motive := fun b => isNameByte b = true → isSpace b = false ∧
    b ∉ [33, 34, 40, 41, 44, 58, 91, 93, 123, 125]) ?_ b hb
  decide +kernel

theorem isNameByte_of_isNameStart {b : UInt8} (hb : isNameStart b = true) :
    isNameByte b = true := by
  simp only [isNameStart, isNameByte, isAlnum, Bool.or_eq_true] at hb ⊢
  tauto

theorem IsName.stops {name : CStr} (hname : IsName name) {f : UInt8 → Bool}
    (hf : ∀ b, isNameByte b = true → f b = false) (rest : CStr) : Stops f (name ++ rest) := by
  obtain ⟨b, tail, rfl, hstart⟩ := hname.exists_cons
  exact stops_cons (hf b (isNameByte_of_isNameStart hstart)) _

theorem IsName.stops_isSpace {name : CStr} (hname : IsName name) (rest : CStr) :
    Stops isSpace (name ++ rest) :=
  hname.stops (fun _ hb => (not_special_of_isNameByte hb).1) rest

theorem IsName.head?_ne {name : CStr} (hname : IsName name) {b : UInt8} (hb : isNameByte b = false)
    (rest : CStr) : (name ++ rest).head? ≠ some b := by
  obtain ⟨c, tail, rfl, hstart⟩ := hname.exists_cons
  intro hhead
  obtain rfl := Option.some.inj hhead
  rw [isNameByte_of_isNameStart hstart] at hb
  exact absurd hb (by simp)

/-! ## Blanks and gaps -/

def Blank (s : CStr) : Prop := ∀ b ∈ s, isSpace b = true

def Gap (s : CStr) : Prop := ∀ b ∈ s, isSpace b = true ∨ b = 44

instance (s : CStr) : Decidable (Blank s) := inferInstanceAs (Decidable (∀ b ∈ s, _))

instance (s : CStr) : Decidable (Gap s) := inferInstanceAs (Decidable (∀ b ∈ s, _))

/-- A gap is blank up to its first comma. -/
theorem Gap.cases {s : CStr} (h : Gap s) :
    Blank s ∨ ∃ before after, s = before ++ 44 :: after ∧ Blank before ∧ Gap after := by
  induction s with
  | nil => exact .inl (by simp [Blank])
  | cons b s ih =>
      obtain ⟨hb, hs⟩ := List.forall_mem_cons.mp h
      by_cases hcomma : b = 44
      · exact .inr ⟨[], s, by rw [hcomma]; rfl, by simp [Blank], hs⟩
      · have hspace := hb.resolve_right hcomma
        rcases ih hs with hblank | ⟨before, after, rfl, hbefore, hafter⟩
        · exact .inl (List.forall_mem_cons.mpr ⟨hspace, hblank⟩)
        · exact .inr ⟨b :: before, after, rfl, List.forall_mem_cons.mpr ⟨hspace, hbefore⟩, hafter⟩

end MiniBackend.Lib.Scanner
