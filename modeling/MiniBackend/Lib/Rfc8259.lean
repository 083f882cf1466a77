import MiniBackend.Lib.CString

/-!
# The grammar of JSON texts

The grammar of RFC 8259 over bytes.  A byte from 128 on is part of an unescaped character; how
characters are encoded is left open.  A text has one derivation at most, and a value in front
of more text is found again, unless the text goes on with its last token.
-/

namespace MiniBackend.Lib.Rfc8259

open MiniBackend.Lib.CString

/-- What an implementation admits: the bytes that a string stands for, the bytes of a number,
the arrays and objects around an array or object, and the names of the members of an object. -/
structure Limits where
  string : Nat → Prop
  number : Nat → Prop
  depth : Nat → Prop
  names : List CStr → Prop

def unlimited : Limits := ⟨fun _ => True, fun _ => True, fun _ => True, fun _ => True⟩

/-! ## Tokens -/

def isWs (b : UInt8) : Bool := b == 32 || b == 9 || b == 13 || b == 10

def Ws (s : CStr) : Prop := ∀ b ∈ s, isWs b = true

def Digits (s : CStr) : Prop := ∀ b ∈ s, isDigit b = true

inductive IntegerPart : CStr → Prop
  | zero : IntegerPart [48]
  | digits {d : UInt8} {s : CStr} : isDigit d = true → d ≠ 48 → Digits s → IntegerPart (d :: s)

inductive FractionPart : CStr → Prop
  | none : FractionPart []
  | digits {s : CStr} : s ≠ [] → Digits s → FractionPart (46 :: s)

inductive ExponentPart : CStr → Prop
  | none : ExponentPart []
  | unsigned {e : UInt8} {s : CStr} : e = 101 ∨ e = 69 → s ≠ [] → Digits s →
      ExponentPart (e :: s)
  | signed {e sign : UInt8} {s : CStr} : e = 101 ∨ e = 69 → sign = 43 ∨ sign = 45 → s ≠ [] →
      Digits s → ExponentPart (e :: sign :: s)

inductive IsNumber : CStr → Prop
  | positive {i f e : CStr} : IntegerPart i → FractionPart f → ExponentPart e →
      IsNumber (i ++ (f ++ e))
  | negative {i f e : CStr} : IntegerPart i → FractionPart f → ExponentPart e →
      IsNumber (45 :: (i ++ (f ++ e)))

def hexDigitValue (b : UInt8) : Option Nat :=
  if 48 ≤ b ∧ b ≤ 57 then some (b.toNat - 48)
  else if 65 ≤ b ∧ b ≤ 70 then some (b.toNat - 65 + 10)
  else if 97 ≤ b ∧ b ≤ 102 then some (b.toNat - 97 + 10)
  else none

/-- The bytes of a code point of four hexadecimal digits in UTF-8. -/
def utf8Length (cp : Nat) : Nat := if cp < 128 then 1 else if cp < 2048 then 2 else 3

/-- The bytes between the quotes of a string, and how many bytes they stand for. -/
inductive Chars : CStr → Nat → Prop
  | nil : Chars [] 0
  | unescaped {b : UInt8} {s : CStr} {n : Nat} : 32 ≤ b → b ≠ 34 → b ≠ 92 → Chars s n →
      Chars (b :: s) (n + 1)
  | escape {e : UInt8} {s : CStr} {n : Nat} : e ∈ [34, 92, 47, 98, 102, 110, 114, 116] →
      Chars s n → Chars (92 :: e :: s) (n + 1)
  | unicode {h₁ h₂ h₃ h₄ : UInt8} {d₁ d₂ d₃ d₄ : Nat} {s : CStr} {n : Nat} :
      hexDigitValue h₁ = some d₁ → hexDigitValue h₂ = some d₂ → hexDigitValue h₃ = some d₃ →
      hexDigitValue h₄ = some d₄ → Chars s n →
      Chars (92 :: 117 :: h₁ :: h₂ :: h₃ :: h₄ :: s)
        (n + utf8Length (((d₁ * 16 + d₂) * 16 + d₃) * 16 + d₄))

/-! ## Texts -/

inductive Bracket
  | square
  | curly
deriving DecidableEq

def Bracket.opening : Bracket → UInt8
  | .square => 91
  | .curly => 123

def Bracket.closing : Bracket → UInt8
  | .square => 93
  | .curly => 125

/-- An element is a value between blanks. -/
inductive Place
  | value
  | element
  | member
  | entries (b : Bracket)

/-- What an array and an object consist of. -/
def Bracket.entry : Bracket → Place
  | .square => .element
  | .curly => .member

/-- What stands at a place inside `d` arrays and objects, and the names of the members there. -/
inductive Derives (lim : Limits) : Place → Nat → List CStr → CStr → Prop
  | null {d : Nat} : Derives lim .value d [] (lit "null")
  | true {d : Nat} : Derives lim .value d [] (lit "true")
  | false {d : Nat} : Derives lim .value d [] (lit "false")
  | number {d : Nat} {s : CStr} : IsNumber s → lim.number s.length → Derives lim .value d [] s
  | string {d n : Nat} {s : CStr} : Chars s n → lim.string n →
      Derives lim .value d [] (34 :: (s ++ [34]))
  | empty {d : Nat} {b : Bracket} {ws : CStr} : lim.depth d → Ws ws →
      Derives lim .value d [] (b.opening :: (ws ++ [b.closing]))
  | entries {d : Nat} {b : Bracket} {names : List CStr} {s : CStr} : lim.depth d →
      Derives lim (.entries b) d names s → lim.names names →
      Derives lim .value d [] (b.opening :: (s ++ [b.closing]))
  | element {d : Nat} {ws v ws' : CStr} : Ws ws → Derives lim .value d [] v → Ws ws' →
      Derives lim .element d [] (ws ++ (v ++ ws'))
  | member {d n : Nat} {ws key ws' s : CStr} : Ws ws → Chars key n → lim.string n → Ws ws' →
      Derives lim .element d [] s →
      Derives lim .member d [key] (ws ++ 34 :: (key ++ 34 :: (ws' ++ 58 :: s)))
  | last {d : Nat} {b : Bracket} {names : List CStr} {s : CStr} :
      Derives lim b.entry (d + 1) names s → Derives lim (.entries b) d names s
  | next {d : Nat} {b : Bracket} {names names' : List CStr} {s rest : CStr} :
      Derives lim b.entry (d + 1) names s → Derives lim (.entries b) d names' rest →
      Derives lim (.entries b) d (names ++ names') (s ++ 44 :: rest)

def IsText (lim : Limits) (s : CStr) : Prop := Derives lim .element 0 [] s

/-! ## Maximal tokens -/

/-- A keyword goes on with a letter, a digit or an underscore. -/
def isWordByte (b : UInt8) : Bool :=
  isDigit b || (65 ≤ b && b ≤ 90) || (97 ≤ b && b ≤ 122) || b == 95

/-- A value whose last token goes on with the next byte.  Only numbers and keywords do. -/
def GoesOn (v : CStr) (b : UInt8) : Prop :=
  (IsNumber v ∧ ∃ s, IsNumber (v ++ b :: s)) ∨
    ((v = lit "null" ∨ v = lit "true" ∨ v = lit "false") ∧ isWordByte b = true)

def Stops (v rest : CStr) : Prop := ∀ b ∈ rest.head?, ¬ GoesOn v b

def isDelimiter (b : UInt8) : Bool := isWs b || b == 44 || b == 93 || b == 125

def isNumberByte (b : UInt8) : Bool :=
  isDigit b || b == 43 || b == 45 || b == 46 || b == 69 || b == 101

theorem isNumberByte_of_isDigit {b : UInt8} (h : isDigit b = true) : isNumberByte b = true := by
  simp [isNumberByte, h]

theorem IsNumber.isNumberByte {s : CStr} (h : IsNumber s) :
    ∀ b ∈ s, Rfc8259.isNumberByte b = true := by
  have hdigits : ∀ {s : CStr}, Digits s → ∀ b ∈ s, Rfc8259.isNumberByte b = true :=
    fun hs b hb => isNumberByte_of_isDigit (hs b hb)
  have hinteger : ∀ {s : CStr}, IntegerPart s → ∀ b ∈ s, Rfc8259.isNumberByte b = true := by
    intro s hs
    cases hs with
    | zero => exact List.forall_mem_singleton.mpr (by decide)
    | digits hd _ hs =>
        exact List.forall_mem_cons.mpr ⟨isNumberByte_of_isDigit hd, hdigits hs⟩
  have hfraction : ∀ {s : CStr}, FractionPart s → ∀ b ∈ s, Rfc8259.isNumberByte b = true := by
    intro s hs
    cases hs with
    | none => exact List.forall_mem_nil _
    | digits _ hs => exact List.forall_mem_cons.mpr ⟨by decide, hdigits hs⟩
  have hexponent : ∀ {s : CStr}, ExponentPart s → ∀ b ∈ s, Rfc8259.isNumberByte b = true := by
    intro s hs
    cases hs with
    | none => exact List.forall_mem_nil _
    | unsigned he _ hs =>
        refine List.forall_mem_cons.mpr ⟨?_, hdigits hs⟩
        rcases he with rfl | rfl <;> decide
    | signed he hsign _ hs =>
        refine List.forall_mem_cons.mpr ⟨?_, List.forall_mem_cons.mpr ⟨?_, hdigits hs⟩⟩
        · rcases he with rfl | rfl <;> decide
        · rcases hsign with rfl | rfl <;> decide
  have hparts : ∀ {i f e : CStr}, IntegerPart i → FractionPart f → ExponentPart e →
      ∀ b ∈ i ++ (f ++ e), Rfc8259.isNumberByte b = true := by
    intro i f e hi hf he b hb
    rcases List.mem_append.mp hb with hb | hb
    · exact hinteger hi b hb
    · rcases List.mem_append.mp hb with hb | hb
      · exact hfraction hf b hb
      · exact hexponent he b hb
  cases h with
  | positive hi hf he => exact hparts hi hf he
  | negative hi hf he => exact List.forall_mem_cons.mpr ⟨by decide, hparts hi hf he⟩

theorem stops_of_delimiter {v rest : CStr} (h : ∀ b ∈ rest.head?, isDelimiter b = true) :
    Stops v rest := by
  have hbytes : ∀ b : UInt8, isDelimiter b = true →
      isNumberByte b = false ∧ isWordByte b = false := by
    apply forall_byte
    decide +kernel
  intro b hb hgoes
  obtain ⟨hnumber, hword⟩ := hbytes b (h b hb)
  rcases hgoes with ⟨_, s, hs⟩ | ⟨_, hb⟩
  · have hbyte := hs.isNumberByte b (List.mem_append_right _ List.mem_cons_self)
    exact Bool.false_ne_true (hnumber.symm.trans hbyte)
  · exact Bool.false_ne_true (hword.symm.trans hb)

/-! ## First bytes -/

inductive Kind
  | null
  | true
  | false
  | number
  | string
  | bracket (b : Bracket)
deriving DecidableEq

def kindOf (b : UInt8) : Option Kind :=
  if b = 110 then some .null
  else if b = 116 then some .true
  else if b = 102 then some .false
  else if b = 34 then some .string
  else if b = 91 then some (.bracket .square)
  else if b = 123 then some (.bracket .curly)
  else if b = 45 ∨ isDigit b = true then some .number
  else none

/-- What stands between brackets. -/
def Inside (lim : Limits) (b : Bracket) (d : Nat) (s : CStr) : Prop :=
  Ws s ∨ ∃ names, Derives lim (.entries b) d names s

inductive Shape (lim : Limits) (d : Nat) : Kind → CStr → Prop
  | null : Shape lim d .null (lit "null")
  | true : Shape lim d .true (lit "true")
  | false : Shape lim d .false (lit "false")
  | number {s : CStr} : IsNumber s → Shape lim d .number s
  | string {s : CStr} {n : Nat} : Chars s n → Shape lim d .string (34 :: (s ++ [34]))
  | bracket {b : Bracket} {s : CStr} : Inside lim b d s →
      Shape lim d (.bracket b) (b.opening :: (s ++ [b.closing]))

theorem IsNumber.head {s : CStr} (h : IsNumber s) :
    ∃ b rest, s = b :: rest ∧ (b = 45 ∨ isDigit b = true) := by
  have hinteger : ∀ {i f e : CStr}, IntegerPart i →
      ∃ b rest, i ++ (f ++ e) = b :: rest ∧ isDigit b = true := by
    intro i f e hi
    cases hi with
    | zero => exact ⟨48, _, rfl, by decide⟩
    | digits hd _ _ => exact ⟨_, _, rfl, hd⟩
  cases h with
  | positive hi _ _ =>
      obtain ⟨b, rest, hs, hb⟩ := hinteger hi
      exact ⟨b, rest, hs, Or.inr hb⟩
  | negative hi _ _ => exact ⟨45, _, rfl, Or.inl rfl⟩

theorem kindOf_number {b : UInt8} (h : b = 45 ∨ isDigit b = true) : kindOf b = some .number := by
  have hbytes : ∀ b : UInt8, b = 45 ∨ isDigit b = true → kindOf b = some .number := by
    apply forall_byte
    decide +kernel
  exact hbytes b h

theorem isWs_of_kindOf {b : UInt8} {k : Kind} (h : kindOf b = some k) :
    isWs b = false ∧ b ≠ 93 ∧ b ≠ 125 := by
  have hbytes : ∀ b : UInt8, kindOf b ≠ none → isWs b = false ∧ b ≠ 93 ∧ b ≠ 125 := by
    apply forall_byte
    decide +kernel
  apply hbytes b
  rw [h]
  exact Option.some_ne_none k

theorem kindOf_opening (b : Bracket) : kindOf b.opening = some (.bracket b) := by
  cases b <;> decide

theorem Derives.shape {lim : Limits} {d : Nat} {names : List CStr} {v : CStr}
    (h : Derives lim .value d names v) :
    ∃ b rest k, v = b :: rest ∧ kindOf b = some k ∧ Shape lim d k v := by
  cases h with
  | null => exact ⟨110, _, .null, rfl, by decide, .null⟩
  | true => exact ⟨116, _, .true, rfl, by decide, .true⟩
  | false => exact ⟨102, _, .false, rfl, by decide, .false⟩
  | number hs _ =>
      obtain ⟨b, rest, hv, hb⟩ := hs.head
      exact ⟨b, rest, .number, hv, kindOf_number hb, .number hs⟩
  | string hs _ => exact ⟨34, _, .string, rfl, by decide, .string hs⟩
  | @empty _ b _ _ hws => exact ⟨_, _, .bracket b, rfl, kindOf_opening b, .bracket (.inl hws)⟩
  | @entries _ b _ _ _ hs _ =>
      exact ⟨_, _, .bracket b, rfl, kindOf_opening b, .bracket (.inr ⟨_, hs⟩)⟩

/-! ## Unambiguity -/

theorem Ws.split {ws ws' x y : CStr} (hws : Ws ws) (hws' : Ws ws') (h : ws ++ x = ws' ++ y)
    (hx : ∀ b ∈ x.head?, isWs b = false) (hy : ∀ b ∈ y.head?, isWs b = false) :
    ws = ws' ∧ x = y := by
  have hdrop : ∀ {ws x : CStr}, Ws ws → (∀ b ∈ x.head?, isWs b = false) →
      (ws ++ x).dropWhile isWs = x := by
    intro ws x hws hx
    rw [List.dropWhile_append_of_pos hws]
    cases x with
    | nil => rfl
    | cons b x => rw [List.dropWhile_cons_of_neg (by simp [hx b rfl])]
  have hxy : x = y := by
    calc
      x = (ws ++ x).dropWhile isWs := (hdrop hws hx).symm
      _ = (ws' ++ y).dropWhile isWs := by rw [h]
      _ = y := hdrop hws' hy
  subst hxy
  exact ⟨List.append_cancel_right h, rfl⟩

theorem Chars.unique {s s' r r' : CStr} {n n' : Nat} (h : Chars s n) (h' : Chars s' n')
    (heq : s ++ 34 :: r = s' ++ 34 :: r') : s = s' ∧ r = r' := by
  induction h generalizing s' n' with
  | nil =>
      cases h' with
      | nil => exact ⟨rfl, by simpa using heq⟩
      | unescaped _ hquote _ _ =>
          simp only [List.nil_append, List.cons_append, List.cons.injEq] at heq
          exact absurd heq.1.symm hquote
      | escape _ _ => simp at heq
      | unicode _ _ _ _ _ => simp at heq
  | unescaped _ hquote hslash _ ih =>
      cases h' with
      | nil =>
          simp only [List.nil_append, List.cons_append, List.cons.injEq] at heq
          exact absurd heq.1 hquote
      | unescaped _ _ _ hs =>
          simp only [List.cons_append, List.cons.injEq] at heq
          obtain ⟨hs, hr⟩ := ih hs heq.2
          exact ⟨by rw [heq.1, hs], hr⟩
      | escape _ _ =>
          simp only [List.cons_append, List.cons.injEq] at heq
          exact absurd heq.1 hslash
      | unicode _ _ _ _ _ =>
          simp only [List.cons_append, List.cons.injEq] at heq
          exact absurd heq.1 hslash
  | escape he _ ih =>
      cases h' with
      | nil => simp at heq
      | unescaped _ _ hslash _ =>
          simp only [List.cons_append, List.cons.injEq] at heq
          exact absurd heq.1.symm hslash
      | escape _ hs =>
          simp only [List.cons_append, List.cons.injEq] at heq
          obtain ⟨hs, hr⟩ := ih hs heq.2.2
          exact ⟨by rw [heq.2.1, hs], hr⟩
      | unicode _ _ _ _ _ =>
          simp only [List.cons_append, List.cons.injEq] at heq
          rw [heq.2.1] at he
          exact absurd he (by decide)
  | unicode _ _ _ _ _ ih =>
      cases h' with
      | nil => simp at heq
      | unescaped _ _ hslash _ =>
          simp only [List.cons_append, List.cons.injEq] at heq
          exact absurd heq.1.symm hslash
      | escape he _ =>
          simp only [List.cons_append, List.cons.injEq] at heq
          rw [← heq.2.1] at he
          exact absurd he (by decide)
      | unicode _ _ _ _ hs =>
          simp only [List.cons_append, List.cons.injEq] at heq
          obtain ⟨_, _, h₁, h₂, h₃, h₄, heq⟩ := heq
          obtain ⟨hs, hr⟩ := ih hs heq
          exact ⟨by rw [h₁, h₂, h₃, h₄, hs], hr⟩

theorem IsNumber.unique {v v' r r' : CStr} (h : IsNumber v) (h' : IsNumber v')
    (heq : v ++ r = v' ++ r') (hstop : Stops v r) (hstop' : Stops v' r') : v = v' := by
  have hlonger : ∀ {v v' r x : CStr}, IsNumber v → IsNumber v' → v' = v ++ x →
      (∀ b t, x = b :: t → b ∈ r.head?) → Stops v r → v = v' := by
    intro v v' r x hv hv' hlong hhead hstop
    cases x with
    | nil => simpa using hlong.symm
    | cons b t =>
        exfalso
        apply hstop b (hhead b t rfl)
        exact Or.inl ⟨hv, t, by rwa [← hlong]⟩
  rcases List.append_eq_append_iff.mp heq with ⟨x, hx, hr⟩ | ⟨x, hx, hr⟩
  · apply hlonger h h' hx _ hstop
    intro b t hb
    rw [hr, hb]
    rfl
  · apply Eq.symm
    apply hlonger h' h hx _ hstop'
    intro b t hb
    rw [hr, hb]
    rfl

/-- What can stand behind an entry. -/
def Delimited (rest : CStr) : Prop := ∀ b ∈ rest.head?, b = 44 ∨ b = 93 ∨ b = 125

def Behind : Place → CStr → CStr → Prop
  | .value, v, rest => Stops v rest
  | .element, _, rest | .member, _, rest => Delimited rest
  | .entries b, _, rest => rest.head? = some b.closing

theorem behind_entry (b : Bracket) (s rest : CStr) : Behind b.entry s rest = Delimited rest := by
  cases b <;> rfl

theorem delimited_comma (rest : CStr) : Delimited (44 :: rest) := by
  intro b hb
  exact .inl (Option.some.inj hb).symm

theorem delimited_of_closing {b : Bracket} {rest : CStr} (h : rest.head? = some b.closing) :
    Delimited rest := by
  intro c hc
  rw [h, Option.mem_def, Option.some.injEq] at hc
  subst hc
  cases b <;> decide

theorem Delimited.isWs {rest : CStr} (h : Delimited rest) :
    ∀ b ∈ rest.head?, isWs b = false := by
  intro b hb
  rcases h b hb with rfl | rfl | rfl
  all_goals decide

/-- The value of an element ends with its token, whatever blanks follow. -/
theorem stops_behind {v ws rest : CStr} (hws : Ws ws) (h : Delimited rest) :
    Stops v (ws ++ rest) := by
  apply stops_of_delimiter
  intro b hb
  cases ws with
  | nil =>
      rcases h b hb with rfl | rfl | rfl
      all_goals decide
  | cons c ws =>
      cases hb
      simp [isDelimiter, hws b List.mem_cons_self]

theorem Derives.value_head {lim : Limits} {d : Nat} {names : List CStr} {v : CStr}
    (h : Derives lim .value d names v) (rest : CStr) :
    ∀ b ∈ (v ++ rest).head?, isWs b = Bool.false := by
  obtain ⟨b, t, k, rfl, hk, _⟩ := h.shape
  intro c hc
  cases hc
  exact (isWs_of_kindOf hk).1

/-- Behind blanks, everything starts with the first byte of a value. -/
theorem Derives.first {lim : Limits} {place : Place} {d : Nat} {names : List CStr} {s : CStr}
    (h : Derives lim place d names s) :
    ∃ ws b rest k, s = ws ++ b :: rest ∧ Ws ws ∧ kindOf b = some k := by
  have hvalue : ∀ {d : Nat} {names : List CStr} {v : CStr}, Derives lim .value d names v →
      ∃ ws b rest k, v = ws ++ b :: rest ∧ Ws ws ∧ kindOf b = some k := by
    intro d names v hv
    obtain ⟨b, rest, k, hv, hk, _⟩ := hv.shape
    exact ⟨[], b, rest, k, hv, fun _ hb => absurd hb List.not_mem_nil, hk⟩
  induction h with
  | null => exact hvalue (d := 0) .null
  | true => exact hvalue (d := 0) .true
  | false => exact hvalue (d := 0) .false
  | number hs hlength => exact hvalue (d := 0) (.number hs hlength)
  | string hs hlength => exact hvalue (d := 0) (.string hs hlength)
  | empty hd hws => exact hvalue (.empty hd hws)
  | entries hd hs hall _ => exact hvalue (.entries hd hs hall)
  | @element d ws v ws' hws hv _ _ =>
      obtain ⟨b, rest, k, rfl, hk, _⟩ := hv.shape
      exact ⟨ws, b, rest ++ ws', k, rfl, hws, hk⟩
  | member hws _ _ _ _ _ => exact ⟨_, 34, _, .string, rfl, hws, by decide⟩
  | last _ ih => exact ih
  | @next d b _ _ s rest _ _ ih _ =>
      obtain ⟨ws, b, t, k, rfl, hws, hk⟩ := ih
      exact ⟨ws, b, t ++ 44 :: rest, k, by simp, hws, hk⟩

theorem Derives.shape_of_head {lim : Limits} {d : Nat} {names : List CStr}
    {v rest r v' r' : CStr} {b : UInt8} {k : Kind} (h' : Derives lim .value d names v')
    (hv : v = b :: rest) (hk : kindOf b = some k) (heq : v ++ r = v' ++ r') :
    Shape lim d k v' := by
  obtain ⟨b', rest', k', hv', hk', hshape⟩ := h'.shape
  have hsame : b = b' := by
    rw [hv, hv'] at heq
    simpa using congrArg List.head? heq
  rw [← hsame, hk, Option.some.injEq] at hk'
  rw [hk']
  exact hshape

theorem isWs_closing (b : Bracket) : isWs b.closing = false := by
  cases b <;> decide

theorem Ws.closed_unique {ws ws' r r' : CStr} {c : UInt8} (hws : Ws ws) (hws' : Ws ws')
    (hc : isWs c = false) (heq : ws ++ c :: r = ws' ++ c :: r') : ws = ws' :=
  (hws.split hws' heq (fun _ hx => by cases hx; exact hc)
    (fun _ hx => by cases hx; exact hc)).1

theorem Ws.inside_unique {lim : Limits} {b : Bracket} {d : Nat} {ws s r r' : CStr} (hws : Ws ws)
    (h : Inside lim b d s) (heq : ws ++ b.closing :: r = s ++ b.closing :: r') : ws = s := by
  rcases h with hws' | ⟨names, hs⟩
  · exact hws.closed_unique hws' (isWs_closing b) heq
  · -- entries start with a byte that is neither blank nor closing
    exfalso
    obtain ⟨ws', c, t, k, rfl, hws', hk⟩ := hs.first
    obtain ⟨hc, hsquare, hcurly⟩ := isWs_of_kindOf hk
    rw [List.append_assoc, List.cons_append] at heq
    obtain ⟨_, htail⟩ := hws.split hws' heq (fun _ hx => by cases hx; exact isWs_closing b)
      (fun _ hx => by cases hx; exact hc)
    have hclosing : b.closing = c := (List.cons.inj htail).1
    cases b
    · exact hsquare hclosing.symm
    · exact hcurly hclosing.symm

/-- The part of a text that stands at a place is determined by where it starts. -/
def Determined (place : Place) (s : CStr) : Prop :=
  ∀ {lim : Limits} {d : Nat} {names : List CStr} {s' r r' : CStr},
    Derives lim place d names s' → s ++ r = s' ++ r' → Behind place s r → Behind place s' r' →
      s = s'

theorem determined_number {v : CStr} (hv : IsNumber v) : Determined .value v := by
  intro lim d names v' r r' h' heq hr hr'
  obtain ⟨b, rest, hb, hfirst⟩ := hv.head
  cases h'.shape_of_head hb (kindOf_number hfirst) heq with
  | number hv' => exact hv.unique hv' heq hr hr'

theorem determined_string {s : CStr} {n : Nat} (hs : Chars s n) :
    Determined .value (34 :: (s ++ [34])) := by
  intro lim d names v' r r' h' heq _ _
  cases h'.shape_of_head (b := 34) (k := .string) rfl (by decide) heq with
  | string hs' =>
      simp only [List.cons_append, List.append_assoc, List.nil_append, List.cons.injEq,
        true_and] at heq
      rw [(hs.unique hs' heq).1]

theorem determined_bracket {lim : Limits} {b : Bracket} {d : Nat} {s : CStr}
    (hs : Inside lim b d s) (hentries : ¬ Ws s → Determined (.entries b) s) :
    Determined .value (b.opening :: (s ++ [b.closing])) := by
  intro lim' d' names v' r r' h' heq _ _
  have hshape := h'.shape_of_head rfl (kindOf_opening b) heq
  generalize hk : Kind.bracket b = k at hshape
  cases hshape with
  | @bracket b' s' hs' =>
      cases hk
      simp only [List.cons_append, List.append_assoc, List.nil_append, List.cons.injEq,
        true_and] at heq
      by_cases hws : Ws s
      · rw [hws.inside_unique hs' heq]
      · rcases hs' with hws' | ⟨names', hs'⟩
        · rw [hws'.inside_unique hs heq.symm]
        · rw [hentries hws hs' heq rfl rfl]
  | _ => cases hk

theorem Determined.element {v ws ws' : CStr} (hv : Determined .value v)
    (hfirst : ∀ rest, ∀ b ∈ (v ++ rest).head?, isWs b = false) (hws : Ws ws) (hws' : Ws ws') :
    Determined .element (ws ++ (v ++ ws')) := by
  intro lim d names s' r r' h' heq hr hr'
  cases h' with
  | element hws₁ hv₁ hws₁' =>
      simp only [List.append_assoc] at heq
      obtain ⟨hfront, htail⟩ := hws.split hws₁ heq (hfirst _) (hv₁.value_head _)
      have hsame := hv hv₁ htail (stops_behind hws' hr) (stops_behind hws₁' hr')
      rw [hsame, List.append_cancel_left_eq] at htail
      rw [hfront, hsame, (hws'.split hws₁' htail hr.isWs hr'.isWs).1]

theorem Determined.member {ws key ws' s : CStr} {n : Nat} (hs : Determined .element s)
    (hws : Ws ws) (hkey : Chars key n) (hws' : Ws ws') :
    Determined .member (ws ++ 34 :: (key ++ 34 :: (ws' ++ 58 :: s))) := by
  intro lim d names s' r r' h' heq hr hr'
  cases h' with
  | member hws₁ hkey₁ _ hws₁' hs₁ =>
      simp only [List.append_assoc, List.cons_append] at heq
      obtain ⟨hfront, heq⟩ := hws.split hws₁ heq (fun _ hx => by cases hx; decide)
        (fun _ hx => by cases hx; decide)
      obtain ⟨hsame, heq⟩ := hkey.unique hkey₁ (List.cons.inj heq).2
      obtain ⟨hmiddle, heq⟩ := hws'.split hws₁' heq (fun _ hx => by cases hx; decide)
        (fun _ hx => by cases hx; decide)
      rw [hfront, hsame, hmiddle, hs hs₁ (List.cons.inj heq).2 hr hr']

/-- The first of some entries, and what is behind it. -/
theorem Determined.first {b : Bracket} {s rest : CStr} (hs : Determined b.entry s)
    (hrest : Delimited rest) {lim : Limits} {d : Nat} {names : List CStr} {s' r' : CStr}
    (h' : Derives lim (.entries b) d names s') (heq : s ++ rest = s' ++ r')
    (hr' : r'.head? = some b.closing) :
    s = s' ∧ rest = r' ∨ ∃ names' more, Derives lim (.entries b) d names' more ∧
      s' = s ++ 44 :: more ∧ rest = 44 :: (more ++ r') := by
  rw [Determined, funext (behind_entry b s)] at hs
  cases h' with
  | last hs' =>
      have hsame := hs hs' heq hrest (by
        rw [behind_entry]
        exact delimited_of_closing hr')
      rw [hsame, List.append_cancel_left_eq] at heq
      exact .inl ⟨hsame, heq⟩
  | @next _ _ _ names' first more hs' hmore =>
      rw [List.append_assoc, List.cons_append] at heq
      have hsame := hs hs' heq hrest (by
        rw [behind_entry]
        exact delimited_comma _)
      rw [hsame, List.append_cancel_left_eq] at heq
      exact .inr ⟨names', more, hmore, by rw [hsame], heq⟩

theorem closing_ne_comma (b : Bracket) : b.closing ≠ 44 := by
  cases b <;> decide

theorem Determined.last {b : Bracket} {s : CStr} (hs : Determined b.entry s) :
    Determined (.entries b) s := by
  intro lim d names s' r r' h' heq hr hr'
  rcases hs.first (delimited_of_closing hr) h' heq hr' with ⟨hsame, _⟩ | ⟨_, more, _, _, hcomma⟩
  · exact hsame
  · rw [Behind, hcomma] at hr
    exact absurd (Option.some.inj hr).symm (closing_ne_comma b)

theorem Determined.next {b : Bracket} {s more : CStr} (hs : Determined b.entry s)
    (hmore : Determined (.entries b) more) : Determined (.entries b) (s ++ 44 :: more) := by
  intro lim d names s' r r' h' heq hr hr'
  rw [List.append_assoc, List.cons_append] at heq
  rcases hs.first (delimited_comma _) h' heq hr' with ⟨_, hlast⟩ | ⟨_, more', hmore', rfl, htail⟩
  · rw [Behind, ← hlast] at hr'
    exact absurd (Option.some.inj hr').symm (closing_ne_comma b)
  · rw [hmore hmore' (List.cons.inj htail).2 hr hr']

theorem Derives.determined {lim : Limits} {place : Place} {d : Nat} {names : List CStr}
    {s : CStr} (h : Derives lim place d names s) : Determined place s := by
  induction h with
  | null =>
      intro _ _ _ _ _ _ h' heq _ _
      cases h'.shape_of_head (b := 110) (k := .null) rfl (by decide) heq
      rfl
  | true =>
      intro _ _ _ _ _ _ h' heq _ _
      cases h'.shape_of_head (b := 116) (k := .true) rfl (by decide) heq
      rfl
  | false =>
      intro _ _ _ _ _ _ h' heq _ _
      cases h'.shape_of_head (b := 102) (k := .false) rfl (by decide) heq
      rfl
  | number hs _ => exact determined_number hs
  | string hs _ => exact determined_string hs
  | @empty d _ _ _ hws => exact @determined_bracket lim _ d _ (.inl hws) fun hne => absurd hws hne
  | entries _ hs _ ih => exact determined_bracket (.inr ⟨_, hs⟩) fun _ => ih
  | element hws hv hws' ih => exact ih.element hv.value_head hws hws'
  | member hws hkey _ hws' _ ih => exact ih.member hws hkey hws'
  | last _ ih => exact ih.last
  | next _ _ ih ihrest => exact ih.next ihrest

/-! ## Values at the front -/

/-- A value at the front of a text, behind blanks and ended by its last token. -/
def Front (lim : Limits) (d : Nat) (s v rest : CStr) : Prop :=
  ∃ ws, s = ws ++ (v ++ rest) ∧ Ws ws ∧ Derives lim .value d [] v ∧ Stops v rest

/-- A value ends somewhere in the text, and only arrays and objects of which it is the first entry
are open there. -/
inductive FirstValue (lim : Limits) : Nat → CStr → Prop
  | here {d : Nat} {s v rest : CStr} : Front lim d s v rest → FirstValue lim d s
  | array {d : Nat} {ws rest : CStr} : Ws ws → lim.depth d → FirstValue lim (d + 1) rest →
      FirstValue lim d (ws ++ 91 :: rest)
  | object {d n : Nat} {ws ws' key ws'' rest : CStr} : Ws ws → lim.depth d → Ws ws' →
      Chars key n → lim.string n → Ws ws'' → FirstValue lim (d + 1) rest →
      FirstValue lim d (ws ++ 123 :: (ws' ++ 34 :: (key ++ 34 :: (ws'' ++ 58 :: rest))))

theorem stops_of_ws {v ws : CStr} (h : Ws ws) : Stops v ws := by
  apply stops_of_delimiter
  intro b hb
  simp [isDelimiter, h b (List.mem_of_mem_head? hb)]

theorem isText_iff_front {lim : Limits} {s : CStr} :
    IsText lim s ↔ ∃ v rest, Front lim 0 s v rest ∧ Ws rest := by
  constructor
  · intro h
    cases h with
    | element hws hv hws' => exact ⟨_, _, ⟨_, rfl, hws, hv, stops_of_ws hws'⟩, hws'⟩
  · rintro ⟨v, rest, ⟨ws, rfl, hws, hv, _⟩, hrest⟩
    exact .element hws hv hrest

theorem Front.unique {lim lim' : Limits} {d d' : Nat} {s v v' rest rest' : CStr}
    (h : Front lim d s v rest) (h' : Front lim' d' s v' rest') : rest = rest' := by
  obtain ⟨ws, hs, hws, hv, hstop⟩ := h
  obtain ⟨ws', hs', hws', hv', hstop'⟩ := h'
  obtain ⟨_, htail⟩ := hws.split hws' (hs.symm.trans hs') (hv.value_head _) (hv'.value_head _)
  have hsame := hv.determined hv' htail hstop hstop'
  rw [hsame, List.append_cancel_left_eq] at htail
  exact htail

/-- Only blanks are behind the value of a text. -/
theorem IsText.ws_of_front {lim lim' : Limits} {d : Nat} {s v rest : CStr} (h : IsText lim s)
    (hfront : Front lim' d s v rest) : Ws rest := by
  obtain ⟨v', rest', hfront', hrest'⟩ := isText_iff_front.mp h
  rw [hfront.unique hfront']
  exact hrest'

end MiniBackend.Lib.Rfc8259
