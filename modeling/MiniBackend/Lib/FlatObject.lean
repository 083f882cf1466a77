import MiniBackend.Lib.CString

/-!
# Flat objects as text

A flat JSON object is the text of its members one after the other, each closed by
a comma or the brace.  A reader that looks for `"key":` with `strstr` instead of
parsing finds the right member all the same: inside a string every quote is
escaped, so no content of a value looks like a key.
-/

namespace MiniBackend.Lib.FlatObject

open MiniBackend.Lib.CString

/-! ## Escaped text -/

def escape (s : CStr) : CStr := s.flatMap fun b => if b = 34 ∨ b = 92 then [92, b] else [b]

@[simp] theorem escape_nil : escape [] = [] := rfl

theorem escape_cons_special {b : UInt8} (hb : b = 34 ∨ b = 92) (s : CStr) :
    escape (b :: s) = 92 :: b :: escape s := by
  rw [escape, List.flatMap_cons, if_pos hb]
  rfl

theorem escape_cons_plain {b : UInt8} (hb : ¬(b = 34 ∨ b = 92)) (s : CStr) :
    escape (b :: s) = b :: escape s := by
  rw [escape, List.flatMap_cons, if_neg hb]
  rfl

theorem escape_append (s t : CStr) : escape (s ++ t) = escape s ++ escape t :=
  List.flatMap_append

theorem length_le_length_escape (s : CStr) : s.length ≤ (escape s).length := by
  induction s with
  | nil => exact Nat.le_refl _
  | cons b s ih =>
      by_cases hb : b = 34 ∨ b = 92
      · rw [escape_cons_special hb]
        simp only [List.length_cons]
        omega
      · rw [escape_cons_plain hb]
        exact Nat.succ_le_succ ih

theorem escape_eq_self {s : CStr} (hquote : 34 ∉ s) (hslash : 92 ∉ s) : escape s = s := by
  induction s with
  | nil => rfl
  | cons b s ih =>
      rw [List.mem_cons, not_or] at hquote hslash
      have hb : ¬(b = 34 ∨ b = 92) := by
        rw [not_or]
        exact ⟨Ne.symm hquote.1, Ne.symm hslash.1⟩
      rw [escape_cons_plain hb, ih hquote.2 hslash.2]

theorem mem_escape_iff {c : UInt8} (hc : c ≠ 92) (s : CStr) : c ∈ escape s ↔ c ∈ s := by
  induction s with
  | nil => rfl
  | cons b s ih =>
      by_cases hb : b = 34 ∨ b = 92
      · rw [escape_cons_special hb, List.mem_cons, List.mem_cons, List.mem_cons, ih]
        simp [hc]
      · rw [escape_cons_plain hb, List.mem_cons, List.mem_cons, ih]

/-! ## Members -/

def PlainKey (key : CStr) : Prop :=
  ∀ b ∈ key, b ≠ 34 ∧ b ≠ 44 ∧ b ≠ 58 ∧ b ≠ 92 ∧ b ≠ 125

instance (key : CStr) : Decidable (PlainKey key) :=
  List.decidableBAll (fun b => b ≠ 34 ∧ b ≠ 44 ∧ b ≠ 58 ∧ b ≠ 92 ∧ b ≠ 125) key

/-- A string between quotes, or a word without any. -/
inductive Value
  | quoted (content : CStr)
  | bare (word : { s : CStr // 34 ∉ s })

def Value.text : Value → CStr
  | .quoted content => 34 :: (escape content ++ [34])
  | .bare word => word

structure Member where
  key : { key : CStr // PlainKey key }
  value : Value

def closing (rest : List Member) : UInt8 := if rest.isEmpty then 125 else 44

theorem closing_eq (rest : List Member) : closing rest = 44 ∨ closing rest = 125 := by
  unfold closing
  split
  · exact .inr rfl
  · exact .inl rfl

def bodyText : List Member → CStr
  | [] => []
  | m :: rest =>
      34 :: (m.key.val ++ 34 :: 58 :: (m.value.text ++ closing rest :: bodyText rest))

theorem Value.not_mem_text_quoted {c : UInt8} (hquote : c ≠ 34) (hslash : c ≠ 92)
    {content : CStr} (h : c ∉ content) : c ∉ (Value.quoted content).text := by
  rw [Value.text, List.mem_cons, List.mem_append, List.mem_singleton, mem_escape_iff hslash]
  simp [hquote, h]

theorem not_mem_bodyText {c : UInt8} (hc : c ≠ 34 ∧ c ≠ 44 ∧ c ≠ 58 ∧ c ≠ 125)
    {ms : List Member} (h : ∀ m ∈ ms, c ∉ m.key.val ∧ c ∉ m.value.text) : c ∉ bodyText ms := by
  induction ms with
  | nil => exact List.not_mem_nil
  | cons m ms ih =>
      obtain ⟨hkey, hvalue⟩ := h m List.mem_cons_self
      have hrest := ih fun m' hm' => h m' (List.mem_cons_of_mem m hm')
      have hclose : c ≠ closing ms := by
        rcases closing_eq ms with heq | heq
        · rw [heq]; exact hc.2.1
        · rw [heq]; exact hc.2.2.2
      rw [bodyText]
      simp only [List.mem_cons, List.mem_append, not_or]
      exact ⟨hc.1, hkey, hc.1, hc.2.2.1, hvalue, hclose, hrest⟩

/-- What is searched for: the key with its quotes and colon, and the first bytes `tail`
of the value. -/
def keyPattern (key tail : CStr) : CStr := 34 :: (key ++ 34 :: 58 :: tail)

/-! ## Searching -/

section Search

variable {key : CStr} (hkey : PlainKey key) (tail : CStr)
include hkey

/-- No key is read out of a string: the closing quote of the key would have to be an
escaped one, or the one that ends the string. -/
theorem not_prefix_escape (s : CStr) {c : UInt8} (hc : c ≠ 58) (rest : CStr) :
    ¬key ++ 34 :: 58 :: tail <+: escape s ++ 34 :: c :: rest := by
  induction s generalizing key with
  | nil =>
      cases key with
      | nil =>
          rw [List.nil_append, escape_nil, List.nil_append, List.cons_prefix_cons,
            List.cons_prefix_cons]
          exact fun h => hc h.2.1.symm
      | cons b key =>
          rw [List.cons_append, escape_nil, List.nil_append, List.cons_prefix_cons]
          exact fun h => (hkey b List.mem_cons_self).1 h.1
  | cons x s ih =>
      by_cases hx : x = 34 ∨ x = 92
      · rw [escape_cons_special hx]
        cases key with
        | nil =>
            rw [List.nil_append, List.cons_append, List.cons_prefix_cons]
            exact fun h => absurd h.1 (by decide)
        | cons b key =>
            rw [List.cons_append, List.cons_append, List.cons_prefix_cons]
            exact fun h => (hkey b List.mem_cons_self).2.2.2.1 h.1
      · rw [escape_cons_plain hx]
        cases key with
        | nil =>
            rw [List.nil_append, List.cons_append, List.cons_prefix_cons]
            exact fun h => hx (.inl h.1.symm)
        | cons b key =>
            rw [List.cons_append, List.cons_append, List.cons_prefix_cons]
            exact fun h => ih (fun y hy => hkey y (List.mem_cons_of_mem b hy)) h.2

theorem strstr_escape (s : CStr) {c : UInt8} (hc : c ≠ 58) (rest : CStr) :
    strstr (escape s ++ 34 :: c :: rest) (keyPattern key tail) =
      strstr (34 :: c :: rest) (keyPattern key tail) := by
  induction s with
  | nil => rfl
  | cons x s ih =>
      by_cases hx : x = 34 ∨ x = 92
      · rw [escape_cons_special hx, List.cons_append, List.cons_append, keyPattern,
          strstr_cons_of_ne (by decide)]
        rcases hx with rfl | rfl
        · rw [strstr_cons_eq_tail]
          · exact ih
          · rw [List.cons_prefix_cons, not_and]
            exact fun _ => not_prefix_escape hkey tail s hc rest
        · rw [strstr_cons_of_ne (by decide)]
          exact ih
      · rw [not_or] at hx
        rw [escape_cons_plain (by simpa using hx), List.cons_append, keyPattern,
          strstr_cons_of_ne hx.1]
        exact ih

theorem not_prefix_close {c : UInt8} (hc : c = 44 ∨ c = 125) (rest : CStr) :
    ¬keyPattern key tail <+: 34 :: c :: rest := by
  rw [keyPattern, List.cons_prefix_cons]
  rintro ⟨-, h⟩
  cases key with
  | nil =>
      rw [List.nil_append, List.cons_prefix_cons] at h
      rcases hc with rfl | rfl
      · exact absurd h.1 (by decide)
      · exact absurd h.1 (by decide)
  | cons b key =>
      rw [List.cons_append, List.cons_prefix_cons] at h
      have hb := hkey b List.mem_cons_self
      rcases hc with rfl | rfl
      · exact hb.2.1 h.1
      · exact hb.2.2.2.2 h.1

theorem strstr_value (v : Value) {c : UInt8} (hc : c = 44 ∨ c = 125) (rest : CStr) :
    strstr (v.text ++ c :: rest) (keyPattern key tail) = strstr rest (keyPattern key tail) := by
  have hcolon : c ≠ 58 := by
    rcases hc with rfl | rfl
    · decide
    · decide
  have hquote : c ≠ 34 := by
    rcases hc with rfl | rfl
    · decide
    · decide
  have hclose : strstr (c :: rest) (keyPattern key tail) = strstr rest (keyPattern key tail) :=
    strstr_cons_of_ne hquote rest _
  cases v with
  | quoted content =>
      have hopen : ¬keyPattern key tail <+: 34 :: (escape content ++ 34 :: c :: rest) := by
        rw [keyPattern, List.cons_prefix_cons, not_and]
        exact fun _ => not_prefix_escape hkey tail content hcolon rest
      rw [Value.text, List.cons_append, List.append_assoc, List.singleton_append,
        strstr_cons_eq_tail hopen, strstr_escape hkey tail content hcolon,
        strstr_cons_eq_tail (not_prefix_close hkey tail hc rest)]
      exact hclose
  | bare word =>
      rw [Value.text, keyPattern, strstr_append_of_not_mem word.property]
      exact hclose

theorem strstr_member {m : Member} (hm : m.key.val ≠ key) (rest : List Member) :
    strstr (bodyText (m :: rest)) (keyPattern key tail) =
      strstr (bodyText rest) (keyPattern key tail) := by
  have hkeyQuote : 34 ∉ key := fun h => (hkey 34 h).1 rfl
  have hmemberQuote : 34 ∉ m.key.val := fun h => (m.key.property 34 h).1 rfl
  rw [bodyText]
  have hclose := closing_eq rest
  -- the opening quote of another key
  rw [strstr_cons_eq_tail]
  · -- its closing quote
    have hend : ¬keyPattern key tail <+:
        34 :: 58 :: (m.value.text ++ closing rest :: bodyText rest) := by
      rw [keyPattern, List.cons_prefix_cons]
      rintro ⟨-, h⟩
      cases key with
      | nil =>
          rw [List.nil_append, List.cons_prefix_cons] at h
          exact absurd h.1 (by decide)
      | cons b key =>
          rw [List.cons_append, List.cons_prefix_cons] at h
          exact (hkey b List.mem_cons_self).2.2.1 h.1
    rw [keyPattern, strstr_append_of_not_mem hmemberQuote, ← keyPattern,
      strstr_cons_eq_tail hend, keyPattern, strstr_cons_of_ne (by decide), ← keyPattern]
    exact strstr_value hkey tail m.value hclose (bodyText rest)
  · rw [keyPattern, List.cons_prefix_cons]
    rintro ⟨-, more, h⟩
    rw [List.append_assoc, List.cons_append] at h
    exact hm (append_cons_inj hkeyQuote hmemberQuote h).1.symm

/-- The search finds the first member with the key, given that its value begins with
`tail`; the rest of the value stands behind the pattern. -/
theorem strstr_bodyText {ms : List Member} {m : Member} {tail rest : CStr}
    (hm : ms.find? (fun m => m.key.val = key) = some m) (hvalue : m.value.text = tail ++ rest) :
    ∃ p, strstr (bodyText ms) (keyPattern key tail) = some p ∧
      ∃ after, p.drop (keyPattern key tail).length = rest ++ closing after :: bodyText after := by
  induction ms with
  | nil => rw [List.find?_nil] at hm; contradiction
  | cons m' ms ih =>
      by_cases hfirst : m'.key.val = key
      · rw [List.find?_cons_of_pos (by simpa using hfirst), Option.some.injEq] at hm
        subst hm
        have hsplit : bodyText (m' :: ms) =
            keyPattern key tail ++ (rest ++ closing ms :: bodyText ms) := by
          rw [bodyText, hfirst, hvalue, keyPattern]
          simp
        refine ⟨bodyText (m' :: ms), strstr_eq_self ?_, ms, ?_⟩
        · exact ⟨rest ++ closing ms :: bodyText ms, hsplit.symm⟩
        · rw [hsplit, List.drop_left]
      · rw [List.find?_cons_of_neg (by simpa using hfirst)] at hm
        rw [strstr_member hkey tail hfirst]
        exact ih hm

end Search

/-! ## Reading a string up to the next quote -/

/-- Everything before the first quote: a reader that knows no escapes. -/
def cutAtQuote (s : CStr) : CStr := s.takeWhile (· ≠ 34)

theorem take_strchr_eq_cutAtQuote (s rest : CStr) :
    ∃ r, strchr (s ++ 34 :: rest) 34 = some r ∧
      (s ++ 34 :: rest).take ((s ++ 34 :: rest).length - r.length) = cutAtQuote s := by
  refine ⟨_, strchr_of_mem (by simp), ?_⟩
  rw [take_sub_length_dropWhile, cutAtQuote]
  induction s with
  | nil => rfl
  | cons b s ih =>
      by_cases hb : b = 34
      · rw [List.cons_append, List.takeWhile_cons_of_neg (by simp [hb]),
          List.takeWhile_cons_of_neg (by simp [hb])]
      · rw [List.cons_append, List.takeWhile_cons_of_pos (by simp [hb]),
          List.takeWhile_cons_of_pos (by simp [hb]), ih]

theorem quote_not_mem_cutAtQuote (s : CStr) : 34 ∉ cutAtQuote s := by
  intro h
  simpa using List.mem_takeWhile_imp h

theorem cutAtQuote_escape {s : CStr} (h : 34 ∉ s) : cutAtQuote (escape s) = escape s := by
  rw [cutAtQuote, List.takeWhile_eq_self_iff]
  intro b hb
  simp only [ne_eq, decide_not, Bool.not_eq_true', decide_eq_false_iff_not]
  rintro rfl
  exact h ((mem_escape_iff (by decide) s).mp hb)

theorem eq_replicate_of_prefix {s : CStr} {k : Nat} (hk : 0 < k)
    (h : s <+: List.replicate k 92 ++ escape s) : s = List.replicate s.length 92 := by
  induction s generalizing k with
  | nil => rfl
  | cons b s ih =>
      obtain ⟨k, rfl⟩ : ∃ j, k = j + 1 := ⟨k - 1, by omega⟩
      rw [List.replicate_succ, List.cons_append, List.cons_prefix_cons] at h
      obtain ⟨rfl, h⟩ := h
      rw [escape_cons_special (.inr rfl)] at h
      have hmore : List.replicate k 92 ++ 92 :: 92 :: escape s =
          List.replicate (k + 2) 92 ++ escape s := by
        rw [List.replicate_add, List.append_assoc]
        rfl
      rw [hmore] at h
      rw [List.length_cons, List.replicate_succ, ← ih (Nat.succ_pos _) h]

theorem escape_replicate (k : Nat) :
    escape (List.replicate k 92) = List.replicate (2 * k) 92 := by
  induction k with
  | zero => rfl
  | succ k ih =>
      rw [List.replicate_succ, escape_cons_special (.inr rfl), ih, Nat.mul_succ,
        List.replicate_succ, List.replicate_succ]

/-- An escaped string cut at the first quote and to `n` bytes is the string again exactly when
there was nothing to escape, or when the cut removes what the escaping of its last bytes
added. -/
theorem take_cutAtQuote_escape_eq_iff {s : CStr} {n : Nat} (hn : s.length ≤ n) :
    (cutAtQuote (escape s)).take n = s ↔
      34 ∉ s ∧ (92 ∉ s ∨ s.length = n ∧ ∃ a k, s = a ++ List.replicate k 92 ∧ 92 ∉ a) := by
  constructor
  · intro h
    have hquote : 34 ∉ s := by
      rw [← h]
      exact fun hmem => quote_not_mem_cutAtQuote _ (List.mem_of_mem_take hmem)
    refine ⟨hquote, ?_⟩
    by_cases hslash : 92 ∈ s
    · right
      rw [cutAtQuote_escape hquote] at h
      obtain ⟨a, q, hs, ha⟩ := List.eq_append_cons_of_mem hslash
      have hescape : escape s = a ++ 92 :: 92 :: escape q := by
        have haQuote : 34 ∉ a := by
          intro hmem
          exact hquote (by rw [hs]; exact List.mem_append_left _ hmem)
        rw [hs, escape_append, escape_eq_self haQuote ha, escape_cons_special (.inr rfl)]
      have hlength : s.length < (escape s).length := by
        have hq := length_le_length_escape q
        rw [hescape, hs]
        simp only [List.length_append, List.length_cons]
        omega
      have hfull : s.length = n := by
        have htake := congrArg List.length h
        rw [List.length_take] at htake
        omega
      refine ⟨hfull, a, (92 :: q).length, ?_, ha⟩
      have hprefix : s <+: escape s := by
        have htake := List.take_prefix n (escape s)
        rwa [h] at htake
      rw [hescape, hs, List.prefix_append_right_inj, List.cons_prefix_cons] at hprefix
      have hones : q = List.replicate q.length 92 :=
        eq_replicate_of_prefix Nat.one_pos hprefix.2
      rw [List.length_cons, List.replicate_succ, ← hones]
      exact hs
    · exact .inl hslash
  · rintro ⟨hquote, hslash⟩
    rw [cutAtQuote_escape hquote]
    rcases hslash with hslash | ⟨hfull, a, k, hs, ha⟩
    · rw [escape_eq_self hquote hslash]
      exact List.take_of_length_le hn
    · have haQuote : 34 ∉ a := by
        intro hmem
        exact hquote (by rw [hs]; exact List.mem_append_left _ hmem)
      have hlength : n = a.length + k := by
        rw [← hfull, hs, List.length_append, List.length_replicate]
      rw [hs, escape_append, escape_eq_self haQuote ha, escape_replicate, hlength,
        List.take_length_add_append, List.take_replicate, Nat.min_eq_left (by omega)]

end MiniBackend.Lib.FlatObject
