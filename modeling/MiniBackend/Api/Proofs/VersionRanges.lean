import MiniBackend.Api.ApiVersion
import Mathlib.Data.Prod.Lex

/-!
# The order of versions, and ranges

A range is a lower end and, unless it is open, an upper end that does not belong to it.  The range
of a single version has that version at both ends, so it is empty, and the version behind `>` is
taken for one behind `>=`.
-/

namespace MiniBackend.Api.Proofs.VersionRanges

open MiniBackend.Lib.CString MiniBackend.Api.ApiVersion

/-! ## Texts of versions -/

/-- The digits of a component. -/
structure Number (digits : CStr) (n : Nat) : Prop where
  ne_nil : digits ≠ []
  all_digits : ∀ b ∈ digits, isDigit b = true
  value : digitsPrefix digits = n
  lt : n < 2 ^ 31

/-- The version `major.minor.patch`, with a label behind a minus or without one. -/
def VersionText (s : CStr) (v : Nat × Nat × Nat) (label : Option CStr) : Prop :=
  ∃ major minor patch, Number major v.1 ∧ Number minor v.2.1 ∧ Number patch v.2.2 ∧
    (∀ text ∈ label, text ≠ [] ∧ ∀ b ∈ text, b ≠ 0) ∧
    s = major ++ 46 :: (minor ++ 46 :: (patch ++ label.elim [] (45 :: ·)))

def Parsed (a : AvVersion) : Prop := ∃ s v label, VersionText s v label ∧ avVersionParse s = a

theorem Number.atoi_append {digits : CStr} {n : Nat} (h : Number digits n) {rest : CStr}
    (hrest : ∀ b ∈ rest.head?, isDigit b = false) : atoi (digits ++ rest) = n := by
  have hlt := h.lt
  rw [atoi, atoll, scanInt_digits_append h.ne_nil h.all_digits hrest, h.value]
  omega

theorem Number.dropWhile_append {digits : CStr} {n : Nat} (h : Number digits n) {rest : CStr}
    (hrest : ∀ b ∈ rest.head?, isDigit b = false) :
    (digits ++ rest).dropWhile isDigit = rest := by
  rw [List.dropWhile_append_of_pos h.all_digits]
  cases rest with
  | nil => rfl
  | cons b rest => exact List.dropWhile_cons_of_neg (by simp [hrest b rfl])

theorem Number.dotNumber_append {digits : CStr} {n : Nat} (h : Number digits n) {rest : CStr}
    (hrest : ∀ b ∈ rest.head?, isDigit b = false) :
    dotNumber (46 :: (digits ++ rest)) = ((n : Int), rest) := by
  rw [dotNumber, List.head?_cons, if_pos rfl, List.tail_cons, h.atoi_append hrest,
    h.dropWhile_append hrest]

theorem VersionText.parsed {s : CStr} {v : Nat × Nat × Nat} {label : Option CStr}
    (h : VersionText s v label) :
    (avVersionParse s).major = v.1 ∧ (avVersionParse s).minor = v.2.1 ∧
    (avVersionParse s).patch = v.2.2 ∧ (avVersionParse s).isPrerelease = label.isSome ∧
    ∃ n, (avVersionParse s).prereleaseLabel =
      ((label.getD []).takeWhile fun b => b ≠ 43 && b ≠ 46).take n := by
  obtain ⟨major, minor, patch, hmajor, hminor, hpatch, -, rfl⟩ := h
  have hdot : ∀ rest : CStr, ∀ b ∈ (46 :: rest).head?, isDigit b = false := by
    intro rest b hb
    obtain rfl := Option.some.inj hb
    rfl
  have hsuffix : ∀ b ∈ (label.elim [] (45 :: ·)).head?, isDigit b = false := by
    intro b hb
    cases label with
    | none => cases hb
    | some text =>
        obtain rfl := Option.some.inj hb
        rfl
  generalize htail : patch ++ label.elim [] (45 :: ·) = tail
  have hhead : ¬((major ++ 46 :: (minor ++ 46 :: tail)).head? = some 118 ∨
      (major ++ 46 :: (minor ++ 46 :: tail)).head? = some 86) := by
    obtain ⟨b, digits, rfl⟩ := List.exists_cons_of_ne_nil hmajor.ne_nil
    have hb := hmajor.all_digits b List.mem_cons_self
    rintro (hv | hv)
    · obtain rfl := Option.some.inj hv
      exact absurd hb (by decide)
    · obtain rfl := Option.some.inj hv
      exact absurd hb (by decide)
  have hfirst := hmajor.atoi_append (hdot (minor ++ 46 :: tail))
  have hbehind := hmajor.dropWhile_append (hdot (minor ++ 46 :: tail))
  have hsecond := hminor.dotNumber_append (hdot tail)
  have hthird := hpatch.dotNumber_append hsuffix
  rw [htail] at hthird
  simp only [avVersionParse, if_neg hhead, hfirst, hbehind, hsecond, hthird]
  cases label with
  | none => exact ⟨trivial, trivial, trivial, rfl, 31, rfl⟩
  | some text => exact ⟨trivial, trivial, trivial, rfl, 31, rfl⟩

/-! ## The order -/

/-- The numbers are no larger than an `int` holds, and the label is a C string. -/
structure InRange (a : AvVersion) : Prop where
  major : 0 ≤ a.major ∧ a.major < 2 ^ 31
  minor : 0 ≤ a.minor ∧ a.minor < 2 ^ 31
  patch : 0 ≤ a.patch ∧ a.patch < 2 ^ 31
  label : ∀ b ∈ a.prereleaseLabel, b ≠ 0

theorem Parsed.inRange {a : AvVersion} (h : Parsed a) : InRange a := by
  obtain ⟨s, v, label, htext, rfl⟩ := h
  obtain ⟨hmajor, hminor, hpatch, -, n, hlabel⟩ := htext.parsed
  obtain ⟨_, _, _, hM, hm, hp, hterminated, -⟩ := htext
  have hMlt := hM.lt
  have hmlt := hm.lt
  have hplt := hp.lt
  refine ⟨by omega, by omega, by omega, ?_⟩
  intro b hb
  rw [hlabel] at hb
  cases label with
  | none => simp at hb
  | some text =>
      exact (hterminated text rfl).2 b ((List.takeWhile_prefix _).subset (List.mem_of_mem_take hb))

def key (a : AvVersion) : Int ×ₗ Int ×ₗ Int ×ₗ Bool ×ₗ List Nat :=
  toLex (a.major, toLex (a.minor, toLex (a.patch,
    toLex (!a.isPrerelease, a.prereleaseLabel.map UInt8.toNat))))

theorem int32_eq {z : Int} (hlo : -2 ^ 31 ≤ z) (hhi : z < 2 ^ 31) : int32 z = z := by
  unfold int32
  omega

theorem compare_swap {a b : AvVersion} (ha : InRange a) (hb : InRange b) :
    avVersionCompare b a = -avVersionCompare a b := by
  obtain ⟨hM, hm, hp, -⟩ := ha
  obtain ⟨hM', hm', hp', -⟩ := hb
  by_cases hmajor : a.major = b.major
  · by_cases hminor : a.minor = b.minor
    · by_cases hpatch : a.patch = b.patch
      · have hswap := strcmp_swap a.prereleaseLabel b.prereleaseLabel
        cases hpre : a.isPrerelease <;> cases hpre' : b.isPrerelease <;>
          simp [avVersionCompare, hmajor, hminor, hpatch, hpre, hpre', hswap]
      · simp only [avVersionCompare, hmajor, hminor, hpatch, Ne.symm hpatch, ne_eq, not_true,
          not_false_iff, if_true, if_false]
        rw [int32_eq (by omega) (by omega), int32_eq (by omega) (by omega), Int.neg_sub]
    · simp only [avVersionCompare, hmajor, hminor, Ne.symm hminor, ne_eq, not_true, not_false_iff,
        if_true, if_false]
      rw [int32_eq (by omega) (by omega), int32_eq (by omega) (by omega), Int.neg_sub]
  · simp only [avVersionCompare, hmajor, Ne.symm hmajor, ne_eq, not_false_iff, if_true]
    rw [int32_eq (by omega) (by omega), int32_eq (by omega) (by omega), Int.neg_sub]

theorem compare_neg_iff {a b : AvVersion} (ha : InRange a) (hb : InRange b) :
    avVersionCompare a b < 0 ↔ key a < key b := by
  obtain ⟨hM, hm, hp, -⟩ := ha
  obtain ⟨hM', hm', hp', hlabel⟩ := hb
  simp only [key, Prod.Lex.toLex_lt_toLex]
  unfold avVersionCompare
  split
  · next hmajor =>
      rw [int32_eq (by omega) (by omega)]
      omega
  · next hmajor =>
      rw [not_not] at hmajor
      simp only [hmajor, lt_irrefl, false_or, true_and]
      split
      · next hminor =>
          rw [int32_eq (by omega) (by omega)]
          omega
      · next hminor =>
          rw [not_not] at hminor
          simp only [hminor, lt_irrefl, false_or, true_and]
          split
          · next hpatch =>
              rw [int32_eq (by omega) (by omega)]
              omega
          · next hpatch =>
              rw [not_not] at hpatch
              simp only [hpatch, lt_irrefl, false_or, true_and]
              rw [← strcmp_neg_iff hlabel]
              cases a.isPrerelease <;> cases b.isPrerelease <;> simp

theorem compare_le_iff {a b : AvVersion} (ha : InRange a) (hb : InRange b) :
    avVersionCompare a b ≤ 0 ↔ key a ≤ key b := by
  rw [← not_lt, ← not_lt, not_iff_not, ← compare_neg_iff hb ha, compare_swap ha hb]
  omega

/-! ## Ranges -/

def Before (v w : Nat × Nat × Nat) : Prop :=
  v.1 < w.1 ∨ v.1 = w.1 ∧ (v.2.1 < w.2.1 ∨ v.2.1 = w.2.1 ∧ v.2.2 < w.2.2)

def Counts (z : Int) (n : Nat) : Prop := z = int32 n ∧ n ≤ 2 ^ 31

theorem counts_self {n : Nat} (h : n < 2 ^ 31) : Counts n n :=
  ⟨(int32_eq (by omega) (by omega)).symm, h.le⟩

theorem counts_succ {n : Nat} (h : n < 2 ^ 31) : Counts (int32 (n + 1)) (n + 1) := ⟨rfl, h⟩

theorem counts_zero : Counts 0 0 := counts_self (by decide)

/-- A number is compared with 2^31 as it should be, though that one wraps around. -/
theorem Counts.sub {y z : Int} {m n : Nat} (hm : Counts y m) (hlt : m < 2 ^ 31)
    (hn : Counts z n) : (y = z ↔ m = n) ∧ int32 (y - z) = m - n := by
  obtain ⟨hy, -⟩ := hm
  obtain ⟨hz, hle⟩ := hn
  rw [int32_eq (by omega) (by omega)] at hy
  by_cases hn : n < 2 ^ 31
  · rw [int32_eq (by omega) (by omega)] at hz
    rw [hy, hz, int32_eq (by omega) (by omega)]
    omega
  · have hmost : n = 2 ^ 31 := by omega
    have hwrap : int32 ((2 ^ 31 : Nat) : Int) = -2 ^ 31 := by decide
    rw [hy, hz, hmost, hwrap, int32]
    omega

structure Release (a : AvVersion) (x : Nat × Nat × Nat) : Prop where
  major : Counts a.major x.1
  minor : Counts a.minor x.2.1
  patch : Counts a.patch x.2.2
  isPrerelease : a.isPrerelease = false
  label : a.prereleaseLabel = []

theorem VersionText.release {s : CStr} {v : Nat × Nat × Nat} (h : VersionText s v none) :
    Release (avVersionParse s) v ∧ v.1 < 2 ^ 31 ∧ v.2.1 < 2 ^ 31 ∧ v.2.2 < 2 ^ 31 := by
  obtain ⟨hmajor, hminor, hpatch, hpre, n, hlabel⟩ := h.parsed
  obtain ⟨_, _, _, hM, hm, hp, -⟩ := h
  rw [Option.getD_none, List.takeWhile_nil, List.take_nil] at hlabel
  refine ⟨⟨?_, ?_, ?_, hpre, hlabel⟩, hM.lt, hm.lt, hp.lt⟩
  · rw [hmajor]
    exact counts_self hM.lt
  · rw [hminor]
    exact counts_self hm.lt
  · rw [hpatch]
    exact counts_self hp.lt

theorem Release.compare_neg_iff {a u : AvVersion} {w x : Nat × Nat × Nat} (ha : Release a w)
    (hu : Release u x) (hw : w.1 < 2 ^ 31 ∧ w.2.1 < 2 ^ 31 ∧ w.2.2 < 2 ^ 31) :
    avVersionCompare a u < 0 ↔ Before w x := by
  obtain ⟨hmajor, hmajorDiff⟩ := ha.major.sub hw.1 hu.major
  obtain ⟨hminor, hminorDiff⟩ := ha.minor.sub hw.2.1 hu.minor
  obtain ⟨hpatch, hpatchDiff⟩ := ha.patch.sub hw.2.2 hu.patch
  have hrest : ¬(false && !false) = true ∧ ¬(!false && false) = true := by decide
  rw [avVersionCompare, hmajorDiff, hminorDiff, hpatchDiff, ha.isPrerelease, hu.isPrerelease,
    ha.label, hu.label, if_neg hrest.1, if_neg hrest.2, strcmp_self]
  simp only [ne_eq, hmajor, hminor, hpatch, Before]
  split
  · omega
  · split
    · omega
    · split <;> omega

/-- The operators of ranges. -/
inductive RangeOp
  | bare
  | eq
  | gt
  | ge
  | tilde
  | caret

def RangeOp.text : RangeOp → CStr
  | .bare => []
  | .eq => lit "="
  | .gt => lit ">"
  | .ge => lit ">="
  | .tilde => lit "~"
  | .caret => lit "^"

def nextIncrease (v : Nat × Nat × Nat) : Nat × Nat × Nat :=
  if 0 < v.1 then (v.1 + 1, 0, 0)
  else if 0 < v.2.1 then (0, v.2.1 + 1, 0)
  else (0, 0, v.2.2 + 1)

def RangeOp.upper (lower : AvVersion) : RangeOp → Option AvVersion
  | .bare | .eq => some lower
  | .gt | .ge => none
  | .tilde => some (tildeUpper lower)
  | .caret => some (caretUpper lower)

def RangeOp.Selects (v w : Nat × Nat × Nat) : RangeOp → Prop
  | .bare | .eq => w = v
  | .gt => Before v w
  | .ge => ¬Before w v
  | .tilde => ¬Before w v ∧ Before w (v.1, v.2.1 + 1, 0)
  | .caret => ¬Before w v ∧ Before w (nextIncrease v)

theorem Release.tildeUpper {a : AvVersion} {v : Nat × Nat × Nat} (h : Release a v)
    (hv : v.2.1 < 2 ^ 31) : Release (tildeUpper a) (v.1, v.2.1 + 1, 0) := by
  have hminor : a.minor = v.2.1 := h.minor.1.trans (int32_eq (by omega) (by omega))
  refine ⟨h.major, ?_, counts_zero, rfl, h.label⟩
  rw [ApiVersion.tildeUpper, hminor]
  exact counts_succ hv

theorem Release.caretUpper {a : AvVersion} {v : Nat × Nat × Nat} (h : Release a v)
    (hv : v.1 < 2 ^ 31 ∧ v.2.1 < 2 ^ 31 ∧ v.2.2 < 2 ^ 31) :
    Release (caretUpper a) (nextIncrease v) := by
  have hmajor : a.major = v.1 := h.major.1.trans (int32_eq (by omega) (by omega))
  have hminor : a.minor = v.2.1 := h.minor.1.trans (int32_eq (by omega) (by omega))
  have hpatch : a.patch = v.2.2 := h.patch.1.trans (int32_eq (by omega) (by omega))
  have hmajorCounts := h.major
  have hminorCounts := h.minor
  unfold ApiVersion.caretUpper nextIncrease
  by_cases hpos : 0 < v.1
  · rw [if_pos (by omega), if_pos hpos, hmajor]
    exact ⟨counts_succ hv.1, counts_zero, counts_zero, rfl, h.label⟩
  · rw [Nat.eq_zero_of_not_pos hpos] at hmajorCounts
    rw [if_neg (by omega), if_neg hpos]
    by_cases hpos' : 0 < v.2.1
    · rw [if_pos (by omega), if_pos hpos', hminor]
      exact ⟨hmajorCounts, counts_succ hv.2.1, counts_zero, h.isPrerelease, h.label⟩
    · rw [Nat.eq_zero_of_not_pos hpos'] at hminorCounts
      rw [if_neg (by omega), if_neg hpos', hpatch]
      exact ⟨hmajorCounts, hminorCounts, counts_succ hv.2.2, h.isPrerelease, h.label⟩

theorem satisfies_iff {lower version : AvVersion} {upper : Option AvVersion} {type : AvRangeType}
    {v w : Nat × Nat × Nat} (hlower : Release lower v) (hversion : Release version w)
    (hw : w.1 < 2 ^ 31 ∧ w.2.1 < 2 ^ 31 ∧ w.2.2 < 2 ^ 31) :
    avRangeSatisfies ⟨type, lower, upper⟩ version = true ↔
      ¬Before w v ∧ ∀ u ∈ upper, avVersionCompare version u < 0 := by
  rw [avRangeSatisfies, ← hversion.compare_neg_iff hlower hw]
  split
  · next hbefore => simp [hbefore]
  · next hbefore =>
      cases upper with
      | none => simp [hbefore]
      | some u => simp [hbefore]

theorem rangeParse_text {s : CStr} (hs : ∀ b ∈ s.head?, isDigit b = true) (op : RangeOp) :
    ∃ type, avRangeParse (op.text ++ s) =
      ⟨type, avVersionParse s, op.upper (avVersionParse s)⟩ := by
  have hhead : ∀ c : UInt8, isDigit c = false → s.head? ≠ some c := by
    intro c hc hsome
    exact absurd (hs c hsome) (by simp [hc])
  have hskip : skip 61 s = s := if_neg (hhead 61 rfl)
  have hblank : s.dropWhile (fun b => b = 32 || b = 118 || b = 86) = s := by
    cases s with
    | nil => rfl
    | cons b s =>
        apply List.dropWhile_cons_of_neg
        have hne : ∀ c : UInt8, isDigit c = false → b ≠ c := by
          rintro c hc rfl
          exact hhead b hc rfl
        simp [hne 32 rfl, hne 118 rfl, hne 86 rfl]
  cases op with
  | bare =>
      refine ⟨.eq, ?_⟩
      rw [RangeOp.text, List.nil_append, avRangeParse, hblank, hskip, if_neg (hhead 94 rfl),
        if_neg (hhead 126 rfl), if_neg (hhead 62 rfl)]
      rfl
  | eq => exact ⟨.eq, rfl⟩
  | gt =>
      refine ⟨.gte, ?_⟩
      change AvVersionRange.mk .gte (avVersionParse (skip 61 s)) none = _
      rw [hskip]
      rfl
  | ge => exact ⟨.gte, rfl⟩
  | tilde => exact ⟨.tilde, rfl⟩
  | caret => exact ⟨.caret, rfl⟩

theorem VersionText.head_digit {s : CStr} {v : Nat × Nat × Nat} {label : Option CStr}
    (h : VersionText s v label) : ∀ b ∈ s.head?, isDigit b = true := by
  obtain ⟨major, minor, patch, hmajor, -, -, -, rfl⟩ := h
  obtain ⟨b, digits, rfl⟩ := List.exists_cons_of_ne_nil hmajor.ne_nil
  intro c hc
  obtain rfl := Option.some.inj hc
  exact hmajor.all_digits b List.mem_cons_self

def RangeOp.Misplaced (op : RangeOp) : Prop := op = .bare ∨ op = .eq ∨ op = .gt

theorem range_exact_iff (op : RangeOp) {s t : CStr} {v w : Nat × Nat × Nat}
    (hs : VersionText s v none) (ht : VersionText t w none) :
    ((avRangeSatisfies (avRangeParse (op.text ++ s)) (avVersionParse t) = true ↔
      op.Selects v w) ↔ ¬(op.Misplaced ∧ w = v)) := by
  obtain ⟨type, hparse⟩ := rangeParse_text hs.head_digit op
  obtain ⟨hlower, hv⟩ := hs.release
  obtain ⟨hversion, hw⟩ := ht.release
  have hself : w = v ↔ ¬Before w v ∧ ¬Before v w := by
    simp only [Before, Prod.ext_iff]
    omega
  have hasymm : Before v w → ¬Before w v := by
    simp only [Before]
    omega
  have hexact : ∀ op : RangeOp, op.upper (avVersionParse s) = some (avVersionParse s) →
      ((¬Before w v ∧ ∀ u ∈ op.upper (avVersionParse s),
        avVersionCompare (avVersionParse t) u < 0) ↔ False) := by
    intro op hupper
    simp only [hupper, Option.mem_some_iff, forall_eq', hversion.compare_neg_iff hlower hw]
    tauto
  rw [hparse, satisfies_iff hlower hversion hw]
  cases op with
  | bare =>
      rw [hexact .bare rfl, RangeOp.Selects, RangeOp.Misplaced]
      tauto
  | eq =>
      rw [hexact .eq rfl, RangeOp.Selects, RangeOp.Misplaced]
      tauto
  | gt =>
      have hopen : ∀ u ∈ RangeOp.gt.upper (avVersionParse s),
          avVersionCompare (avVersionParse t) u < 0 := by
        rintro u ⟨⟩
      have hmisplaced : RangeOp.gt.Misplaced := .inr (.inr rfl)
      rw [and_iff_left hopen, RangeOp.Selects, and_iff_right hmisplaced, hself]
      by_cases hbefore : Before v w
      · simp [hbefore, hasymm hbefore]
      · simp [hbefore]
  | ge => simp [RangeOp.upper, RangeOp.Selects, RangeOp.Misplaced]
  | tilde =>
      have hupper := hversion.compare_neg_iff (hlower.tildeUpper hv.2.1) hw
      simp [RangeOp.upper, RangeOp.Selects, RangeOp.Misplaced, hupper]
  | caret =>
      have hupper := hversion.compare_neg_iff (hlower.caretUpper hv) hw
      simp [RangeOp.upper, RangeOp.Selects, RangeOp.Misplaced, hupper]

/-- Versions are totally preordered, a prerelease in front of its release, and a range holds the
versions it should unless it is one of the misplaced and the version is that of the range. -/
theorem versions_ordered_iff (op : RangeOp) :
    (∀ a b, Parsed a → Parsed b →
      (avVersionCompare b a).sign = -(avVersionCompare a b).sign) ∧
    (∀ a b c, Parsed a → Parsed b → Parsed c → avVersionCompare a b ≤ 0 →
      avVersionCompare b c ≤ 0 → avVersionCompare a c ≤ 0) ∧
    (∀ a b, Parsed a → Parsed b → a.major = b.major → a.minor = b.minor → a.patch = b.patch →
      a.isPrerelease = true → b.isPrerelease = false → avVersionCompare a b < 0) ∧
    ∀ (s t : CStr) (v w : Nat × Nat × Nat),
      VersionText s v none → VersionText t w none →
      ((avRangeSatisfies (avRangeParse (op.text ++ s)) (avVersionParse t) = true ↔
        op.Selects v w) ↔ ¬(op.Misplaced ∧ w = v)) := by
  refine ⟨?_, ?_, ?_, fun s t v w hs ht => range_exact_iff op hs ht⟩
  · intro a b ha hb
    rw [compare_swap ha.inRange hb.inRange, Int.sign_neg]
  · intro a b c ha hb hc hab hbc
    rw [compare_le_iff ha.inRange hb.inRange] at hab
    rw [compare_le_iff hb.inRange hc.inRange] at hbc
    rw [compare_le_iff ha.inRange hc.inRange]
    exact hab.trans hbc
  · intro a b _ _ hmajor hminor hpatch hpre hrelease
    rw [avVersionCompare, hmajor, hminor, hpatch, hpre, hrelease]
    simp

/-- The version itself is not in the range that names it. -/
theorem own_range_empty :
    ¬(avRangeSatisfies (avRangeParse (lit "=1.2.3")) (avVersionParse (lit "1.2.3")) = true ↔
      RangeOp.Selects (1, 2, 3) (1, 2, 3) .eq) := by
  have hfalse : avRangeSatisfies (avRangeParse (lit "=1.2.3")) (avVersionParse (lit "1.2.3")) =
      false := by decide
  rw [hfalse]
  simp [RangeOp.Selects]

end MiniBackend.Api.Proofs.VersionRanges
