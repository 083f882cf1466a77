import MiniBackend.Lib.CString
import Mathlib.Data.Int.Log
import Mathlib.Data.Rat.Floor
import Mathlib.Tactic.Positivity

/-!
# Double precision numbers

A double is a sign and a magnitude, a non-negative rational number or infinity; there is
no NaN, which no conversion from text yields.  `strtod` reads a decimal number and rounds
it to the nearest double.  Nothing here mentions a particular program.
-/

namespace MiniBackend.Lib.Binary64

open MiniBackend.Lib.CString

/-- The magnitude `none` is infinity. -/
structure Double where
  negative : Bool
  magnitude : Option ℚ
deriving DecidableEq

def roundEven (q : ℚ) : ℤ :=
  if q - ⌊q⌋ < 1 / 2 then ⌊q⌋
  else if 1 / 2 < q - ⌊q⌋ then ⌊q⌋ + 1
  else if ⌊q⌋ % 2 = 0 then ⌊q⌋ else ⌊q⌋ + 1

/-- The unit in the last of the 53 places of a magnitude, as an exponent of two. -/
def lastPlace (q : ℚ) : ℤ := max (Int.log 2 q - 52) (-1074)

def toBinary64 (q : ℚ) : Option ℚ :=
  let rounded := (roundEven (q / 2 ^ lastPlace q) : ℚ) * 2 ^ lastPlace q
  if rounded < 2 ^ 1024 then some rounded else none

def fractionPart (s : CStr) : CStr × CStr :=
  match s with
  | 46 :: rest => (rest.takeWhile isDigit, rest.dropWhile isDigit)
  | _ => ([], s)

def exponentPart (s : CStr) : ℤ :=
  match s with
  | 101 :: rest => scanInt rest
  | 69 :: rest => scanInt rest
  | _ => 0

def strtod (text : CStr) : Double :=
  let negative := text.head? == some 45
  let digits := if negative then text.tail else text
  let whole := digits.takeWhile isDigit
  let (fraction, rest) := fractionPart (digits.dropWhile isDigit)
  ⟨negative, toBinary64 (digitsPrefix (whole ++ fraction) *
    10 ^ (exponentPart rest - fraction.length))⟩

theorem roundEven_intCast (z : ℤ) : roundEven (z : ℚ) = z := by
  unfold roundEven
  rw [Int.floor_intCast, sub_self, if_pos (by norm_num)]

theorem toBinary64_natCast {n : ℕ} (h : n < 2 ^ 53) : toBinary64 n = some (n : ℚ) := by
  have hlog : Nat.log 2 n ≤ 52 := Nat.le_of_lt_succ (Nat.log_lt_of_lt_pow' (by omega) h)
  obtain ⟨k, hk⟩ : ∃ k : ℕ, Nat.log 2 n + k = 52 := ⟨52 - Nat.log 2 n, by omega⟩
  have hplace : lastPlace n = -(k : ℤ) := by
    unfold lastPlace
    rw [Int.log_natCast]
    omega
  have hscaled : (n : ℚ) / 2 ^ (-(k : ℤ)) = ((n * 2 ^ k : ℤ) : ℚ) := by
    rw [zpow_neg, zpow_natCast, div_inv_eq_mul]
    push_cast
    rfl
  have hback : ((n * 2 ^ k : ℤ) : ℚ) * 2 ^ (-(k : ℤ)) = n := by
    rw [← hscaled]
    exact div_mul_cancel₀ _ (zpow_ne_zero _ two_ne_zero)
  have hbound : (n : ℚ) < 2 ^ 1024 := by
    have : (n : ℚ) < (2 : ℚ) ^ 53 := by exact_mod_cast h
    exact this.trans (pow_lt_pow_right₀ one_lt_two (by decide))
  unfold toBinary64
  rw [hplace, hscaled, roundEven_intCast, hback, if_pos hbound]

theorem strtod_decimal (negative : Bool) {n : ℕ} (h : n < 2 ^ 53) :
    strtod ((if negative then [45] else []) ++ decimal n) = ⟨negative, some (n : ℚ)⟩ := by
  have hdigits : ∀ b ∈ decimal n, isDigit b = true := fun b hb => isDigit_of_mem_decimal hb
  have hwhole : (decimal n).takeWhile isDigit = decimal n := List.takeWhile_eq_self_iff.mpr hdigits
  have hrest : (decimal n).dropWhile isDigit = [] := List.dropWhile_eq_nil_iff.mpr hdigits
  have hsign : ((decimal n).head? == some 45) = false := by
    cases hs : decimal n with
    | nil => rfl
    | cons b rest =>
        have hb := hdigits b (by rw [hs]; exact List.mem_cons_self)
        have hne : b ≠ 45 := by
          rintro rfl
          exact absurd hb (by decide)
        simpa using hne
  have hvalue : (digitsPrefix (decimal n ++ []) : ℚ) *
      10 ^ (exponentPart [] - (([] : CStr).length : ℤ)) = n := by
    rw [List.append_nil, digitsPrefix_decimal]
    simp [exponentPart]
  cases negative with
  | false =>
      simp only [strtod, Bool.false_eq_true, if_false, List.nil_append, hsign, hwhole, hrest,
        fractionPart, hvalue, toBinary64_natCast h]
  | true =>
      simp only [strtod, if_true, List.cons_append, List.nil_append, List.head?_cons,
        List.tail_cons, beq_self_eq_true, hwhole, hrest, fractionPart, hvalue, toBinary64_natCast h]

end MiniBackend.Lib.Binary64
