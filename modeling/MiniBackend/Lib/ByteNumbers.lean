import Mathlib.Data.Nat.Digits.Lemmas
import Mathlib.Data.BitVec
import Mathlib.Tactic.Ring

/-!
# Numbers as bytes

Numbers of a fixed number of bytes, the lowest or the highest first, and numbers of seven bits a
byte, where every byte but the last has its high bit set.  A reader of the latter finds its end in
any text that follows, and no end in a part of it.
-/

namespace MiniBackend.Lib.ByteNumbers

/-! ## Fixed width -/

def leBytes : Nat → Nat → List UInt8
  | 0, _ => []
  | n + 1, v => UInt8.ofNat (v % 256) :: leBytes n (v / 256)

def leNat (bytes : List UInt8) : Nat := Nat.ofDigits 256 (bytes.map UInt8.toNat)

@[simp] theorem length_leBytes (n v : Nat) : (leBytes n v).length = n := by
  induction n generalizing v with
  | zero => rfl
  | succ n ih => rw [leBytes, List.length_cons, ih]

theorem leNat_cons (b : UInt8) (bytes : List UInt8) :
    leNat (b :: bytes) = b.toNat + 256 * leNat bytes := Nat.ofDigits_cons

theorem leNat_lt (bytes : List UInt8) : leNat bytes < 256 ^ bytes.length := by
  have hlt := Nat.ofDigits_lt_base_pow_length (b := 256) (l := bytes.map UInt8.toNat) (by decide) ?_
  · rwa [List.length_map] at hlt
  · intro d hd
    obtain ⟨b, -, rfl⟩ := List.mem_map.mp hd
    exact UInt8.toNat_lt b

theorem leBytes_leNat (bytes : List UInt8) : leBytes bytes.length (leNat bytes) = bytes := by
  induction bytes with
  | nil => rfl
  | cons b bytes ih =>
      have hb := UInt8.toNat_lt b
      have hmod : (b.toNat + 256 * leNat bytes) % 256 = b.toNat := by omega
      have hdiv : (b.toNat + 256 * leNat bytes) / 256 = leNat bytes := by omega
      rw [leNat_cons, List.length_cons, leBytes, hmod, hdiv, ih, UInt8.ofNat_toNat]

theorem leNat_leBytes {n v : Nat} (hv : v < 256 ^ n) : leNat (leBytes n v) = v := by
  induction n generalizing v with
  | zero => rw [pow_zero, Nat.lt_one_iff] at hv; rw [hv]; rfl
  | succ n ih =>
      have hdiv : v / 256 < 256 ^ n := by
        rw [Nat.div_lt_iff_lt_mul (by decide)]
        rwa [pow_succ] at hv
      rw [leBytes, leNat_cons, ih hdiv, UInt8.toNat_ofNat']
      omega

/-- The first bytes are the lowest ones. -/
theorem take_leBytes {m n : Nat} (hmn : m ≤ n) (v : Nat) : (leBytes n v).take m = leBytes m v := by
  induction m generalizing n v with
  | zero => rfl
  | succ m ih =>
      cases n with
      | zero => omega
      | succ n => rw [leBytes, List.take_succ_cons, ih (Nat.le_of_succ_le_succ hmn), leBytes]

/-! ## Highest byte first -/

def beBytes : Nat → Nat → List UInt8
  | 0, _ => []
  | n + 1, v => UInt8.ofNat (v >>> (8 * n)) :: beBytes n v

def beNat (bytes : List UInt8) : Nat := bytes.foldl (fun v b => v <<< 8 ||| b.toNat) 0

@[simp] theorem length_beBytes (n v : Nat) : (beBytes n v).length = n := by
  induction n with
  | zero => rfl
  | succ n ih => rw [beBytes, List.length_cons, ih]

theorem foldl_beBytes (n v acc : Nat) :
    (beBytes n v).foldl (fun v b => v <<< 8 ||| b.toNat) acc = acc * 256 ^ n + v % 256 ^ n := by
  induction n generalizing acc with
  | zero => rw [beBytes, List.foldl_nil, pow_zero, Nat.mul_one, Nat.mod_one, Nat.add_zero]
  | succ n ih =>
      have hbyte : (UInt8.ofNat (v >>> (8 * n))).toNat = v / 256 ^ n % 256 := by
        rw [UInt8.toNat_ofNat', Nat.shiftRight_eq_div_pow, pow_mul]
        norm_num
      have hor : acc <<< 8 ||| v / 256 ^ n % 256 = acc * 256 + v / 256 ^ n % 256 := by
        rw [← Nat.shiftLeft_add_eq_or_of_lt (Nat.mod_lt _ (by decide)), Nat.shiftLeft_eq]
      have hmod : v % 256 ^ (n + 1) = v % 256 ^ n + 256 ^ n * (v / 256 ^ n % 256) := by
        rw [pow_succ, Nat.mod_mul]
      calc (beBytes (n + 1) v).foldl (fun v b => v <<< 8 ||| b.toNat) acc
          = (acc * 256 + v / 256 ^ n % 256) * 256 ^ n + v % 256 ^ n := by
            rw [beBytes, List.foldl_cons, hbyte, hor, ih]
        _ = acc * 256 ^ (n + 1) + v % 256 ^ (n + 1) := by
            rw [hmod]
            ring

theorem beNat_beBytes {n v : Nat} (hv : v < 256 ^ n) : beNat (beBytes n v) = v := by
  rw [beNat, foldl_beBytes, Nat.zero_mul, Nat.zero_add, Nat.mod_eq_of_lt hv]

theorem foldl_beNat_lt (bytes : List UInt8) (acc : Nat) :
    bytes.foldl (fun v b => v <<< 8 ||| b.toNat) acc < (acc + 1) * 256 ^ bytes.length := by
  induction bytes generalizing acc with
  | nil => rw [List.foldl_nil, List.length_nil, pow_zero, Nat.mul_one]; exact Nat.lt_succ_self acc
  | cons b bytes ih =>
      have hb := b.toNat_lt
      have hor : acc <<< 8 ||| b.toNat = acc * 256 + b.toNat := by
        rw [← Nat.shiftLeft_add_eq_or_of_lt hb, Nat.shiftLeft_eq]
      calc (b :: bytes).foldl (fun v b => v <<< 8 ||| b.toNat) acc
          < (acc * 256 + b.toNat + 1) * 256 ^ bytes.length := by
            rw [List.foldl_cons, hor]
            exact ih _
        _ ≤ (acc + 1) * 256 * 256 ^ bytes.length := Nat.mul_le_mul_right _ (by omega)
        _ = (acc + 1) * 256 ^ (b :: bytes).length := by
            rw [List.length_cons, pow_succ', Nat.mul_assoc]

theorem beNat_lt (bytes : List UInt8) : beNat bytes < 256 ^ bytes.length := by
  have h := foldl_beNat_lt bytes 0
  rwa [Nat.zero_add, Nat.one_mul] at h

/-! ## Seven bits a byte -/

/-- While the number has more than seven bits, the lowest seven go into a byte with its high bit
set. -/
def varintBytes (v : Nat) : List UInt8 :=
  if v > 0x7F then UInt8.ofNat (v % 128 + 128) :: varintBytes (v / 128) else [UInt8.ofNat v]
termination_by v

/-- Reads a number of `width` bits: the value so far, the shift of the next seven bits and how
many bytes were read.  The result has the value and the number of bytes. -/
def readVarint (width : Nat) : List UInt8 → Nat → Nat → Nat → Option (Nat × Nat)
  | [], _, _, _ => none
  | b :: bytes, value, shift, i =>
      let value := value ||| ((b &&& 0x7F).toNat <<< shift) % 2 ^ width
      if b &&& 0x80 = 0 then some (value, i + 1)
      else if width ≤ shift + 7 then none
      else readVarint width bytes value (shift + 7) (i + 1)

theorem length_varintBytes_pos (v : Nat) : 0 < (varintBytes v).length := by
  rw [varintBytes]
  split <;> simp

theorem length_varintBytes_le {k v : Nat} (hv : v < 2 ^ (7 * k + 7)) :
    (varintBytes v).length ≤ k + 1 := by
  induction k generalizing v with
  | zero =>
      have hsmall : ¬v > 0x7F := by omega
      rw [varintBytes, if_neg hsmall]
      exact Nat.le_refl _
  | succ k ih =>
      rw [varintBytes]
      split
      · have hdiv : v / 128 < 2 ^ (7 * k + 7) := by
          rw [Nat.div_lt_iff_lt_mul (by decide)]
          calc v < 2 ^ (7 * (k + 1) + 7) := hv
            _ = 2 ^ (7 * k + 7) * 128 := pow_add 2 (7 * k + 7) 7
        exact Nat.succ_le_succ (ih hdiv)
      · exact Nat.succ_le_succ (Nat.zero_le _)

theorem last_byte {v : Nat} (hv : v ≤ 0x7F) :
    (UInt8.ofNat v &&& 0x7F).toNat = v ∧ UInt8.ofNat v &&& 0x80 = 0 := by
  interval_cases v <;> decide

theorem continued_byte {v : Nat} (hv : v < 128) :
    (UInt8.ofNat (v + 128) &&& 0x7F).toNat = v ∧ UInt8.ofNat (v + 128) &&& 0x80 ≠ 0 := by
  interval_cases v <;> decide

/-- Seven bits behind the `shift` bits so far. -/
theorem or_shift {width value shift d : Nat} (hvalue : value < 2 ^ shift)
    (hd : d * 2 ^ shift < 2 ^ width) :
    value ||| (d <<< shift) % 2 ^ width = value + d * 2 ^ shift := by
  rw [Nat.shiftLeft_eq, Nat.mod_eq_of_lt hd, ← Nat.shiftLeft_eq, Nat.or_comm,
    ← Nat.shiftLeft_add_eq_or_of_lt hvalue, Nat.shiftLeft_eq, Nat.add_comm]

theorem readVarint_varintBytes {width v value shift : Nat} (hvalue : value < 2 ^ shift)
    (hv : v * 2 ^ shift < 2 ^ width) (i : Nat) (rest : List UInt8) :
    readVarint width (varintBytes v ++ rest) value shift i =
      some (value + v * 2 ^ shift, i + (varintBytes v).length) := by
  induction v using varintBytes.induct generalizing value shift i with
  | case1 v hbig ih =>
      obtain ⟨hlow, hhigh⟩ := continued_byte (Nat.mod_lt v (by decide : 0 < 128))
      have hpow : 2 ^ (shift + 7) = 128 * 2 ^ shift := by
        rw [pow_add, Nat.mul_comm]
        rfl
      have hpos : 0 < 2 ^ shift := Nat.two_pow_pos shift
      have hsplit : v * 2 ^ shift = v % 128 * 2 ^ shift + v / 128 * 2 ^ (shift + 7) := by
        rw [hpow, ← Nat.mul_assoc, ← Nat.add_mul, Nat.mod_add_div' v 128]
      have hlt : v % 128 * 2 ^ shift < 2 ^ width := by omega
      have hshift : ¬width ≤ shift + 7 := by
        intro hle
        have hge : 128 * 2 ^ shift ≤ v * 2 ^ shift := Nat.mul_le_mul_right _ (by omega)
        have hmono : 2 ^ width ≤ 2 ^ (shift + 7) := Nat.pow_le_pow_right (by decide) hle
        omega
      have hvalue' : value + v % 128 * 2 ^ shift < 2 ^ (shift + 7) := by
        have hmod : v % 128 * 2 ^ shift ≤ 127 * 2 ^ shift := Nat.mul_le_mul_right _ (by omega)
        omega
      rw [varintBytes, if_pos hbig, List.cons_append, readVarint, hlow,
        if_neg hhigh, if_neg hshift, or_shift hvalue hlt, ih hvalue' (by omega),
        List.length_cons, Nat.add_assoc value, ← hsplit, Nat.add_right_comm, Nat.add_assoc]
  | case2 v hsmall =>
      obtain ⟨hlow, hhigh⟩ := last_byte (Nat.le_of_not_gt hsmall)
      rw [varintBytes, if_neg hsmall, List.singleton_append, readVarint, hlow, if_pos hhigh,
        or_shift hvalue hv, List.length_singleton]

theorem readVarint_take {v n : Nat} (hn : n < (varintBytes v).length) (width value shift i : Nat) :
    readVarint width ((varintBytes v).take n) value shift i = none := by
  induction v using varintBytes.induct generalizing n value shift i with
  | case1 v hbig ih =>
      rw [varintBytes, if_pos hbig] at hn ⊢
      cases n with
      | zero => rfl
      | succ n =>
          obtain ⟨-, hhigh⟩ := continued_byte (Nat.mod_lt v (by decide : 0 < 128))
          rw [List.take_succ_cons, readVarint, if_neg hhigh]
          split
          · rfl
          · exact ih (Nat.lt_of_succ_lt_succ hn) _ _ _
  | case2 v hsmall =>
      rw [varintBytes, if_neg hsmall, List.length_singleton, Nat.lt_one_iff] at hn
      rw [hn]
      rfl

/-! ## Signed numbers -/

def zigzag {w : Nat} (value : BitVec w) : BitVec w := (value <<< 1) ^^^ value.sshiftRight (w - 1)

def unzigzag {w : Nat} (value : BitVec w) : BitVec w := (value >>> 1) ^^^ -(value &&& 1)

theorem toNat_zigzag_of_nonneg {n : Nat} {value : BitVec (n + 1)} (h : value.toNat < 2 ^ n) :
    (zigzag value).toNat = 2 * value.toNat := by
  have hmsb : value.msb = false := by
    rw [BitVec.msb_eq_decide, Nat.add_sub_cancel, decide_eq_false_iff_not]
    omega
  have hsign : value.sshiftRight (n + 1 - 1) = 0#(n + 1) := by
    apply BitVec.eq_of_toNat_eq
    rw [BitVec.sshiftRight_eq_of_msb_false hmsb, BitVec.toNat_ushiftRight, Nat.add_sub_cancel,
      Nat.shiftRight_eq_zero _ _ h]
    rfl
  rw [zigzag, hsign, BitVec.xor_zero, BitVec.toNat_shiftLeft, Nat.shiftLeft_eq, pow_one,
    Nat.mul_comm, Nat.mod_eq_of_lt (by omega)]

theorem toNat_zigzag_of_neg {n : Nat} {value : BitVec (n + 1)} (h : 2 ^ n ≤ value.toNat) :
    (zigzag value).toNat = 2 * (2 ^ (n + 1) - value.toNat) - 1 := by
  have hlt := value.isLt
  have hmsb : value.msb = true := by
    rw [BitVec.msb_eq_decide, Nat.add_sub_cancel, decide_eq_true_iff]
    exact h
  have hsign : value.sshiftRight (n + 1 - 1) = BitVec.allOnes (n + 1) := by
    have hzero : (~~~value >>> n) = 0#(n + 1) := by
      apply BitVec.eq_of_toNat_eq
      rw [BitVec.toNat_ushiftRight, BitVec.toNat_not, Nat.shiftRight_eq_zero _ _ (by omega)]
      rfl
    rw [BitVec.sshiftRight_eq_of_msb_true hmsb, Nat.add_sub_cancel, hzero, BitVec.not_zero]
  have hdouble : 2 * value.toNat % 2 ^ (n + 1) = 2 * value.toNat - 2 ^ (n + 1) := by
    rw [Nat.mod_eq_sub_mod (by omega), Nat.mod_eq_of_lt (by omega)]
  rw [zigzag, hsign, BitVec.xor_allOnes, BitVec.toNat_not, BitVec.toNat_shiftLeft, Nat.shiftLeft_eq,
    pow_one, Nat.mul_comm, hdouble]
  omega

/-- Only zero is its own code (for the widths whose number of values leaves 1 modulo 3). -/
theorem zigzag_eq_self_iff {n : Nat} (hn : 2 ^ (n + 1) % 3 = 1) (value : BitVec (n + 1)) :
    (zigzag value).toNat = value.toNat ↔ value.toNat = 0 := by
  have hlt := value.isLt
  constructor
  · intro heq
    by_cases h : value.toNat < 2 ^ n
    · rw [toNat_zigzag_of_nonneg h] at heq
      omega
    · rw [toNat_zigzag_of_neg (Nat.le_of_not_lt h)] at heq
      omega
  · intro hzero
    rw [toNat_zigzag_of_nonneg (by omega), hzero]

theorem length_varintBytes_zigzag {n : Nat} (hn : 7 ≤ n) {value : BitVec (n + 1)}
    (h : value.toInt.natAbs < 2 ^ 6) : (varintBytes (zigzag value).toNat).length = 1 := by
  have hpow : 2 ^ 7 ≤ 2 ^ n := Nat.pow_le_pow_right (by decide) hn
  have hdouble : 2 ^ (n + 1) = 2 * 2 ^ n := pow_succ' 2 n
  have hsmall : (zigzag value).toNat ≤ 0x7F := by
    rw [BitVec.toInt_eq_toNat_cond] at h
    by_cases hneg : value.toNat < 2 ^ n
    · rw [toNat_zigzag_of_nonneg hneg]
      split at h <;> omega
    · rw [toNat_zigzag_of_neg (Nat.le_of_not_lt hneg)]
      have hlt := value.isLt
      split at h <;> omega
  rw [varintBytes, if_neg (Nat.not_lt_of_le hsmall)]
  rfl

theorem getLsbD_zigzag {n : Nat} (value : BitVec (n + 1)) {i : Nat} (hi : i < n + 1) :
    (zigzag value).getLsbD i = ((decide (0 < i) && value.getLsbD (i - 1)) ^^ value.msb) := by
  have hsign : (value.sshiftRight n).getLsbD i = value.msb := by
    rw [BitVec.getLsbD_sshiftRight, BitVec.msb_eq_getLsbD_last]
    have hlt : ¬n + 1 ≤ i := by omega
    rw [decide_eq_false hlt, Bool.not_false, Bool.true_and]
    split
    · congr 1
      omega
    · rfl
  rw [zigzag, BitVec.getLsbD_xor, Nat.add_sub_cancel, hsign, BitVec.getLsbD_shiftLeft,
    decide_eq_true hi, Bool.true_and]
  congr 2
  cases i <;> simp

theorem getLsbD_unzigzag {w : Nat} (value : BitVec w) {i : Nat} (hi : i < w) :
    (unzigzag value).getLsbD i = (value.getLsbD (i + 1) ^^ value.getLsbD 0) := by
  have hsign : (-(value &&& 1)).getLsbD i = value.getLsbD 0 := by
    have hlow : value &&& 1 = (BitVec.ofBool (value.getLsbD 0)).setWidth w := 
      BitVec.and_one_eq_setWidth_ofBool_getLsbD
    rw [hlow]
    cases value.getLsbD 0 with
    | false => simp
    | true =>
        have hone : (BitVec.ofBool true).setWidth w = 1#w :=
          BitVec.setWidth_ofNat_one_eq_ofNat_one_of_lt Nat.one_pos
        rw [hone, BitVec.neg_one_eq_allOnes, BitVec.getLsbD_allOnes, decide_eq_true hi]
  rw [unzigzag, BitVec.getLsbD_xor, hsign, BitVec.getLsbD_ushiftRight, Nat.add_comm]

/-- The code of a number is the number's alone. -/
theorem unzigzag_zigzag {n : Nat} (value : BitVec (n + 1)) : unzigzag (zigzag value) = value := by
  apply BitVec.eq_of_getLsbD_eq
  intro i hi
  rw [getLsbD_unzigzag _ hi, getLsbD_zigzag _ (Nat.succ_pos n)]
  by_cases hlast : i = n
  · rw [BitVec.getLsbD_of_ge _ _ (by omega), BitVec.msb_eq_getLsbD_last, hlast]
    simp
  · rw [getLsbD_zigzag _ (by omega), Nat.add_sub_cancel]
    cases value.msb <;> simp

theorem zigzag_unzigzag {n : Nat} (value : BitVec (n + 1)) : zigzag (unzigzag value) = value := by
  have hmsb : (unzigzag value).msb = value.getLsbD 0 := by
    rw [BitVec.msb_eq_getLsbD_last, Nat.add_sub_cancel, getLsbD_unzigzag _ (Nat.lt_succ_self n),
      BitVec.getLsbD_of_ge _ _ (Nat.le_refl _), Bool.false_xor]
  apply BitVec.eq_of_getLsbD_eq
  intro i hi
  rw [getLsbD_zigzag _ hi, hmsb]
  cases i with
  | zero => simp
  | succ i =>
      rw [Nat.add_sub_cancel, getLsbD_unzigzag _ (by omega)]
      cases value.getLsbD 0 <;> simp

end MiniBackend.Lib.ByteNumbers
