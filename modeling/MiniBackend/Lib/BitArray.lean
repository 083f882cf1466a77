import Mathlib.Data.List.Basic

/-!
# Bit arrays in bytes

Bit `i` of an array of bytes is bit `i % 8` of byte `i / 8`.  Reading a bit gives `none`
outside the array.  Nothing here mentions a particular program.
-/

namespace MiniBackend.Lib.BitArray

/-- `1 << (i % 8)` as a byte. -/
def mask (i : Nat) : UInt8 := 1 <<< UInt8.ofNat (i % 8)

def testBit (bits : List UInt8) (i : Nat) : Option Bool :=
  bits[i / 8]?.map fun byte => byte &&& mask i != 0

def setBit (bits : List UInt8) (i : Nat) : List UInt8 :=
  bits.modify (i / 8) fun byte => byte ||| mask i

theorem mask_ne_zero (i : Nat) : mask i ≠ 0 := by
  have hall : ∀ k : Fin 8, (1 : UInt8) <<< UInt8.ofNat k.val ≠ 0 := by decide
  exact hall ⟨i % 8, Nat.mod_lt i (by decide)⟩

theorem or_and_self (a m : UInt8) : (a ||| m) &&& m = m := by
  apply UInt8.toBitVec_inj.mp
  ext k hk
  simp only [UInt8.toBitVec_and, UInt8.toBitVec_or, BitVec.getElem_and, BitVec.getElem_or]
  cases a.toBitVec[k] <;> simp

theorem or_and_ne_zero {a m : UInt8} (h : a &&& m ≠ 0) (m' : UInt8) : (a ||| m') &&& m ≠ 0 := by
  intro hzero
  apply h
  apply UInt8.toBitVec_inj.mp
  ext k hk
  have hk' := congrArg (fun b : UInt8 => b.toBitVec[k]) hzero
  simp at hk' ⊢
  intro ha
  exact hk' (Or.inl ha)

@[simp]
theorem length_setBit (bits : List UInt8) (i : Nat) : (setBit bits i).length = bits.length := by
  rw [setBit, List.length_modify]

theorem testBit_eq_none {bits : List UInt8} {i : Nat} (h : bits.length ≤ i / 8) :
    testBit bits i = none := by
  rw [testBit, List.getElem?_eq_none h]
  rfl

theorem exists_testBit {bits : List UInt8} {i : Nat} (h : i / 8 < bits.length) :
    ∃ b, testBit bits i = some b := by
  rw [testBit, List.getElem?_eq_getElem h]
  exact ⟨_, rfl⟩

theorem testBit_setBit_self {bits : List UInt8} {i : Nat} (h : i / 8 < bits.length) :
    testBit (setBit bits i) i = some true := by
  have hself := or_and_self bits[i / 8] (mask i)
  simp [testBit, setBit, List.getElem?_eq_getElem h, hself, mask_ne_zero]

/-- A bit that is set stays set. -/
theorem testBit_setBit_of_true {bits : List UInt8} {j : Nat} (h : testBit bits j = some true)
    (i : Nat) : testBit (setBit bits i) j = some true := by
  obtain ⟨byte, hbyte, hset⟩ := Option.map_eq_some_iff.mp h
  have hset : byte &&& mask j ≠ 0 := by simpa using hset
  rw [testBit, setBit, List.getElem?_modify, hbyte]
  by_cases hi : i / 8 = j / 8
  · simp [hi, or_and_ne_zero hset]
  · simp [hi, hset]

end MiniBackend.Lib.BitArray
