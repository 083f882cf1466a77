import MiniBackend.Lib.BitArray

/-!
# `bloom_filter.c`

A filter with its parameters, `bf_add` and `bf_contains`.  An access outside of `bits` is
undefined: `none`.  Memory of any size can be allocated, none at all included.
-/

namespace MiniBackend.Infra.Bloom

open MiniBackend.Lib.BitArray

def bfMaxHashFunctions : Nat := 32

structure BfBloomFilter where
  bits : List UInt8
  bitCount : UInt64
  byteCount : UInt64
  hashCount : Nat
  elementCount : Nat
deriving DecidableEq

def bfFnv1a (data : List UInt8) : UInt64 :=
  data.foldl (fun h b => (h ^^^ b.toUInt64) * 0x100000001b3) 0xcbf29ce484222325

def memoryBytes (n : UInt64) : List UInt8 :=
  (List.range 8).map fun k => (n >>> UInt64.ofNat (8 * k)).toUInt8

def bfHashPair (data : List UInt8) : UInt64 × UInt64 :=
  (bfFnv1a data, bfFnv1a (memoryBytes (bfFnv1a data)))

def bfCreateWithParams (bitCount : UInt64) (numHashes : Int) : Option BfBloomFilter :=
  if bitCount = 0 ∨ numHashes ≤ 0 then none
  else
    let byteCount := (bitCount + 7) / 8
    some {
      bits := List.replicate byteCount.toNat 0
      bitCount := bitCount
      byteCount := byteCount
      hashCount := min numHashes.toNat bfMaxHashFunctions
      elementCount := 0 }

/-- The loop of `bf_add` from `i` on, with `n` rounds to go: the bits after it and whether
all of them were set already. -/
def addLoop (bitCount h₁ h₂ : UInt64) : Nat → Nat → List UInt8 → Bool → Option (List UInt8 × Bool)
  | 0, _, bits, allSet => some (bits, allSet)
  | n + 1, i, bits, allSet =>
      let combined := h₁ + UInt64.ofNat i * h₂
      let bitIdx := (combined % bitCount).toNat
      match testBit bits bitIdx with
      | none => none
      | some set => addLoop bitCount h₁ h₂ n (i + 1) (setBit bits bitIdx) (allSet && set)

/-- The filter is unchanged, with -1 returned, when there is no data. -/
def bfAdd (bf : BfBloomFilter) (data : List UInt8) : Option (Int × BfBloomFilter) :=
  if data = [] then some (-1, bf)
  else
    let (h₁, h₂) := bfHashPair data
    match addLoop bf.bitCount h₁ h₂ bf.hashCount 0 bf.bits true with
    | none => none
    | some (bits, allSet) =>
        some (0, { bf with
          bits := bits
          elementCount := if allSet then bf.elementCount else bf.elementCount + 1 })

/-- The loop of `bf_contains` from `i` on, with `n` rounds to go. -/
def containsLoop (bitCount h₁ h₂ : UInt64) (bits : List UInt8) : Nat → Nat → Option Int
  | 0, _ => some 1
  | n + 1, i =>
      let combined := h₁ + UInt64.ofNat i * h₂
      let bitIdx := (combined % bitCount).toNat
      match testBit bits bitIdx with
      | none => none
      | some set => if set then containsLoop bitCount h₁ h₂ bits n (i + 1) else some 0

def bfContains (bf : BfBloomFilter) (data : List UInt8) : Option Int :=
  if data = [] then some 0
  else
    let (h₁, h₂) := bfHashPair data
    containsLoop bf.bitCount h₁ h₂ bf.bits bf.hashCount 0

def bfAddString (bf : BfBloomFilter) (str : List UInt8) : Option (Int × BfBloomFilter) :=
  bfAdd bf str

def bfContainsString (bf : BfBloomFilter) (str : List UInt8) : Option Int := bfContains bf str

/-- A sequence of `bf_add` calls: the filter after it and the items for which the call
returned 0. -/
def addAll : BfBloomFilter → List (List UInt8) → Option (BfBloomFilter × List (List UInt8))
  | bf, [] => some (bf, [])
  | bf, data :: items =>
      match bfAdd bf data with
      | none => none
      | some (result, bf) =>
          match addAll bf items with
          | none => none
          | some (bf, added) => some (bf, if result = 0 then data :: added else added)

end MiniBackend.Infra.Bloom
