import MiniBackend.Infra.BloomFilter
import Mathlib.Algebra.Group.Nat.Defs
import Mathlib.Algebra.Ring.Int.Defs

/-!
# A Bloom filter never forgets an item

`bf_add` and `bf_contains` visit the same bit positions, and `bf_add` only sets bits.  What
is left is that every position lies inside of `bits`: it does unless `bit_count + 7` wraps
around, and then the filter has no memory at all.
-/

namespace MiniBackend.Infra.Proofs.NoFalseNegatives

open MiniBackend.Infra.Bloom
open MiniBackend.Lib.BitArray

def position (bitCount h₁ h₂ : UInt64) (i : Nat) : Nat :=
  ((h₁ + UInt64.ofNat i * h₂) % bitCount).toNat

def Keeps (bits bits' : List UInt8) : Prop :=
  ∀ i, testBit bits i = some true → testBit bits' i = some true

theorem Keeps.refl (bits : List UInt8) : Keeps bits bits := by
  intro i h
  exact h

theorem Keeps.trans {a b c : List UInt8} (hab : Keeps a b) (hbc : Keeps b c) : Keeps a c := by
  intro i h
  exact hbc i (hab i h)

def SetFrom (bitCount h₁ h₂ : UInt64) (bits : List UInt8) (i n : Nat) : Prop :=
  ∀ k, i ≤ k → k < i + n → testBit bits (position bitCount h₁ h₂ k) = some true

def Fits (bitCount : UInt64) (bits : List UInt8) : Prop :=
  ∀ n : UInt64, (n % bitCount).toNat / 8 < bits.length

/-! ## The loops -/

theorem addLoop_spec {bitCount : UInt64} (h₁ h₂ : UInt64) (n : Nat) :
    ∀ (i : Nat) (bits : List UInt8) (allSet : Bool), Fits bitCount bits →
      ∃ bits' allSet', addLoop bitCount h₁ h₂ n i bits allSet = some (bits', allSet') ∧
        bits'.length = bits.length ∧ Keeps bits bits' ∧ SetFrom bitCount h₁ h₂ bits' i n := by
  induction n with
  | zero =>
      intro i bits allSet hfits
      exact ⟨bits, allSet, rfl, rfl, Keeps.refl bits, fun k hle hlt => by omega⟩
  | succ n ih =>
      intro i bits allSet hfits
      have hbyte : position bitCount h₁ h₂ i / 8 < bits.length := hfits _
      obtain ⟨set, hset⟩ := exists_testBit hbyte
      have hfits' : Fits bitCount (setBit bits (position bitCount h₁ h₂ i)) := by
        intro m
        rw [length_setBit]
        exact hfits m
      obtain ⟨bits', allSet', hloop, hlength, hkeeps, hrest⟩ :=
        ih (i + 1) _ (allSet && set) hfits'
      refine ⟨bits', allSet', ?_, ?_, ?_, ?_⟩
      · rw [position] at hset hloop
        rw [addLoop]
        simp only [hset]
        exact hloop
      · rw [hlength, length_setBit]
      · apply Keeps.trans _ hkeeps
        intro j hj
        exact testBit_setBit_of_true hj _
      · intro k hle hlt
        -- Round `i` set its own bit, the rounds after it set the others.
        rcases Nat.eq_or_lt_of_le hle with rfl | hlater
        · exact hkeeps _ (testBit_setBit_self hbyte)
        · exact hrest k hlater (by omega)

theorem containsLoop_eq_one {bitCount h₁ h₂ : UInt64} {bits : List UInt8} (n : Nat) :
    ∀ i, SetFrom bitCount h₁ h₂ bits i n → containsLoop bitCount h₁ h₂ bits n i = some 1 := by
  induction n with
  | zero =>
      intro i hset
      rfl
  | succ n ih =>
      intro i hset
      have hround := hset i (Nat.le_refl i) (by omega)
      rw [position] at hround
      rw [containsLoop]
      simp only [hround, if_true]
      apply ih
      intro k hle hlt
      exact hset k (by omega) (by omega)

/-! ## Adding items -/

def Present (bf : BfBloomFilter) (data : List UInt8) : Prop :=
  SetFrom bf.bitCount (bfHashPair data).1 (bfHashPair data).2 bf.bits 0 bf.hashCount

/-- What `bf_add` leaves alone. -/
structure Extends (bf bf' : BfBloomFilter) : Prop where
  bitCount : bf'.bitCount = bf.bitCount
  hashCount : bf'.hashCount = bf.hashCount
  length : bf'.bits.length = bf.bits.length
  keeps : Keeps bf.bits bf'.bits

theorem Extends.refl (bf : BfBloomFilter) : Extends bf bf := by
  exact ⟨rfl, rfl, rfl, Keeps.refl _⟩

theorem Extends.trans {a b c : BfBloomFilter} (hab : Extends a b) (hbc : Extends b c) :
    Extends a c := by
  exact ⟨hbc.bitCount.trans hab.bitCount, hbc.hashCount.trans hab.hashCount,
    hbc.length.trans hab.length, hab.keeps.trans hbc.keeps⟩

theorem Extends.fits {bf bf' : BfBloomFilter} (h : Extends bf bf')
    (hfits : Fits bf.bitCount bf.bits) : Fits bf'.bitCount bf'.bits := by
  intro n
  rw [h.bitCount, h.length]
  exact hfits n

theorem Extends.present {bf bf' : BfBloomFilter} (h : Extends bf bf') {data : List UInt8}
    (hpresent : Present bf data) : Present bf' data := by
  intro k hle hlt
  rw [h.hashCount] at hlt
  rw [h.bitCount]
  exact h.keeps _ (hpresent k hle hlt)

theorem bfContains_of_present {bf : BfBloomFilter} {data : List UInt8} (hdata : data ≠ [])
    (hpresent : Present bf data) : bfContains bf data = some 1 := by
  rw [bfContains, if_neg hdata]
  exact containsLoop_eq_one bf.hashCount 0 hpresent

theorem bfAdd_spec {bf : BfBloomFilter} (hfits : Fits bf.bitCount bf.bits) (data : List UInt8) :
    ∃ result bf', bfAdd bf data = some (result, bf') ∧ Extends bf bf' ∧
      (result = 0 → data ≠ [] ∧ Present bf' data) := by
  by_cases hdata : data = []
  · refine ⟨-1, bf, ?_, Extends.refl bf, ?_⟩
    · rw [bfAdd, if_pos hdata]
    · intro hresult
      contradiction
  · obtain ⟨bits', allSet', hloop, hlength, hkeeps, hset⟩ :=
      addLoop_spec (bfHashPair data).1 (bfHashPair data).2 bf.hashCount 0 bf.bits true hfits
    have hadd : bfAdd bf data = some (0, { bf with
        bits := bits'
        elementCount := if allSet' then bf.elementCount else bf.elementCount + 1 }) := by
      rw [bfAdd, if_neg hdata]
      simp only [hloop]
    refine ⟨0, _, hadd, ⟨rfl, rfl, hlength, hkeeps⟩, ?_⟩
    intro _
    exact ⟨hdata, hset⟩

theorem addAll_spec (items : List (List UInt8)) :
    ∀ bf : BfBloomFilter, Fits bf.bitCount bf.bits →
      ∃ bf' added, addAll bf items = some (bf', added) ∧ Extends bf bf' ∧
        ∀ data ∈ added, data ≠ [] ∧ Present bf' data := by
  induction items with
  | nil =>
      intro bf hfits
      exact ⟨bf, [], rfl, Extends.refl bf, by simp⟩
  | cons data items ih =>
      intro bf hfits
      obtain ⟨result, bf₁, hadd, hext₁, hfirst⟩ := bfAdd_spec hfits data
      obtain ⟨bf₂, added, hall, hext₂, hadded⟩ := ih bf₁ (hext₁.fits hfits)
      refine ⟨bf₂, if result = 0 then data :: added else added, ?_, hext₁.trans hext₂, ?_⟩
      · simp only [addAll, hadd, hall]
      · intro item hitem
        by_cases hresult : result = 0
        · rw [if_pos hresult, List.mem_cons] at hitem
          rcases hitem with rfl | hitem
          · exact ⟨(hfirst hresult).1, hext₂.present (hfirst hresult).2⟩
          · exact hadded item hitem
        · rw [if_neg hresult] at hitem
          exact hadded item hitem

/-! ## Creation -/

theorem bfCreateWithParams_eq_some {bitCount : UInt64} {numHashes : Int} {bf : BfBloomFilter}
    (h : bfCreateWithParams bitCount numHashes = some bf) :
    bitCount ≠ 0 ∧ bf.bitCount = bitCount ∧ 0 < bf.hashCount ∧
      bf.bits.length = ((bitCount + 7) / 8).toNat := by
  rw [bfCreateWithParams] at h
  split at h
  · contradiction
  · rename_i hnot
    rw [not_or] at hnot
    cases h
    refine ⟨hnot.1, rfl, ?_, List.length_replicate⟩
    have hpos : 0 < numHashes.toNat := by omega
    exact Nat.lt_min.mpr ⟨hpos, by decide⟩

theorem fits_of_no_wrap {bitCount : UInt64} {bits : List UInt8} (hpos : bitCount ≠ 0)
    (hlength : bits.length = ((bitCount + 7) / 8).toNat) (hwrap : bitCount.toNat + 7 < 2 ^ 64) :
    Fits bitCount bits := by
  intro n
  have hzero : 0 < bitCount.toNat := by
    rw [Nat.pos_iff_ne_zero]
    intro h
    exact hpos (UInt64.toNat_inj.mp h)
  have hmod : (n % bitCount).toNat < bitCount.toNat := by
    rw [UInt64.toNat_mod]
    exact Nat.mod_lt _ hzero
  have hsum : (bitCount + 7).toNat = bitCount.toNat + 7 := by
    rw [UInt64.toNat_add]
    exact Nat.mod_eq_of_lt hwrap
  rw [hlength, UInt64.toNat_div, hsum]
  change _ < (bitCount.toNat + 7) / 8
  omega

theorem no_bytes_of_wrap {bitCount : UInt64} {bits : List UInt8}
    (hlength : bits.length = ((bitCount + 7) / 8).toNat) (hwrap : 2 ^ 64 ≤ bitCount.toNat + 7) :
    bits = [] := by
  apply List.eq_nil_of_length_eq_zero
  have hsum : (bitCount + 7).toNat = bitCount.toNat + 7 - 2 ^ 64 := by
    have hlt := bitCount.toNat_lt
    rw [UInt64.toNat_add]
    change (bitCount.toNat + 7) % 2 ^ 64 = _
    omega
  have hlt := bitCount.toNat_lt
  rw [hlength, UInt64.toNat_div, hsum]
  change _ / 8 = 0
  omega

theorem bfAdd_eq_none {bf : BfBloomFilter} (hbits : bf.bits = []) (hhash : 0 < bf.hashCount)
    {data : List UInt8} (hdata : data ≠ []) : bfAdd bf data = none := by
  obtain ⟨n, hn⟩ := Nat.exists_eq_add_of_lt hhash
  have hnone : ∀ i, testBit [] i = none := fun i => testBit_eq_none (Nat.zero_le _)
  have hloop : addLoop bf.bitCount (bfHashPair data).1 (bfHashPair data).2 bf.hashCount 0
      bf.bits true = none := by
    rw [hn, hbits, Nat.zero_add, addLoop]
    simp only [hnone]
  rw [bfAdd, if_neg hdata]
  simp only [hloop]

/-! ## No false negatives -/

/-- After any sequence of `bf_add` calls every item added so far is reported as contained,
and the next call clears no bit. -/
def NeverMisses (bf : BfBloomFilter) : Prop :=
  ∀ items : List (List UInt8), ∃ bf' added, addAll bf items = some (bf', added) ∧
    (∀ data ∈ added, bfContains bf' data = some 1) ∧
    ∀ data, ∃ result bf'', bfAdd bf' data = some (result, bf'') ∧ Keeps bf'.bits bf''.bits

theorem noFalseNegatives_of_fits {bf : BfBloomFilter} (hfits : Fits bf.bitCount bf.bits) :
    NeverMisses bf := by
  intro items
  obtain ⟨bf', added, hall, hext, hadded⟩ := addAll_spec items bf hfits
  refine ⟨bf', added, hall, ?_, ?_⟩
  · intro data hdata
    exact bfContains_of_present (hadded data hdata).1 (hadded data hdata).2
  · intro data
    obtain ⟨result, bf'', hadd, hext', _⟩ := bfAdd_spec (hext.fits hfits) data
    exact ⟨result, bf'', hadd, hext'.keeps⟩

/-- A filter accepted at creation has no false negatives exactly when `bit_count + 7` does
not wrap around. -/
theorem noFalseNegatives_iff {bitCount : UInt64} {numHashes : Int} {bf : BfBloomFilter}
    (h : bfCreateWithParams bitCount numHashes = some bf) :
    NeverMisses bf ↔ bitCount.toNat + 7 < 2 ^ 64 := by
  obtain ⟨hpos, hcount, hhash, hlength⟩ := bfCreateWithParams_eq_some h
  constructor
  · intro hno
    by_contra hwrap
    obtain ⟨bf', added, hall, _⟩ := hno [[0]]
    have hbits := no_bytes_of_wrap hlength (Nat.le_of_not_lt hwrap)
    have hnone := bfAdd_eq_none hbits hhash (List.cons_ne_nil 0 [])
    simp only [addAll, hnone] at hall
    contradiction
  · intro hwrap
    apply noFalseNegatives_of_fits
    rw [hcount]
    exact fits_of_no_wrap hpos hlength hwrap

/-- A filter of 1000 bits with 7 hash functions. -/
theorem noFalseNegatives_thousand :
    ∃ bf, bfCreateWithParams 1000 7 = some bf ∧ NeverMisses bf := by
  exact ⟨_, rfl, (@noFalseNegatives_iff 1000 7 _ rfl).mpr (by decide)⟩

/-- `SIZE_MAX` bits are accepted and nothing is allocated: adding one byte leaves memory. -/
theorem noFalseNegatives_fails_at_size_max :
    ∃ bf, bfCreateWithParams 0xffffffffffffffff 1 = some bf ∧ bfAdd bf [0x61] = none ∧
      ¬ NeverMisses bf := by
  refine ⟨⟨[], 0xffffffffffffffff, 0, 1, 0⟩, by decide, by decide, ?_⟩
  intro hno
  obtain ⟨bf', added, hall, _⟩ := hno [[0x61]]
  have hnone : addAll ⟨[], 0xffffffffffffffff, 0, 1, 0⟩ [[0x61]] = none := by decide
  rw [hnone] at hall
  contradiction

end MiniBackend.Infra.Proofs.NoFalseNegatives
