import MiniBackend.Infra.DistributedCache
import MiniBackend.Infra.Proofs.NoFalseNegatives

/-!
# Look-ups behind a filter

A filter saves the backend questions about keys that it does not have.  When it never rejects a
key that the backend has, no run of the cache shows that it is there.
-/

namespace MiniBackend.Infra.Proofs.GuardedLookups

open MiniBackend.Lib.CString MiniBackend.Infra.Cache MiniBackend.Infra.Bloom
open MiniBackend.Infra.Proofs.NoFalseNegatives

variable {cache : DcCache} {bloom : BfBloomFilter} {key : CStr} {reply : Reply}

/-! ## Runs -/

def guardedStep (bloom : BfBloomFilter) (cache : DcCache) : Op → Option (DcCache × Result)
  | .get key reply => do
      let (cache, value) ← dcCacheGetWithBloom cache key (some bloom) reply
      some (cache, .got value)
  | op => step cache op

def runGuarded (bloom : BfBloomFilter) : DcCache → List Op → Option (DcCache × List Result)
  | cache, [] => some (cache, [])
  | cache, op :: ops => do
      let (cache, result) ← guardedStep bloom cache op
      let (cache, results) ← runGuarded bloom cache ops
      some (cache, result :: results)

/-- The backend has a value for no other keys. -/
def Answered (known : CStr → Prop) : Op → Prop
  | .get key reply => reply.regular.value ≠ none → known key
  | _ => True

/-- No run shows whether there is a filter. -/
def Transparent (bloom : BfBloomFilter) (known : CStr → Prop) : Prop :=
  ∀ cache ops, (∀ op ∈ ops, Answered known op) → runGuarded bloom cache ops = runAll cache ops

/-! ## One look-up -/

theorem get_rejected (hfind : dcFindEntry cache key = some none)
    (hbloom : bfContainsString bloom key = some 0) :
    dcCacheGetWithBloom cache key (some bloom) reply =
      some ({ cache with missCount := cache.missCount + 1 }, none) := by
  simp [dcCacheGetWithBloom, hfind, hbloom]

theorem get_missing (hfind : dcFindEntry cache key = some none) :
    dcCacheGet cache key reply =
      readBackend { cache with missCount := cache.missCount + 1 } key reply.regular := by
  simp [dcCacheGet, hfind]

theorem guarded_get_eq_iff {n : Int} (hbloom : bfContainsString bloom key = some n) :
    dcCacheGetWithBloom cache key (some bloom) reply = dcCacheGet cache key reply ↔
      (dcFindEntry cache key = some none → n = 0 → cache.backendRead = true →
        reply.regular.value = none) := by
  cases hfind : dcFindEntry cache key with
  | none => simp [dcCacheGetWithBloom, dcCacheGet, hfind]
  | some found =>
      cases found with
      | some p => simp [dcCacheGetWithBloom, hfind]
      | none =>
          by_cases hn : n = 0
          · rw [hn] at hbloom
            rw [get_rejected hfind hbloom, get_missing hfind, readBackend]
            by_cases hread : cache.backendRead = true
            · rw [if_pos hread]
              cases hvalue : reply.regular.value with
              | none => simp [hn, hread]
              | some value =>
                  cases hput : dcCachePut { cache with missCount := cache.missCount + 1 } key value
                    dcDefaultTtlSec reply.regular.clock with
                  | none => simp [hput, hn, hread]
                  | some cache' => simp [hput, hn, hread]
            · rw [if_neg hread]
              simp [hread]
          · simp [dcCacheGetWithBloom, hfind, hbloom, hn]

/-! ## All look-ups -/

def Answers (bloom : BfBloomFilter) : Prop :=
  ∀ key, bfContainsString bloom key = some 0 ∨ bfContainsString bloom key = some 1

theorem containsLoop_answers {bitCount : UInt64} {bits : List UInt8} (h₁ h₂ : UInt64)
    (hfits : Fits bitCount bits) (n i : Nat) :
    containsLoop bitCount h₁ h₂ bits n i = some 0 ∨
      containsLoop bitCount h₁ h₂ bits n i = some 1 := by
  induction n generalizing i with
  | zero => exact .inr rfl
  | succ n ih =>
      obtain ⟨set, hset⟩ :=
        MiniBackend.Lib.BitArray.exists_testBit (hfits (h₁ + UInt64.ofNat i * h₂))
      rw [containsLoop]
      simp only [hset]
      cases set with
      | false => exact .inl rfl
      | true => exact ih (i + 1)

theorem answers_of_fits (hfits : Fits bloom.bitCount bloom.bits) : Answers bloom := by
  intro key
  rw [bfContainsString, bfContains]
  split
  · exact .inl rfl
  · exact containsLoop_answers _ _ hfits _ _

theorem guardedStep_eq {known : CStr → Prop} {op : Op} (hanswers : Answers bloom)
    (hknown : ∀ key, known key → bfContainsString bloom key = some 1) (hop : Answered known op) :
    guardedStep bloom cache op = step cache op := by
  cases op with
  | put => rfl
  | putWithVersion => rfl
  | delete => rfl
  | get key reply =>
      rw [guardedStep, step]
      apply congrArg (Option.bind · _)
      rcases hanswers key with hbloom | hbloom
      · apply (guarded_get_eq_iff hbloom).mpr
        intro _ _ _
        by_contra hvalue
        have hone := hknown key (hop hvalue)
        rw [hbloom] at hone
        exact absurd hone (by decide)
      · apply (guarded_get_eq_iff hbloom).mpr
        intro _ hzero
        exact absurd hzero (by decide)

theorem transparent_iff (hanswers : Answers bloom) (known : CStr → Prop) :
    Transparent bloom known ↔ ∀ key, known key → bfContainsString bloom key = some 1 := by
  constructor
  · intro htransparent key hkey
    apply (hanswers key).resolve_left
    intro hzero
    -- an empty cache asks the backend
    let config : DcCacheConfig := ⟨0, 0, .lru, false, .around, true, false, false⟩
    let reply : Reply := ⟨0, false, ⟨none, ⟨0, []⟩⟩, ⟨some [], ⟨0, []⟩⟩⟩
    have hrun := htransparent (dcCacheCreate config) [.get key reply] (by
      intro op hop
      rw [List.mem_singleton.mp hop]
      exact fun _ => hkey)
    have hfind : dcFindEntry (dcCacheCreate config) key = some none := rfl
    have hget : dcCacheGetWithBloom (dcCacheCreate config) key (some bloom) reply =
        dcCacheGet (dcCacheCreate config) key reply := by
      have hguarded := @get_rejected _ _ _ reply hfind hzero
      simp only [runGuarded, runAll, guardedStep, step, hguarded] at hrun
      rw [hguarded]
      cases hplain : dcCacheGet (dcCacheCreate config) key reply with
      | none => simp [hplain] at hrun
      | some r =>
          obtain ⟨cache', value⟩ := r
          simp only [hplain, Option.bind_eq_bind, Option.bind_some, Option.some.injEq,
            Prod.mk.injEq, List.cons.injEq, Result.got.injEq] at hrun
          rw [hrun.1, hrun.2.1]
    have hnone := (guarded_get_eq_iff hzero).mp hget hfind rfl rfl
    exact absurd hnone (by decide)
  · intro hknown cache ops hops
    induction ops generalizing cache with
    | nil => rfl
    | cons op ops ih =>
        rw [runGuarded, runAll, guardedStep_eq hanswers hknown (hops op List.mem_cons_self)]
        cases step cache op with
        | none => rfl
        | some r =>
            simp only [Option.bind_eq_bind, Option.bind_some]
            rw [ih r.1 fun op hop => hops op (List.mem_cons_of_mem _ hop)]

/-! ## Populated filters -/

theorem populateLoop_spec (count : Nat) (hfits : Fits bloom.bitCount bloom.bits)
    (keys : List CStr) :
    ∃ bloom', populateLoop count bloom keys =
        some (count + (keys.filter (· ≠ [])).length, bloom') ∧
      Extends bloom bloom' ∧ ∀ key ∈ keys, key ≠ [] → Present bloom' key := by
  induction keys generalizing count bloom with
  | nil => exact ⟨bloom, rfl, Extends.refl bloom, by simp⟩
  | cons key keys ih =>
      obtain ⟨result, mid, hadd, hmid, hpresent⟩ := bfAdd_spec hfits key
      have hresult : result = 0 ↔ key ≠ [] := by
        constructor
        · intro h
          exact (hpresent h).1
        · intro hkey
          rw [bfAdd, if_neg hkey] at hadd
          simp only at hadd
          split at hadd
          · cases hadd
          · cases hadd
            rfl
      obtain ⟨bloom', hloop, hextends, hkeys⟩ :=
        ih (if result = 0 then count + 1 else count) (hmid.fits hfits)
      refine ⟨bloom', ?_, hmid.trans hextends, ?_⟩
      · rw [populateLoop, bfAddString, hadd]
        simp only [Option.bind_eq_bind, Option.bind_some]
        rw [hloop]
        by_cases hkey : key = []
        · rw [if_neg (fun h => hresult.mp h hkey), List.filter_cons_of_neg (by simpa using hkey)]
        · rw [if_pos (hresult.mpr hkey), List.filter_cons_of_pos (by simpa using hkey),
            List.length_cons]
          congr 2
          omega
      · intro other hmem hother
        rcases List.mem_cons.mp hmem with rfl | hmem
        · exact hextends.present (hpresent (hresult.mpr hother)).2
        · exact hkeys other hmem hother

/-- A filter with the keys of the backend is not noticed, unless one of them is empty. -/
theorem populated_filter_transparent_iff {bitCount : UInt64} {numHashes : Int}
    (hcreate : bfCreateWithParams bitCount numHashes = some bloom)
    (hwrap : bitCount.toNat + 7 < 2 ^ 64) (keys : List CStr) :
    ∃ bloom', dcCachePopulateBloom bloom keys =
        some ((keys.filter (· ≠ [])).length, bloom') ∧
      (Transparent bloom' (· ∈ keys) ↔ [] ∉ keys) := by
  obtain ⟨hpos, hcount, -, hlength⟩ := bfCreateWithParams_eq_some hcreate
  have hfits : Fits bloom.bitCount bloom.bits := by
    rw [hcount]
    exact fits_of_no_wrap hpos hlength hwrap
  obtain ⟨bloom', hloop, hextends, hpresent⟩ := populateLoop_spec 0 hfits keys
  rw [Nat.zero_add] at hloop
  refine ⟨bloom', hloop, ?_⟩
  rw [transparent_iff (answers_of_fits (hextends.fits hfits))]
  constructor
  · intro hall hempty
    exact absurd (hall [] hempty) (by simp [bfContainsString, bfContains])
  · intro hempty key hmem
    have hkey : key ≠ [] := fun h => hempty (h ▸ hmem)
    exact bfContains_of_present hkey (hpresent key hmem hkey)

theorem populated_filter_transparent_two_keys :
    ∃ bloom bloom', bfCreateWithParams 1000 7 = some bloom ∧
      dcCachePopulateBloom bloom [[97], [98]] =
        some (([[97], [98]].filter (· ≠ ([] : CStr))).length, bloom') ∧
      (Transparent bloom' (· ∈ ([[97], [98]] : List CStr)) ↔ [] ∉ ([[97], [98]] : List CStr)) := by
  obtain ⟨bloom', h⟩ :=
    @populated_filter_transparent_iff _ 1000 7 rfl (by decide) [[97], [98]]
  exact ⟨_, bloom', rfl, h⟩

end MiniBackend.Infra.Proofs.GuardedLookups
