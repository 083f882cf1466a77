import Mathlib.Data.Fin.Tuple.Basic
import Mathlib.Data.Int.ConditionallyCompleteOrder
import Mathlib.Order.Lattice
import MiniBackend.Infra.Proofs.CacheData

/-!
# Versioned writes

The code does not keep the vector of the last write.  It compares a vector with the number of
accesses to the entry, as the vector of a single node.
-/

namespace MiniBackend.Infra.Proofs.VersionedWrites

open MiniBackend.Infra.Cache MiniBackend.Infra.Proofs.CacheData
open MiniBackend.Lib.CString MiniBackend.Lib.LinkedHeap

/-! ## Dominance -/

/-- Vectors are ordered by their components. -/
def components (a : DcVersionVector) : Fin dcMaxVvNodes → Int := fun i => component a i

def countVector (count : Int) : Fin dcMaxVvNodes → Int := fun i => if i.val = 0 then count else 0

instance decidableLt {n : Nat} (a b : Fin n → Int) : Decidable (a < b) :=
  decidable_of_iff ((∀ i, a i ≤ b i) ∧ ∃ i, a i < b i) Pi.lt_def.symm

theorem component_of_le {a : DcVersionVector} {i : Nat} (h : a.nodeCount ≤ i) :
    component a i = 0 := if_neg (by omega)

theorem components_existingVv (e : DcEntry) :
    components (existingVv e) = countVector e.accessCount := by
  funext i
  have hcounter : (existingVv e).counters[i.val]? = some (countVector e.accessCount i) := by
    rw [existingVv, Vector.getElem?_ofFn, dif_pos i.isLt]
    rfl
  by_cases hi : i.val = 0
  · have hfirst : (i.val : Int) < (existingVv e).nodeCount := by simp [existingVv, hi]
    rw [components, component, if_pos hfirst, hcounter]
    rfl
  · have hrest : (existingVv e).nodeCount ≤ i.val := by
      have hone : (existingVv e).nodeCount = 1 := rfl
      omega
    rw [components, component_of_le hrest, countVector, if_neg hi]

theorem all_rounds_iff (a b : DcVersionVector) :
    ((List.range dcMaxVvNodes).filter fun i : Nat => decide ((i : Int) <
        if a.nodeCount > b.nodeCount then a.nodeCount else b.nodeCount)).all
      (fun i => !decide (component a i < component b i)) = true ↔
      components b ≤ components a := by
  rw [List.all_eq_true, Pi.le_def]
  constructor
  · intro h i
    by_cases hi : (i.val : Int) <
        if a.nodeCount > b.nodeCount then a.nodeCount else b.nodeCount
    · have hround := h i.val (by simp [i.isLt, hi])
      simpa [components] using hround
    · have ha : a.nodeCount ≤ i.val := by split at hi <;> omega
      have hb : b.nodeCount ≤ i.val := by split at hi <;> omega
      simp [components, component_of_le ha, component_of_le hb]
  · intro h i hi
    rw [List.mem_filter, List.mem_range] at hi
    simpa [components] using h ⟨i, hi.1⟩

/-- The comparison is two flags, and each is the order of the components in one direction. -/
theorem dcVvCompare_spec (a b : DcVersionVector) :
    (dcVvCompare a b = 0 ↔ components b ≤ components a ∧ components a ≤ components b) ∧
      (dcVvCompare a b = 1 ↔ components b ≤ components a ∧ ¬components a ≤ components b) ∧
      (dcVvCompare a b = -1 ↔ components a ≤ components b ∧ ¬components b ≤ components a) ∧
      (dcVvCompare a b = 2 ↔ ¬components a ≤ components b ∧ ¬components b ≤ components a) := by
  have hab := all_rounds_iff a b
  have hba := all_rounds_iff b a
  have hmax : (if b.nodeCount > a.nodeCount then b.nodeCount else a.nodeCount) =
      if a.nodeCount > b.nodeCount then a.nodeCount else b.nodeCount := by
    split <;> split <;> omega
  rw [hmax] at hba
  rw [← hba, ← hab]
  unfold dcVvCompare
  simp only []
  generalize List.all _ (fun i => !decide (component a i < component b i)) = aGeB
  generalize List.all _ (fun i => !decide (component b i < component a i)) = bGeA
  cases aGeB <;> cases bGeA <;> simp

theorem dcVvCompare_eq_neg_one_iff (a b : DcVersionVector) :
    dcVvCompare a b = -1 ↔ components a < components b := by
  rw [(dcVvCompare_spec a b).2.2.1, lt_iff_le_not_ge]

/-- A vector of a write that comes too late for an entry with this many accesses. -/
def Outdated (vv : Option DcVersionVector) (count : Int) : Prop :=
  ∃ v ∈ vv, 0 < v.nodeCount ∧ components v < countVector count

instance (vv : Option DcVersionVector) (count : Int) : Decidable (Outdated vv count) :=
  match vv with
  | none => isFalse (by rintro ⟨v, hv, _⟩; cases hv)
  | some v =>
      decidable_of_iff (0 < v.nodeCount ∧ components v < countVector count) (by simp [Outdated])

/-! ## One entry -/

def refresh (config : DcCacheConfig) (d : DcEntry) (answer : Answer) : DcEntry :=
  if config.backendRead then
    match answer.value with
    | none => d
    | some value => accept d value dcDefaultTtlSec answer.clock.now
  else d

/-- What a call does to the data of the entry of `key`. -/
def entryStep (config : DcCacheConfig) (key : CStr) (d : DcEntry) : Op → DcEntry
  | .put k value ttlSeconds clock =>
      if k = key then accept d value ttlSeconds clock.now else d
  | .putWithVersion k value ttlSeconds vv clock =>
      if k = key ∧ ¬ Outdated vv d.accessCount then accept d value ttlSeconds clock.now else d
  | .get k reply =>
      if k ≠ key then d
      else if d.stale || expired d reply.now then
        if config.stampedeProtection && reply.recompute then
          refresh config (refresh config d reply.early) reply.regular
        else refresh config d reply.regular
      else { d with lastAccess := reply.now, accessCount := d.accessCount + 1 }
  | .delete _ => d

def LookupsFind (key : CStr) (p : Nat) (cache : DcCache) : Op → Prop
  | .put k _ _ _ => k = key → dcFindEntry cache key = some (some p)
  | .putWithVersion k _ _ _ _ => k = key → dcFindEntry cache key = some (some p)
  | .get k reply => k = key → dcFindEntry cache key = some (some p) ∧
      ∀ d ∈ dataAt cache.heap p, (d.stale || expired d reply.now) = true →
        ∀ mid ∈ recomputeEarly cache key reply, dcFindEntry mid key = some (some p)
  | .delete _ => True

instance (key : CStr) (p : Nat) (cache : DcCache) :
    (op : Op) → Decidable (LookupsFind key p cache op)
  | .put k _ _ _ => inferInstanceAs (Decidable (k = key → dcFindEntry cache key = some (some p)))
  | .putWithVersion k _ _ _ _ =>
      inferInstanceAs (Decidable (k = key → dcFindEntry cache key = some (some p)))
  | .get k reply =>
      inferInstanceAs (Decidable (k = key → dcFindEntry cache key = some (some p) ∧
        ∀ d ∈ dataAt cache.heap p, (d.stale || expired d reply.now) = true →
          ∀ mid ∈ recomputeEarly cache key reply, dcFindEntry mid key = some (some p)))
  | .delete _ => isTrue trivial

/-- Each lookup of `key` in a run comes to entry `p`. -/
def AlwaysFinds (key : CStr) (p : Nat) : DcCache → List Op → Prop
  | _, [] => True
  | cache, op :: ops =>
      LookupsFind key p cache op ∧ ∀ r ∈ step cache op, AlwaysFinds key p r.1 ops

def decidableAlwaysFinds (key : CStr) (p : Nat) : (cache : DcCache) → (ops : List Op) →
    Decidable (AlwaysFinds key p cache ops)
  | _, [] => isTrue trivial
  | cache, op :: ops =>
      have : ∀ r : DcCache × Result, Decidable (AlwaysFinds key p r.1 ops) :=
        fun r => decidableAlwaysFinds key p r.1 ops
      inferInstanceAs (Decidable
        (LookupsFind key p cache op ∧ ∀ r ∈ step cache op, AlwaysFinds key p r.1 ops))

instance (key : CStr) (p : Nat) (cache : DcCache) (ops : List Op) :
    Decidable (AlwaysFinds key p cache ops) := decidableAlwaysFinds key p cache ops

structure Tracks (config : DcCacheConfig) (key : CStr) (p : Nat) (d : DcEntry)
    (cache : DcCache) : Prop where
  config_eq : cache.toDcCacheConfig = config
  old : p < cache.fresh
  key_eq : d.key = key
  data : ∀ d', dataAt cache.heap p = some d' → d' = d

section

variable {config : DcCacheConfig} {key : CStr} {p : Nat} {d : DcEntry} {cache cache' : DcCache}

theorem Tracks.found (h : Tracks config key p d cache)
    (hfind : dcFindEntry cache key = some (some p)) : dataAt cache.heap p = some d := by
  obtain ⟨d', hd', _⟩ := dcFindEntry_key hfind
  rw [hd', h.data d' hd']

theorem Tracks.other {k : CStr} {q : Nat} (h : Tracks config key p d cache) (hk : k ≠ key)
    (hfind : dcFindEntry cache k = some (some q)) : p ≠ q := by
  intro heq
  subst heq
  obtain ⟨d', hd', hkey⟩ := dcFindEntry_key hfind
  rw [h.data d' hd', h.key_eq] at hkey
  exact hk hkey.symm

theorem Tracks.keeps {changed : Nat → Prop} (h : Tracks config key p d cache)
    (hkeeps : Keeps changed cache cache') (hp : ¬ changed p) :
    Tracks config key p d cache' := by
  refine ⟨hkeeps.config_eq.trans h.config_eq, h.old.trans_le hkeeps.fresh_le, h.key_eq, ?_⟩
  intro d' hd'
  exact h.data d' (hkeeps.data p d' hp hd')

theorem Tracks.changes {d' : DcEntry} (h : Tracks config key p d cache)
    (hkeeps : Keeps (· = p) cache cache') (hkey : d'.key = d.key)
    (hd' : dataAt cache'.heap p = some d') : Tracks config key p d' cache' := by
  refine ⟨hkeeps.config_eq.trans h.config_eq, h.old.trans_le hkeeps.fresh_le,
    hkey.trans h.key_eq, ?_⟩
  intro e he
  exact Option.some.inj (he.symm.trans hd')

theorem Tracks.put {value : List UInt8} {ttlSeconds : Int} {clock : Clock}
    (h : Tracks config key p d cache) (hfind : dcFindEntry cache key = some (some p))
    (hput : dcCachePut cache key value ttlSeconds clock = some cache') :
    Tracks config key p (accept d value ttlSeconds clock.now) cache' ∧
      dataAt cache'.heap p = some (accept d value ttlSeconds clock.now) := by
  obtain ⟨hkeeps, e, he, he'⟩ := dcCachePut_found hfind hput
  rw [h.data e he] at he'
  exact ⟨h.changes hkeeps rfl he', he'⟩

theorem Tracks.put_other {k : CStr} {value : List UInt8} {ttlSeconds : Int} {clock : Clock}
    (h : Tracks config key p d cache) (hk : k ≠ key)
    (hput : dcCachePut cache k value ttlSeconds clock = some cache') :
    Tracks config key p d cache' := by
  cases hfind : dcFindEntry cache k with
  | none => simp [dcCachePut, hfind] at hput
  | some found =>
      cases found with
      | none =>
          obtain ⟨q, hq, _, hkeeps, _, _⟩ := dcCachePut_new hfind hput
          exact h.keeps hkeeps (Nat.ne_of_lt (h.old.trans_le hq))
      | some q =>
          obtain ⟨hkeeps, _⟩ := dcCachePut_found hfind hput
          exact h.keeps hkeeps (h.other hk hfind)

theorem Tracks.read {answer : Answer} {v : Option (List UInt8)}
    (h : Tracks config key p d cache) (hfind : dcFindEntry cache key = some (some p))
    (hread : readBackend cache key answer = some (cache', v)) :
    Tracks config key p (refresh config d answer) cache' := by
  have hconfig : cache.backendRead = config.backendRead :=
    congrArg DcCacheConfig.backendRead h.config_eq
  rcases readBackend_cases hread with ⟨hsilent, rfl⟩ | ⟨value, hbackend, hvalue, hput⟩
  · have hsame : refresh config d answer = d := by
      unfold refresh
      rw [← hconfig]
      rcases hsilent with hoff | hnone
      · simp [hoff]
      · simp [hnone]
    rw [hsame]
    exact h
  · have hwrite : refresh config d answer =
        accept d value dcDefaultTtlSec answer.clock.now := by
      unfold refresh
      rw [← hconfig, if_pos hbackend, hvalue]
    rw [hwrite]
    exact (h.put hfind hput).1

theorem Tracks.read_other {k : CStr} {answer : Answer} {v : Option (List UInt8)}
    (h : Tracks config key p d cache) (hk : k ≠ key)
    (hread : readBackend cache k answer = some (cache', v)) :
    Tracks config key p d cache' := by
  rcases readBackend_cases hread with ⟨_, rfl⟩ | ⟨value, _, _, hput⟩
  · exact h
  · exact h.put_other hk hput

/-! ## Calls -/

theorem hit_keeps {q : Nat} {now : Int} {v : Option (List UInt8)}
    (h : hit cache q now = some (cache', v)) :
    Keeps (· = q) cache cache' ∧ ∃ e, dataAt cache.heap q = some e ∧
      dataAt cache'.heap q =
        some { e with lastAccess := now, accessCount := e.accessCount + 1 } := by
  simp only [hit, Option.bind_eq_bind, Option.bind_eq_some_iff] at h
  obtain ⟨heap, hmodify, mid, htouch, e, _, heq⟩ := h
  cases heq
  obtain ⟨node, hq, rfl⟩ := modifyNode_some hmodify
  constructor
  · apply Keeps.trans _ (dcLruTouch_keeps (· = q) htouch)
    refine ⟨rfl, le_rfl, ?_⟩
    intro r e hr he
    exact (dataAt_update_of_ne hr cache.heap _).symm.trans he
  · refine ⟨node.data, congrArg (Option.map Node.data) hq, ?_⟩
    rw [dcLruTouch_dataAt htouch]
    exact dataAt_update_self ..

theorem Tracks.get {reply : Reply} {v : Option (List UInt8)} (h : Tracks config key p d cache)
    (hfind : LookupsFind key p cache (.get key reply))
    (hget : dcCacheGet cache key reply = some (cache', v)) :
    Tracks config key p (entryStep config key d (.get key reply)) cache' := by
  obtain ⟨hfirst, hagain⟩ := hfind rfl
  have hd := h.found hfirst
  simp only [dcCacheGet, hfirst, Option.bind_eq_bind, Option.bind_some,
    Option.bind_eq_some_iff] at hget
  obtain ⟨node, hnode, hget⟩ := hget
  have hdata : node.data = d := by
    rw [dataAt, hnode] at hd
    exact Option.some.inj hd
  rw [hdata] at hget
  simp only [entryStep, ne_eq, not_true_eq_false, if_false]
  by_cases hstale : (d.stale || expired d reply.now) = true
  · rw [if_pos hstale] at hget ⊢
    obtain ⟨mid, hearly, hread⟩ := Option.bind_eq_some_iff.mp hget
    have hmid := hagain d hd hstale mid hearly
    have hconfig : cache.stampedeProtection = config.stampedeProtection :=
      congrArg DcCacheConfig.stampedeProtection h.config_eq
    unfold recomputeEarly at hearly
    rw [hconfig] at hearly
    split at hearly
    · rename_i hdraw
      simp only [Option.bind_eq_bind, Option.bind_eq_some_iff] at hearly
      obtain ⟨⟨mid', v'⟩, hread', heq⟩ := hearly
      cases heq
      rw [if_pos hdraw]
      exact (h.read hfirst hread').read hmid hread
    · rename_i hdraw
      cases hearly
      rw [if_neg hdraw]
      exact h.read hmid hread
  · rw [if_neg hstale] at hget ⊢
    obtain ⟨hkeeps, e, he, he'⟩ := hit_keeps hget
    rw [h.data e he] at he'
    exact h.changes hkeeps rfl he'

theorem Tracks.get_other {k : CStr} {reply : Reply} {v : Option (List UInt8)}
    (h : Tracks config key p d cache) (hk : k ≠ key)
    (hget : dcCacheGet cache k reply = some (cache', v)) : Tracks config key p d cache' := by
  simp only [dcCacheGet, Option.bind_eq_bind, Option.bind_eq_some_iff] at hget
  obtain ⟨found, hfind, hget⟩ := hget
  cases found with
  | none =>
      apply Tracks.read_other _ hk hget
      exact ⟨h.config_eq, h.old, h.key_eq, h.data⟩
  | some q =>
      simp only [Option.bind_eq_some_iff] at hget
      obtain ⟨node, _, hget⟩ := hget
      split at hget
      · obtain ⟨mid, hearly, hread⟩ := Option.bind_eq_some_iff.mp hget
        apply Tracks.read_other _ hk hread
        unfold recomputeEarly at hearly
        split at hearly
        · simp only [Option.bind_eq_bind, Option.bind_eq_some_iff] at hearly
          obtain ⟨r, hread', heq⟩ := hearly
          cases heq
          exact h.read_other hk hread'
        · cases hearly
          exact h
      · obtain ⟨hkeeps, _⟩ := hit_keeps hget
        exact h.keeps hkeeps (h.other hk hfind)

theorem putWithVersion_decides {value : List UInt8} {ttlSeconds : Int}
    {vv : Option DcVersionVector} {clock : Clock} (hfind : dcFindEntry cache key = some (some p))
    (hd : dataAt cache.heap p = some d) :
    dcCachePutWithVersion cache key value ttlSeconds vv clock =
      if Outdated vv d.accessCount then some cache
      else dcCachePut cache key value ttlSeconds clock := by
  obtain ⟨node, hnode, hdata⟩ := Option.map_eq_some_iff.mp hd
  have hskip : (vv.any fun vv =>
      decide (vv.nodeCount > 0) && dcVvCompare vv (existingVv node.data) == -1) = true ↔
        Outdated vv d.accessCount := by
    cases vv with
    | none => simp [Outdated]
    | some v =>
        simp [Outdated, dcVvCompare_eq_neg_one_iff, components_existingVv, hdata]
  simp only [dcCachePutWithVersion, hfind, hnode, Option.bind_eq_bind, Option.bind_some]
  by_cases hlate : Outdated vv d.accessCount
  · rw [if_pos (hskip.mpr hlate), if_pos hlate]
  · rw [if_neg (fun h => hlate (hskip.mp h)), if_neg hlate]

theorem putWithVersion_other {k : CStr} {value : List UInt8} {ttlSeconds : Int}
    {vv : Option DcVersionVector} {clock : Clock}
    (h : dcCachePutWithVersion cache k value ttlSeconds vv clock = some cache') :
    cache' = cache ∨ dcCachePut cache k value ttlSeconds clock = some cache' := by
  simp only [dcCachePutWithVersion, Option.bind_eq_bind, Option.bind_eq_some_iff] at h
  obtain ⟨found, _, h⟩ := h
  cases found with
  | none => exact Or.inr h
  | some q =>
      simp only [Option.bind_eq_some_iff] at h
      obtain ⟨node, _, h⟩ := h
      split at h
      · cases h
        exact Or.inl rfl
      · exact Or.inr h

/-! ## Runs -/

theorem Tracks.step {op : Op} {result : Result} (h : Tracks config key p d cache)
    (hfind : LookupsFind key p cache op) (hstep : Cache.step cache op = some (cache', result)) :
    Tracks config key p (entryStep config key d op) cache' := by
  cases op with
  | put k value ttlSeconds clock =>
      simp only [Cache.step, Option.bind_eq_bind, Option.bind_eq_some_iff] at hstep
      obtain ⟨mid, hput, heq⟩ := hstep
      cases heq
      by_cases hk : k = key
      · subst hk
        rw [entryStep, if_pos rfl]
        exact (h.put (hfind rfl) hput).1
      · rw [entryStep, if_neg hk]
        exact h.put_other hk hput
  | putWithVersion k value ttlSeconds vv clock =>
      simp only [Cache.step, Option.bind_eq_bind, Option.bind_eq_some_iff] at hstep
      obtain ⟨mid, hput, heq⟩ := hstep
      cases heq
      by_cases hk : k = key
      · subst hk
        rw [putWithVersion_decides (hfind rfl) (h.found (hfind rfl))] at hput
        by_cases hlate : Outdated vv d.accessCount
        · rw [if_pos hlate] at hput
          cases hput
          rw [entryStep, if_neg (fun hboth => hboth.2 hlate)]
          exact h
        · rw [if_neg hlate] at hput
          rw [entryStep, if_pos ⟨rfl, hlate⟩]
          exact (h.put (hfind rfl) hput).1
      · rw [entryStep, if_neg (fun hboth => hk hboth.1)]
        rcases putWithVersion_other hput with rfl | hput
        · exact h
        · exact h.put_other hk hput
  | get k reply =>
      simp only [Cache.step, Option.bind_eq_bind, Option.bind_eq_some_iff] at hstep
      obtain ⟨r, hget, heq⟩ := hstep
      cases heq
      by_cases hk : k = key
      · subst hk
        exact h.get hfind hget
      · rw [entryStep, if_pos hk]
        exact h.get_other hk hget
  | delete k =>
      simp only [Cache.step, Option.bind_eq_bind, Option.bind_eq_some_iff] at hstep
      obtain ⟨r, hdelete, heq⟩ := hstep
      cases heq
      exact h.keeps (dcCacheDelete_keeps hdelete) not_false

theorem Tracks.run {ops : List Op} {results : List Result} (h : Tracks config key p d cache)
    (hfind : AlwaysFinds key p cache ops) (hrun : runAll cache ops = some (cache', results)) :
    Tracks config key p (ops.foldl (entryStep config key) d) cache' := by
  induction ops generalizing cache d results with
  | nil =>
      cases hrun
      exact h
  | cons op ops ih =>
      simp only [runAll, Option.bind_eq_bind, Option.bind_eq_some_iff] at hrun
      obtain ⟨⟨mid, result⟩, hstep, ⟨last, results'⟩, hrest, heq⟩ := hrun
      cases heq
      exact ih (h.step hfind.1 hstep) (hfind.2 _ hstep) hrest

theorem insertion_tracks {start : DcCache} {value : List UInt8} {ttlSeconds : Int}
    {vv : Option DcVersionVector} {clock : Clock} (hnew : dcFindEntry start key = some none)
    (hput : dcCachePutWithVersion start key value ttlSeconds vv clock = some cache)
    (hp : dcFindEntry cache key = some (some p)) :
    Tracks start.toDcCacheConfig key p
      ⟨key, value, ttlSeconds, clock.now, clock.now, 1, false⟩ cache := by
  simp only [dcCachePutWithVersion, hnew, Option.bind_eq_bind, Option.bind_some] at hput
  obtain ⟨q, _, hlt, hkeeps, hfound, hd⟩ := dcCachePut_new hnew hput
  have heq : p = q := by
    rw [hp] at hfound
    simpa using hfound
  subst heq
  refine ⟨hkeeps.config_eq, hlt, rfl, ?_⟩
  intro d' hd'
  exact Option.some.inj (hd'.symm.trans hd)

end

/-- From its insertion on, an entry is written and counted as `entryStep` says, as long as
lookups of its key find it.  A write with a vector dominated by the number of accesses is
dropped and changes nothing, and any other write is stored. -/
theorem versioned_writes_follow_access_count {start cache last : DcCache} {key : CStr}
    {value : List UInt8} {ttlSeconds : Int} {vv : Option DcVersionVector} {clock : Clock}
    {p : Nat} {ops : List Op} {results : List Result}
    (hnew : dcFindEntry start key = some none)
    (hput : dcCachePutWithVersion start key value ttlSeconds vv clock = some cache)
    (hp : dcFindEntry cache key = some (some p)) (hfinds : AlwaysFinds key p cache ops)
    (hrun : runAll cache ops = some (last, results))
    (hlast : dcFindEntry last key = some (some p)) :
    ∃ d, d = ops.foldl (entryStep start.toDcCacheConfig key)
        ⟨key, value, ttlSeconds, clock.now, clock.now, 1, false⟩ ∧
      dataAt last.heap p = some d ∧
      (∀ value ttlSeconds vv clock, Outdated vv d.accessCount →
        dcCachePutWithVersion last key value ttlSeconds vv clock = some last) ∧
      ∀ value ttlSeconds vv clock last', ¬ Outdated vv d.accessCount →
        dcCachePutWithVersion last key value ttlSeconds vv clock = some last' →
        dataAt last'.heap p = some (accept d value ttlSeconds clock.now) := by
  have htracks := (insertion_tracks hnew hput hp).run hfinds hrun
  have hd := htracks.found hlast
  refine ⟨_, rfl, hd, ?_, ?_⟩
  · intro value ttlSeconds vv clock hlate
    rw [putWithVersion_decides hlast hd, if_pos hlate]
  · intro value ttlSeconds vv clock last' hlate hwrite
    rw [putWithVersion_decides hlast hd, if_neg hlate] at hwrite
    exact (htracks.put hlast hwrite).2

def localConfig : DcCacheConfig where
  maxEntries := 100
  maxMemoryBytes := 65536
  evictionPolicy := .lfu
  stampedeProtection := true
  writeStrategy := .behind
  backendRead := false
  backendWrite := false
  onEvict := false

def morning : Clock := ⟨28800, []⟩

def readAt (now : Int) : Reply := ⟨now, false, ⟨none, morning⟩, ⟨none, morning⟩⟩

/-- The vector of one node. -/
def single (counter : Int) : DcVersionVector :=
  ⟨Vector.ofFn fun i => if i.val = 0 then counter else 0, 1⟩

/-- Reads, and writes on this and another key. -/
def mixedOps : List Op :=
  [.get (lit "k") (readAt 28801), .putWithVersion (lit "j") [7] 0 (some (single 9)) morning,
    .putWithVersion (lit "k") [2] 60 (some (single 1)) morning,
    .putWithVersion (lit "k") [3] 60 (some (single 4)) morning]

theorem versioned_writes_follow_access_count_mixed :
    ∃ cache last results,
      dcCachePutWithVersion (dcCacheCreate localConfig) (lit "k") [1] 60 (some (single 5))
        morning = some cache ∧
      runAll cache mixedOps = some (last, results) ∧
      ∃ d, d = mixedOps.foldl (entryStep localConfig (lit "k"))
          ⟨lit "k", [1], 60, 28800, 28800, 1, false⟩ ∧
        dataAt last.heap 0 = some d ∧
        (∀ value ttlSeconds vv clock, Outdated vv d.accessCount →
          dcCachePutWithVersion last (lit "k") value ttlSeconds vv clock = some last) ∧
        ∀ value ttlSeconds vv clock last', ¬ Outdated vv d.accessCount →
          dcCachePutWithVersion last (lit "k") value ttlSeconds vv clock = some last' →
          dataAt last'.heap 0 = some (accept d value ttlSeconds clock.now) := by
  have hruns : ∃ cache ∈ dcCachePutWithVersion (dcCacheCreate localConfig) (lit "k") [1] 60
        (some (single 5)) morning,
      dcFindEntry cache (lit "k") = some (some 0) ∧ AlwaysFinds (lit "k") 0 cache mixedOps ∧
      ∃ r ∈ runAll cache mixedOps, dcFindEntry r.1 (lit "k") = some (some 0) := by
    decide
  obtain ⟨cache, hput, hp, hfinds, ⟨last, results⟩, hrun, hlast⟩ := hruns
  refine ⟨cache, last, results, hput, hrun, ?_⟩
  have hnew : dcFindEntry (dcCacheCreate localConfig) (lit "k") = some none := by
    decide
  exact versioned_writes_follow_access_count hnew hput hp hfinds hrun hlast

/-- A write older than the last one is stored while the entry was accessed less often, and a
newer one is dropped after enough reads. -/
theorem last_vector_is_forgotten :
    components (single 3) < components (single 5) ∧
      (runAll (dcCacheCreate localConfig)
        [.putWithVersion (lit "k") [1] 0 (some (single 5)) morning,
          .putWithVersion (lit "k") [2] 0 (some (single 3)) morning,
          .get (lit "k") (readAt 28801)]).map Prod.snd =
        some [.stored, .stored, .got (some [2])] ∧
      components (single 1) < components (single 2) ∧
      (runAll (dcCacheCreate localConfig)
        [.putWithVersion (lit "k") [1] 0 (some (single 1)) morning,
          .get (lit "k") (readAt 28801), .get (lit "k") (readAt 28802),
          .putWithVersion (lit "k") [2] 0 (some (single 2)) morning,
          .get (lit "k") (readAt 28803)]).map Prod.snd =
        some [.stored, .got (some [1]), .got (some [1]), .stored, .got (some [1])] := by
  refine ⟨?_, ?_, ?_, ?_⟩
  · decide
  · decide
  · decide
  · decide

/-!
# Version vectors

The functions compare and join the component functions, where the components behind the size of a
vector are zero.  The laws of the vectors are those of the pointwise order.
-/

section VersionVectors

open MiniBackend.Infra.Cache

/-- Equal to `b`, or before `b`. -/
def AtMost (a b : DcVersionVector) : Prop := dcVvCompare a b = 0 ∨ dcVvCompare a b = -1

/-! ## Comparison -/

theorem dcVvCompare_eq_zero_iff (a b : DcVersionVector) :
    dcVvCompare a b = 0 ↔ components a = components b := by
  rw [(dcVvCompare_spec a b).1, le_antisymm_iff]
  exact and_comm

theorem dcVvCompare_eq_one_iff (a b : DcVersionVector) :
    dcVvCompare a b = 1 ↔ components b < components a := by
  rw [(dcVvCompare_spec a b).2.1, lt_iff_le_not_ge]

theorem dcVvCompare_eq_two_iff (a b : DcVersionVector) :
    dcVvCompare a b = 2 ↔ ¬components a ≤ components b ∧ ¬components b ≤ components a :=
  (dcVvCompare_spec a b).2.2.2

theorem atMost_iff (a b : DcVersionVector) : AtMost a b ↔ components a ≤ components b := by
  rw [AtMost, dcVvCompare_eq_zero_iff, dcVvCompare_eq_neg_one_iff, le_iff_eq_or_lt]

/-! ## Merge -/

theorem dcVvMerge_nodeCount (result a b : DcVersionVector) :
    (dcVvMerge result a b).nodeCount = min (max a.nodeCount b.nodeCount) dcMaxVvNodes := by
  simp only [dcVvMerge]
  omega

theorem dcVvMerge_counters (result a b : DcVersionVector) (i : Fin dcMaxVvNodes) :
    (dcVvMerge result a b).counters[i]? = some (if (i.val : Int) < (dcVvMerge result a b).nodeCount
      then (components a ⊔ components b) i else result.counters.get i) := by
  have hlarger : (if component a i > component b i then component a i else component b i) =
      (components a ⊔ components b) i := by
    change _ = max (component a i) (component b i)
    omega
  rw [← hlarger]
  exact Vector.getElem?_ofFn.trans (dif_pos i.isLt)

theorem components_dcVvMerge (result a b : DcVersionVector) :
    components (dcVvMerge result a b) = components a ⊔ components b := by
  funext i
  have hcount := dcVvMerge_nodeCount result a b
  have hcounter := dcVvMerge_counters result a b i
  by_cases hvisited : (i.val : Int) < (dcVvMerge result a b).nodeCount
  · rw [if_pos hvisited] at hcounter
    exact (if_pos hvisited).trans (congrArg (Option.getD · 0) hcounter)
  · have hsmall := i.isLt
    have ha : component a i = 0 := component_of_le (by omega)
    have hb : component b i = 0 := component_of_le (by omega)
    change component (dcVvMerge result a b) i = max (component a i) (component b i)
    rw [component_of_le (by omega), ha, hb, max_self]

/-- The merged vector is what its size, its components and the old counters determine. -/
theorem dcVvMerge_congr {result a b c d : DcVersionVector}
    (hcount : (dcVvMerge result a b).nodeCount = (dcVvMerge result c d).nodeCount)
    (hcomponents : components a ⊔ components b = components c ⊔ components d) :
    dcVvMerge result a b = dcVvMerge result c d := by
  have hcounters : (dcVvMerge result a b).counters = (dcVvMerge result c d).counters := by
    ext i hi
    have hleft := dcVvMerge_counters result a b ⟨i, hi⟩
    have hright := dcVvMerge_counters result c d ⟨i, hi⟩
    rw [hcount, hcomponents] at hleft
    have hsame := hleft.trans hright.symm
    change (dcVvMerge result a b).counters[i]? = (dcVvMerge result c d).counters[i]? at hsame
    rw [Vector.getElem?_eq_getElem hi, Vector.getElem?_eq_getElem hi] at hsame
    exact Option.some.inj hsame
  cases hleft : dcVvMerge result a b
  cases hright : dcVvMerge result c d
  rw [hleft, hright] at hcount hcounters
  cases hcount
  cases hcounters
  rfl

theorem dcVvMerge_comm (result a b : DcVersionVector) :
    dcVvMerge result a b = dcVvMerge result b a := by
  apply dcVvMerge_congr
  · rw [dcVvMerge_nodeCount, dcVvMerge_nodeCount, max_comm]
  · exact sup_comm _ _

theorem dcVvMerge_assoc (result left right a b c : DcVersionVector) :
    dcVvMerge result (dcVvMerge left a b) c = dcVvMerge result a (dcVvMerge right b c) := by
  apply dcVvMerge_congr
  · rw [dcVvMerge_nodeCount, dcVvMerge_nodeCount, dcVvMerge_nodeCount, dcVvMerge_nodeCount]
    omega
  · rw [components_dcVvMerge, components_dcVvMerge]
    exact sup_assoc _ _ _

/-! ## The semilattice -/

/-- The comparison is a partial order of the components, and the merge is its join. -/
theorem version_vectors_semilattice :
    (∀ a, dcVvCompare a a = 0) ∧
      (∀ a b, AtMost a b → AtMost b a → components a = components b) ∧
      (∀ a b c, AtMost a b → AtMost b c → AtMost a c) ∧
      (∀ a b, dcVvCompare a b = -1 ↔ dcVvCompare b a = 1) ∧
      (∀ a b, dcVvCompare a b = 2 ↔ dcVvCompare b a = 2) ∧
      (∀ a b, dcVvCompare a b = 2 ↔ ¬AtMost a b ∧ ¬AtMost b a) ∧
      (∀ a b, AtMost a b ↔ ∀ i, components a i ≤ components b i) ∧
      (∀ result a b, AtMost a (dcVvMerge result a b) ∧ AtMost b (dcVvMerge result a b) ∧
        ∀ c, AtMost a c → AtMost b c → AtMost (dcVvMerge result a b) c) ∧
      (∀ result a b, dcVvMerge result a b = dcVvMerge result b a) ∧
      (∀ result left right a b c,
        dcVvMerge result (dcVvMerge left a b) c = dcVvMerge result a (dcVvMerge right b c)) ∧
      ∀ result a, components (dcVvMerge result a a) = components a ∧
        (dcVvMerge result a a).nodeCount = min a.nodeCount dcMaxVvNodes := by
  refine ⟨fun a => (dcVvCompare_eq_zero_iff a a).2 rfl, ?_, ?_, ?_, ?_, ?_,
    fun a b => atMost_iff a b, ?_, dcVvMerge_comm, dcVvMerge_assoc, ?_⟩
  · intro a b hab hba
    rw [atMost_iff] at hab hba
    exact le_antisymm hab hba
  · intro a b c hab hbc
    rw [atMost_iff] at hab hbc ⊢
    exact le_trans hab hbc
  · intro a b
    rw [dcVvCompare_eq_neg_one_iff, dcVvCompare_eq_one_iff]
  · intro a b
    rw [dcVvCompare_eq_two_iff, dcVvCompare_eq_two_iff]
    exact and_comm
  · intro a b
    rw [dcVvCompare_eq_two_iff, atMost_iff, atMost_iff]
  · intro result a b
    simp only [atMost_iff, components_dcVvMerge]
    exact ⟨le_sup_left, le_sup_right, fun c => sup_le⟩
  · intro result a
    rw [components_dcVvMerge, dcVvMerge_nodeCount, sup_idem, max_self]
    exact ⟨rfl, rfl⟩

end VersionVectors

end MiniBackend.Infra.Proofs.VersionedWrites
