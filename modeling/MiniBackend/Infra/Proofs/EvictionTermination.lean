import MiniBackend.Infra.Proofs.EvictionRounds

/-!
# The loops of `dc_cache_put` that make room

A loop ends when the entries that no round takes out leave room for the new one, and no round
breaks the recency list.  Rounds that take nothing out wait for the clock.
-/

namespace MiniBackend.Infra.Proofs.EvictionTermination

open MiniBackend.Infra.Cache
open MiniBackend.Infra.Proofs.CacheData MiniBackend.Infra.Proofs.CacheMap
open MiniBackend.Infra.Proofs.RecencyList MiniBackend.Infra.Proofs.EvictionRounds
open MiniBackend.Lib.CString MiniBackend.Lib.LinkedHeap

variable {cache cache' : DcCache} {l : Listed} {full : DcCache → Bool}

/-! ## Readings of the clock -/

/-- The first readings of a clock. -/
def readings (ticks : Nat → Int) : Nat → List Int
  | 0 => []
  | n + 1 => ticks 0 :: readings (fun k => ticks (k + 1)) n

/-- Every time is reached again and again. -/
def GoesOn (ticks : Nat → Int) : Prop := ∀ t start, ∃ n, start ≤ n ∧ t ≤ ticks n

theorem GoesOn.later {ticks : Nat → Int} (h : GoesOn ticks) (n : Nat) :
    GoesOn fun k => ticks (k + n) := by
  intro t start
  obtain ⟨m, hm, ht⟩ := h t (start + n)
  refine ⟨m - n, by omega, ?_⟩
  have hmn : m - n + n = m := Nat.sub_add_cancel (by omega)
  change t ≤ ticks (m - n + n)
  rw [hmn]
  exact ht

theorem readings_add (ticks : Nat → Int) (n m : Nat) :
    readings ticks (n + m) = readings ticks n ++ readings (fun k => ticks (k + n)) m := by
  induction n generalizing ticks with
  | zero => rw [Nat.zero_add]; rfl
  | succ n ih =>
      rw [Nat.succ_add, readings, ih, readings, List.cons_append]
      simp only [Nat.add_assoc]

theorem exists_late {ticks : Nat → Int} (h : GoesOn ticks) (l : Listed) :
    ∃ k, Late (ticks k) l := by
  obtain ⟨t, ht⟩ : ∃ t, ∀ x ∈ l, x.2.ttlSeconds < t - x.2.createdAt := by
    induction l with
    | nil => exact ⟨0, fun x hx => absurd hx List.not_mem_nil⟩
    | cons y l ih =>
        obtain ⟨t, ht⟩ := ih
        refine ⟨max t (y.2.ttlSeconds + y.2.createdAt + 1), ?_⟩
        intro x hx
        rcases List.mem_cons.mp hx with rfl | hmem
        · omega
        · have hx' := ht x hmem
          omega
  obtain ⟨k, _, hk⟩ := h t 0
  refine ⟨k, ?_⟩
  intro x hx
  have hx' := ht x hx
  omega

/-! ## A loop -/

theorem evictWhile_stop (hfull : full cache = false) (times : List Int) :
    evictWhile full times cache = some (cache, times) := by
  unfold evictWhile
  rw [hfull]
  rfl

theorem evictWhile_round (hfull : full cache = true) (now : Int) (times : List Int)
    (hone : dcEvictOne cache now = some cache') :
    evictWhile full (now :: times) cache = evictWhile full times cache' := by
  rw [evictWhile, if_pos hfull]
  simp only [Option.bind_eq_bind, hone, Option.bind_some]

theorem evictWhile_append {times rest : List Int}
    (h : evictWhile full times cache = some (cache', rest)) (more : List Int) :
    evictWhile full (times ++ more) cache = some (cache', rest ++ more) := by
  induction times generalizing cache with
  | nil =>
      cases hfull : full cache with
      | false =>
          rw [evictWhile_stop hfull] at h
          cases h
          rw [evictWhile_stop hfull]
      | true =>
          rw [evictWhile, if_pos hfull] at h
          cases h
  | cons now times ih =>
      cases hfull : full cache with
      | false =>
          rw [evictWhile_stop hfull] at h
          cases h
          rw [evictWhile_stop hfull]
      | true =>
          rw [evictWhile, if_pos hfull] at h
          simp only [Option.bind_eq_bind, Option.bind_eq_some_iff] at h
          obtain ⟨mid, hone, hrest⟩ := h
          rw [List.cons_append, evictWhile_round hfull now _ hone]
          exact ih hrest

def SafeRounds (full : DcCache → Bool) : List Int → DcCache → Prop
  | [], _ => True
  | now :: times, cache =>
      full cache = true → SafeEvict cache now ∧
        ∀ cache' ∈ dcEvictOne cache now, SafeRounds full times cache'

theorem SafeRounds.of_stop (hfull : full cache = false) (times : List Int) :
    SafeRounds full times cache := by
  cases times with
  | nil => trivial
  | cons now times =>
      intro htrue
      rw [hfull] at htrue
      cases htrue

/-- What some rounds leave, when the loop then goes on with the rest of the readings. -/
theorem Linked.evictWhile {key : CStr} {j : Nat} {times : List Int}
    {r : DcCache × List Int} (h : Linked cache l) (hindex : bucketIndex cache key = some j)
    (hsafe : SafeRounds full times cache)
    (hloop : Cache.evictWhile full times cache = some r) :
    ∃ l', Evicted cache r.1 l l' := by
  induction times generalizing cache l with
  | nil =>
      cases hfull : full cache with
      | false =>
          rw [evictWhile_stop hfull] at hloop
          cases hloop
          exact ⟨l, Evicted.refl h⟩
      | true =>
          rw [Cache.evictWhile, if_pos hfull] at hloop
          cases hloop
  | cons now times ih =>
      cases hfull : full cache with
      | false =>
          rw [evictWhile_stop hfull] at hloop
          cases hloop
          exact ⟨l, Evicted.refl h⟩
      | true =>
          obtain ⟨hround, hlater⟩ := hsafe hfull
          obtain ⟨mid, m, hone, hevicted, _⟩ := Linked.evictOne h hindex hround
          rw [evictWhile_round hfull now times hone] at hloop
          have hindex' : bucketIndex mid key = some j := by
            rw [bucketIndex, hevicted.bucketCount]
            exact hindex
          obtain ⟨l', hrest⟩ := ih hevicted.linked hindex' (hlater mid hone) hloop
          exact ⟨l', hevicted.trans hrest⟩

def EndsAt (full : DcCache → Bool) (cache : DcCache) (stay : Listed) : Prop :=
  ∀ c l, Linked c l → c.toDcCacheConfig = cache.toDcCacheConfig → staying c l = stay →
    l = stay → full c = false

theorem loop_until_late {key : CStr} {j : Nat} {stay : Listed} (k : Nat) {ticks : Nat → Int}
    (h : Linked cache l) (hindex : bucketIndex cache key = some j)
    (hends : EndsAt full cache stay) (hstay : staying cache l = stay)
    (hsafe : ∀ n, SafeRounds full (readings ticks n) cache) (hlate : Late (ticks k) l) :
    (∃ n c l', evictWhile full (readings ticks n) cache = some (c, []) ∧
        Evicted cache c l l') ∨
      ∃ n c l', (∀ times, evictWhile full (readings ticks n ++ times) cache =
          evictWhile full times c) ∧ Evicted cache c l l' ∧ l'.length < l.length ∧
        ∀ m, SafeRounds full (readings (fun i => ticks (i + n)) m) c := by
  induction k generalizing cache l ticks with
  | zero =>
      cases hfull : full cache with
      | false =>
          exact .inl ⟨0, cache, l, evictWhile_stop hfull [], Evicted.refl h⟩
      | true =>
          obtain ⟨hround, _⟩ := hsafe 1 hfull
          obtain ⟨mid, m, hone, hevicted, hlt⟩ := Linked.evictOne h hindex hround
          have hne : l ≠ staying cache l := by
            intro heq
            rw [hends cache l h rfl hstay (heq.trans hstay)] at hfull
            cases hfull
          refine .inr ⟨1, mid, m, ?_, hevicted, hlt hlate hne, ?_⟩
          · intro times
            exact evictWhile_round hfull (ticks 0) times hone
          · intro n
            exact (hsafe (n + 1) hfull).2 mid hone
  | succ k ih =>
      cases hfull : full cache with
      | false =>
          exact .inl ⟨0, cache, l, evictWhile_stop hfull [], Evicted.refl h⟩
      | true =>
          obtain ⟨hround, _⟩ := hsafe 1 hfull
          obtain ⟨mid, m, hone, hevicted, _⟩ := Linked.evictOne h hindex hround
          have hindex' : bucketIndex mid key = some j := by
            rw [bucketIndex, hevicted.bucketCount]
            exact hindex
          have hends' : EndsAt full mid stay := by
            intro c l' hc hconfig
            exact hends c l' hc (hconfig.trans hevicted.config)
          have hlate' : Late (ticks (k + 1)) m := fun x hx =>
            hlate x (hevicted.sublist.subset hx)
          rcases @ih mid m (fun i => ticks (i + 1)) hevicted.linked hindex' hends'
            (hevicted.staying.trans hstay) (fun n => (hsafe (n + 1) hfull).2 mid hone)
            hlate' with ⟨n, c, l', hloop, hrest⟩ | ⟨n, c, l', hloop, hrest, hlt, hlater⟩
          · refine .inl ⟨n + 1, c, l', ?_, hevicted.trans hrest⟩
            rw [readings, evictWhile_round hfull _ _ hone]
            exact hloop
          · refine .inr ⟨n + 1, c, l', ?_, hevicted.trans hrest, ?_, ?_⟩
            · intro times
              rw [readings, List.cons_append, evictWhile_round hfull _ _ hone]
              exact hloop times
            · exact Nat.lt_of_lt_of_le hlt hevicted.sublist.length_le
            · intro i
              have hshift := hlater i
              simp only [Nat.add_assoc] at hshift
              exact hshift

/-- The number of entries is the measure: a late reading comes again and again. -/
theorem loop_terminates {key : CStr} {j : Nat} {stay : Listed} {ticks : Nat → Int}
    (h : Linked cache l) (hindex : bucketIndex cache key = some j)
    (hends : EndsAt full cache stay) (hstay : staying cache l = stay)
    (hsafe : ∀ n, SafeRounds full (readings ticks n) cache) (hticks : GoesOn ticks) :
    ∃ n c l', evictWhile full (readings ticks n) cache = some (c, []) ∧
      Evicted cache c l l' := by
  induction hlength : l.length using Nat.strongRecOn generalizing cache l ticks with
  | ind length ih =>
      subst hlength
      obtain ⟨k, hlate⟩ := exists_late hticks l
      rcases loop_until_late k h hindex hends hstay hsafe hlate with
        hdone | ⟨n, mid, m, hloop, hevicted, hlt, hlater⟩
      · exact hdone
      · have hindex' : bucketIndex mid key = some j := by
          rw [bucketIndex, hevicted.bucketCount]
          exact hindex
        have hends' : EndsAt full mid stay := by
          intro c l' hc hconfig
          exact hends c l' hc (hconfig.trans hevicted.config)
        obtain ⟨i, c, l', hrest, hevicted'⟩ := ih m.length hlt hevicted.linked hindex' hends'
          (hevicted.staying.trans hstay) hlater (hticks.later n) rfl
        refine ⟨n + i, c, l', ?_, hevicted.trans hevicted'⟩
        rw [readings_add, hloop]
        exact hrest

/-! ## Both loops -/

def entriesFull (cache : DcCache) : Bool :=
  decide (cache.maxEntries > 0) && decide (cache.entryCount ≥ cache.maxEntries)

def memoryFull (key : CStr) (value : List UInt8) (cache : DcCache) : Bool :=
  decide (cache.maxMemoryBytes > 0) &&
    decide (cache.memoryUsed + footprint key value > cache.maxMemoryBytes)

theorem makeRoom_eq (cache : DcCache) (key : CStr) (value : List UInt8) (rounds : List Int) :
    makeRoom cache key value rounds =
      (evictWhile entriesFull rounds cache).bind fun r =>
        (evictWhile (memoryFull key value) r.2 r.1).map Prod.fst := by
  unfold makeRoom
  simp only [Option.bind_eq_bind, Option.map_eq_bind]
  rfl

def recency (cache : DcCache) : Listed := nodesFrom cache.heap cache.fresh cache.lruHead

theorem Linked.recency_eq (h : Linked cache l) : recency cache = l := by
  rw [recency, h.head_eq]
  exact h.segment.nodesFrom_eq h.length_le

/-- The entries that no round takes out leave room for the new one. -/
structure Fits (cache : DcCache) (key : CStr) (value : List UInt8) : Prop where
  entries : 0 < cache.maxEntries →
    (staying cache (recency cache)).length < cache.maxEntries
  memory : 0 < cache.maxMemoryBytes →
    weight (staying cache (recency cache)) + footprint key value ≤ cache.maxMemoryBytes

theorem Fits.entriesFull (hfits : Fits cache key value) (h : Linked cache l) :
    EndsAt EvictionTermination.entriesFull cache (staying cache l) := by
  intro c m hc hconfig _ hm
  have hmax : c.maxEntries = cache.maxEntries := congrArg DcCacheConfig.maxEntries hconfig
  have hroom := hfits.entries
  rw [Linked.recency_eq h, ← hm] at hroom
  rw [EvictionTermination.entriesFull, Bool.and_eq_false_iff, decide_eq_false_iff_not,
    decide_eq_false_iff_not, hmax, hc.count]
  omega

theorem Fits.memoryFull {value : List UInt8} (hfits : Fits cache key value)
    (h : Linked cache l) :
    EndsAt (EvictionTermination.memoryFull key value) cache (staying cache l) := by
  intro c m hc hconfig _ hm
  have hmax : c.maxMemoryBytes = cache.maxMemoryBytes :=
    congrArg DcCacheConfig.maxMemoryBytes hconfig
  have hroom := hfits.memory
  rw [Linked.recency_eq h, ← hm] at hroom
  rw [EvictionTermination.memoryFull, Bool.and_eq_false_iff, decide_eq_false_iff_not,
    decide_eq_false_iff_not, hmax, hc.memory]
  by_cases hlimit : 0 < cache.maxMemoryBytes
  · exact .inr (UInt64.not_lt.mpr (hroom hlimit))
  · exact .inl hlimit

/-- Each round of the two loops frees only entries that can be freed. -/
def SafeRoom (cache : DcCache) (key : CStr) (value : List UInt8) (rounds : List Int) : Prop :=
  SafeRounds entriesFull rounds cache ∧
    ∀ r ∈ evictWhile entriesFull rounds cache, SafeRounds (memoryFull key value) r.2 r.1

theorem Linked.makeRoom {key : CStr} {value : List UInt8} {j : Nat} {rounds : List Int}
    (h : Linked cache l) (hindex : bucketIndex cache key = some j)
    (hsafe : SafeRoom cache key value rounds)
    (hroom : Cache.makeRoom cache key value rounds = some cache') :
    ∃ l', Linked cache' l' := by
  rw [makeRoom_eq] at hroom
  obtain ⟨r, hfirst, hsecond⟩ := Option.bind_eq_some_iff.mp hroom
  obtain ⟨r', hloop, rfl⟩ := Option.map_eq_some_iff.mp hsecond
  obtain ⟨m, hevicted⟩ := Linked.evictWhile h hindex hsafe.1 hfirst
  have hindex' : bucketIndex r.1 key = some j := by
    rw [bucketIndex, hevicted.bucketCount]
    exact hindex
  obtain ⟨m', hevicted'⟩ :=
    Linked.evictWhile hevicted.linked hindex' (hsafe.2 r hfirst) hloop
  exact ⟨m', hevicted'.linked⟩

theorem makeRoom_terminates {key : CStr} {value : List UInt8} {j : Nat} {ticks : Nat → Int}
    (h : Linked cache l) (hindex : bucketIndex cache key = some j)
    (hfits : Fits cache key value) (hticks : GoesOn ticks)
    (hsafe : ∀ n, SafeRoom cache key value (readings ticks n)) :
    ∃ n room, makeRoom cache key value (readings ticks n) = some room := by
  obtain ⟨n, mid, m, hfirst, hevicted⟩ := loop_terminates h hindex (hfits.entriesFull h) rfl
    (fun n => (hsafe n).1) hticks
  have hindex' : bucketIndex mid key = some j := by
    rw [bucketIndex, hevicted.bucketCount]
    exact hindex
  have hends : EndsAt (memoryFull key value) mid (staying cache l) := by
    intro c l' hc hconfig
    exact hfits.memoryFull h c l' hc (hconfig.trans hevicted.config)
  have hjoined : ∀ i, evictWhile entriesFull (readings ticks (n + i)) cache =
      some (mid, readings (fun k => ticks (k + n)) i) := by
    intro i
    rw [readings_add]
    exact evictWhile_append hfirst _
  obtain ⟨i, room, l', hsecond, _⟩ := loop_terminates hevicted.linked hindex' hends
    hevicted.staying (fun i => (hsafe (n + i)).2 _ (hjoined i)) (hticks.later n)
  refine ⟨n + i, room, ?_⟩
  rw [makeRoom_eq, hjoined, Option.bind_some, hsecond]
  rfl

/-! ## Calls that keep the list -/

def SafePut (cache : DcCache) (key : CStr) (value : List UInt8) (clock : Clock) : Prop :=
  ∀ found ∈ dcFindEntry cache key, (∀ p ∈ found, ¬LostLink cache p) ∧
    (found = none → SafeRoom cache key value clock.rounds)

def SafeRead (cache : DcCache) (key : CStr) (answer : Answer) : Prop :=
  ∀ value ∈ answer.value, SafePut cache key value answer.clock

def SafeGet (cache : DcCache) (key : CStr) (reply : Reply) : Prop :=
  ∀ found ∈ dcFindEntry cache key,
    (found = none →
      SafeRead { cache with missCount := cache.missCount + 1 } key reply.regular) ∧
    ∀ p ∈ found, ∀ e ∈ cache.heap p,
      if e.data.stale || expired e.data reply.now then
        SafeRead cache key reply.early ∧
          ∀ cache' ∈ recomputeEarly cache key reply, SafeRead cache' key reply.regular
      else ¬LostLink cache p

def SafeDelete (cache : DcCache) (key : CStr) : Prop :=
  ∀ i ∈ bucketIndex cache key, ∀ p ∈ (dcFindEntry cache key).join, CanFree cache i p

def SafeCall (cache : DcCache) : Call → Prop
  | .op (.put key value _ clock) => SafePut cache key value clock
  | .op (.putWithVersion key value _ _ clock) => SafePut cache key value clock
  | .op (.get key reply) => SafeGet cache key reply
  | .op (.delete key) => SafeDelete cache key
  | .expire _ _ _ => True
  | .invalidate _ .update _ => True
  | .invalidate key _ _ => SafeDelete cache key
  | .setLease _ _ _ => True
  | .compact now => SafeSweeps now (List.range cache.bucketCount) cache
  | .flush => True

/-- Each call of a run is safe in the state it is made in. -/
def SafeRun : DcCache → List Call → Prop
  | _, [] => True
  | cache, call :: calls =>
      SafeCall cache call ∧ ∀ cache' ∈ callStep cache call, SafeRun cache' calls

theorem writeThrough_linked (h : Linked cache l) (key : CStr) (value : List UInt8) :
    Linked (writeThrough cache key value) l := by
  unfold writeThrough
  split
  · exact ⟨h.segment, h.head_eq, h.tail_eq, h.nodup, h.below, h.buckets, h.count, h.memory⟩
  · exact h

theorem bucketIndex_of_find {key : CStr} {found : Option Nat}
    (h : dcFindEntry cache key = some found) : ∃ i, bucketIndex cache key = some i := by
  simp only [dcFindEntry, Option.bind_eq_bind, Option.bind_eq_some_iff] at h
  obtain ⟨i, hi, _⟩ := h
  exact ⟨i, hi⟩

theorem Linked.put {key : CStr} {value : List UInt8} {ttlSeconds : Int} {clock : Clock}
    (h : Linked cache l) (hsafe : SafePut cache key value clock)
    (hput : dcCachePut cache key value ttlSeconds clock = some cache') :
    ∃ l', Linked cache' l' := by
  simp only [dcCachePut, Option.bind_eq_bind, Option.bind_eq_some_iff] at hput
  obtain ⟨found, hfind, hput⟩ := hput
  obtain ⟨hmove, hroom⟩ := hsafe found hfind
  rcases h.find_cases hfind with rfl | ⟨a, x, b, rfl, _, rfl⟩
  · simp only [Option.bind_eq_some_iff] at hput
    obtain ⟨room, hmake, mid, hinsert, heq⟩ := hput
    cases heq
    obtain ⟨i, hi⟩ := bucketIndex_of_find hfind
    obtain ⟨m, hm⟩ := Linked.makeRoom h hi (hroom rfl) hmake
    obtain ⟨m', hm'⟩ := hm.insert hinsert
    exact ⟨m', writeThrough_linked hm' key value⟩
  · simp only [Option.bind_eq_some_iff] at hput
    obtain ⟨mid, hoverwrite, heq⟩ := hput
    cases heq
    obtain ⟨m, hm⟩ := h.overwrite (hmove x.1 rfl) hoverwrite
    exact ⟨m, writeThrough_linked hm key value⟩

theorem Linked.read {key : CStr} {answer : Answer} {v : Option (List UInt8)}
    (h : Linked cache l) (hsafe : SafeRead cache key answer)
    (hread : readBackend cache key answer = some (cache', v)) : ∃ l', Linked cache' l' := by
  rcases readBackend_cases hread with ⟨_, rfl⟩ | ⟨value, _, hvalue, hput⟩
  · exact ⟨l, h⟩
  · exact Linked.put h (hsafe value hvalue) hput

theorem Linked.recompute {key : CStr} {reply : Reply} (h : Linked cache l)
    (hsafe : SafeRead cache key reply.early)
    (hearly : recomputeEarly cache key reply = some cache') : ∃ l', Linked cache' l' := by
  unfold recomputeEarly at hearly
  split at hearly
  · simp only [Option.bind_eq_bind, Option.bind_eq_some_iff] at hearly
    obtain ⟨⟨mid, v⟩, hread, heq⟩ := hearly
    cases heq
    exact Linked.read h hsafe hread
  · cases hearly
    exact ⟨l, h⟩

theorem Linked.get {key : CStr} {reply : Reply} {v : Option (List UInt8)}
    (h : Linked cache l) (hsafe : SafeGet cache key reply)
    (hget : dcCacheGet cache key reply = some (cache', v)) : ∃ l', Linked cache' l' := by
  simp only [dcCacheGet, Option.bind_eq_bind, Option.bind_eq_some_iff] at hget
  obtain ⟨found, hfind, hget⟩ := hget
  obtain ⟨hmiss, hfound⟩ := hsafe found hfind
  rcases h.find_cases hfind with rfl | ⟨a, x, b, rfl, _, rfl⟩
  · have hcounted : Linked { cache with missCount := cache.missCount + 1 } l :=
      ⟨h.segment, h.head_eq, h.tail_eq, h.nodup, h.below, h.buckets, h.count, h.memory⟩
    exact Linked.read hcounted (hmiss rfl) hget
  · obtain ⟨prev, hnode, _⟩ := h.node
    have hcase := hfound x.1 rfl _ hnode
    simp only [hnode, Option.bind_some] at hget
    split at hget
    · rename_i hstale
      rw [if_pos hstale] at hcase
      simp only [Option.bind_eq_some_iff] at hget
      obtain ⟨mid, hearly, hread⟩ := hget
      obtain ⟨m, hm⟩ := Linked.recompute h hcase.1 hearly
      exact Linked.read hm (hcase.2 mid hearly) hread
    · rename_i hstale
      rw [if_neg hstale] at hcase
      exact Linked.hit h hcase hget

theorem Linked.delete {key : CStr} {done : Bool} (h : Linked cache l)
    (hsafe : SafeDelete cache key) (hdelete : dcCacheDelete cache key = some (cache', done)) :
    ∃ l', Linked cache' l' := by
  simp only [dcCacheDelete, Option.bind_eq_bind, Option.bind_eq_some_iff] at hdelete
  obtain ⟨i, hi, found, hwalk, hdelete⟩ := hdelete
  have hfind : dcFindEntry cache key = some (found.map Prod.snd) := by
    simp only [dcFindEntry, Option.bind_eq_bind, hi, Option.bind_some, hwalk]
  rcases h.walk_cases (fun _ e => e.key == key) (bucketIndex_lt hi) with
    ⟨hnone, _⟩ | ⟨a, x, b, before, rfl, _, hfound, hby⟩
  · rw [hwalk] at hnone
    cases hnone
    cases hdelete
    exact ⟨l, h⟩
  · rw [hwalk] at hfound
    cases hfound
    have hfree : CanFree cache i x.1 := hsafe i hi x.1 (by rw [hfind]; rfl)
    obtain ⟨mid, hremove, hm, _⟩ := h.remove (.inr ⟨before, rfl, hby⟩) hfree
    simp only [hremove, Option.bind_some] at hdelete
    cases hdelete
    exact ⟨_, hm⟩

theorem Linked.change {key : CStr} {f : DcEntry → DcEntry} {done : Bool} (h : Linked cache l)
    (hf : ∀ e, (f e).key = e.key ∧ (f e).value = e.value)
    (hchange : changeEntry cache key f = some (cache', done)) : ∃ l', Linked cache' l' := by
  simp only [changeEntry, Option.bind_eq_bind, Option.bind_eq_some_iff] at hchange
  obtain ⟨found, hfind, hchange⟩ := hchange
  rcases h.find_cases hfind with rfl | ⟨a, x, b, rfl, _, rfl⟩
  · cases hchange
    exact ⟨l, h⟩
  · obtain ⟨heap, hmodify, _, hlinked⟩ := h.modify f
    simp only [hmodify, Option.bind_some] at hchange
    cases hchange
    have hmemory : weight (a ++ (x.1, f x.2) :: b) = cache.memoryUsed := by
      rw [h.memory, weight_middle, weight_middle, (hf x.2).1, (hf x.2).2]
    rw [hmemory] at hlinked
    exact ⟨_, hlinked⟩

theorem Linked.flush (hflush : dcCacheFlush cache = some cache') : Linked cache' [] := by
  simp only [dcCacheFlush, Option.bind_eq_bind, Option.bind_eq_some_iff] at hflush
  obtain ⟨heap, _, heq⟩ := hflush
  cases heq
  refine ⟨trivial, rfl, rfl, List.nodup_nil, ?_, ?_, rfl, rfl⟩
  · intro p hp
    exact absurd hp List.not_mem_nil
  · intro i _ p hp
    cases hp

theorem Linked.call {call : Call} (h : Linked cache l) (hsafe : SafeCall cache call)
    (hcall : callStep cache call = some cache') : ∃ l', Linked cache' l' := by
  cases call with
  | op op =>
      obtain ⟨r, hstep, rfl⟩ := Option.map_eq_some_iff.mp hcall
      cases op with
      | put key value ttlSeconds clock =>
          simp only [step, Option.bind_eq_bind, Option.bind_eq_some_iff] at hstep
          obtain ⟨mid, hput, heq⟩ := hstep
          cases heq
          exact Linked.put h hsafe hput
      | putWithVersion key value ttlSeconds vv clock =>
          simp only [step, Option.bind_eq_bind, Option.bind_eq_some_iff] at hstep
          obtain ⟨mid, hversion, heq⟩ := hstep
          cases heq
          simp only [dcCachePutWithVersion, Option.bind_eq_bind, Option.bind_eq_some_iff]
            at hversion
          obtain ⟨found, hfind, hversion⟩ := hversion
          cases found with
          | none => exact Linked.put h hsafe hversion
          | some p =>
              simp only [Option.bind_eq_some_iff] at hversion
              obtain ⟨e, _, hversion⟩ := hversion
              split at hversion
              · cases hversion
                exact ⟨l, h⟩
              · exact Linked.put h hsafe hversion
      | get key reply =>
          simp only [step, Option.bind_eq_bind, Option.bind_eq_some_iff] at hstep
          obtain ⟨⟨mid, v⟩, hget, heq⟩ := hstep
          cases heq
          exact Linked.get h hsafe hget
      | delete key =>
          simp only [step, Option.bind_eq_bind, Option.bind_eq_some_iff] at hstep
          obtain ⟨⟨mid, done⟩, hdelete, heq⟩ := hstep
          cases heq
          exact Linked.delete h hsafe hdelete
  | expire key ttlSeconds now =>
      obtain ⟨⟨mid, done⟩, hchange, rfl⟩ := Option.map_eq_some_iff.mp hcall
      unfold dcCacheExpire at hchange
      apply Linked.change h _ hchange
      exact fun e => ⟨rfl, rfl⟩
  | invalidate key mode now =>
      obtain ⟨⟨mid, done⟩, hchange, rfl⟩ := Option.map_eq_some_iff.mp hcall
      cases mode with
      | delete => exact Linked.delete h hsafe hchange
      | update =>
          simp only [dcCacheInvalidate] at hchange
          apply Linked.change h _ hchange
          exact fun e => ⟨rfl, rfl⟩
      | version => exact Linked.delete h hsafe hchange
  | setLease key leaseDurationMs now =>
      obtain ⟨⟨mid, done⟩, hchange, rfl⟩ := Option.map_eq_some_iff.mp hcall
      unfold dcCacheSetLease at hchange
      apply Linked.change h _ hchange
      exact fun e => ⟨rfl, rfl⟩
  | compact now =>
      obtain ⟨mid, m, hevict, hevicted, _⟩ := Linked.evictTtl h hsafe
      change dcEvictTtl cache now = some cache' at hcall
      rw [hevict] at hcall
      cases hcall
      exact ⟨m, hevicted.linked⟩
  | flush => exact ⟨[], Linked.flush hcall⟩

theorem create_linked (config : DcCacheConfig) : Linked (dcCacheCreate config) [] := by
  refine ⟨trivial, rfl, rfl, List.nodup_nil, ?_, ?_, rfl, rfl⟩
  · intro p hp
    exact absurd hp List.not_mem_nil
  · intro i _ p hp
    cases hp

theorem Linked.run {calls : List Call} (h : Linked cache l) (hsafe : SafeRun cache calls)
    (hrun : calls.foldlM callStep cache = some cache') : ∃ l', Linked cache' l' := by
  induction calls generalizing cache l with
  | nil =>
      cases hrun
      exact ⟨l, h⟩
  | cons call calls ih =>
      obtain ⟨hcall, hrest⟩ := hsafe
      simp only [List.foldlM_cons, Option.bind_eq_bind, Option.bind_eq_some_iff] at hrun
      obtain ⟨mid, hstep, hrun⟩ := hrun
      obtain ⟨m, hm⟩ := Linked.call h hcall hstep
      exact ih hm (hrest mid hstep) hrun

/-- After any run of safe calls the loops of a put of a new key end, if the entries that no
round takes out leave room for it and its rounds are safe. -/
theorem eviction_terminates (config : DcCacheConfig) (calls : List Call) {cache : DcCache}
    (hrun : calls.foldlM callStep (dcCacheCreate config) = some cache)
    (hcalls : SafeRun (dcCacheCreate config) calls) (key : CStr) (value : List UInt8)
    (ticks : Nat → Int) (hticks : GoesOn ticks) (hnew : dcFindEntry cache key = some none)
    (hfits : Fits cache key value)
    (hrounds : ∀ n, SafeRoom cache key value (readings ticks n)) :
    ∃ n room, makeRoom cache key value (readings ticks n) = some room := by
  obtain ⟨l, hl⟩ := Linked.run (create_linked config) hcalls hrun
  obtain ⟨i, hi⟩ := bucketIndex_of_find hnew
  exact makeRoom_terminates hl hi hfits hticks hrounds

def oneEntryConfig : DcCacheConfig := { unlimitedConfig with maxEntries := 1 }

def oneEntryCache : DcCache :=
  (dcCachePut (dcCacheCreate oneEntryConfig) (lit "a") [1] 300 noon).getD
    (dcCacheCreate oneEntryConfig)

theorem eviction_terminates_oneEntry :
    ∃ n room, makeRoom oneEntryCache (lit "b") [2] (readings (fun k => k) n) = some room := by
  apply eviction_terminates oneEntryConfig [.op (.put (lit "a") [1] 300 noon)]
  · rfl
  · refine ⟨?_, fun cache' _ => trivial⟩
    intro found hfound
    have hnone : dcFindEntry (dcCacheCreate oneEntryConfig) (lit "a") = some none := by
      decide
    rw [hnone] at hfound
    cases hfound
    refine ⟨fun p hp => absurd hp (Option.not_mem_none p), fun _ => ⟨trivial, ?_⟩⟩
    intro r hr
    rw [evictWhile_stop rfl] at hr
    cases hr
    trivial
  · intro t start
    exact ⟨max start t.toNat, by omega, by push_cast; omega⟩
  · decide
  · exact ⟨fun _ => by decide, fun h => absurd h (by decide)⟩
  · -- the only round takes out the only entry
    intro n
    cases n with
    | zero =>
        refine ⟨trivial, ?_⟩
        intro r hr
        cases hr
    | succ n =>
        have htail : SafeTail oneEntryCache := by decide
        obtain ⟨mid, hmid⟩ : ∃ mid, dcEvictOne oneEntryCache 0 = some mid := ⟨_, rfl⟩
        have hstop : (dcEvictOne oneEntryCache 0).all
            (fun mid => !entriesFull mid && !memoryFull (lit "b") [2] mid) = true := by
          decide
        rw [hmid] at hstop
        simp only [Option.all_some, Bool.and_eq_true, Bool.not_eq_true'] at hstop
        constructor
        · intro _
          refine ⟨htail, ?_⟩
          intro cache' hcache'
          cases hmid.symm.trans hcache'
          exact SafeRounds.of_stop hstop.1 _
        · intro r hr
          change evictWhile entriesFull (0 :: _) oneEntryCache = some r at hr
          rw [evictWhile_round rfl 0 _ hmid, evictWhile_stop hstop.1] at hr
          cases hr
          exact SafeRounds.of_stop hstop.2 _

/-- Ten bytes. -/
def tenBytesConfig : DcCacheConfig := { unlimitedConfig with maxMemoryBytes := 10 }

theorem evictWhile_stuck (hfull : full cache = true)
    (hstuck : ∀ now, dcEvictOne cache now = some cache) (times : List Int) :
    evictWhile full times cache = none := by
  induction times with
  | nil => rw [evictWhile, if_pos hfull]
  | cons now times ih =>
      rw [evictWhile_round hfull now times (hstuck now)]
      exact ih

/-- A value that is larger than the whole memory never fits. -/
theorem oversized_value_never_fits :
    dcFindEntry (dcCacheCreate tenBytesConfig) (lit "a") = some none ∧
      ∀ rounds, makeRoom (dcCacheCreate tenBytesConfig) (lit "a") (List.replicate 20 0) rounds =
        none := by
  constructor
  · decide
  · intro rounds
    have hfull : memoryFull (lit "a") (List.replicate 20 0) (dcCacheCreate tenBytesConfig) =
        true := by decide
    rw [makeRoom_eq, evictWhile_stop rfl, Option.bind_some,
      evictWhile_stuck hfull (fun _ => rfl)]
    rfl

end MiniBackend.Infra.Proofs.EvictionTermination
