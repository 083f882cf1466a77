import MiniBackend.Infra.DistributedCache

/-!
# What a cache stores, apart from the links

Whatever state the links of an entry are in, only a put or a hit on this entry changes its
data.
-/

namespace MiniBackend.Infra.Proofs.CacheData

open MiniBackend.Infra.Cache
open MiniBackend.Lib.CString MiniBackend.Lib.LinkedHeap

/-! ## Links -/

theorem dcLruTouch_dataAt {cache cache' : DcCache} {p : Nat}
    (h : dcLruTouch cache p = some cache') : dataAt cache'.heap = dataAt cache.heap := by
  unfold dcLruTouch at h
  split at h
  · cases h
    rfl
  · simp only [Option.bind_eq_bind, Option.bind_eq_some_iff] at h
    obtain ⟨mid, hunlink, e, _, heap, hlink, heq⟩ := h
    cases heq
    calc
      dataAt heap = dataAt mid := linkFront_dataAt hlink
      _ = dataAt cache.heap := unlink_dataAt hunlink

theorem dcLruTouch_isSome {cache : DcCache} {p : Nat} {node : Node DcEntry}
    (hp : cache.heap p = some node)
    (hprev : ∀ q, node.prev = some q → dataAt cache.heap q ≠ none)
    (hnext : ∀ q, node.next = some q → dataAt cache.heap q ≠ none)
    (hhead : ∀ q, cache.lruHead = some q → dataAt cache.heap q ≠ none) :
    ∃ cache', dcLruTouch cache p = some cache' := by
  unfold dcLruTouch
  split
  · exact ⟨cache, rfl⟩
  · obtain ⟨mid, hunlink⟩ := unlink_isSome hp hprev hnext
    have hdata := unlink_dataAt hunlink
    have hpmid : dataAt mid p ≠ none := by
      rw [hdata, dataAt, hp]
      exact Option.some_ne_none _
    rw [← hdata] at hhead
    obtain ⟨heap, hlink⟩ := linkFront_isSome hpmid hhead
    cases hmid : mid p with
    | none => simp [dataAt, hmid] at hpmid
    | some node' => simp [hunlink, hmid, hlink]

/-! ## What stays -/

/-- Entries that are not `changed` keep their data or are freed. -/
structure Keeps (changed : Nat → Prop) (cache cache' : DcCache) : Prop where
  config_eq : cache'.toDcCacheConfig = cache.toDcCacheConfig
  fresh_le : cache.fresh ≤ cache'.fresh
  data : ∀ p d, ¬ changed p → dataAt cache'.heap p = some d → dataAt cache.heap p = some d

theorem Keeps.refl (changed : Nat → Prop) (cache : DcCache) : Keeps changed cache cache :=
  ⟨rfl, le_rfl, fun _ _ _ h => h⟩

theorem Keeps.trans {changed : Nat → Prop} {cache mid cache' : DcCache}
    (h : Keeps changed cache mid) (h' : Keeps changed mid cache') :
    Keeps changed cache cache' := by
  refine ⟨h'.config_eq.trans h.config_eq, h.fresh_le.trans h'.fresh_le, ?_⟩
  intro p d hp hd
  exact h.data p d hp (h'.data p d hp hd)

theorem Keeps.mono {changed changed' : Nat → Prop} {cache cache' : DcCache}
    (hsub : ∀ p, changed p → changed' p) (h : Keeps changed cache cache') :
    Keeps changed' cache cache' :=
  ⟨h.config_eq, h.fresh_le, fun p d hp hd => h.data p d (fun hc => hp (hsub p hc)) hd⟩

theorem dcLruTouch_keeps {cache cache' : DcCache} {p : Nat} (changed : Nat → Prop)
    (h : dcLruTouch cache p = some cache') : Keeps changed cache cache' := by
  have hdata := dcLruTouch_dataAt h
  unfold dcLruTouch at h
  split at h
  · cases h
    exact Keeps.refl _ _
  · simp only [Option.bind_eq_bind, Option.bind_eq_some_iff] at h
    obtain ⟨_, _, _, _, _, _, heq⟩ := h
    cases heq
    refine ⟨rfl, le_rfl, ?_⟩
    intro q d _ hd
    rwa [hdata] at hd

/-! ## Eviction -/

theorem notifyEvict_keeps (cache : DcCache) (e : DcEntry) :
    Keeps (fun _ => False) cache (notifyEvict cache e) := by
  unfold notifyEvict
  split
  · exact ⟨rfl, le_rfl, fun _ _ _ h => h⟩
  · exact Keeps.refl _ _

theorem setChain_keeps {cache cache' : DcCache} {idx : Nat} {prev x : Link}
    (h : setChain cache idx prev x = some cache') : Keeps (fun _ => False) cache cache' := by
  cases prev with
  | none =>
      cases h
      exact ⟨rfl, le_rfl, fun _ _ _ h => h⟩
  | some q =>
      simp only [setChain, Option.bind_eq_bind, Option.bind_eq_some_iff] at h
      obtain ⟨heap, hset, heq⟩ := h
      cases heq
      refine ⟨rfl, le_rfl, ?_⟩
      intro p d _ hd
      rwa [setNext_dataAt hset] at hd

theorem removeEntry_keeps {cache cache' : DcCache} {idx p : Nat} {chained : Option Link}
    (h : removeEntry cache idx p chained = some cache') :
    Keeps (fun _ => False) cache cache' := by
  simp only [removeEntry, Option.bind_eq_bind, Option.bind_eq_some_iff] at h
  obtain ⟨e, _, mid, hchain, heap, hunlink, e', _, heq⟩ := h
  have hmid : Keeps (fun _ => False) cache mid := by
    apply (notifyEvict_keeps cache e.data).trans
    cases chained with
    | none =>
        cases hchain
        exact Keeps.refl _ _
    | some prev => exact setChain_keeps hchain
  apply hmid.trans
  cases heq
  refine ⟨rfl, le_rfl, ?_⟩
  intro q d _ hd
  by_cases hq : q = p
  · subst hq
    exact absurd ((dataAt_update_self heap q none).symm.trans hd) nofun
  · rw [← unlink_dataAt hunlink]
    exact (dataAt_update_of_ne hq heap none).symm.trans hd

theorem dcEvictLru_keeps {cache cache' : DcCache} (h : dcEvictLru cache = some cache') :
    Keeps (fun _ => False) cache cache' := by
  unfold dcEvictLru at h
  split at h
  · cases h
    exact Keeps.refl _ _
  · simp only [Option.bind_eq_bind, Option.bind_eq_some_iff] at h
    obtain ⟨e, _, idx, _, found, _, hremove⟩ := h
    exact removeEntry_keeps hremove

theorem dcEvictLfu_keeps {cache cache' : DcCache} (h : dcEvictLfu cache = some cache') :
    Keeps (fun _ => False) cache cache' := by
  simp only [dcEvictLfu, Option.bind_eq_bind, Option.bind_eq_some_iff] at h
  obtain ⟨best, _, hevict⟩ := h
  cases best with
  | none =>
      cases hevict
      exact Keeps.refl _ _
  | some count => exact dcEvictLru_keeps hevict

theorem evictChain_keeps {now : Int} {idx fuel : Nat} {cache cache' : DcCache} {prev cur : Link}
    (h : evictChain now idx fuel cache prev cur = some cache') :
    Keeps (fun _ => False) cache cache' := by
  induction fuel generalizing cache prev cur with
  | zero =>
      cases cur with
      | none =>
          cases h
          exact Keeps.refl _ _
      | some p => simp [evictChain] at h
  | succ fuel ih =>
      cases cur with
      | none =>
          cases h
          exact Keeps.refl _ _
      | some p =>
          simp only [evictChain, Option.bind_eq_bind, Option.bind_eq_some_iff] at h
          obtain ⟨e, _, h⟩ := h
          split at h
          · simp only [Option.bind_eq_some_iff] at h
            obtain ⟨mid, hremove, hrest⟩ := h
            exact (removeEntry_keeps hremove).trans (ih hrest)
          · exact ih h

theorem dcEvictTtl_keeps {cache cache' : DcCache} {now : Int}
    (h : dcEvictTtl cache now = some cache') : Keeps (fun _ => False) cache cache' := by
  unfold dcEvictTtl at h
  generalize List.range cache.bucketCount = buckets at h
  induction buckets generalizing cache with
  | nil =>
      cases h
      exact Keeps.refl _ _
  | cons idx buckets ih =>
      simp only [List.foldlM_cons, Option.bind_eq_bind, Option.bind_eq_some_iff] at h
      obtain ⟨mid, hchain, hrest⟩ := h
      exact (evictChain_keeps hchain).trans (ih hrest)

theorem dcEvictOne_keeps {cache cache' : DcCache} {now : Int}
    (h : dcEvictOne cache now = some cache') : Keeps (fun _ => False) cache cache' := by
  unfold dcEvictOne at h
  split at h
  · exact dcEvictLru_keeps h
  · exact dcEvictLfu_keeps h
  · exact dcEvictTtl_keeps h
  · exact dcEvictLru_keeps h

theorem evictWhile_keeps {full : DcCache → Bool} {times : List Int} {cache : DcCache}
    {r : DcCache × List Int} (h : evictWhile full times cache = some r) :
    Keeps (fun _ => False) cache r.1 := by
  induction times generalizing cache with
  | nil =>
      unfold evictWhile at h
      split at h
      · contradiction
      · cases h
        exact Keeps.refl _ _
  | cons now times ih =>
      unfold evictWhile at h
      split at h
      · simp only [Option.bind_eq_bind, Option.bind_eq_some_iff] at h
        obtain ⟨mid, hone, hrest⟩ := h
        exact (dcEvictOne_keeps hone).trans (ih hrest)
      · cases h
        exact Keeps.refl _ _

theorem makeRoom_keeps {cache cache' : DcCache} {key : CStr} {value : List UInt8}
    {rounds : List Int} (h : makeRoom cache key value rounds = some cache') :
    Keeps (fun _ => False) cache cache' := by
  simp only [makeRoom, Option.bind_eq_bind, Option.bind_eq_some_iff] at h
  obtain ⟨r, hentries, r', hmemory, heq⟩ := h
  cases heq
  exact (evictWhile_keeps hentries).trans (evictWhile_keeps hmemory)

/-! ## Put -/

theorem writeThrough_keeps (cache : DcCache) (key : CStr) (value : List UInt8) :
    Keeps (fun _ => False) cache (writeThrough cache key value) := by
  unfold writeThrough
  split
  · exact ⟨rfl, le_rfl, fun _ _ _ h => h⟩
  · exact Keeps.refl _ _

theorem writeThrough_heap (cache : DcCache) (key : CStr) (value : List UInt8) :
    (writeThrough cache key value).heap = cache.heap := by
  unfold writeThrough
  split <;> rfl

def accept (d : DcEntry) (value : List UInt8) (ttlSeconds now : Int) : DcEntry :=
  { d with
    value := value
    ttlSeconds := ttlSeconds
    createdAt := now
    accessCount := d.accessCount + 1 }

theorem overwriteEntry_keeps {cache cache' : DcCache} {p : Nat} {value : List UInt8}
    {ttlSeconds now : Int} (h : overwriteEntry cache p value ttlSeconds now = some cache') :
    Keeps (· = p) cache cache' ∧
      ∃ d, dataAt cache.heap p = some d ∧
        dataAt cache'.heap p = some (accept d value ttlSeconds now) := by
  simp only [overwriteEntry, Option.bind_eq_bind, Option.bind_eq_some_iff] at h
  obtain ⟨e, _, heap, hmodify, htouch⟩ := h
  obtain ⟨node, hp, hheap⟩ := modifyNode_some hmodify
  subst hheap
  constructor
  · apply Keeps.trans _ (dcLruTouch_keeps (· = p) htouch)
    refine ⟨rfl, le_rfl, ?_⟩
    intro q d hq hd
    exact (dataAt_update_of_ne hq cache.heap _).symm.trans hd
  · refine ⟨node.data, congrArg (Option.map Node.data) hp, ?_⟩
    rw [dcLruTouch_dataAt htouch]
    exact dataAt_update_self ..

theorem insertEntry_keeps {cache cache' : DcCache} {key : CStr} {value : List UInt8}
    {ttlSeconds now : Int} (h : insertEntry cache key value ttlSeconds now = some cache') :
    Keeps (· = cache.fresh) cache cache' ∧ cache.fresh < cache'.fresh ∧
      dataAt cache'.heap cache.fresh = some ⟨key, value, ttlSeconds, now, now, 1, false⟩ := by
  simp only [insertEntry, Option.bind_eq_bind, Option.bind_eq_some_iff] at h
  obtain ⟨idx, _, htouch⟩ := h
  have hkeeps := dcLruTouch_keeps (· = cache.fresh) htouch
  refine ⟨?_, hkeeps.fresh_le, ?_⟩
  · apply Keeps.trans _ hkeeps
    refine ⟨rfl, Nat.le_succ _, ?_⟩
    intro q d hq hd
    exact (dataAt_update_of_ne hq cache.heap _).symm.trans hd
  · rw [dcLruTouch_dataAt htouch]
    exact dataAt_update_self ..

theorem dcLruTouch_buckets {cache cache' : DcCache} {p : Nat}
    (h : dcLruTouch cache p = some cache') :
    cache'.buckets = cache.buckets ∧ cache'.bucketCount = cache.bucketCount := by
  unfold dcLruTouch at h
  split at h
  · cases h
    exact ⟨rfl, rfl⟩
  · simp only [Option.bind_eq_bind, Option.bind_eq_some_iff] at h
    obtain ⟨_, _, _, _, _, _, heq⟩ := h
    cases heq
    exact ⟨rfl, rfl⟩

/-- A new entry is the first one of its chain. -/
theorem insertEntry_found {cache cache' : DcCache} {key : CStr} {value : List UInt8}
    {ttlSeconds now : Int} (h : insertEntry cache key value ttlSeconds now = some cache') :
    dcFindEntry cache' key = some (some cache.fresh) := by
  obtain ⟨_, hfresh, hd⟩ := insertEntry_keeps h
  simp only [insertEntry, Option.bind_eq_bind, Option.bind_eq_some_iff] at h
  obtain ⟨idx, hidx, htouch⟩ := h
  obtain ⟨hbuckets, hcount⟩ := dcLruTouch_buckets htouch
  obtain ⟨node, hnode, hdata⟩ := Option.map_eq_some_iff.mp hd
  have hidx' : bucketIndex cache' key = some idx := by
    rw [bucketIndex, hcount]
    exact hidx
  have hbucket : cache'.buckets idx = some cache.fresh := by
    rw [hbuckets]
    exact Function.update_self ..
  obtain ⟨fuel, hfuel⟩ : ∃ fuel, cache'.fresh = fuel + 1 :=
    ⟨cache'.fresh - 1, by omega⟩
  simp [dcFindEntry, hidx', walk, hbucket, hfuel, search, hnode, hdata]

theorem writeThrough_find (cache : DcCache) (key k : CStr) (value : List UInt8) :
    dcFindEntry (writeThrough cache key value) k = dcFindEntry cache k := by
  unfold writeThrough
  split <;> rfl

theorem dcCachePut_found {cache cache' : DcCache} {key : CStr} {value : List UInt8}
    {ttlSeconds : Int} {clock : Clock} {p : Nat} (hfind : dcFindEntry cache key = some (some p))
    (h : dcCachePut cache key value ttlSeconds clock = some cache') :
    Keeps (· = p) cache cache' ∧
      ∃ d, dataAt cache.heap p = some d ∧
        dataAt cache'.heap p = some (accept d value ttlSeconds clock.now) := by
  simp only [dcCachePut, hfind, Option.bind_eq_bind, Option.bind_some,
    Option.bind_eq_some_iff] at h
  obtain ⟨mid, hoverwrite, heq⟩ := h
  cases heq
  obtain ⟨hkeeps, d, hd, hd'⟩ := overwriteEntry_keeps hoverwrite
  refine ⟨hkeeps.trans ((writeThrough_keeps mid key value).mono nofun), d, hd, ?_⟩
  rw [writeThrough_heap]
  exact hd'

theorem dcCachePut_new {cache cache' : DcCache} {key : CStr} {value : List UInt8}
    {ttlSeconds : Int} {clock : Clock} (hfind : dcFindEntry cache key = some none)
    (h : dcCachePut cache key value ttlSeconds clock = some cache') :
    ∃ p, cache.fresh ≤ p ∧ p < cache'.fresh ∧ Keeps (· = p) cache cache' ∧
      dcFindEntry cache' key = some (some p) ∧
      dataAt cache'.heap p =
        some ⟨key, value, ttlSeconds, clock.now, clock.now, 1, false⟩ := by
  simp only [dcCachePut, hfind, Option.bind_eq_bind, Option.bind_some,
    Option.bind_eq_some_iff] at h
  obtain ⟨room, hroom, mid, hinsert, heq⟩ := h
  cases heq
  have hroom : Keeps (· = room.fresh) cache room := (makeRoom_keeps hroom).mono nofun
  have hwrite : Keeps (· = room.fresh) mid (writeThrough mid key value) :=
    (writeThrough_keeps mid key value).mono nofun
  obtain ⟨hkeeps, hfresh, hd⟩ := insertEntry_keeps hinsert
  refine ⟨room.fresh, hroom.fresh_le, ?_, (hroom.trans hkeeps).trans hwrite, ?_, ?_⟩
  · exact Nat.lt_of_lt_of_le hfresh hwrite.fresh_le
  · rw [writeThrough_find]
    exact insertEntry_found hinsert
  · rw [writeThrough_heap]
    exact hd

theorem readBackend_cases {cache cache' : DcCache} {key : CStr} {answer : Answer}
    {v : Option (List UInt8)} (h : readBackend cache key answer = some (cache', v)) :
    ((cache.backendRead = false ∨ answer.value = none) ∧ cache' = cache) ∨
      ∃ value, cache.backendRead = true ∧ answer.value = some value ∧
        dcCachePut cache key value dcDefaultTtlSec answer.clock = some cache' := by
  unfold readBackend at h
  split at h
  · rename_i hbackend
    cases hvalue : answer.value with
    | none =>
        simp only [hvalue, Option.some.injEq, Prod.mk.injEq] at h
        exact Or.inl ⟨Or.inr rfl, h.1.symm⟩
    | some value =>
        simp only [hvalue, Option.bind_eq_bind, Option.bind_eq_some_iff] at h
        obtain ⟨mid, hput, heq⟩ := h
        cases heq
        exact Or.inr ⟨value, hbackend, rfl, hput⟩
  · rename_i hbackend
    cases h
    exact Or.inl ⟨Or.inl (by simpa using hbackend), rfl⟩

/-! ## Lookup -/

theorem dcFindEntry_key {cache : DcCache} {key : CStr} {p : Nat}
    (h : dcFindEntry cache key = some (some p)) :
    ∃ d, dataAt cache.heap p = some d ∧ d.key = key := by
  simp only [dcFindEntry, walk, Option.bind_eq_bind, Option.bind_eq_some_iff,
    Option.some.injEq] at h
  obtain ⟨idx, _, found, hsearch, hmap⟩ := h
  obtain ⟨r, hr, hp⟩ := Option.map_eq_some_iff.mp hmap
  subst hr
  subst hp
  obtain ⟨d, hd, hkey⟩ := search_wanted hsearch
  exact ⟨d, hd, by simpa using hkey⟩

theorem dcCacheDelete_keeps {cache cache' : DcCache} {key : CStr} {done : Bool}
    (h : dcCacheDelete cache key = some (cache', done)) :
    Keeps (fun _ => False) cache cache' := by
  simp only [dcCacheDelete, Option.bind_eq_bind, Option.bind_eq_some_iff] at h
  obtain ⟨idx, _, found, _, h⟩ := h
  cases found with
  | none =>
      cases h
      exact Keeps.refl _ _
  | some r =>
      simp only [Option.bind_eq_some_iff] at h
      obtain ⟨mid, hremove, heq⟩ := h
      cases heq
      exact removeEntry_keeps hremove

end MiniBackend.Infra.Proofs.CacheData
