import MiniBackend.Framework.Proofs.LruCache

/-!
# The LRU cache refines a bounded map in the order of use

The abstract cache is the list of its items, the one used last first.  A call of the cache
does to its two linked structures what the list does in one line.  An entry that is put with
a time to live of 0 gets the default one; a `cache_get` that finds it expired drops it.
-/

namespace MiniBackend.Framework.Proofs.LruRefinement

open MiniBackend.Lib.CString MiniBackend.Lib.LinkPath MiniBackend.Lib.Runs
open MiniBackend.Framework.Cache MiniBackend.Framework.Proofs.LruCache

/-! ## The abstract cache -/

def without (items : List Item) (key : CStr) : List Item := items.filter fun item => item.key ≠ key

def lookup (items : List Item) (key : CStr) : Option Item := items.find? fun item => item.key = key

def answer (ttl : Int) (items : List Item) (key : CStr) (age : Timespec → ℚ) : Option CStr :=
  match lookup items key with
  | none => none
  | some item => if entryExpired (record ttl item) age then none else some item.value

def lruStep (capacity ttl : Int) (items : List Item) : Op → List Item
  | .get key age =>
      match lookup items key with
      | none => items
      | some item =>
          if entryExpired (record ttl item) age then without items key
          else item :: without items key
  | .put key value now =>
      if (lookup items key).isSome then ⟨key, value, now⟩ :: without items key
      else if capacity ≤ items.length then ⟨key, value, now⟩ :: items.dropLast
      else ⟨key, value, now⟩ :: items
  | .delete key => without items key
  | .evictLru => items.dropLast

/-- The key and the value fit into an entry. -/
def Fits : Op → Prop
  | .put key value _ => key.length < cacheMaxKeyLen ∧ value.length < cacheMaxValueLen
  | .get .. | .delete _ | .evictLru => True

instance (op : Op) : Decidable (Fits op) :=
  match op with
  | .put key value _ => inferInstanceAs (Decidable (key.length < cacheMaxKeyLen ∧
      value.length < cacheMaxValueLen))
  | .get .. | .delete _ | .evictLru => .isTrue trivial

def usesKey (key : CStr) : Op → Bool
  | .get k _ => k == key
  | .put k _ _ => k == key
  | .delete _ | .evictLru => false

def lastUse (key : CStr) (ops : List Op) : Nat :=
  ops.length - ops.reverse.findIdx (usesKey key)

def lastPut (key : CStr) (ops : List Op) : Option (CStr × Timespec) :=
  ops.foldl (fun last op =>
    match op with
    | .put k value now => if k = key then some (value, now) else last
    | .get .. | .delete _ | .evictLru => last) none

/-! ## What the cache stores -/

structure Represents (cache : LRUCache) (l : List (Nat × Item)) : Prop where
  listed : Listed cache (l.map Prod.fst)
  chained : Chained cache l
  size_eq : cache.size = l.length
  size_le : cache.size ≤ cache.capacity
  capacity_pos : 0 < cache.capacity

/-- The recency list has exactly these items in this order, and so have the hash chains. -/
def Stores (cache : LRUCache) (items : List Item) : Prop :=
  ∃ l, Represents cache l ∧ l.map Prod.snd = items

/-- The cache after the calls `ops`. -/
structure CacheHolds (ops : List Op) (cache : LRUCache) (items : List Item) : Prop where
  stores : Stores cache items
  recent : items.Pairwise fun item item' => lastUse item'.key ops < lastUse item.key ops
  latest : ∀ item ∈ items, lastPut item.key ops = some (item.value, item.createdAt)
  answers : ∀ key age, ∃ cache',
    cacheGet cache key age = some (answer cache.defaultTtl items key age, cache')
  evicts : ∀ key value now, Fits (.put key value now) → lookup items key = none →
    cache.size = cache.capacity → ∃ cache', cachePut cache key value 0 now = some (0, cache') ∧
      Stores cache' (⟨key, value, now⟩ :: items.dropLast)

/-! ## Calls -/

structure SameSettings (cache cache' : LRUCache) : Prop where
  capacity : cache'.capacity = cache.capacity
  defaultTtl : cache'.defaultTtl = cache.defaultTtl

section

variable {cache cache' : LRUCache} {a b l : List (Nat × Item)} {x : Nat × Item} {key : CStr}
  {items : List Item}

theorem Represents.counters (h : Represents cache l) (hits misses evictions : Int) :
    Represents { cache with hits := hits, misses := misses, evictions := evictions } l :=
  ⟨h.listed.congr (fun _ _ => rfl) (fun _ _ => rfl) rfl rfl,
    h.chained.frame (fun _ _ => rfl) rfl le_rfl rfl, h.size_eq, h.size_le, h.capacity_pos⟩

theorem Represents.shrink (h : Represents cache (a ++ x :: b)) :
    ∃ cache', removeEntry cache x.1 = some cache' ∧ Represents cache' (a ++ b) ∧
      SameSettings cache cache' := by
  have hlisted := h.listed
  rw [List.map_append, List.map_cons] at hlisted
  obtain ⟨mid, hdetach, hlisted', hsame⟩ := hlisted.detach
  obtain ⟨mid', hremove, hchained', hsame'⟩ := (hsame.chained h.chained).remove
  have hlisted'' := hsame'.listed hlisted'
  rw [← List.map_append] at hlisted''
  have hids := h.chained.ids_nodup
  rw [List.map_append, List.map_cons] at hids
  have hnot : ∀ q ∈ (a ++ b).map Prod.fst, q ≠ x.1 := by
    rintro q hq rfl
    rw [List.map_append] at hq
    exact (List.nodup_cons.mp (List.nodup_middle.mp hids)).1 hq
  have hsize : mid'.size = cache.size := hsame'.size.trans hsame.size
  have hcapacity : mid'.capacity = cache.capacity := hsame'.capacity.trans hsame.capacity
  have hsize_eq := h.size_eq
  have hsize_le := h.size_le
  simp only [List.length_append, List.length_cons] at hsize_eq
  have hframe : ∀ q ∈ (a ++ b).map Prod.fst, (freeEntry mid' x.1).heap q = mid'.heap q :=
    fun q hq => Function.update_of_ne (hnot q hq) _ _
  refine ⟨{ freeEntry mid' x.1 with size := mid'.size - 1 },
    by simp [removeEntry, hdetach, hremove], ⟨?_, ?_, ?_, ?_, ?_⟩,
    ⟨hcapacity, hsame'.defaultTtl.trans hsame.defaultTtl⟩⟩
  · exact hlisted''.congr (fun q hq => congrArg _ (hframe q hq))
      (fun q hq => congrArg _ (hframe q hq)) rfl rfl
  · exact hchained'.frame (fun y hy => hframe y.1 (List.mem_map_of_mem hy)) rfl le_rfl rfl
  · change mid'.size - 1 = _
    rw [List.length_append]
    omega
  · change mid'.size - 1 ≤ mid'.capacity
    omega
  · change 0 < mid'.capacity
    rw [hcapacity]
    exact h.capacity_pos

theorem Represents.touch (h : Represents cache (a ++ x :: b)) :
    ∃ cache', moveToHead cache x.1 = some cache' ∧ Represents cache' (x :: (a ++ b)) ∧
      SameSettings cache cache' := by
  have hlisted := h.listed
  rw [List.map_append, List.map_cons] at hlisted
  obtain ⟨cache', hmove, hlisted', hsame⟩ := hlisted.moveToHead
  rw [← List.map_append, ← List.map_cons (f := Prod.fst)] at hlisted'
  refine ⟨cache', hmove, ⟨hlisted', (hsame.chained h.chained).perm List.perm_middle, ?_, ?_, ?_⟩,
    ⟨hsame.capacity, hsame.defaultTtl⟩⟩
  · rw [hsame.size, h.size_eq, List.perm_middle.length_eq]
  · rw [hsame.size, hsame.capacity]
    exact h.size_le
  · rw [hsame.capacity]
    exact h.capacity_pos

theorem Represents.rewrite (h : Represents cache (a ++ x :: b)) (item : Item)
    (hkey : item.key = x.2.key) (f : CacheEntry → CacheEntry)
    (hrecord : ∀ e : CacheEntry, e.toCacheRecord = record cache.defaultTtl x.2 →
      (f e).toCacheRecord = record cache.defaultTtl item)
    (hlinks : ∀ e : CacheEntry, (f e).next = e.next ∧ (f e).prev = e.prev ∧
      (f e).hashNext = e.hashNext) :
    ∃ cache', modifyEntry cache x.1 f = some cache' ∧
      Represents cache' (a ++ (x.1, item) :: b) ∧ SameSettings cache cache' := by
  have hx : x ∈ a ++ x :: b := by simp
  obtain ⟨e, he, hold⟩ := h.chained.entry hx
  have hids : (a ++ (x.1, item) :: b).map Prod.fst = (a ++ x :: b).map Prod.fst := by simp
  have hkeys : (a ++ (x.1, item) :: b).map (fun y => y.2.key) =
      (a ++ x :: b).map fun y => y.2.key := by simp [hkey]
  have hframe : ∀ {β : Type} (g : CacheEntry → β), g (f e) = g e → ∀ q,
      (Function.update cache.heap x.1 (some (f e)) q).map g = (cache.heap q).map g := by
    intro β g hg q
    by_cases hq : q = x.1
    · subst hq
      rw [Function.update_self, he, Option.map_some, Option.map_some, hg]
    · rw [Function.update_of_ne hq]
  obtain ⟨hnext, hprev, hhash⟩ := hlinks e
  refine ⟨_, modifyEntry_eq he f, ⟨?_, ⟨?_, ?_, ?_, ?_, ?_⟩, ?_, h.size_le, h.capacity_pos⟩,
    ⟨rfl, rfl⟩⟩
  · rw [hids]
    exact h.listed.congr (fun q _ => hframe _ hnext q) (fun q _ => hframe _ hprev q) rfl rfl
  · intro y hy
    dsimp only
    by_cases heq : y.1 = x.1
    · have hy' : y = (x.1, item) := by
        have hnodup := h.chained.ids_nodup
        rw [← hids] at hnodup
        exact List.inj_on_of_nodup_map hnodup hy (by simp) heq
      rw [hy', Function.update_self]
      exact congrArg some (hrecord e hold)
    · rw [Function.update_of_ne heq]
      apply h.chained.records
      simp only [List.mem_append, List.mem_cons] at hy ⊢
      rcases hy with hy | rfl | hy
      · exact Or.inl hy
      · exact absurd rfl heq
      · exact Or.inr (Or.inr hy)
  · intro i
    obtain ⟨c, hseg, hperm⟩ := h.chained.chains i
    refine ⟨c, hseg.congr fun q _ => hframe _ hhash q, ?_⟩
    have hbucket : bucket (a ++ (x.1, item) :: b) i = bucket (a ++ x :: b) i := by
      simp [bucket, List.filter_append, List.filter_cons, hkey]
      split <;> rfl
    rw [hbucket]
    exact hperm
  · rw [hids]
    exact h.chained.ids_nodup
  · rw [hkeys]
    exact h.chained.keys_nodup
  · intro y hy
    have hmem : y.1 ∈ (a ++ x :: b).map Prod.fst := hids ▸ List.mem_map_of_mem hy
    obtain ⟨z, hz, hzy⟩ := List.mem_map.mp hmem
    exact hzy ▸ h.chained.bound z hz
  · change cache.size = _
    rw [h.size_eq]
    simp

theorem Represents.grow (h : Represents cache l) (item : Item)
    (hkey : ∀ y ∈ l, y.2.key ≠ item.key) (hroom : cache.size < cache.capacity) :
    ∃ mid cache',
      linkHead (allocEntry cache (record cache.defaultTtl item)) cache.fresh = some mid ∧
      hashInsert mid cache.fresh = some cache' ∧
      Represents { cache' with size := cache'.size + 1 } ((cache.fresh, item) :: l) ∧
      SameSettings cache cache' := by
  have hnot : cache.fresh ∉ l.map Prod.fst := by
    intro hmem
    obtain ⟨y, hy, heq⟩ := List.mem_map.mp hmem
    exact absurd (h.chained.bound y hy) (by omega)
  have hframe : ∀ q ∈ l.map Prod.fst,
      (allocEntry cache (record cache.defaultTtl item)).heap q = cache.heap q := by
    intro q hq
    apply Function.update_of_ne
    rintro rfl
    exact hnot hq
  have hlisted : Listed (allocEntry cache (record cache.defaultTtl item)) (l.map Prod.fst) :=
    h.listed.congr (fun q hq => congrArg _ (hframe q hq)) (fun q hq => congrArg _ (hframe q hq))
      rfl rfl
  have hchained : Chained (allocEntry cache (record cache.defaultTtl item)) l :=
    h.chained.frame (fun y hy => hframe y.1 (List.mem_map_of_mem hy)) rfl (Nat.le_succ _) rfl
  have hnew : (allocEntry cache (record cache.defaultTtl item)).heap cache.fresh =
      some ⟨record cache.defaultTtl item, none, none, none⟩ := Function.update_self ..
  obtain ⟨mid, hlink, hlisted', hsame⟩ := hlisted.linkHead hnot hnew
  obtain ⟨e, he, hrecord, -⟩ := hsame.entry hnew
  have hbound : cache.fresh < mid.fresh := by
    rw [hsame.fresh]
    exact Nat.lt_succ_self _
  obtain ⟨cache', hinsert, hchained', hsame'⟩ := (hsame.chained hchained).insert
    (x := (cache.fresh, item)) he (by rw [hrecord, hsame.defaultTtl]; rfl) hnot hkey hbound
  have hsize : cache'.size = cache.size := hsame'.size.trans hsame.size
  have hcapacity : cache'.capacity = cache.capacity := hsame'.capacity.trans hsame.capacity
  refine ⟨mid, cache', hlink, hinsert, ⟨?_, ?_, ?_, ?_, ?_⟩,
    ⟨hcapacity, hsame'.defaultTtl.trans hsame.defaultTtl⟩⟩
  · exact (hsame'.listed hlisted').congr (fun _ _ => rfl) (fun _ _ => rfl) rfl rfl
  · exact hchained'.frame (fun _ _ => rfl) rfl le_rfl rfl
  · change cache'.size + 1 = _
    rw [hsize, h.size_eq]
    simp
  · change cache'.size + 1 ≤ cache'.capacity
    omega
  · change 0 < cache'.capacity
    rw [hcapacity]
    exact h.capacity_pos

theorem key_cases (l : List (Nat × Item)) (key : CStr) :
    (∀ y ∈ l, y.2.key ≠ key) ∨ ∃ a x b, l = a ++ x :: b ∧ x.2.key = key := by
  by_cases h : ∃ y ∈ l, y.2.key = key
  · obtain ⟨y, hy, hkey⟩ := h
    obtain ⟨a, b, rfl⟩ := List.append_of_mem hy
    exact Or.inr ⟨a, y, b, rfl, hkey⟩
  · exact Or.inl fun y hy hkey => h ⟨y, hy, hkey⟩

theorem lookup_none (h : ∀ y ∈ l, y.2.key ≠ key) : lookup (l.map Prod.snd) key = none := by
  apply List.find?_eq_none.mpr
  intro item hitem
  obtain ⟨y, hy, rfl⟩ := List.mem_map.mp hitem
  simpa using h y hy

theorem without_none (h : ∀ y ∈ l, y.2.key ≠ key) :
    without (l.map Prod.snd) key = l.map Prod.snd := by
  apply List.filter_eq_self.mpr
  intro item hitem
  obtain ⟨y, hy, rfl⟩ := List.mem_map.mp hitem
  simpa using h y hy

theorem Chained.others (h : Chained cache (a ++ x :: b)) : ∀ y ∈ a ++ b, y.2.key ≠ x.2.key := by
  intro y hy heq
  have hkeys := h.keys_nodup
  rw [List.map_append, List.map_cons] at hkeys
  apply (List.nodup_cons.mp (List.nodup_middle.mp hkeys)).1
  rw [← List.map_append]
  exact List.mem_map.mpr ⟨y, hy, heq⟩

theorem lookup_some (h : Chained cache (a ++ x :: b)) :
    lookup ((a ++ x :: b).map Prod.snd) x.2.key = some x.2 := by
  have hfirst : ∀ item ∈ a.map Prod.snd, ¬item.key = x.2.key := by
    intro item hitem
    obtain ⟨y, hy, rfl⟩ := List.mem_map.mp hitem
    exact Chained.others h y (List.mem_append_left b hy)
  rw [lookup, List.map_append, List.map_cons, List.find?_append,
    List.find?_eq_none.mpr (by simpa using hfirst)]
  simp

theorem without_some (h : Chained cache (a ++ x :: b)) :
    without ((a ++ x :: b).map Prod.snd) x.2.key = (a ++ b).map Prod.snd := by
  have hrest := without_none (Chained.others h)
  rw [← hrest]
  simp [without]

theorem Represents.get (h : Represents cache l) (key : CStr) (age : Timespec → ℚ) :
    ∃ cache', cacheGet cache key age =
        some (answer cache.defaultTtl (l.map Prod.snd) key age, cache') ∧
      Stores cache' (lruStep cache.capacity cache.defaultTtl (l.map Prod.snd) (.get key age)) ∧
      SameSettings cache cache' := by
  obtain hnone | ⟨a, x, b, rfl, rfl⟩ := key_cases l key
  · rw [cacheGet, h.chained.find_none hnone, answer, lruStep, lookup_none hnone]
    exact ⟨_, rfl, ⟨l, h.counters _ _ _, rfl⟩, ⟨rfl, rfl⟩⟩
  · have hx : x ∈ a ++ x :: b := by simp
    obtain ⟨e, he, hrecord⟩ := h.chained.entry hx
    rw [cacheGet, h.chained.find_some hx, answer, lruStep, lookup_some h.chained,
      without_some h.chained]
    simp only [Option.bind_eq_bind, Option.bind_some, he, hrecord]
    by_cases hexpired : entryExpired (record cache.defaultTtl x.2) age = true
    · rw [if_pos hexpired, if_pos hexpired, if_pos hexpired]
      obtain ⟨cache', hremove, hcache', hsame⟩ := h.shrink
      rw [hremove]
      exact ⟨_, rfl, ⟨a ++ b, hcache'.counters _ _ _, rfl⟩, ⟨hsame.capacity, hsame.defaultTtl⟩⟩
    · rw [if_neg hexpired, if_neg hexpired, if_neg hexpired]
      obtain ⟨cache', hmove, hcache', hsame⟩ := h.touch
      obtain ⟨e', he', hrecord'⟩ := hcache'.chained.entry (x := x) List.mem_cons_self
      have hvalue : e'.value = x.2.value := by rw [hrecord']; rfl
      rw [hmove]
      simp only [Option.bind_some, he', hvalue]
      exact ⟨_, rfl, ⟨x :: (a ++ b), hcache'.counters _ _ _, rfl⟩,
        ⟨hsame.capacity, hsame.defaultTtl⟩⟩

theorem Represents.delete (h : Represents cache l) (key : CStr) :
    ∃ code cache', cacheDelete cache key = some (code, cache') ∧
      Stores cache' (without (l.map Prod.snd) key) ∧ SameSettings cache cache' := by
  obtain hnone | ⟨a, x, b, rfl, rfl⟩ := key_cases l key
  · rw [cacheDelete, h.chained.find_none hnone, without_none hnone]
    exact ⟨_, _, rfl, ⟨l, h, rfl⟩, ⟨rfl, rfl⟩⟩
  · rw [cacheDelete, h.chained.find_some (x := x) (by simp), without_some h.chained]
    obtain ⟨cache', hremove, hcache', hsame⟩ := h.shrink
    simp only [Option.bind_eq_bind, Option.bind_some, hremove]
    exact ⟨_, _, rfl, ⟨a ++ b, hcache', rfl⟩, hsame⟩

/-- The tail is the item that was not used for the longest time. -/
theorem Represents.evict (h : Represents cache l) :
    ∃ code cache', cacheEvictLru cache = some (code, cache') ∧ Represents cache' l.dropLast ∧
      SameSettings cache cache' := by
  have htail : cache.tail = (l.map Prod.fst).getLast? := by
    rw [h.listed.backward.head_eq, Option.or_none, List.head?_reverse]
  induction l using List.reverseRecOn with
  | nil =>
      rw [cacheEvictLru, htail]
      exact ⟨_, _, rfl, h, ⟨rfl, rfl⟩⟩
  | append_singleton l x _ =>
      rw [cacheEvictLru, htail, List.map_append, List.map_singleton, List.getLast?_append,
        List.dropLast_concat]
      obtain ⟨cache', hremove, hcache', hsame⟩ := h.shrink
      rw [List.append_nil] at hcache'
      simp only [List.getLast?_singleton, Option.some_or, Option.bind_eq_bind, hremove,
        Option.bind_some]
      exact ⟨_, _, rfl, hcache'.counters _ _ _, ⟨hsame.capacity, hsame.defaultTtl⟩⟩

theorem writeValue_eq {r : CacheRecord} {value : CStr} (hfits : value.length < cacheMaxValueLen)
    (ttl : Int) (now : Timespec) :
    writeValue r value ttl now = record ttl ⟨r.key, value, now⟩ := by
  have hvalue : value.take (cacheMaxValueLen - 1) = value := List.take_of_length_le (by omega)
  rw [writeValue, hvalue]
  rfl

theorem Represents.put (h : Represents cache l) {key value : CStr} {now : Timespec}
    (hfits : Fits (.put key value now)) :
    ∃ cache', cachePut cache key value 0 now = some (0, cache') ∧
      Stores cache' (lruStep cache.capacity cache.defaultTtl (l.map Prod.snd)
        (.put key value now)) ∧ SameSettings cache cache' := by
  obtain ⟨hkeyFits, hvalueFits⟩ := hfits
  obtain hnone | ⟨a, x, b, rfl, rfl⟩ := key_cases l key
  · have hkey : strncpy key (cacheMaxKeyLen - 1) = key := strncpy_of_le (by omega)
    rw [cachePut, h.chained.find_none hnone, lruStep, lookup_none hnone]
    simp only [lt_irrefl, if_false, Option.bind_eq_bind, Option.bind_some, Option.isSome_none,
      Bool.false_eq_true, hkey, writeValue_eq hvalueFits, List.length_map]
    rw [h.size_eq]
    by_cases hfull : cache.capacity ≤ l.length
    · rw [if_pos hfull, if_pos hfull]
      obtain ⟨code, mid, hevict, hmid, hsame⟩ := h.evict
      have hnone' : ∀ y ∈ l.dropLast, y.2.key ≠ key := fun y hy =>
        hnone y (List.mem_of_mem_dropLast hy)
      have hroom : mid.size < mid.capacity := by
        have hpos := h.capacity_pos
        rw [hmid.size_eq, hsame.capacity, List.length_dropLast]
        have hlength := h.size_eq
        have hle := h.size_le
        omega
      obtain ⟨mid', cache', hlink, hinsert, hcache', hsame'⟩ :=
        hmid.grow ⟨key, value, now⟩ hnone' hroom
      rw [hsame.defaultTtl] at hlink
      rw [hevict]
      simp only [Option.map_some, Option.bind_some]
      rw [hlink]
      simp only [Option.bind_some, hinsert]
      exact ⟨_, rfl, ⟨_, hcache', by simp⟩, ⟨hsame'.capacity.trans hsame.capacity,
        hsame'.defaultTtl.trans hsame.defaultTtl⟩⟩
    · rw [if_neg hfull, if_neg hfull]
      have hroom : cache.size < cache.capacity := by
        have hlength := h.size_eq
        omega
      obtain ⟨mid, cache', hlink, hinsert, hcache', hsame⟩ :=
        h.grow ⟨key, value, now⟩ hnone hroom
      rw [hlink]
      simp only [Option.bind_some, hinsert]
      exact ⟨_, rfl, ⟨_, hcache', rfl⟩, ⟨hsame.capacity, hsame.defaultTtl⟩⟩
  · have hx : x ∈ a ++ x :: b := by simp
    rw [cachePut, h.chained.find_some hx, lruStep, lookup_some h.chained, without_some h.chained]
    simp only [lt_irrefl, if_false, Option.bind_eq_bind, Option.bind_some, Option.isSome_some,
      if_true]
    obtain ⟨mid, hmodify, hmid, hsame⟩ := h.rewrite ⟨x.2.key, value, now⟩ rfl
      (fun entry => { entry with
        toCacheRecord := writeValue entry.toCacheRecord value cache.defaultTtl now })
      (by
        intro e he
        dsimp only
        rw [writeValue_eq hvalueFits, he]
        rfl)
      (fun e => ⟨rfl, rfl, rfl⟩)
    obtain ⟨cache', hmove, hcache', hsame'⟩ := hmid.touch
    rw [hmodify]
    simp only [Option.bind_some, hmove]
    exact ⟨_, rfl, ⟨_, hcache', by simp⟩, ⟨hsame'.capacity.trans hsame.capacity,
      hsame'.defaultTtl.trans hsame.defaultTtl⟩⟩

/-- Every call does to the structures what it does to the list. -/
theorem Stores.step (h : Stores cache items) {op : Op} (hop : Fits op) :
    ∃ cache', Cache.step cache op = some cache' ∧
      Stores cache' (lruStep cache.capacity cache.defaultTtl items op) ∧
      SameSettings cache cache' := by
  obtain ⟨l, hl, rfl⟩ := h
  cases op with
  | get key age =>
      obtain ⟨cache', hget, hstores, hsame⟩ := hl.get key age
      exact ⟨cache', by simp [Cache.step, hget], hstores, hsame⟩
  | put key value now =>
      obtain ⟨cache', hput, hstores, hsame⟩ := hl.put hop
      exact ⟨cache', by simp [Cache.step, hput], hstores, hsame⟩
  | delete key =>
      obtain ⟨code, cache', hdelete, hstores, hsame⟩ := hl.delete key
      exact ⟨cache', by simp [Cache.step, hdelete], hstores, hsame⟩
  | evictLru =>
      obtain ⟨code, cache', hevict, hcache', hsame⟩ := hl.evict
      exact ⟨cache', by simp [Cache.step, hevict], ⟨_, hcache', List.map_dropLast⟩, hsame⟩

end

/-! ## The history of the items -/

section

variable {ops : List Op} {op : Op} {items items' : List Item} {key : CStr}

theorem lastUse_concat (key : CStr) (ops : List Op) (op : Op) :
    lastUse key (ops ++ [op]) = if usesKey key op then ops.length + 1 else lastUse key ops := by
  unfold lastUse
  rw [List.reverse_append, List.reverse_singleton, List.singleton_append, List.findIdx_cons,
    List.length_append, List.length_singleton]
  cases usesKey key op
  · simp
  · simp

theorem lastPut_concat (key : CStr) (ops : List Op) (op : Op) :
    lastPut key (ops ++ [op]) =
      match op with
      | .put k value now => if k = key then some (value, now) else lastPut key ops
      | .get .. | .delete _ | .evictLru => lastPut key ops := by
  unfold lastPut
  rw [List.foldl_append]
  cases op <;> rfl

structure Recent (ops : List Op) (items : List Item) : Prop where
  order : items.Pairwise fun item item' => lastUse item'.key ops < lastUse item.key ops
  latest : ∀ item ∈ items, lastPut item.key ops = some (item.value, item.createdAt)

theorem Recent.keep (h : Recent ops items) (hsub : items'.Sublist items)
    (hop : ∀ item ∈ items', usesKey item.key op = false) : Recent (ops ++ [op]) items' := by
  constructor
  · refine (h.order.sublist hsub).imp_of_mem ?_
    intro item item' hitem hitem' hlt
    rw [lastUse_concat, lastUse_concat, hop item hitem, hop item' hitem']
    exact hlt
  · intro item hitem
    rw [lastPut_concat, ← h.latest item (hsub.subset hitem)]
    cases op with
    | put k value now =>
        have hne := hop item hitem
        simp only [usesKey, beq_eq_false_iff_ne] at hne
        exact if_neg hne
    | get k age => rfl
    | delete k => rfl
    | evictLru => rfl

theorem Recent.use (h : Recent (ops ++ [op]) items') {item : Item}
    (hop : usesKey item.key op = true)
    (hother : ∀ item' ∈ items', usesKey item'.key op = false)
    (hlatest : lastPut item.key (ops ++ [op]) = some (item.value, item.createdAt)) :
    Recent (ops ++ [op]) (item :: items') := by
  constructor
  · refine List.pairwise_cons.mpr ⟨?_, h.order⟩
    intro item' hitem'
    rw [lastUse_concat, lastUse_concat, hop, hother item' hitem', if_pos rfl]
    simp only [Bool.false_eq_true, if_false]
    exact Nat.lt_succ_of_le (Nat.sub_le _ _)
  · exact List.forall_mem_cons.mpr ⟨hlatest, h.latest⟩

theorem mem_without {item : Item} (h : item ∈ without items key) : item.key ≠ key :=
  of_decide_eq_true (List.mem_filter.mp h).2

theorem usesKey_get_of_ne {k : CStr} {age : Timespec → ℚ} (h : k ≠ key) :
    usesKey key (.get k age) = false := beq_eq_false_iff_ne.mpr h

theorem usesKey_put_of_ne {k value : CStr} {now : Timespec} (h : k ≠ key) :
    usesKey key (.put k value now) = false := beq_eq_false_iff_ne.mpr h

theorem Recent.step (h : Recent ops items) (capacity ttl : Int) (op : Op) :
    Recent (ops ++ [op]) (lruStep capacity ttl items op) := by
  cases op with
  | get key age =>
      have hwithout : Recent (ops ++ [.get key age]) (without items key) :=
        h.keep List.filter_sublist fun item hitem => usesKey_get_of_ne (mem_without hitem).symm
      rw [lruStep]
      cases hfind : lookup items key with
      | none =>
          have hnone := List.find?_eq_none.mp hfind
          exact h.keep (List.Sublist.refl _) fun item hitem =>
            usesKey_get_of_ne fun heq => hnone item hitem (decide_eq_true heq.symm)
      | some item =>
          have hkey : item.key = key := by simpa using List.find?_some hfind
          dsimp only
          split
          · exact hwithout
          · apply hwithout.use
            · exact beq_iff_eq.mpr hkey.symm
            · exact fun item' hitem' => usesKey_get_of_ne (mem_without hitem').symm
            · rw [lastPut_concat]
              exact h.latest item (List.mem_of_find?_eq_some hfind)
  | put key value now =>
      have hlatest : lastPut key (ops ++ [.put key value now]) = some (value, now) := by
        rw [lastPut_concat]
        exact if_pos rfl
      have hfront : ∀ items' : List Item, items'.Sublist items →
          (∀ item ∈ items', item.key ≠ key) →
            Recent (ops ++ [.put key value now]) (⟨key, value, now⟩ :: items') := by
        intro items' hsub hne
        have hother : ∀ item ∈ items', usesKey item.key (.put key value now) = false :=
          fun item hitem => usesKey_put_of_ne (hne item hitem).symm
        exact (h.keep hsub hother).use (beq_self_eq_true key) hother hlatest
      rw [lruStep]
      split
      · exact hfront _ List.filter_sublist fun item hitem => mem_without hitem
      · next hfind =>
          have hnone : ∀ item ∈ items, item.key ≠ key := by
            intro item hitem heq
            have hnone := List.find?_eq_none.mp (Option.not_isSome_iff_eq_none.mp hfind)
            exact hnone item hitem (decide_eq_true heq)
          split
          · exact hfront _ (List.dropLast_sublist _) fun item hitem =>
              hnone item (List.mem_of_mem_dropLast hitem)
          · exact hfront _ (List.Sublist.refl _) hnone
  | delete key => exact h.keep List.filter_sublist fun _ _ => rfl
  | evictLru => exact h.keep (List.dropLast_sublist _) fun _ _ => rfl

end

/-! ## Runs -/

theorem stores_cacheInit (capacity defaultTtl : Int) :
    Stores (cacheInit capacity defaultTtl) [] := by
  refine ⟨[], ⟨⟨List.nodup_nil, rfl, rfl⟩, ⟨?_, ?_, List.nodup_nil, List.nodup_nil, ?_⟩,
    rfl, ?_, ?_⟩,
    rfl⟩
  · simp
  · exact fun _ => ⟨[], rfl, List.Perm.refl _⟩
  · simp
  · change (0 : Int) ≤ if 0 < capacity then capacity else 64
    split <;> omega
  · change (0 : Int) < if 0 < capacity then capacity else 64
    split <;> omega

theorem run_stores {cache : LRUCache} {items : List Item} (before ops : List Op)
    (hops : ∀ op ∈ ops, Fits op) (hstores : Stores cache items) (hrecent : Recent before items) :
    ∃ cache', runOption step cache ops = some cache' ∧
      Stores cache' (run (lruStep cache.capacity cache.defaultTtl) items ops) ∧
      Recent (before ++ ops) (run (lruStep cache.capacity cache.defaultTtl) items ops) ∧
      SameSettings cache cache' := by
  induction ops generalizing cache items before with
  | nil =>
      rw [List.append_nil]
      exact ⟨cache, rfl, hstores, hrecent, ⟨rfl, rfl⟩⟩
  | cons op ops ih =>
      obtain ⟨mid, hstep, hmid, hsame⟩ := hstores.step (hops op List.mem_cons_self)
      obtain ⟨cache', hrun, hcache', hrecent', hsame'⟩ := ih (before ++ [op])
        (fun op' hop' => hops op' (List.mem_cons_of_mem op hop')) hmid
        (hrecent.step cache.capacity cache.defaultTtl op)
      rw [hsame.capacity, hsame.defaultTtl] at hcache' hrecent'
      rw [List.append_assoc, List.singleton_append] at hrecent'
      refine ⟨cache', ?_, hcache', hrecent', ⟨hsame'.capacity.trans hsame.capacity,
        hsame'.defaultTtl.trans hsame.defaultTtl⟩⟩
      rw [runOption, hstep]
      exact hrun

/-- Every run of calls returns, and the cache stores what the list has. -/
theorem cache_refines_list (capacity defaultTtl : Int) (ops : List Op)
    (hops : ∀ op ∈ ops, Fits op) :
    ∃ cache, runOption step (cacheInit capacity defaultTtl) ops = some cache ∧
      CacheHolds ops cache (run (lruStep (cacheInit capacity defaultTtl).capacity
        (cacheInit capacity defaultTtl).defaultTtl) [] ops) := by
  obtain ⟨cache, hrun, hstores, hrecent, hsame⟩ := run_stores [] ops hops
    (stores_cacheInit capacity defaultTtl) ⟨List.Pairwise.nil, by simp⟩
  refine ⟨cache, hrun, hstores, hrecent.order, hrecent.latest, ?_, ?_⟩
  · intro key age
    obtain ⟨l, hl, heq⟩ := hstores
    obtain ⟨cache', hget, -, -⟩ := hl.get key age
    rw [heq] at hget
    exact ⟨cache', hget⟩
  · intro key value now hfits hnew hfull
    obtain ⟨l, hl, heq⟩ := hstores
    obtain ⟨cache', hput, hstores', -⟩ := hl.put hfits
    have hlength := hl.size_eq
    rw [heq, lruStep, hnew, if_neg (by simp), if_pos] at hstores'
    · exact ⟨cache', hput, hstores'⟩
    · rw [← heq, List.length_map]
      omega

/-- Two keys with the same hash in a cache for two entries, and a third key. -/
def collidingRun : List Op :=
  [.put (lit "Ab") (lit "1") ⟨0, 0⟩, .put (lit "BA") (lit "2") ⟨1, 0⟩, .get (lit "Ab") fun _ => 2,
    .put (lit "z") (lit "3") ⟨3, 0⟩, .delete (lit "Ab"), .evictLru]

theorem cache_refines_list_colliding :
    ∃ cache, runOption step (cacheInit 2 0) collidingRun = some cache ∧
      CacheHolds collidingRun cache (run (lruStep 2 0) [] collidingRun) :=
  cache_refines_list 2 0 collidingRun (by decide)

/-- A value that is put with a time to live of 0 is gone when the default one is over. -/
theorem stored_value_expires :
    ¬∀ (capacity defaultTtl : Int) (ops : List Op), (∀ op ∈ ops, Fits op) →
      ∀ cache items, runOption step (cacheInit capacity defaultTtl) ops = some cache →
        Stores cache items → ∀ key age, ∃ cache',
          cacheGet cache key age = some ((lookup items key).map Item.value, cache') := by
  intro h
  have hops : ∀ op ∈ [Op.put (lit "token") (lit "t1") ⟨0, 0⟩], Fits op := by decide
  obtain ⟨cache, hrun, hstores, -, hsame⟩ := run_stores [] _ hops (stores_cacheInit 8 1)
    ⟨List.Pairwise.nil, by simp⟩
  obtain ⟨cache', hget⟩ := h 8 1 _ hops cache _ hrun hstores (lit "token") fun _ => 5
  obtain ⟨l, hl, heq⟩ := hstores
  obtain ⟨cache'', hget', -, -⟩ := hl.get (lit "token") fun _ => 5
  rw [heq, hsame.defaultTtl, hget, Option.some.injEq, Prod.mk.injEq] at hget'
  exact absurd hget'.1 (by decide)

end MiniBackend.Framework.Proofs.LruRefinement
