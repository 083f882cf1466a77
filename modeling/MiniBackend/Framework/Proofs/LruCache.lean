import MiniBackend.Lib.Runs
import MiniBackend.Framework.Cache

/-!
# The cache as a list in the order of use

The recency list and the hash chains are two structures over the same entries.  Each
operation on one of them leaves the other one alone, so the two are followed separately and
put together for the calls.
-/

namespace MiniBackend.Framework.Proofs.LruCache

open MiniBackend.Lib.CString MiniBackend.Lib.LinkPath MiniBackend.Lib.Runs
open MiniBackend.Framework.Cache

/-! ## The recency list -/

/-- The entries are linked in this order, in both directions. -/
structure Listed (cache : LRUCache) (l : List Nat) : Prop where
  nodup : l.Nodup
  forward : Segment (fun p => (cache.heap p).map CacheEntry.next) cache.head l none
  backward : Segment (fun p => (cache.heap p).map CacheEntry.prev) cache.tail l.reverse none

structure SameChains (cache cache' : LRUCache) : Prop where
  entries : ∀ p, (cache'.heap p).map (fun e => (e.toCacheRecord, e.hashNext)) =
    (cache.heap p).map fun e => (e.toCacheRecord, e.hashNext)
  fresh : cache'.fresh = cache.fresh
  hash : cache'.hash = cache.hash
  capacity : cache'.capacity = cache.capacity
  size : cache'.size = cache.size
  defaultTtl : cache'.defaultTtl = cache.defaultTtl

theorem modifyEntry_eq {cache : LRUCache} {p : Nat} {e : CacheEntry} (h : cache.heap p = some e)
    (f : CacheEntry → CacheEntry) : modifyEntry cache p f =
      some { cache with heap := Function.update cache.heap p (some (f e)) } := by
  rw [modifyEntry, h]
  rfl

theorem detachNode_eq {cache : LRUCache} {p : Nat} {e : CacheEntry} (h : cache.heap p = some e)
    (hprev : e.prev ≠ some p) (hnext : e.next ≠ some p)
    (hprev' : ∀ q, e.prev = some q → ∃ e', cache.heap q = some e')
    (hnext' : ∀ q, e.next = some q → ∃ e', cache.heap q = some e') :
    detachNode cache p = some { cache with
      heap := fun q =>
        if q = p then some { e with prev := none, next := none }
        else (cache.heap q).map fun e' => { e' with
          next := if e.prev = some q then e.next else e'.next
          prev := if e.next = some q then e.prev else e'.prev }
      head := if e.prev = none then e.next else cache.head
      tail := if e.next = none then e.prev else cache.tail } := by
  obtain ⟨record, prev, next, hashNext⟩ := e
  dsimp only at *
  -- the first neighbour
  have hfirst : ∃ heap', setNextOrHead cache prev next = some { cache with
      heap := heap'
      head := if prev = none then next else cache.head } ∧
      ∀ q, heap' q = (cache.heap q).map fun e' => { e' with
        next := if prev = some q then next else e'.next } := by
    cases prev with
    | none => exact ⟨cache.heap, rfl, by simp⟩
    | some q =>
        obtain ⟨e', he'⟩ := hprev' q rfl
        refine ⟨_, modifyEntry_eq he' _, ?_⟩
        intro r
        by_cases hr : r = q
        · subst hr
          simp [he']
        · rw [Function.update_of_ne hr]
          simp [Ne.symm hr]
  obtain ⟨heap', hset, hheap'⟩ := hfirst
  have hp : heap' p = some ⟨record, prev, next, hashNext⟩ := by
    rw [hheap', h]
    simp [hprev]
  have hsecond : ∃ heap'', setPrevOrTail { cache with
        heap := heap'
        head := if prev = none then next else cache.head } next prev = some { cache with
      heap := heap''
      head := if prev = none then next else cache.head
      tail := if next = none then prev else cache.tail } ∧
      ∀ q, heap'' q = (heap' q).map fun e' => { e' with
        prev := if next = some q then prev else e'.prev } := by
    cases next with
    | none => exact ⟨heap', rfl, by simp⟩
    | some q =>
        obtain ⟨e', he'⟩ := hnext' q rfl
        have he'' := hheap' q
        rw [he'] at he''
        refine ⟨_, modifyEntry_eq he'' _, ?_⟩
        intro r
        by_cases hr : r = q
        · subst hr
          simp [he'']
        · rw [Function.update_of_ne hr]
          simp [Ne.symm hr]
  obtain ⟨heap'', hset', hheap''⟩ := hsecond
  have hp' : heap'' p = some ⟨record, prev, next, hashNext⟩ := by
    rw [hheap'', hp]
    simp [hnext]
  rw [detachNode, h]
  simp only [Option.bind_eq_bind, Option.bind_some, hset, hp, hset']
  rw [modifyEntry_eq hp']
  congr 2
  funext q
  by_cases hq : q = p
  · subst hq
    simp
  · rw [Function.update_of_ne hq, if_neg hq]
    change heap'' q = _
    rw [hheap'', hheap']
    simp [Function.comp_def]

theorem linkHead_eq {cache : LRUCache} {p : Nat} {e : CacheEntry} (h : cache.heap p = some e)
    (hhead : cache.head ≠ some p)
    (hhead' : ∀ q, cache.head = some q → ∃ e', cache.heap q = some e') :
    linkHead cache p = some { cache with
      heap := fun q =>
        if q = p then some { e with prev := none, next := cache.head }
        else (cache.heap q).map fun e' => { e' with
          prev := if cache.head = some q then some p else e'.prev }
      head := some p
      tail := if cache.tail = none then some p else cache.tail } := by
  rw [linkHead, modifyEntry_eq h]
  simp only [Option.bind_eq_bind, Option.bind_some]
  cases hq : cache.head with
  | none =>
      simp only [Option.some.injEq]
      congr 1
      funext r
      by_cases hr : r = p
      · subst hr
        simp
      · simp [hr]
  | some q =>
      obtain ⟨e', he'⟩ := hhead' q hq
      have hne : q ≠ p := by
        rintro rfl
        exact hhead hq
      dsimp only
      rw [modifyEntry_eq (e := e') (by
        change Function.update cache.heap p _ q = _
        rw [Function.update_of_ne hne, he'])]
      simp only [Option.bind_some, Option.some.injEq]
      congr 1
      funext r
      by_cases hr : r = p
      · subst hr
        rw [Function.update_of_ne (Ne.symm hne)]
        simp
      · rw [if_neg hr]
        by_cases hr' : r = q
        · subst hr'
          simp [he']
        · rw [Function.update_of_ne hr', Function.update_of_ne hr]
          simp [Ne.symm hr']

theorem SameChains.refl (cache : LRUCache) : SameChains cache cache :=
  ⟨fun _ => rfl, rfl, rfl, rfl, rfl, rfl⟩

theorem SameChains.trans {cache cache' cache'' : LRUCache} (h : SameChains cache cache')
    (h' : SameChains cache' cache'') : SameChains cache cache'' where
  entries p := (h'.entries p).trans (h.entries p)
  fresh := h'.fresh.trans h.fresh
  hash := h'.hash.trans h.hash
  capacity := h'.capacity.trans h.capacity
  size := h'.size.trans h.size
  defaultTtl := h'.defaultTtl.trans h.defaultTtl

section

variable {cache : LRUCache} {a b l : List Nat} {p : Nat}

theorem Listed.congr {cache' : LRUCache} (h : Listed cache l)
    (hnext : ∀ q ∈ l, (cache'.heap q).map CacheEntry.next = (cache.heap q).map CacheEntry.next)
    (hprev : ∀ q ∈ l, (cache'.heap q).map CacheEntry.prev = (cache.heap q).map CacheEntry.prev)
    (hhead : cache'.head = cache.head) (htail : cache'.tail = cache.tail) : Listed cache' l := by
  refine ⟨h.nodup, ?_, ?_⟩
  · rw [hhead]
    exact h.forward.congr hnext
  · rw [htail]
    exact h.backward.congr fun q hq => hprev q (List.mem_reverse.mp hq)

theorem Listed.entry (h : Listed cache l) (hp : p ∈ l) : ∃ e, cache.heap p = some e := by
  obtain ⟨x, hx⟩ := h.forward.link_isSome hp
  obtain ⟨e, he, -⟩ := Option.map_eq_some_iff.mp hx
  exact ⟨e, he⟩

theorem Listed.links (h : Listed cache (a ++ p :: b)) {e : CacheEntry}
    (he : cache.heap p = some e) : e.next = b.head? ∧ e.prev = a.getLast? := by
  have hnext := h.forward.link_eq
  have hbackward := h.backward
  rw [List.reverse_append, List.reverse_cons, List.append_assoc, List.singleton_append]
    at hbackward
  have hprev := hbackward.link_eq
  rw [he] at hnext hprev
  rw [List.head?_reverse] at hprev
  exact ⟨Option.some.inj hnext, Option.some.inj hprev⟩

theorem Listed.detach (h : Listed cache (a ++ p :: b)) :
    ∃ cache', detachNode cache p = some cache' ∧ Listed cache' (a ++ b) ∧
      SameChains cache cache' := by
  obtain ⟨e, he⟩ := h.entry (p := p) (by simp)
  obtain ⟨hnext, hprev⟩ := h.links he
  have hnodup := h.nodup
  have hmem : ∀ q ∈ a ++ b, q ≠ p ∧ ∃ e', cache.heap q = some e' := by
    intro q hq
    refine ⟨?_, h.entry (by simp at hq ⊢; tauto)⟩
    rintro rfl
    exact (List.nodup_middle.mp hnodup |> List.nodup_cons.mp).1 hq
  have hbefore : ∀ q, e.prev = some q → q ∈ a ++ b := fun q hq =>
    List.mem_append_left b (List.mem_of_getLast? (hprev ▸ hq))
  have hafter : ∀ q, e.next = some q → q ∈ a ++ b := fun q hq =>
    List.mem_append_right a (List.mem_of_head? (hnext ▸ hq))
  have hdetach := detachNode_eq he (fun hq => (hmem p (hbefore p hq)).1 rfl)
    (fun hq => (hmem p (hafter p hq)).1 rfl) (fun q hq => (hmem q (hbefore q hq)).2)
    (fun q hq => (hmem q (hafter q hq)).2)
  refine ⟨_, hdetach, ⟨(List.nodup_cons.mp (List.nodup_middle.mp hnodup)).2, ?_, ?_⟩, ?_⟩
  · have hhead : (if e.prev = none then e.next else cache.head) =
        if a = [] then b.head? else cache.head := by
      simp only [hprev, hnext, List.getLast?_eq_none_iff]
    dsimp only
    rw [hhead]
    apply h.forward.remove hnodup h.forward.link_eq
    intro q hq
    obtain ⟨hne, e', he'⟩ := hmem q hq
    rw [if_neg hne, he', hprev, hnext]
    simp only [Option.map_some]
    split <;> rfl
  · have hbackward := h.backward
    have hnodup' := List.nodup_reverse.mpr hnodup
    rw [List.reverse_append, List.reverse_cons, List.append_assoc, List.singleton_append]
      at hbackward hnodup'
    have hlink := hbackward.link_eq
    rw [List.head?_reverse] at hlink
    have htail : (if e.next = none then e.prev else cache.tail) =
        if b.reverse = [] then a.getLast? else cache.tail := by
      simp only [hprev, hnext, List.head?_eq_none_iff, List.reverse_eq_nil_iff]
    dsimp only
    rw [htail, List.reverse_append]
    apply hbackward.remove hnodup' hlink
    intro q hq
    obtain ⟨hne, e', he'⟩ := hmem q (by simpa [or_comm] using hq)
    rw [if_neg hne, he', hprev, hnext, List.getLast?_reverse]
    simp only [Option.map_some]
    split <;> rfl
  · refine ⟨?_, rfl, rfl, rfl, rfl, rfl⟩
    intro q
    dsimp only
    by_cases hq : q = p
    · subst hq
      simp [he]
    · rw [if_neg hq, Option.map_map]
      rfl

/-- An entry that is not in the list becomes its first one. -/
theorem Listed.linkHead (h : Listed cache l) (hp : p ∉ l) {e : CacheEntry}
    (he : cache.heap p = some e) :
    ∃ cache', linkHead cache p = some cache' ∧ Listed cache' (p :: l) ∧
      SameChains cache cache' := by
  have hhead : cache.head = l.head? := by
    rw [h.forward.head_eq, Option.or_none]
  have htail : cache.tail = l.getLast? := by
    rw [h.backward.head_eq, Option.or_none, List.head?_reverse]
  have hfirst : ∀ q, cache.head = some q → q ∈ l := fun q hq =>
    List.mem_of_head? (hhead ▸ hq)
  have hlink := linkHead_eq he (fun hq => hp (hfirst p hq)) (fun q hq => h.entry (hfirst q hq))
  have hne : ∀ q ∈ l, q ≠ p := by
    rintro q hq rfl
    exact hp hq
  refine ⟨_, hlink, ⟨List.nodup_cons.mpr ⟨hp, h.nodup⟩, ?_, ?_⟩, ?_⟩
  · apply h.forward.push
    · simp
    · intro q hq
      dsimp only
      rw [if_neg (hne q hq), Option.map_map]
      rfl
  · have htail' : (if cache.tail = none then some p else cache.tail) =
        if l.reverse = [] then some p else cache.tail := by
      simp only [htail, List.getLast?_eq_none_iff, List.reverse_eq_nil_iff]
    dsimp only
    rw [htail', List.reverse_cons]
    apply h.backward.concat (List.nodup_reverse.mpr h.nodup)
    · simp
    · intro q hq
      rw [List.mem_reverse] at hq
      obtain ⟨e', he'⟩ := h.entry hq
      rw [if_neg (hne q hq), he', hhead, List.getLast?_reverse]
      simp only [Option.map_some]
      split <;> rfl
  · refine ⟨?_, rfl, rfl, rfl, rfl, rfl⟩
    intro q
    dsimp only
    by_cases hq : q = p
    · subst hq
      simp [he]
    · rw [if_neg hq, Option.map_map]
      rfl

theorem SameChains.entry {cache' : LRUCache} (h : SameChains cache cache') {e : CacheEntry}
    (he : cache.heap p = some e) : ∃ e', cache'.heap p = some e' ∧
      e'.toCacheRecord = e.toCacheRecord ∧ e'.hashNext = e.hashNext := by
  have hsame := h.entries p
  rw [he] at hsame
  obtain ⟨e', he', heq⟩ := Option.map_eq_some_iff.mp hsame
  rw [Prod.mk.injEq] at heq
  exact ⟨e', he', heq⟩

theorem Listed.moveToHead (h : Listed cache (a ++ p :: b)) :
    ∃ cache', moveToHead cache p = some cache' ∧ Listed cache' (p :: (a ++ b)) ∧
      SameChains cache cache' := by
  unfold Cache.moveToHead
  by_cases hhead : cache.head = some p
  · rw [if_pos hhead]
    have ha : a = [] := by
      cases a with
      | nil => rfl
      | cons q a =>
          have hq : cache.head = some q := h.forward.1
          have hnodup := h.nodup
          obtain rfl : p = q := Option.some.inj (hhead.symm.trans hq)
          simp at hnodup
    subst ha
    exact ⟨cache, rfl, h, SameChains.refl cache⟩
  · rw [if_neg hhead]
    obtain ⟨mid, hdetach, hmid, hsame⟩ := h.detach
    obtain ⟨e, he⟩ := h.entry (p := p) (by simp)
    obtain ⟨e', he', -⟩ := hsame.entry he
    have hp : p ∉ a ++ b := (List.nodup_cons.mp (List.nodup_middle.mp h.nodup)).1
    obtain ⟨cache', hlink, hlisted, hsame'⟩ := hmid.linkHead hp he'
    refine ⟨cache', ?_, hlisted, hsame.trans hsame'⟩
    rw [hdetach]
    exact hlink

end

/-! ## The hash chains -/

structure Item where
  key : CStr
  value : CStr
  createdAt : Timespec
deriving DecidableEq

def record (ttl : Int) (item : Item) : CacheRecord where
  key := item.key
  value := item.value
  valueLen := item.value.length
  createdAt := item.createdAt
  ttlSec := ttl

def bucket (l : List (Nat × Item)) (b : Nat) : List Nat :=
  (l.filter fun x => hashSlot x.2.key = b).map Prod.fst

/-- Each item has one entry, and each hash chain has exactly the entries of its slot. -/
structure Chained (cache : LRUCache) (l : List (Nat × Item)) : Prop where
  records : ∀ x ∈ l, (cache.heap x.1).map CacheEntry.toCacheRecord =
    some (record cache.defaultTtl x.2)
  chains : ∀ b, ∃ c,
    Segment (fun p => (cache.heap p).map CacheEntry.hashNext) (cache.hash b) c none ∧
    c.Perm (bucket l b)
  ids_nodup : (l.map Prod.fst).Nodup
  keys_nodup : (l.map fun x => x.2.key).Nodup
  bound : ∀ x ∈ l, x.1 < cache.fresh

structure SameList (cache cache' : LRUCache) : Prop where
  entries : ∀ p, (cache'.heap p).map (fun e => (e.toCacheRecord, e.next, e.prev)) =
    (cache.heap p).map fun e => (e.toCacheRecord, e.next, e.prev)
  head : cache'.head = cache.head
  tail : cache'.tail = cache.tail
  fresh : cache'.fresh = cache.fresh
  capacity : cache'.capacity = cache.capacity
  size : cache'.size = cache.size
  defaultTtl : cache'.defaultTtl = cache.defaultTtl

section

variable {cache cache' : LRUCache} {l l' a b : List (Nat × Item)} {x : Nat × Item} {key : CStr}

theorem mem_bucket {p : Nat} {i : Nat} :
    p ∈ bucket l i ↔ ∃ x ∈ l, hashSlot x.2.key = i ∧ x.1 = p := by
  simp [bucket, and_assoc]

theorem Chained.perm (h : Chained cache l) (hperm : l.Perm l') : Chained cache l' where
  records x hx := h.records x (hperm.mem_iff.mpr hx)
  chains i := by
    obtain ⟨c, hc, hcperm⟩ := h.chains i
    exact ⟨c, hc, hcperm.trans ((hperm.filter _).map _)⟩
  ids_nodup := (hperm.map _).nodup_iff.mp h.ids_nodup
  keys_nodup := (hperm.map _).nodup_iff.mp h.keys_nodup
  bound x hx := h.bound x (hperm.mem_iff.mpr hx)

theorem SameChains.chained (hsame : SameChains cache cache') (h : Chained cache l) :
    Chained cache' l := by
  have hrecord : ∀ p, (cache'.heap p).map CacheEntry.toCacheRecord =
      (cache.heap p).map CacheEntry.toCacheRecord := by
    intro p
    have := congrArg (Option.map Prod.fst) (hsame.entries p)
    rwa [Option.map_map, Option.map_map] at this
  have hnext : ∀ p, (cache'.heap p).map CacheEntry.hashNext =
      (cache.heap p).map CacheEntry.hashNext := by
    intro p
    have := congrArg (Option.map Prod.snd) (hsame.entries p)
    rwa [Option.map_map, Option.map_map] at this
  refine ⟨?_, ?_, h.ids_nodup, h.keys_nodup, ?_⟩
  · intro x hx
    rw [hrecord, hsame.defaultTtl]
    exact h.records x hx
  · intro i
    obtain ⟨c, hc, hperm⟩ := h.chains i
    rw [hsame.hash]
    exact ⟨c, hc.congr fun p _ => hnext p, hperm⟩
  · rw [hsame.fresh]
    exact h.bound

theorem SameList.listed {l : List Nat} (hsame : SameList cache cache') (h : Listed cache l) :
    Listed cache' l := by
  have hnext : ∀ p, (cache'.heap p).map CacheEntry.next = (cache.heap p).map CacheEntry.next := by
    intro p
    have := congrArg (Option.map fun t => t.2.1) (hsame.entries p)
    rwa [Option.map_map, Option.map_map] at this
  have hprev : ∀ p, (cache'.heap p).map CacheEntry.prev = (cache.heap p).map CacheEntry.prev := by
    intro p
    have := congrArg (Option.map fun t => t.2.2) (hsame.entries p)
    rwa [Option.map_map, Option.map_map] at this
  exact h.congr (fun p _ => hnext p) (fun p _ => hprev p) hsame.head hsame.tail

theorem Chained.frame (h : Chained cache l) (hheap : ∀ y ∈ l, cache'.heap y.1 = cache.heap y.1)
    (hhash : cache'.hash = cache.hash) (hfresh : cache.fresh ≤ cache'.fresh)
    (hdefaultTtl : cache'.defaultTtl = cache.defaultTtl) : Chained cache' l := by
  refine ⟨?_, ?_, h.ids_nodup, h.keys_nodup, fun y hy => (h.bound y hy).trans_le hfresh⟩
  · intro y hy
    rw [hheap y hy, hdefaultTtl]
    exact h.records y hy
  · intro i
    obtain ⟨c, hseg, hperm⟩ := h.chains i
    refine ⟨c, ?_, hperm⟩
    rw [hhash]
    apply hseg.congr
    intro q hq
    obtain ⟨y, hy, -, rfl⟩ := mem_bucket.mp (hperm.mem_iff.mp hq)
    rw [hheap y hy]

theorem Chained.entry (h : Chained cache l) (hx : x ∈ l) :
    ∃ e, cache.heap x.1 = some e ∧ e.toCacheRecord = record cache.defaultTtl x.2 :=
  Option.map_eq_some_iff.mp (h.records x hx)

/-- A chain has no more entries than were ever allocated. -/
theorem Chained.length_le (h : Chained cache l) {c : List Nat} {i : Nat}
    (hperm : c.Perm (bucket l i)) : c.Nodup ∧ c.length ≤ cache.fresh := by
  have hsub : (bucket l i).Sublist (l.map Prod.fst) := List.filter_sublist.map _
  have hnodup : c.Nodup := hperm.nodup_iff.mpr (hsub.nodup h.ids_nodup)
  have hrange : c ⊆ List.range cache.fresh := by
    intro p hp
    obtain ⟨y, hy, -, rfl⟩ := mem_bucket.mp (hperm.mem_iff.mp hp)
    exact List.mem_range.mpr (h.bound y hy)
  have hlength := (hnodup.subperm hrange).length_le
  rw [List.length_range] at hlength
  exact ⟨hnodup, hlength⟩

/-- The items of two entries of one number are the same. -/
theorem Chained.item_eq (h : Chained cache l) {y : Nat × Item} (hx : x ∈ l) (hy : y ∈ l)
    (heq : y.1 = x.1) : y = x :=
  List.inj_on_of_nodup_map h.ids_nodup hy hx heq

/-- A walk along the chain of its slot comes to an entry that is the only one wanted. -/
theorem Chained.walk_some (h : Chained cache l) (hx : x ∈ l) (wanted : Nat → CacheEntry → Bool)
    (hwanted : ∀ e, cache.heap x.1 = some e → wanted x.1 e = true)
    (hother : ∀ y ∈ l, y ≠ x → ∀ e, cache.heap y.1 = some e → wanted y.1 e = false) :
    ∃ c d, Segment (fun p => (cache.heap p).map CacheEntry.hashNext)
        (cache.hash (hashSlot x.2.key)) (c ++ x.1 :: d) none ∧
      (c ++ x.1 :: d).Perm (bucket l (hashSlot x.2.key)) ∧
      walkChain cache wanted (hashSlot x.2.key) = some (some (c.getLast?, x.1)) := by
  obtain ⟨chain, hseg, hperm⟩ := h.chains (hashSlot x.2.key)
  obtain ⟨hnodup, hlength⟩ := h.length_le hperm
  have hmem : x.1 ∈ chain := hperm.mem_iff.mpr (mem_bucket.mpr ⟨x, hx, rfl, rfl⟩)
  obtain ⟨c, d, rfl⟩ := List.append_of_mem hmem
  refine ⟨c, d, hseg, hperm, ?_⟩
  unfold walkChain
  have hbefore : ∀ q ∈ c, ∀ node ∈ cache.heap q, wanted q node = false := by
    intro q hq node hnode
    have hq' : q ∈ c ++ x.1 :: d := List.mem_append_left _ hq
    obtain ⟨y, hy, -, rfl⟩ := mem_bucket.mp (hperm.mem_iff.mp hq')
    refine hother y hy ?_ node hnode
    rintro rfl
    exact (List.nodup_append.mp hnodup).2.2 _ hq _ List.mem_cons_self rfl
  rw [walk_first hseg hbefore (fun node hnode => hwanted node hnode), Option.or_none]
  rw [List.length_append, List.length_cons] at hlength
  omega

theorem Chained.find_none (h : Chained cache l) (hkey : ∀ x ∈ l, x.2.key ≠ key) :
    hashFind cache key = some none := by
  obtain ⟨chain, hseg, hperm⟩ := h.chains (hashSlot key)
  obtain ⟨-, hlength⟩ := h.length_le hperm
  unfold hashFind walkChain
  rw [walk_none hseg _ hlength]
  · rfl
  · intro p hp node hnode
    obtain ⟨y, hy, -, rfl⟩ := mem_bucket.mp (hperm.mem_iff.mp hp)
    obtain ⟨e, he, hrecord⟩ := h.entry hy
    obtain rfl : node = e := Option.some.inj (hnode.symm.trans he)
    rw [beq_eq_false_iff_ne, hrecord]
    exact hkey y hy

theorem Chained.find_some (h : Chained cache l) (hx : x ∈ l) :
    hashFind cache x.2.key = some (some x.1) := by
  obtain ⟨c, d, -, -, hwalk⟩ := h.walk_some hx (fun _ e => e.key == x.2.key)
    (by
      intro e he
      obtain ⟨e', he', hrecord⟩ := h.entry hx
      obtain rfl : e = e' := Option.some.inj (he.symm.trans he')
      rw [hrecord]
      exact beq_self_eq_true _)
    (by
      intro y hy hne e he
      obtain ⟨e', he', hrecord⟩ := h.entry hy
      obtain rfl : e = e' := Option.some.inj (he.symm.trans he')
      rw [hrecord, beq_eq_false_iff_ne]
      exact fun heq => hne (List.inj_on_of_nodup_map h.keys_nodup hy hx heq))
  unfold hashFind
  rw [hwalk]
  rfl

theorem setChain_eq (h : Nat) {before : Link} (y : Link)
    (hbefore : ∀ q, before = some q → ∃ e, cache.heap q = some e) :
    setChain cache h before y = some { cache with
      heap := fun q =>
        if before = some q then (cache.heap q).map fun e => { e with hashNext := y }
        else cache.heap q
      hash := if before = none then Function.update cache.hash h y else cache.hash } := by
  cases before with
  | none => simp [setChain]
  | some q =>
      obtain ⟨e, he⟩ := hbefore q rfl
      rw [setChain]
      rw [modifyEntry_eq he]
      simp only [Option.some.injEq]
      congr 1
      funext r
      by_cases hr : r = q
      · subst hr
        simp [he]
      · rw [Function.update_of_ne hr, if_neg (Ne.symm hr)]

theorem bucket_middle (a b : List (Nat × Item)) (x : Nat × Item) (i : Nat) :
    (bucket (a ++ x :: b) i).Perm
      (if hashSlot x.2.key = i then x.1 :: bucket (a ++ b) i else bucket (a ++ b) i) := by
  have hmiddle : (a ++ x :: b).Perm (x :: (a ++ b)) := List.perm_middle
  have hperm := (hmiddle.filter fun x => hashSlot x.2.key = i).map Prod.fst
  refine hperm.trans ?_
  by_cases hi : hashSlot x.2.key = i <;> simp [bucket, hi]

theorem Chained.remove (h : Chained cache (a ++ x :: b)) :
    ∃ cache', hashRemove cache x.1 = some cache' ∧ Chained cache' (a ++ b) ∧
      SameList cache cache' := by
  have hx : x ∈ a ++ x :: b := by simp
  obtain ⟨e, he, hrecord⟩ := h.entry hx
  obtain ⟨c, d, hseg, hperm, hwalk⟩ := h.walk_some hx (fun q _ => q == x.1)
    (fun _ _ => beq_self_eq_true _)
    (fun y hy hne _ _ => beq_eq_false_iff_ne.mpr fun heq => hne (h.item_eq hx hy heq))
  obtain ⟨hnodup, -⟩ := h.length_le hperm
  have hnext : e.hashNext = d.head? := by
    have hlink := hseg.link_eq
    rw [he] at hlink
    exact Option.some.inj hlink
  have hkey : e.key = x.2.key := by rw [hrecord]; rfl
  have hbefore : ∀ q, c.getLast? = some q → ∃ e, cache.heap q = some e := by
    intro q hq
    obtain ⟨y, hy⟩ := hseg.link_isSome (List.mem_append_left _ (List.mem_of_getLast? hq))
    obtain ⟨e', he', -⟩ := Option.map_eq_some_iff.mp hy
    exact ⟨e', he'⟩
  have hset := setChain_eq (hashSlot x.2.key) e.hashNext hbefore
  have hsub : ∀ y ∈ a ++ b, y ∈ a ++ x :: b := by
    intro y hy
    rcases List.mem_append.mp hy with hy | hy
    · exact List.mem_append_left _ hy
    · exact List.mem_append_right _ (List.mem_cons_of_mem _ hy)
  have hremove : hashRemove cache x.1 =
      setChain cache (hashSlot x.2.key) c.getLast? e.hashNext := by
    rw [hashRemove, he]
    simp only [Option.bind_eq_bind, Option.bind_some, hkey, hwalk]
  refine ⟨_, hremove.trans hset, ⟨?_, ?_, ?_, ?_, fun y hy => h.bound y (hsub y hy)⟩,
    ⟨?_, rfl, rfl, rfl, rfl, rfl, rfl⟩⟩
  · intro y hy
    have hy' := h.records y (hsub y hy)
    dsimp only
    split
    · rw [Option.map_map]
      exact hy'
    · exact hy'
  · intro i
    have hbucket := bucket_middle a b x i
    by_cases hi : hashSlot x.2.key = i
    · subst hi
      rw [if_pos rfl] at hbucket
      refine ⟨c ++ d, ?_, ?_⟩
      · have hhead : (if c.getLast? = none then
            Function.update cache.hash (hashSlot x.2.key) e.hashNext else cache.hash)
              (hashSlot x.2.key) =
            if c = [] then d.head? else cache.hash (hashSlot x.2.key) := by
          by_cases hc : c = []
          · simp [hc, hnext]
          · simp [hc]
        dsimp only
        rw [hhead]
        apply hseg.remove hnodup hseg.link_eq
        intro q hq
        rw [hnext]
        split
        · next hlast =>
            obtain ⟨e', he'⟩ := hbefore q hlast
            rw [he']
            rfl
        · rfl
      · exact (List.perm_middle.symm.trans (hperm.trans hbucket)).cons_inv
    · rw [if_neg hi] at hbucket
      obtain ⟨c', hseg', hperm'⟩ := h.chains i
      refine ⟨c', ?_, hperm'.trans hbucket⟩
      have hhead : (if c.getLast? = none then
          Function.update cache.hash (hashSlot x.2.key) e.hashNext else cache.hash) i =
            cache.hash i := by
        split
        · exact Function.update_of_ne (Ne.symm hi) _ _
        · rfl
      dsimp only
      rw [hhead]
      apply hseg'.congr
      intro q hq
      rw [if_neg]
      intro hlast
      -- the entry before is in the chain of another slot
      obtain ⟨y, hy, hslot, hyq⟩ := mem_bucket.mp (hperm'.mem_iff.mp hq)
      obtain ⟨z, hz, hslot', hzq⟩ := mem_bucket.mp
        (hperm.mem_iff.mp (List.mem_append_left _ (List.mem_of_getLast? hlast)))
      obtain rfl := h.item_eq hz hy (hyq.trans hzq.symm)
      exact hi (hslot'.symm.trans hslot)
  · have := h.ids_nodup
    rw [List.map_append, List.map_cons] at this
    rw [List.map_append]
    exact (List.nodup_cons.mp (List.nodup_middle.mp this)).2
  · have := h.keys_nodup
    rw [List.map_append, List.map_cons] at this
    rw [List.map_append]
    exact (List.nodup_cons.mp (List.nodup_middle.mp this)).2
  · intro q
    dsimp only
    split
    · rw [Option.map_map]
      rfl
    · rfl

theorem Chained.insert (h : Chained cache l) {e : CacheEntry} (he : cache.heap x.1 = some e)
    (hrecord : e.toCacheRecord = record cache.defaultTtl x.2) (hnot : x.1 ∉ l.map Prod.fst)
    (hkey : ∀ y ∈ l, y.2.key ≠ x.2.key) (hbound : x.1 < cache.fresh) :
    ∃ cache', hashInsert cache x.1 = some cache' ∧ Chained cache' (x :: l) ∧
      SameList cache cache' := by
  have hslot : hashSlot e.key = hashSlot x.2.key := by rw [hrecord]; rfl
  have hne : ∀ y ∈ l, y.1 ≠ x.1 := fun y hy heq => hnot (heq ▸ List.mem_map_of_mem hy)
  have hinsert : hashInsert cache x.1 = some { cache with
      heap := Function.update cache.heap x.1
        (some { e with hashNext := cache.hash (hashSlot x.2.key) })
      hash := Function.update cache.hash (hashSlot x.2.key) (some x.1) } := by
    rw [hashInsert, he]
    simp only [Option.bind_eq_bind, Option.bind_some, modifyEntry_eq he, hslot]
  refine ⟨_, hinsert, ⟨?_, ?_, ?_, ?_, ?_⟩, ⟨?_, rfl, rfl, rfl, rfl, rfl, rfl⟩⟩
  · intro y hy
    dsimp only
    rcases List.mem_cons.mp hy with rfl | hy
    · rw [Function.update_self]
      exact congrArg some hrecord
    · rw [Function.update_of_ne (hne y hy)]
      exact h.records y hy
  · intro i
    obtain ⟨c, hseg, hperm⟩ := h.chains i
    have hframe : ∀ q ∈ c, Function.update cache.heap x.1
        (some { e with hashNext := cache.hash (hashSlot x.2.key) }) q = cache.heap q := by
      intro q hq
      obtain ⟨y, hy, -, rfl⟩ := mem_bucket.mp (hperm.mem_iff.mp hq)
      exact Function.update_of_ne (hne y hy) _ _
    dsimp only
    by_cases hi : hashSlot x.2.key = i
    · subst hi
      refine ⟨x.1 :: c, ?_, ?_⟩
      · rw [Function.update_self]
        apply hseg.push
        · simp
        · intro q hq
          rw [hframe q hq]
      · simpa [bucket] using hperm
    · refine ⟨c, ?_, ?_⟩
      · rw [Function.update_of_ne (Ne.symm hi)]
        apply hseg.congr
        intro q hq
        rw [hframe q hq]
      · simpa [bucket, hi] using hperm
  · exact List.nodup_cons.mpr ⟨hnot, h.ids_nodup⟩
  · refine List.nodup_cons.mpr ⟨?_, h.keys_nodup⟩
    intro hmem
    obtain ⟨y, hy, heq⟩ := List.mem_map.mp hmem
    exact hkey y hy heq
  · intro y hy
    rcases List.mem_cons.mp hy with rfl | hy
    · exact hbound
    · exact h.bound y hy
  · intro q
    dsimp only
    by_cases hq : q = x.1
    · subst hq
      rw [Function.update_self, he]
      rfl
    · rw [Function.update_of_ne hq]

end

end MiniBackend.Framework.Proofs.LruCache
