import Mathlib.Data.UInt
import MiniBackend.Infra.Proofs.CacheMap

/-!
# The recency list

What the two ends, the counters and the pointers of the buckets say about the entries, for any
configuration: an entry is moved to the front, a new one is put there, and one is taken out.
A chain may miss entries of its bucket, but it never leaves the list.
-/

namespace MiniBackend.Infra.Proofs.RecencyList

open MiniBackend.Infra.Cache
open MiniBackend.Infra.Proofs.CacheData MiniBackend.Infra.Proofs.CacheMap
open MiniBackend.Lib.CString MiniBackend.Lib.LinkedHeap

abbrev Listed := List (Nat × DcEntry)

def weight (l : Listed) : UInt64 := (l.map fun x => footprint x.2.key x.2.value).sum

/-- The entries of a cache, newest first. -/
structure Linked (cache : DcCache) (l : Listed) : Prop where
  segment : Segment cache.heap none l none
  head_eq : cache.lruHead = firstOr l none
  tail_eq : cache.lruTail = lastOr none l
  nodup : (ids l).Nodup
  below : ∀ p ∈ ids l, p < cache.fresh
  buckets : ∀ i < cache.bucketCount, ∀ p ∈ cache.buckets i, p ∈ ids l
  count : cache.entryCount = l.length
  memory : cache.memoryUsed = weight l

variable {cache : DcCache} {l a b : Listed} {x : Nat × DcEntry}

theorem weight_cons (x : Nat × DcEntry) (l : Listed) :
    weight (x :: l) = footprint x.2.key x.2.value + weight l := List.sum_cons

theorem weight_middle (a b : Listed) (x : Nat × DcEntry) :
    weight (a ++ x :: b) = footprint x.2.key x.2.value + weight (a ++ b) := by
  induction a with
  | nil => exact weight_cons x b
  | cons y a ih =>
      rw [List.cons_append, weight_cons, ih, List.cons_append, weight_cons, ← UInt64.add_assoc,
        ← UInt64.add_assoc, UInt64.add_comm (footprint y.2.key y.2.value)]

theorem bucketIndex_lt {key : CStr} {i : Nat} (h : bucketIndex cache key = some i) :
    i < cache.bucketCount := by
  unfold bucketIndex at h
  split at h
  · cases h
  · rename_i hcount
    cases h
    have hpos : 0 < cache.bucketCount % 2 ^ 32 := Nat.pos_of_ne_zero hcount
    have hlt := Nat.mod_lt (dcHash key).toNat hpos
    have hle := Nat.mod_le cache.bucketCount (2 ^ 32)
    omega

theorem Linked.length_le (h : Linked cache l) : l.length ≤ cache.fresh := by
  have hsub : ids l ⊆ List.range cache.fresh := fun p hp => List.mem_range.mpr (h.below p hp)
  calc
    l.length = (ids l).length := (List.length_map ..).symm
    _ ≤ (List.range cache.fresh).length := (List.subperm_of_subset h.nodup hsub).length_le
    _ = cache.fresh := List.length_range

theorem Linked.node (h : Linked cache (a ++ x :: b)) :
    ∃ prev, cache.heap x.1 = some ⟨x.2, firstOr b none, prev⟩ ∧
      (prev = none ∨ prev = lastOr none a) := by
  obtain ⟨_, ⟨hnode, _⟩⟩ := segment_append.mp h.segment
  exact hnode

theorem Linked.link_back (h : Linked cache (a ++ x :: b)) (hlink : ¬LostLink cache x.1) :
    cache.heap x.1 = some ⟨x.2, firstOr b none, lastOr none a⟩ := by
  obtain ⟨prev, hnode, hprev⟩ := h.node
  rcases hprev with hnone | heq
  · by_cases hhead : cache.lruHead = some x.1
    · rw [hnode, hnone, eq_nil_of_firstOr h.nodup (h.head_eq.symm.trans hhead)]
      rfl
    · have hlost : LostLink cache x.1 := ⟨hhead, by rw [hnode, hnone]; rfl⟩
      exact absurd hlost hlink
  · rw [hnode, heq]

/-- Where the pointer of a bucket leads. -/
theorem Linked.chain (h : Linked cache l) {i : Nat} (hi : i < cache.bucketCount) :
    ∃ a b, l = a ++ b ∧ cache.buckets i = firstOr b none := by
  cases hptr : cache.buckets i with
  | none => exact ⟨l, [], (List.append_nil l).symm, rfl⟩
  | some p =>
      obtain ⟨a, d, b, rfl⟩ := mem_ids_split (h.buckets i hi p hptr)
      exact ⟨a, (p, d) :: b, rfl, rfl⟩

/-! ## Lookups -/

def FoundBy (cache : DcCache) (i : Nat) (a : Listed) (p : Nat) (before : Link) : Prop :=
  (before = none ∧ cache.buckets i = some p) ∨
    (before = lastOr none a ∧ before ≠ none ∧ cache.buckets i ≠ some p)

theorem Linked.walk_cases (h : Linked cache l) (wanted : Nat → DcEntry → Bool) {i : Nat}
    (hi : i < cache.bucketCount) :
    (walk cache wanted i = some none ∧
        ∀ p ∈ cache.buckets i, ∀ x ∈ l, x.1 = p → wanted x.1 x.2 = false) ∨
      ∃ a x b before, l = a ++ x :: b ∧ wanted x.1 x.2 = true ∧
        walk cache wanted i = some (some (before, x.1)) ∧ FoundBy cache i a x.1 before := by
  obtain ⟨a, b, rfl, hptr⟩ := h.chain hi
  have hlength := h.length_le
  rw [List.length_append] at hlength
  have hseg := (segment_append.mp h.segment).2
  have hids := h.nodup
  rw [ids_append] at hids
  rw [walk, hptr]
  rcases hseg.search_cases wanted none (by omega : b.length ≤ cache.fresh) with
    ⟨hnone, hall⟩ | ⟨u, x, v, rfl, hx, hfound⟩
  · refine .inl ⟨hnone, ?_⟩
    intro p hp y hy hyp
    have hpb : p ∈ ids b := firstOr_none_mem hp
    rcases List.mem_append.mp hy with hya | hyb
    · exact absurd hyp ((List.nodup_append.mp hids).2.2 _ (mem_ids_of_mem hya) p hpb)
    · exact hall y hyb
  · refine .inr ⟨a ++ u, x, v, lastOr none u, (List.append_assoc ..).symm, hx, hfound, ?_⟩
    cases u with
    | nil => exact .inl ⟨rfl, hptr⟩
    | cons y u =>
        refine .inr ⟨?_, lastOr_cons_ne_none none y u, ?_⟩
        · rw [lastOr_append]
          rfl
        · rw [hptr]
          intro heq
          have hb := (List.nodup_append.mp hids).2.1
          rw [List.cons_append, ids_cons, List.nodup_cons] at hb
          apply hb.1
          rw [Option.some.inj heq, ids_append]
          exact List.mem_append_right _ List.mem_cons_self

theorem Linked.find_cases (h : Linked cache l) {key : CStr} {found : Option Nat}
    (hfind : dcFindEntry cache key = some found) :
    found = none ∨ ∃ a x b, l = a ++ x :: b ∧ x.2.key = key ∧ found = some x.1 := by
  simp only [dcFindEntry, Option.bind_eq_bind, Option.bind_eq_some_iff, Option.some.injEq]
    at hfind
  obtain ⟨i, hi, r, hwalk, rfl⟩ := hfind
  rcases h.walk_cases (fun _ e => e.key == key) (bucketIndex_lt hi) with
    ⟨hnone, _⟩ | ⟨a, x, b, before, rfl, hx, hfound, _⟩
  · rw [hwalk] at hnone
    cases hnone
    exact .inl rfl
  · rw [hwalk] at hfound
    cases hfound
    exact .inr ⟨a, x, b, rfl, by simpa using hx, rfl⟩

/-! ## Taking an entry out -/

/-- Entry `p`, found from bucket `i`, can be freed: no other bucket points to it, and its link
back is intact where it is followed. -/
def CanFree (cache : DcCache) (i p : Nat) : Prop :=
  (∀ j < cache.bucketCount, j ≠ i → cache.buckets j ≠ some p) ∧
    (cache.buckets i = some p ∨ cache.lruTail = some p → ¬LostLink cache p)

instance (cache : DcCache) (i p : Nat) : Decidable (CanFree cache i p) :=
  inferInstanceAs (Decidable (_ ∧ _))

def bucketsWithout (cache : DcCache) (i p : Nat) (after : Link) : Nat → Link :=
  if cache.buckets i = some p then Function.update cache.buckets i after else cache.buckets

def Chained (cache : DcCache) (i : Nat) (a : Listed) (p : Nat) (chained : Option Link) : Prop :=
  (chained = none ∧ cache.buckets i ≠ some p ∧ cache.lruTail = some p) ∨
    ∃ before, chained = some before ∧ FoundBy cache i a p before

theorem Linked.unchain (h : Linked cache (a ++ x :: b)) {i : Nat} {chained : Option Link}
    (hchained : Chained cache i a x.1 chained) (hfree : CanFree cache i x.1) :
    ∃ heap heap',
      (∀ callbacks, leaveChain { cache with callbacks := callbacks } i chained (firstOr b none) =
        some { cache with
          callbacks := callbacks
          heap := heap
          buckets := bucketsWithout cache i x.1 (firstOr b none) }) ∧
      unlink heap x.1 = some heap' ∧ Segment heap' none (a ++ b) none ∧
      heap' x.1 = cache.heap x.1 := by
  obtain ⟨hl, ⟨_, hm⟩⟩ := segment_append.mp h.segment
  -- where the chain does not skip the entry, its link back is followed
  have hintact : ¬LostLink cache x.1 → ∃ heap', unlink cache.heap x.1 = some heap' ∧
      Segment heap' none (a ++ b) none ∧ heap' x.1 = cache.heap x.1 := by
    intro hlink
    obtain ⟨heap', hunlink, hseg, hsame, _⟩ :=
      hl.unlink (h.link_back hlink) hm h.nodup (.inl rfl)
    exact ⟨heap', hunlink, hseg, hsame⟩
  rcases hchained with ⟨rfl, hbucket, htail⟩ | ⟨before, rfl, ⟨rfl, hbucket⟩ | hbehind⟩
  · obtain ⟨heap', hunlink⟩ := hintact (hfree.2 (.inr htail))
    refine ⟨cache.heap, heap', ?_, hunlink⟩
    intro callbacks
    rw [bucketsWithout, if_neg hbucket]
    rfl
  · obtain ⟨heap', hunlink⟩ := hintact (hfree.2 (.inl hbucket))
    refine ⟨cache.heap, heap', ?_, hunlink⟩
    intro callbacks
    rw [bucketsWithout, if_pos hbucket]
    rfl
  · obtain ⟨rfl, hsome, hbucket⟩ := hbehind
    obtain ⟨prev, hnode, hprev⟩ := h.node
    obtain ⟨heap, heap', hset, hunlink, hseg, hsame⟩ := h.segment.skip hnode hprev h.nodup
    refine ⟨heap, heap', ?_, hunlink, hseg, hsame⟩
    intro callbacks
    rw [bucketsWithout, if_neg hbucket, leaveChain]
    obtain ⟨q, hq⟩ := Option.ne_none_iff_exists'.mp hsome
    rw [hq] at hset ⊢
    simp only [setChain, Option.bind_eq_bind, hset, Option.bind_some]

structure Removed (cache cache' : DcCache) (i p : Nat) (after : Link) : Prop where
  config : cache'.toDcCacheConfig = cache.toDcCacheConfig
  fresh : cache'.fresh = cache.fresh
  bucketCount : cache'.bucketCount = cache.bucketCount
  buckets : cache'.buckets = bucketsWithout cache i p after

theorem lastOr_middle (h : b ≠ []) : lastOr none (a ++ x :: b) = lastOr none (a ++ b) := by
  obtain ⟨y, b, rfl⟩ := List.exists_cons_of_ne_nil h
  rw [lastOr_append, lastOr_append]
  rfl

theorem Linked.tail_iff (h : Linked cache (a ++ x :: b)) :
    cache.lruTail = some x.1 ↔ b = [] := by
  rw [h.tail_eq]
  constructor
  · intro htail
    by_contra hb
    have hids := h.nodup
    rw [ids_append, ids_cons] at hids
    have hcons := List.nodup_cons.mp (List.nodup_append.mp hids).2.1
    apply hcons.1
    apply lastOr_mem hb
    rw [lastOr_append] at htail
    exact htail
  · rintro rfl
    rw [lastOr_append]
    rfl

theorem mem_ids_middle {p : Nat} :
    p ∈ ids (a ++ x :: b) ↔ p = x.1 ∨ p ∈ ids (a ++ b) := by
  simp only [ids_append, ids_cons, List.mem_append, List.mem_cons]
  tauto

theorem Linked.remove (h : Linked cache (a ++ x :: b)) {i : Nat} {chained : Option Link}
    (hchained : Chained cache i a x.1 chained) (hfree : CanFree cache i x.1) :
    ∃ cache', removeEntry cache i x.1 chained = some cache' ∧ Linked cache' (a ++ b) ∧
      Removed cache cache' i x.1 (firstOr b none) := by
  obtain ⟨prev, hnode, hprev⟩ := h.node
  obtain ⟨heap, heap', hchain, hunlink, hseg, hsame⟩ := h.unchain hchained hfree
  obtain ⟨callbacks, hnotify⟩ := notifyEvict_eq cache x.2
  have hperm : (ids (a ++ x :: b)).Perm (x.1 :: ids (a ++ b)) := List.perm_middle.map Prod.fst
  have hcons := List.nodup_cons.mp (hperm.nodup_iff.mp h.nodup)
  have hmemory : cache.memoryUsed - footprint x.2.key x.2.value = weight (a ++ b) := by
    rw [h.memory, weight_middle, UInt64.add_comm, UInt64.add_sub_cancel]
  have htail : (if cache.lruTail = some x.1 then prev else cache.lruTail) =
      lastOr none (a ++ b) := by
    by_cases hb : b = []
    · have hlast : cache.lruTail = some x.1 := h.tail_iff.mpr hb
      have hback := h.link_back (hfree.2 (.inr hlast))
      rw [hnode] at hback
      rw [if_pos hlast, hb, List.append_nil]
      exact congrArg Node.prev (Option.some.inj hback)
    · rw [if_neg (fun hlast => hb (h.tail_iff.mp hlast)), h.tail_eq, lastOr_middle hb]
  have hhead : (if cache.lruHead = some x.1 then firstOr b none else cache.lruHead) =
      firstOr (a ++ b) none := by
    by_cases hfirst : cache.lruHead = some x.1
    · rw [if_pos hfirst, eq_nil_of_firstOr h.nodup (h.head_eq.symm.trans hfirst)]
      rfl
    · rw [if_neg hfirst]
      rw [h.head_eq] at hfirst ⊢
      exact (firstOr_remove hfirst).symm
  refine ⟨{ cache with
      callbacks := callbacks
      heap := Function.update heap' x.1 none
      buckets := bucketsWithout cache i x.1 (firstOr b none)
      lruHead := firstOr (a ++ b) none
      lruTail := lastOr none (a ++ b)
      memoryUsed := weight (a ++ b)
      entryCount := cache.entryCount - 1 }, ?_, ⟨?_, rfl, rfl, hcons.2, ?_, ?_, ?_, rfl⟩,
    rfl, rfl, rfl, rfl⟩
  · rw [hnode] at hsame
    rw [← htail, ← hhead, ← hmemory]
    simp only [removeEntry, Option.bind_eq_bind, hnode, Option.bind_some, hnotify, hchain,
      hunlink, hsame]
  · apply hseg.congr
    intro q hq
    apply Function.update_of_ne
    intro heq
    exact hcons.1 (heq ▸ hq)
  · intro p hp
    exact h.below p (mem_ids_middle.mpr (.inr hp))
  · -- no pointer is left to the entry
    intro j hj q hq
    have hold : cache.buckets j = some q → q ≠ x.1 → q ∈ ids (a ++ b) := by
      intro hptr hne
      exact (mem_ids_middle.mp (h.buckets j hj q hptr)).resolve_left hne
    have hother : j ≠ i → cache.buckets j = some q → q ∈ ids (a ++ b) := by
      intro hji hptr
      apply hold hptr
      rintro rfl
      exact hfree.1 j hj hji hptr
    change bucketsWithout cache i x.1 (firstOr b none) j = some q at hq
    unfold bucketsWithout at hq
    split at hq
    · rename_i hbucket
      by_cases hji : j = i
      · rw [hji, Function.update_self] at hq
        rw [ids_append]
        exact List.mem_append_right _ (firstOr_none_mem hq)
      · rw [Function.update_of_ne hji] at hq
        exact hother hji hq
    · rename_i hbucket
      by_cases hji : j = i
      · apply hold hq
        rintro rfl
        exact hbucket (hji ▸ hq)
      · exact hother hji hq
  · dsimp only
    rw [h.count, List.length_append, List.length_append, List.length_cons]
    omega

/-! ## Moving an entry to the front -/

theorem Linked.touch (h : Linked cache (a ++ x :: b)) (hlink : ¬LostLink cache x.1) :
    ∃ cache', dcLruTouch cache x.1 = some cache' ∧ Linked cache' (x :: (a ++ b)) := by
  by_cases hfirst : cache.lruHead = some x.1
  · have ha : a = [] := eq_nil_of_firstOr h.nodup (h.head_eq.symm.trans hfirst)
    subst ha
    exact ⟨cache, if_pos hfirst, h⟩
  · have hback := h.link_back hlink
    obtain ⟨mid, heap, hunlink, hmid, hlinked, hseg⟩ := h.segment.moveFront hback h.nodup
    have hhead : cache.lruHead = firstOr (a ++ b) none := by
      rw [h.head_eq] at hfirst ⊢
      exact (firstOr_remove hfirst).symm
    have ha : a ≠ [] := by
      rintro rfl
      rw [h.head_eq] at hfirst
      exact hfirst rfl
    have hrest : lastOr (some x.1) (a ++ b) = lastOr none (a ++ b) := by
      obtain ⟨y, a, rfl⟩ := List.exists_cons_of_ne_nil ha
      rfl
    have htail : (if cache.lruTail = some x.1 then lastOr none a else cache.lruTail) =
        lastOr none (a ++ b) := by
      by_cases hb : b = []
      · rw [if_pos (h.tail_iff.mpr hb), hb, List.append_nil]
      · rw [if_neg (fun hlast => hb (h.tail_iff.mp hlast)), h.tail_eq, lastOr_middle hb]
    have hsome : lastOr none (a ++ b) ≠ none := by
      obtain ⟨y, a, rfl⟩ := List.exists_cons_of_ne_nil ha
      exact lastOr_cons_ne_none none y (a ++ b)
    have hperm : (ids (a ++ x :: b)).Perm (ids (x :: (a ++ b))) :=
      List.perm_middle.map Prod.fst
    rw [← hhead] at hlinked
    refine ⟨{ cache with
        heap := heap
        lruHead := some x.1
        lruTail := lastOr none (a ++ b) }, ?_, ⟨hseg, rfl, hrest.symm,
      hperm.nodup_iff.mp h.nodup, ?_, ?_, ?_, ?_⟩⟩
    · rw [dcLruTouch, if_neg hfirst]
      simp only [Option.bind_eq_bind, Option.bind_some, hunlink, hmid, hlinked, htail,
        if_neg hsome]
    · intro p hp
      exact h.below p (hperm.mem_iff.mpr hp)
    · intro i hi p hp
      exact hperm.mem_iff.mp (h.buckets i hi p hp)
    · dsimp only
      rw [h.count, List.length_append, List.length_cons, List.length_cons, List.length_append]
      omega
    · dsimp only
      rw [h.memory, weight_middle, weight_cons]

/-! ## Storing data -/

/-- The links of an entry stay when its data is overwritten. -/
theorem Linked.modify (h : Linked cache (a ++ x :: b)) (f : DcEntry → DcEntry) :
    ∃ heap, modifyNode cache.heap x.1 (fun e => { e with data := f e.data }) = some heap ∧
      (LostLink { cache with heap := heap } x.1 ↔ LostLink cache x.1) ∧
      Linked { cache with
        heap := heap
        memoryUsed := weight (a ++ (x.1, f x.2) :: b) } (a ++ (x.1, f x.2) :: b) := by
  obtain ⟨prev, hnode, _⟩ := h.node
  have hids : ids (a ++ (x.1, f x.2) :: b) = ids (a ++ x :: b) := by
    simp only [ids_append, ids_cons]
  refine ⟨Function.update cache.heap x.1 (some ⟨f x.2, firstOr b none, prev⟩), ?_, ?_,
    ⟨?_, ?_, ?_, hids ▸ h.nodup, hids ▸ h.below, hids ▸ h.buckets, ?_, rfl⟩⟩
  · simp only [modifyNode, hnode]
  · simp only [LostLink, Function.update_self, hnode, Option.bind_some]
  · exact h.segment.update h.nodup hnode rfl rfl (.inr rfl)
  · dsimp only
    rw [h.head_eq, firstOr_append, firstOr_append]
    rfl
  · dsimp only
    rw [h.tail_eq, lastOr_append, lastOr_append]
    rfl
  · dsimp only
    rw [h.count, List.length_append, List.length_append, List.length_cons, List.length_cons]

theorem weight_store (a b : Listed) (x : Nat × DcEntry) (d : DcEntry)
    (hkey : d.key = x.2.key) :
    weight (a ++ x :: b) - UInt64.ofNat x.2.value.length + UInt64.ofNat d.value.length =
      weight (a ++ (x.1, d) :: b) := by
  have hsplit : ∀ key value, footprint key value + weight (a ++ b) =
      UInt64.ofNat key.length + 1 + weight (a ++ b) + UInt64.ofNat value.length := by
    intro key value
    rw [footprint]
    ac_rfl
  rw [weight_middle, weight_middle, hsplit, hsplit, UInt64.add_sub_cancel, hkey]

theorem Linked.overwrite (h : Linked cache (a ++ x :: b)) (hlink : ¬LostLink cache x.1)
    {value : List UInt8} {ttlSeconds now : Int} {cache' : DcCache}
    (hput : overwriteEntry cache x.1 value ttlSeconds now = some cache') :
    ∃ l', Linked cache' l' := by
  obtain ⟨prev, hnode, _⟩ := h.node
  obtain ⟨heap, hmodify, hlost, hlinked⟩ := h.modify fun d => accept d value ttlSeconds now
  have hmemory : cache.memoryUsed - UInt64.ofNat x.2.value.length + UInt64.ofNat value.length =
      weight (a ++ (x.1, accept x.2 value ttlSeconds now) :: b) := by
    rw [h.memory]
    exact weight_store a b x (accept x.2 value ttlSeconds now) rfl
  obtain ⟨moved, htouch, hmoved⟩ := hlinked.touch (fun hl => hlink (hlost.mp hl))
  have hresult : overwriteEntry cache x.1 value ttlSeconds now = some moved := by
    rw [← htouch, ← hmemory]
    unfold accept at hmodify
    simp only [overwriteEntry, Option.bind_eq_bind, hnode, Option.bind_some, hmodify]
  rw [hresult] at hput
  cases hput
  exact ⟨_, hmoved⟩

theorem Linked.hit (h : Linked cache (a ++ x :: b)) (hlink : ¬LostLink cache x.1) {now : Int}
    {r : DcCache × Option (List UInt8)} (hhit : Cache.hit cache x.1 now = some r) :
    ∃ l', Linked r.1 l' := by
  obtain ⟨heap, hmodify, hlost, hlinked⟩ := h.modify fun d =>
    { d with lastAccess := now, accessCount := d.accessCount + 1 }
  have hmemory : weight (a ++ (x.1, { x.2 with
      lastAccess := now
      accessCount := x.2.accessCount + 1 }) :: b) = cache.memoryUsed := by
    rw [h.memory, weight_middle, weight_middle]
  rw [hmemory] at hlinked
  have hcounted : Linked { cache with heap := heap, hitCount := cache.hitCount + 1 } _ :=
    ⟨hlinked.segment, hlinked.head_eq, hlinked.tail_eq, hlinked.nodup, hlinked.below,
      hlinked.buckets, hlinked.count, hlinked.memory⟩
  obtain ⟨moved, htouch, hmoved⟩ := hcounted.touch (fun hl => hlink (hlost.mp hl))
  simp only [Cache.hit, Option.bind_eq_bind, Option.bind_eq_some_iff] at hhit
  obtain ⟨heap', hmodify', moved', htouch', e, _, heq⟩ := hhit
  rw [hmodify] at hmodify'
  cases hmodify'
  rw [htouch] at htouch'
  cases htouch'
  cases heq
  exact ⟨_, hmoved⟩

/-- The link back of the entry that the bucket pointed to is lost here. -/
theorem Linked.insert (h : Linked cache l) {key : CStr} {value : List UInt8}
    {ttlSeconds now : Int} {cache' : DcCache}
    (hinsert : insertEntry cache key value ttlSeconds now = some cache') :
    ∃ l', Linked cache' l' := by
  simp only [insertEntry, Option.bind_eq_bind, Option.bind_eq_some_iff] at hinsert
  obtain ⟨i, hi, htouch⟩ := hinsert
  have hibound := bucketIndex_lt hi
  let e : DcEntry := ⟨key, value, ttlSeconds, now, now, 1, false⟩
  let p := cache.fresh
  have hp : p ∉ ids l := fun hmem => Nat.lt_irrefl p (h.below p hmem)
  let heap := Function.update cache.heap p (some ⟨e, cache.buckets i, none⟩)
  have hnode : heap p = some ⟨e, cache.buckets i, none⟩ := Function.update_self ..
  have hseg : Segment heap none l none := by
    apply h.segment.congr
    intro q hq
    apply Function.update_of_ne
    intro heq
    exact hp (heq ▸ hq)
  obtain ⟨mid, hclear, hseg, hframe⟩ := hseg.clearPrev h.nodup (h.buckets i hibound)
  have hmid : mid p = some ⟨e, cache.buckets i, none⟩ := (hframe p hp).trans hnode
  obtain ⟨heap', hlink, hseg⟩ := hseg.linkFront hmid hp h.nodup
  rw [← h.head_eq] at hlink
  have hhead : cache.lruHead ≠ some p := by
    rw [h.head_eq]
    intro heq
    exact hp (firstOr_none_mem heq)
  have htail : cache.lruTail ≠ some p := by
    rw [h.tail_eq]
    intro heq
    exact hp (lastOr_none_mem heq)
  have hunlink : unlink heap p = some mid := by
    simp [unlink, hnode, setNext, hclear]
  rw [dcLruTouch, if_neg hhead] at htouch
  simp only [heap, p, e] at hunlink hmid hlink
  simp only [Option.bind_eq_bind, Option.bind_some, hunlink, hmid, hlink] at htouch
  cases htouch
  refine ⟨(p, e) :: l, hseg, rfl, ?_, List.nodup_cons.mpr ⟨hp, h.nodup⟩, ?_, ?_, ?_, ?_⟩
  · dsimp only
    rw [if_neg htail, h.tail_eq]
    cases l with
    | nil => rfl
    | cons y l => exact if_neg (lastOr_cons_ne_none none y l)
  · intro q hq
    rcases List.mem_cons.mp hq with rfl | hmem
    · exact Nat.lt_succ_self p
    · exact Nat.lt_succ_of_lt (h.below q hmem)
  · intro j hj q hq
    change Function.update cache.buckets i (some p) j = some q at hq
    by_cases hji : j = i
    · rw [hji, Function.update_self] at hq
      rw [← Option.some.inj hq]
      exact List.mem_cons_self
    · rw [Function.update_of_ne hji] at hq
      exact List.mem_cons_of_mem _ (h.buckets j hj q hq)
  · dsimp only
    rw [h.count, List.length_cons]
  · dsimp only
    rw [h.memory, weight_cons, UInt64.add_comm]

end MiniBackend.Infra.Proofs.RecencyList
