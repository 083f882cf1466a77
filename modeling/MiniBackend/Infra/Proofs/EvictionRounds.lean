import MiniBackend.Infra.Proofs.RecencyList

/-!
# One round of eviction

What `dc_evict_one` takes out when every entry that it frees can be freed, and which entries no
round ever takes out: under the time-to-live policy those without a time to live, and those in
front of all chains, which the least-frequently-used policy does not see either.
-/

namespace MiniBackend.Infra.Proofs.EvictionRounds

open MiniBackend.Infra.Cache
open MiniBackend.Infra.Proofs.CacheData MiniBackend.Infra.Proofs.CacheMap
open MiniBackend.Infra.Proofs.RecencyList
open MiniBackend.Lib.CString MiniBackend.Lib.LinkedHeap

variable {cache cache' : DcCache} {l a b : Listed} {x : Nat × DcEntry}

/-! ## Entries that stay -/

def pointed (cache : DcCache) (p : Nat) : Bool :=
  (List.range cache.bucketCount).any fun i => cache.buckets i = some p

def hidden (cache : DcCache) (l : Listed) : Listed := l.takeWhile fun x => !pointed cache x.1

def reached (cache : DcCache) (l : Listed) : Listed := l.dropWhile fun x => !pointed cache x.1

/-- The entries that no round takes out, whatever the time. -/
def staying (cache : DcCache) (l : Listed) : Listed :=
  match cache.evictionPolicy with
  | .ttl => hidden cache l ++ (reached cache l).filter fun x => x.2.ttlSeconds ≤ 0
  | .lfu => hidden cache l
  | .lru => []
  | .none => []

theorem pointed_iff {p : Nat} :
    pointed cache p = true ↔ ∃ i < cache.bucketCount, cache.buckets i = some p := by
  simp [pointed]

theorem hidden_append_reached (cache : DcCache) (l : Listed) :
    hidden cache l ++ reached cache l = l := List.takeWhile_append_dropWhile

theorem hidden_reached_eq {h r : Listed} (hh : ∀ y ∈ h, pointed cache y.1 = false)
    (hr : ∀ y ∈ r.head?, pointed cache y.1 = true) :
    hidden cache (h ++ r) = h ∧ reached cache (h ++ r) = r := by
  have hpos : ∀ y ∈ h, (!pointed cache y.1) = true := by
    intro y hy
    rw [hh y hy]
    rfl
  have hstop : r.takeWhile (fun y => !pointed cache y.1) = [] ∧
      r.dropWhile (fun y => !pointed cache y.1) = r := by
    cases r with
    | nil => exact ⟨rfl, rfl⟩
    | cons y r =>
        have hy : ¬(!pointed cache y.1) = true := by rw [hr y rfl]; decide
        exact ⟨List.takeWhile_cons_of_neg hy, List.dropWhile_cons_of_neg hy⟩
  constructor
  · rw [hidden, List.takeWhile_append_of_pos hpos, hstop.1, List.append_nil]
  · rw [reached, List.dropWhile_append_of_pos hpos, hstop.2]

theorem not_pointed_of_mem_hidden {y : Nat × DcEntry} (hy : y ∈ hidden cache l) :
    pointed cache y.1 = false := by
  simpa using List.mem_takeWhile_imp hy

theorem pointed_head_reached {y : Nat × DcEntry} (hy : y ∈ (reached cache l).head?) :
    pointed cache y.1 = true := by
  have hhead := List.head?_dropWhile_not (fun x : Nat × DcEntry => !pointed cache x.1) l
  unfold reached at hy
  rw [Option.mem_def.mp hy] at hhead
  simpa using hhead

theorem mem_reached {i : Nat} (hi : i < cache.bucketCount)
    (hptr : cache.buckets i = firstOr b none) (hx : x ∈ b) : x ∈ reached cache (a ++ b) := by
  obtain ⟨y, b, rfl⟩ := List.exists_cons_of_ne_nil (List.ne_nil_of_mem hx)
  have hy : ¬(!pointed cache y.1) = true := by
    rw [pointed_iff.mpr ⟨i, hi, hptr⟩]
    decide
  have hstop : (y :: b).dropWhile (fun x => !pointed cache x.1) = y :: b :=
    List.dropWhile_cons_of_neg hy
  rw [reached, List.dropWhile_append, hstop]
  split
  · exact hx
  · exact List.mem_append_right _ hx

theorem pointed_removed {i : Nat} {after : Link} (h : Removed cache cache' i x.1 after)
    {p : Nat} (hp : p ≠ x.1) (hafter : after ≠ some p) :
    pointed cache' p = pointed cache p := by
  rw [Bool.eq_iff_iff, pointed_iff, pointed_iff, h.bucketCount, h.buckets]
  apply exists_congr
  intro j
  apply and_congr_right
  intro _
  unfold bucketsWithout
  split
  · rename_i hbucket
    by_cases hji : j = i
    · rw [hji, Function.update_self, hbucket]
      simp [hafter, Ne.symm hp]
    · rw [Function.update_of_ne hji]
  · exact Iff.rfl

theorem middle_eq {u v : Listed} (hnodup : (ids (a ++ x :: b)).Nodup)
    (h : a ++ x :: b = u ++ x :: v) : a = u ∧ b = v := by
  have hids := hnodup
  rw [ids_append, ids_cons] at hids
  have hparts := List.nodup_append.mp hids
  have ha : x ∉ a := by
    intro hmem
    exact hparts.2.2 _ (mem_ids_of_mem hmem) x.1 List.mem_cons_self rfl
  have hb : x ∉ b := by
    intro hmem
    exact (List.nodup_cons.mp hparts.2.1).1 (mem_ids_of_mem hmem)
  have heq := (List.append_cons_inj_of_notMem ha hb).mp h
  exact ⟨heq.1, heq.2.2⟩

theorem reached_removed (hlinked : Linked cache (a ++ x :: b)) {i : Nat}
    (hi : i < cache.bucketCount) (hfree : CanFree cache i x.1)
    (h : Removed cache cache' i x.1 (firstOr b none))
    (hx : x ∈ reached cache (a ++ x :: b)) :
    ∃ u, reached cache (a ++ x :: b) = u ++ x :: b ∧ reached cache' (a ++ b) = u ++ b ∧
      hidden cache' (a ++ b) = hidden cache (a ++ x :: b) := by
  have hsplit := hidden_append_reached cache (a ++ x :: b)
  have hhidden : ∀ y ∈ hidden cache (a ++ x :: b), pointed cache y.1 = false :=
    fun y => not_pointed_of_mem_hidden
  have hfirst : ∀ y ∈ (reached cache (a ++ x :: b)).head?, pointed cache y.1 = true :=
    fun y => pointed_head_reached
  generalize hidden cache (a ++ x :: b) = h0 at hsplit hhidden
  generalize reached cache (a ++ x :: b) = r at hsplit hfirst hx
  obtain ⟨u, v, rfl⟩ := List.append_of_mem hx
  rw [← List.append_assoc] at hsplit
  obtain ⟨ha, rfl⟩ := middle_eq hlinked.nodup hsplit.symm
  have hids := hlinked.nodup
  rw [ids_append, ids_cons] at hids
  have hparts := List.nodup_append.mp hids
  -- in front of the entry the pointers stay
  have hfront : ∀ y ∈ a, pointed cache' y.1 = pointed cache y.1 := by
    intro y hy
    apply pointed_removed h
    · exact hparts.2.2 _ (mem_ids_of_mem hy) x.1 List.mem_cons_self
    · intro hafter
      exact hparts.2.2 _ (mem_ids_of_mem hy) y.1
        (List.mem_cons_of_mem _ (firstOr_none_mem hafter)) rfl
  have hnext : ∀ y ∈ (u ++ b).head?, pointed cache' y.1 = true := by
    intro y hy
    cases u with
    | nil =>
        -- the chain starts with the entry, and then with the one behind it
        obtain ⟨j, hj, hptr⟩ := pointed_iff.mp (hfirst x rfl)
        have hji : j = i := by
          by_contra hne
          exact hfree.1 j hj hne hptr
        rw [pointed_iff, h.bucketCount]
        refine ⟨i, hi, ?_⟩
        rw [h.buckets, bucketsWithout, if_pos (hji ▸ hptr), Function.update_self]
        cases b with
        | nil => cases hy
        | cons z b =>
            cases hy
            rfl
    | cons z u =>
        cases hy
        have hya : y ∈ a := by
          rw [ha]
          exact List.mem_append_right _ List.mem_cons_self
        rw [hfront y hya]
        exact hfirst y rfl
  refine ⟨u, rfl, ?_⟩
  rw [ha, List.append_assoc]
  have hrest : ∀ y ∈ h0, pointed cache' y.1 = false := by
    intro y hy
    rw [hfront y (ha ▸ List.mem_append_left u hy)]
    exact hhidden y hy
  exact ⟨(hidden_reached_eq hrest hnext).2, (hidden_reached_eq hrest hnext).1⟩

/-- The entries that stay are the same after an entry was taken out that does not stay. -/
theorem staying_removed (hlinked : Linked cache (a ++ x :: b)) {i : Nat}
    (hi : i < cache.bucketCount) (hfree : CanFree cache i x.1)
    (h : Removed cache cache' i x.1 (firstOr b none))
    (hreached : cache.evictionPolicy = .ttl ∨ cache.evictionPolicy = .lfu →
      x ∈ reached cache (a ++ x :: b))
    (hexpires : cache.evictionPolicy = .ttl → 0 < x.2.ttlSeconds) :
    staying cache' (a ++ b) = staying cache (a ++ x :: b) := by
  have hpolicy : cache'.evictionPolicy = cache.evictionPolicy :=
    congrArg DcCacheConfig.evictionPolicy h.config
  unfold staying
  rw [hpolicy]
  cases hcase : cache.evictionPolicy with
  | none => rfl
  | lru => rfl
  | lfu =>
      obtain ⟨u, _, _, hhidden⟩ := reached_removed hlinked hi hfree h (hreached (.inr hcase))
      exact hhidden
  | ttl =>
      obtain ⟨u, hold, hnew, hhidden⟩ :=
        reached_removed hlinked hi hfree h (hreached (.inl hcase))
      have hout : ¬decide (x.2.ttlSeconds ≤ 0) = true := by
        have hpos := hexpires hcase
        simpa using hpos
      have hskip : (x :: b).filter (fun y => decide (y.2.ttlSeconds ≤ 0)) =
          b.filter fun y => decide (y.2.ttlSeconds ≤ 0) := List.filter_cons_of_neg hout
      dsimp only
      rw [hhidden, hold, hnew, List.filter_append, List.filter_append, hskip]

/-! ## Entries that are freed -/

def SafeTail (cache : DcCache) : Prop :=
  ∀ p ∈ cache.lruTail, ∀ e ∈ cache.heap p, ∀ i ∈ bucketIndex cache e.data.key,
    CanFree cache i p

instance (cache : DcCache) : Decidable (SafeTail cache) :=
  inferInstanceAs (Decidable (∀ p ∈ cache.lruTail, ∀ e ∈ cache.heap p,
    ∀ i ∈ bucketIndex cache e.data.key, CanFree cache i p))

/-- Each entry that the inner loop of `dc_evict_ttl` frees can be freed. -/
def SafeSweep (now : Int) (idx : Nat) : Nat → DcCache → Link → Link → Prop
  | _, _, _, none => True
  | 0, _, _, some _ => True
  | fuel + 1, cache, prev, some p =>
      ∀ e ∈ cache.heap p,
        if expired e.data now then
          CanFree cache idx p ∧ ∀ cache' ∈ removeEntry cache idx p (some prev),
            SafeSweep now idx fuel cache' prev e.next
        else SafeSweep now idx fuel cache (some p) e.next

def SafeSweeps (now : Int) : List Nat → DcCache → Prop
  | [], _ => True
  | idx :: rest, cache =>
      SafeSweep now idx ((cache.fresh + 1) ^ 2) cache none (cache.buckets idx) ∧
        ∀ cache' ∈ evictChain now idx ((cache.fresh + 1) ^ 2) cache none (cache.buckets idx),
          SafeSweeps now rest cache'

def SafeEvict (cache : DcCache) (now : Int) : Prop :=
  match cache.evictionPolicy with
  | .ttl => SafeSweeps now (List.range cache.bucketCount) cache
  | .lru => SafeTail cache
  | .lfu => SafeTail cache
  | .none => SafeTail cache

/-! ## Eviction at the tail -/

/-- What a round of eviction leaves. -/
structure Evicted (cache cache' : DcCache) (l l' : Listed) : Prop where
  linked : Linked cache' l'
  sublist : l'.Sublist l
  config : cache'.toDcCacheConfig = cache.toDcCacheConfig
  fresh : cache'.fresh = cache.fresh
  bucketCount : cache'.bucketCount = cache.bucketCount
  staying : staying cache' l' = staying cache l

theorem Evicted.refl (h : Linked cache l) : Evicted cache cache l l :=
  ⟨h, List.Sublist.refl l, rfl, rfl, rfl, rfl⟩

theorem Evicted.trans {mid : DcCache} {m l' : Listed} (h : Evicted cache mid l m)
    (h' : Evicted mid cache' m l') : Evicted cache cache' l l' :=
  ⟨h'.linked, h'.sublist.trans h.sublist, h'.config.trans h.config, h'.fresh.trans h.fresh,
    h'.bucketCount.trans h.bucketCount, h'.staying.trans h.staying⟩

theorem Linked.evicted (h : Linked cache (a ++ x :: b)) {i : Nat} (hi : i < cache.bucketCount)
    {chained : Option Link} (hchained : Chained cache i a x.1 chained)
    (hfree : CanFree cache i x.1)
    (hreached : cache.evictionPolicy = .ttl ∨ cache.evictionPolicy = .lfu →
      x ∈ reached cache (a ++ x :: b))
    (hexpires : cache.evictionPolicy = .ttl → 0 < x.2.ttlSeconds) :
    ∃ cache', removeEntry cache i x.1 chained = some cache' ∧
      Evicted cache cache' (a ++ x :: b) (a ++ b) ∧
      Removed cache cache' i x.1 (firstOr b none) := by
  obtain ⟨cache', hremove, hlinked, hremoved⟩ := h.remove hchained hfree
  have hsub : (a ++ b).Sublist (a ++ x :: b) :=
    (List.Sublist.refl a).append (List.sublist_cons_self x b)
  exact ⟨cache', hremove, ⟨hlinked, hsub, hremoved.config, hremoved.fresh,
    hremoved.bucketCount, staying_removed h hi hfree hremoved hreached hexpires⟩, hremoved⟩

theorem bucketIndex_isSome {key key' : CStr} {i : Nat} (h : bucketIndex cache key = some i) :
    ∃ j, bucketIndex cache key' = some j := by
  unfold bucketIndex at h ⊢
  split at h
  · cases h
  · rename_i hcount
    exact ⟨_, if_neg hcount⟩

theorem Linked.evictLru (h : Linked cache (a ++ [x])) {key : CStr} {j : Nat}
    (hindex : bucketIndex cache key = some j) (hsafe : SafeTail cache)
    (hpolicy : cache.evictionPolicy ≠ .ttl)
    (hreached : cache.evictionPolicy = .lfu → x ∈ reached cache (a ++ [x])) :
    ∃ cache', dcEvictLru cache = some cache' ∧ Evicted cache cache' (a ++ [x]) a := by
  obtain ⟨prev, hnode, _⟩ := h.node
  have htail : cache.lruTail = some x.1 := h.tail_iff.mpr rfl
  obtain ⟨i, hi⟩ := @bucketIndex_isSome cache key x.2.key j hindex
  have hibound := bucketIndex_lt hi
  have hfree : CanFree cache i x.1 := hsafe x.1 htail _ hnode i hi
  have hchained : ∃ found, walk cache (fun q _ => q == x.1) i = some found ∧
      Chained cache i a x.1 (found.map Prod.fst) := by
    rcases h.walk_cases (fun q _ => q == x.1) hibound with
      ⟨hnone, hnot⟩ | ⟨u, y, v, before, heq, hy, hfound, hby⟩
    · refine ⟨none, hnone, .inl ⟨rfl, ?_, htail⟩⟩
      intro hptr
      have hmem : x ∈ a ++ [x] := List.mem_append_right a List.mem_cons_self
      have hno := hnot x.1 hptr x hmem rfl
      simp at hno
    · refine ⟨_, hfound, .inr ⟨before, rfl, ?_⟩⟩
      have hyx : y.1 = x.1 := by simpa using hy
      have hsame : y = x := by
        have hmem : y ∈ a ++ [x] := by
          rw [heq]
          exact List.mem_append_right u List.mem_cons_self
        rcases List.mem_append.mp hmem with hya | hyb
        · have hids := h.nodup
          rw [ids_append, ids_cons] at hids
          exact absurd hyx ((List.nodup_append.mp hids).2.2 _ (mem_ids_of_mem hya) x.1
            List.mem_cons_self)
        · exact List.mem_singleton.mp hyb
      rw [hsame] at heq hby
      rw [(middle_eq h.nodup heq).1]
      exact hby
  obtain ⟨found, hwalk, hchained⟩ := hchained
  obtain ⟨cache', hremove, hevicted, _⟩ := Linked.evicted h hibound hchained hfree
    (fun hp => hreached (hp.resolve_left hpolicy)) (fun hp => absurd hp hpolicy)
  rw [List.append_nil] at hevicted
  refine ⟨cache', ?_, hevicted⟩
  simp only [dcEvictLru, htail, Option.bind_eq_bind, hnode, Option.bind_some, hi, hwalk, hremove]

/-! ## The least used entry -/

theorem leastUsed_segment {heap : Heap DcEntry} {before : Link} {b : Listed} {fuel : Nat}
    (h : Segment heap before b none) (hfuel : b.length ≤ fuel) (best : Option Int) :
    ∃ best', leastUsed heap fuel best (firstOr b none) = some best' ∧
      (best' = none ↔ best = none ∧ b = []) := by
  induction b generalizing before fuel best with
  | nil =>
      refine ⟨best, ?_, by simp⟩
      cases fuel with
      | zero => rfl
      | succ fuel => rfl
  | cons x b ih =>
      obtain ⟨⟨prev, hx, _⟩, hrest⟩ := h
      cases fuel with
      | zero => simp at hfuel
      | succ fuel =>
          obtain ⟨best', hleast, hnone⟩ := ih hrest (by simpa using hfuel)
            (if best.all (x.2.accessCount < ·) then some x.2.accessCount else best)
          refine ⟨best', ?_, ?_⟩
          · rw [firstOr, leastUsed, hx]
            exact hleast
          · rw [hnone]
            cases best with
            | none => simp
            | some count =>
                simp only [reduceCtorEq, false_and, iff_false, not_and]
                split <;> simp

theorem Linked.leastUsed_buckets (h : Linked cache l) :
    ∃ best, (List.range cache.bucketCount).foldlM
        (fun best i => leastUsed cache.heap cache.fresh best (cache.buckets i)) none =
        some best ∧
      (best = none ↔ ∀ i < cache.bucketCount, cache.buckets i = none) := by
  have hloop : ∀ (is : List Nat) (best : Option Int), (∀ i ∈ is, i < cache.bucketCount) →
      ∃ best', is.foldlM (fun best i => leastUsed cache.heap cache.fresh best (cache.buckets i))
          best = some best' ∧
        (best' = none ↔ best = none ∧ ∀ i ∈ is, cache.buckets i = none) := by
    intro is
    induction is with
    | nil =>
        intro best _
        exact ⟨best, rfl, by simp⟩
    | cons i is ih =>
        intro best hbound
        obtain ⟨a, b, rfl, hptr⟩ := h.chain (hbound i List.mem_cons_self)
        have hlength := h.length_le
        rw [List.length_append] at hlength
        obtain ⟨mid, hmid, hmidnone⟩ := leastUsed_segment
          (segment_append.mp h.segment).2 (by omega : b.length ≤ cache.fresh) best
        obtain ⟨best', hbest, hbestnone⟩ :=
          ih mid fun j hj => hbound j (List.mem_cons_of_mem i hj)
        have hbnil : b = [] ↔ cache.buckets i = none := by
          rw [hptr]
          cases b with
          | nil => simp [firstOr]
          | cons y b => simp [firstOr]
        refine ⟨best', ?_, ?_⟩
        · rw [List.foldlM_cons, hptr, hmid]
          exact hbest
        · rw [hbestnone, hmidnone, List.forall_mem_cons, hbnil, and_assoc]
  obtain ⟨best, hbest, hnone⟩ := hloop (List.range cache.bucketCount) none
    fun i hi => List.mem_range.mp hi
  refine ⟨best, hbest, ?_⟩
  rw [hnone]
  simp

/-! ## Expired entries -/

/-- Behind the entries that a sweep has kept, the next one is found by way of the last. -/
theorem foundBy_kept {idx : Nat} {kept rest : Listed}
    (h : Linked cache ((a ++ kept) ++ x :: rest))
    (hptr : cache.buckets idx = firstOr (kept ++ x :: rest) none) :
    FoundBy cache idx (a ++ kept) x.1 (lastOr none kept) := by
  cases kept with
  | nil => exact .inl ⟨rfl, hptr⟩
  | cons y kept =>
      refine .inr ⟨?_, lastOr_cons_ne_none none y kept, ?_⟩
      · rw [lastOr_append]
        rfl
      · rw [hptr]
        intro heq
        have hids := h.nodup
        rw [ids_append, ids_cons] at hids
        apply (List.nodup_append.mp hids).2.2 y.1 _ x.1 List.mem_cons_self
        · exact Option.some.inj heq
        · rw [ids_append]
          exact List.mem_append_right _ List.mem_cons_self

theorem bucketsWithout_kept {idx : Nat} {kept rest : Listed}
    (h : Linked cache ((a ++ kept) ++ x :: rest))
    (hptr : cache.buckets idx = firstOr (kept ++ x :: rest) none) :
    bucketsWithout cache idx x.1 (firstOr rest none) idx = firstOr (kept ++ rest) none := by
  rw [bucketsWithout]
  rcases foundBy_kept h hptr with ⟨hnone, hfirst⟩ | ⟨_, hsome, hother⟩
  · cases kept with
    | nil => rw [if_pos hfirst, Function.update_self, List.nil_append]
    | cons y kept => exact absurd hnone (lastOr_cons_ne_none none y kept)
  · cases kept with
    | nil => exact absurd rfl hsome
    | cons y kept =>
        rw [if_neg hother, hptr]
        rfl

theorem chain_eq {c d : Listed} (h : Linked cache (a ++ b)) (hcd : a ++ b = c ++ d)
    (hptr : firstOr b none = firstOr d none) : b = d := by
  cases b with
  | nil =>
      cases d with
      | nil => rfl
      | cons y d => cases hptr
  | cons x b =>
      cases d with
      | nil => cases hptr
      | cons y d =>
          have hxy : x.1 = y.1 := Option.some.inj hptr
          have hx := h.segment.dataAt_of_mem (List.mem_append_right a List.mem_cons_self)
          have hy := h.segment.dataAt_of_mem
            (hcd ▸ List.mem_append_right c List.mem_cons_self)
          rw [hxy, hy] at hx
          have hsame : x = y := Prod.ext hxy (Option.some.inj hx).symm
          rw [hsame] at h hcd ⊢
          rw [(middle_eq h.nodup hcd).2]

theorem sweep_evicts {now : Int} {idx : Nat} {kept rest : Listed} {fuel : Nat}
    (h : Linked cache (a ++ (kept ++ rest))) (hidx : idx < cache.bucketCount)
    (hptr : cache.buckets idx = firstOr (kept ++ rest) none) (hfuel : rest.length ≤ fuel)
    (hsafe : SafeSweep now idx fuel cache (lastOr none kept) (firstOr rest none)) :
    ∃ cache', evictChain now idx fuel cache (lastOr none kept) (firstOr rest none) =
        some cache' ∧
      Evicted cache cache' (a ++ (kept ++ rest))
        (a ++ (kept ++ rest.filter fun x => !expired x.2 now)) ∧
      ((∀ x ∈ rest, expired x.2 now = false) → cache' = cache) := by
  induction rest generalizing cache kept fuel with
  | nil =>
      refine ⟨cache, ?_, Evicted.refl h, fun _ => rfl⟩
      cases fuel with
      | zero => rfl
      | succ fuel => rfl
  | cons x rest ih =>
      have hx : Linked cache ((a ++ kept) ++ x :: rest) := by
        rw [List.append_assoc]
        exact h
      obtain ⟨prev, hnode, _⟩ := hx.node
      cases fuel with
      | zero => simp at hfuel
      | succ fuel =>
          have hrest : rest.length ≤ fuel := by simpa using hfuel
          have hstep := hsafe _ hnode
          by_cases hexpired : expired x.2 now = true
          · -- the entry is freed, and the loop goes on behind what it has kept
            rw [if_pos hexpired] at hstep
            obtain ⟨hfree, hstep⟩ := hstep
            have hreached : x ∈ reached cache ((a ++ kept) ++ x :: rest) := by
              rw [List.append_assoc]
              exact mem_reached hidx hptr (List.mem_append_right kept List.mem_cons_self)
            have hexpires : 0 < x.2.ttlSeconds := by
              simp only [expired, Bool.and_eq_true, decide_eq_true_eq] at hexpired
              exact hexpired.1
            obtain ⟨mid, hremove, hevicted, hremoved⟩ := Linked.evicted hx hidx
              (.inr ⟨_, rfl, foundBy_kept hx hptr⟩) hfree (fun _ => hreached) (fun _ => hexpires)
            have hmid := hevicted.linked
            rw [List.append_assoc] at hmid
            have hptr' : mid.buckets idx = firstOr (kept ++ rest) none := by
              rw [hremoved.buckets]
              exact bucketsWithout_kept hx hptr
            obtain ⟨cache', hloop, hlater, _⟩ := ih hmid (hremoved.bucketCount ▸ hidx) hptr'
              hrest (hstep mid hremove)
            refine ⟨cache', ?_, ?_, ?_⟩
            · rw [firstOr, evictChain, hnode]
              simp only [Option.bind_eq_bind, Option.bind_some, hexpired, if_true, hremove]
              exact hloop
            · rw [List.filter_cons_of_neg (by simp [hexpired])]
              rw [List.append_assoc, List.append_assoc] at hevicted
              exact hevicted.trans hlater
            · intro hall
              rw [hall x List.mem_cons_self] at hexpired
              cases hexpired
          · rw [if_neg hexpired] at hstep
            have hnext : Linked cache (a ++ ((kept ++ [x]) ++ rest)) := by
              rw [List.append_assoc kept, List.singleton_append]
              exact h
            have hlast : lastOr none (kept ++ [x]) = some x.1 := by
              rw [lastOr_append]
              rfl
            have hptr' : cache.buckets idx = firstOr ((kept ++ [x]) ++ rest) none := by
              rw [List.append_assoc kept, List.singleton_append]
              exact hptr
            rw [← hlast] at hstep
            obtain ⟨cache', hloop, hlater, hsame⟩ := ih hnext hidx hptr' hrest hstep
            rw [List.append_assoc kept, List.singleton_append, List.append_assoc kept,
              List.singleton_append] at hlater
            refine ⟨cache', ?_, ?_, ?_⟩
            · rw [firstOr, evictChain, hnode]
              simp only [Option.bind_eq_bind, Option.bind_some, hexpired]
              rw [← hlast]
              exact hloop
            · rw [List.filter_cons_of_pos (by simpa using hexpired)]
              exact hlater
            · intro hall
              exact hsame fun y hy => hall y (List.mem_cons_of_mem x hy)

/-- The sweeps over the chains.  One that frees nothing found nothing that has expired. -/
theorem sweeps_evict {now : Int} {is : List Nat} (h : Linked cache l)
    (hbound : ∀ i ∈ is, i < cache.bucketCount) (hsafe : SafeSweeps now is cache) :
    ∃ cache' l', is.foldlM (fun cache idx =>
        evictChain now idx ((cache.fresh + 1) ^ 2) cache none (cache.buckets idx)) cache =
        some cache' ∧
      Evicted cache cache' l l' ∧
      (l'.length = l.length → ∀ i ∈ is, ∀ a b, l = a ++ b → cache.buckets i = firstOr b none →
        ∀ x ∈ b, expired x.2 now = false) := by
  induction is generalizing cache l with
  | nil => exact ⟨cache, l, rfl, Evicted.refl h, fun _ i hi => absurd hi List.not_mem_nil⟩
  | cons idx is ih =>
      have hidx := hbound idx List.mem_cons_self
      obtain ⟨a, b, rfl, hptr⟩ := h.chain hidx
      have hfuel : b.length ≤ (cache.fresh + 1) ^ 2 := by
        have hlength := h.length_le
        rw [List.length_append] at hlength
        have hsquare : cache.fresh + 1 ≤ (cache.fresh + 1) ^ 2 := Nat.le_self_pow (by omega) _
        omega
      obtain ⟨hfirst, hlater⟩ := hsafe
      have hsweep := hfirst
      rw [hptr] at hsweep
      obtain ⟨mid, hmid, hevicted, hsame⟩ := @sweep_evicts cache a now idx [] b _ h hidx hptr
        hfuel hsweep
      have hchain : evictChain now idx ((cache.fresh + 1) ^ 2) cache none (cache.buckets idx) =
          some mid := by
        rw [hptr]
        exact hmid
      obtain ⟨cache', l', hrest, hevicted', hclean⟩ := ih hevicted.linked
        (fun i hi => hevicted.bucketCount ▸ hbound i (List.mem_cons_of_mem idx hi))
        (hlater mid hchain)
      refine ⟨cache', l', ?_, hevicted.trans hevicted', ?_⟩
      · rw [List.foldlM_cons, hchain]
        exact hrest
      · intro hlength
        -- no sweep has made the list shorter
        have hle := hevicted'.sublist.length_le
        have hfilter : (b.filter fun x => !expired x.2 now).length = b.length := by
          have hle' := List.length_filter_le (fun x : Nat × DcEntry => !expired x.2 now) b
          simp only [List.length_append, List.nil_append] at hlength hle
          omega
        have hnone : ∀ x ∈ b, expired x.2 now = false := by
          intro x hx
          have hkeep := List.length_filter_eq_length_iff.mp hfilter x hx
          simpa using hkeep
        have hkept : (b.filter fun x => !expired x.2 now) = b :=
          List.filter_eq_self.mpr fun x hx => by simp [hnone x hx]
        rw [hsame hnone, List.nil_append, hkept] at hclean
        intro i hi c d hcd hci
        rcases List.mem_cons.mp hi with rfl | hmem
        · -- the chain of this bucket
          intro x hx
          have hd : b = d := chain_eq h hcd (hptr.symm.trans hci)
          exact hnone x (hd ▸ hx)
        · exact hclean hlength i hmem c d hcd hci

/-! ## A round -/

def Late (now : Int) (l : Listed) : Prop :=
  ∀ x ∈ l, x.2.ttlSeconds < now - x.2.createdAt

theorem reached_ne_nil (hptr : ∃ i < cache.bucketCount, cache.buckets i ≠ none)
    (h : Linked cache l) : reached cache l ≠ [] := by
  obtain ⟨i, hi, hsome⟩ := hptr
  obtain ⟨a, b, rfl, hb⟩ := h.chain hi
  cases b with
  | nil => exact absurd hb hsome
  | cons x b =>
      have hx : x ∈ reached cache (a ++ x :: b) := mem_reached hi hb List.mem_cons_self
      exact List.ne_nil_of_mem hx

theorem last_mem_reached (h : reached cache (a ++ [x]) ≠ []) : x ∈ reached cache (a ++ [x]) := by
  have hsuffix : reached cache (a ++ [x]) <:+ a ++ [x] := List.dropWhile_suffix _
  obtain ⟨front, hfront⟩ := hsuffix
  have hlast := congrArg List.getLast? hfront
  rw [List.getLast?_append_of_ne_nil _ h, List.getLast?_concat] at hlast
  exact List.mem_of_getLast? hlast

theorem Linked.evictTail (h : Linked cache l) (hne : l ≠ []) {key : CStr} {j : Nat}
    (hindex : bucketIndex cache key = some j) (hsafe : SafeTail cache)
    (hpolicy : cache.evictionPolicy ≠ .ttl)
    (hreached : cache.evictionPolicy = .lfu → reached cache l ≠ []) :
    ∃ cache' l', dcEvictLru cache = some cache' ∧ Evicted cache cache' l l' ∧
      l'.length < l.length := by
  obtain ⟨a, x, rfl⟩ := (List.eq_nil_or_concat' l).resolve_left hne
  obtain ⟨cache', hevict, hevicted⟩ := Linked.evictLru h hindex hsafe hpolicy
    fun hlfu => last_mem_reached (hreached hlfu)
  refine ⟨cache', a, hevict, hevicted, ?_⟩
  rw [List.length_append, List.length_singleton]
  omega

theorem dcEvictLru_nil (h : Linked cache []) : dcEvictLru cache = some cache := by
  rw [dcEvictLru, h.tail_eq]
  rfl

theorem Linked.evictAtTail (h : Linked cache l) {key : CStr} {j : Nat}
    (hindex : bucketIndex cache key = some j) (hsafe : SafeTail cache)
    (hpolicy : cache.evictionPolicy = .lru ∨ cache.evictionPolicy = .none) :
    ∃ cache' l', dcEvictLru cache = some cache' ∧ Evicted cache cache' l l' ∧
      (l ≠ staying cache l → l'.length < l.length) := by
  have hnil : staying cache l = [] := by
    unfold staying
    rcases hpolicy with hp | hp
    · rw [hp]
    · rw [hp]
  by_cases hne : l = []
  · subst hne
    refine ⟨cache, [], dcEvictLru_nil h, Evicted.refl h, ?_⟩
    rw [hnil]
    exact fun hfalse => absurd rfl hfalse
  · obtain ⟨cache', l', hevict, hevicted, hlt⟩ := Linked.evictTail h hne hindex hsafe
      (by rcases hpolicy with hp | hp <;> rw [hp] <;> decide)
      (by rcases hpolicy with hp | hp <;> rw [hp] <;> intro hlfu <;> cases hlfu)
    exact ⟨cache', l', hevict, hevicted, fun _ => hlt⟩

theorem Linked.evictLfu (h : Linked cache l) {key : CStr} {j : Nat}
    (hindex : bucketIndex cache key = some j) (hsafe : SafeTail cache)
    (hpolicy : cache.evictionPolicy = .lfu) :
    ∃ cache' l', dcEvictLfu cache = some cache' ∧ Evicted cache cache' l l' ∧
      (l ≠ staying cache l → l'.length < l.length) := by
  obtain ⟨best, hbest, hnone⟩ := Linked.leastUsed_buckets h
  have hhidden : staying cache l = hidden cache l := by
    unfold staying
    rw [hpolicy]
  by_cases hempty : ∀ i < cache.bucketCount, cache.buckets i = none
  · -- no bucket leads anywhere, so that nothing is seen
    rw [hnone.mpr hempty] at hbest
    refine ⟨cache, l, ?_, Evicted.refl h, ?_⟩
    · simp only [dcEvictLfu, Option.bind_eq_bind, hbest, Option.bind_some]
    · rw [hhidden]
      intro hne
      apply absurd _ hne
      have hall : ∀ y ∈ l, pointed cache y.1 = false := by
        intro y _
        rw [Bool.eq_false_iff]
        intro hy
        obtain ⟨i, hi, hptr⟩ := pointed_iff.mp hy
        rw [hempty i hi] at hptr
        cases hptr
      have hself := (@hidden_reached_eq cache l [] hall (by simp)).1
      rw [List.append_nil] at hself
      exact hself.symm
  · push Not at hempty
    have hreached := reached_ne_nil hempty h
    have hne : l ≠ [] := by
      rintro rfl
      exact hreached rfl
    obtain ⟨cache', l', hevict, hevicted, hlt⟩ := Linked.evictTail h hne hindex hsafe
      (by rw [hpolicy]; decide) (fun _ => hreached)
    refine ⟨cache', l', ?_, hevicted, fun _ => hlt⟩
    obtain ⟨count, hcount⟩ : ∃ count, best = some count := by
      apply Option.ne_none_iff_exists'.mp
      intro hfalse
      obtain ⟨i, hi, hsome⟩ := hempty
      exact hsome (hnone.mp hfalse i hi)
    simp only [dcEvictLfu, Option.bind_eq_bind, hbest, Option.bind_some, hcount]
    exact hevict

/-- When all that can expire has expired, a round takes something out of the chains. -/
theorem Linked.evictTtl (h : Linked cache l) {now : Int}
    (hsafe : SafeSweeps now (List.range cache.bucketCount) cache) :
    ∃ cache' l', dcEvictTtl cache now = some cache' ∧ Evicted cache cache' l l' ∧
      (cache.evictionPolicy = .ttl → Late now l → l ≠ staying cache l →
        l'.length < l.length) := by
  obtain ⟨cache', l', hsweeps, hevicted, hclean⟩ :=
    sweeps_evict h (fun i hi => List.mem_range.mp hi) hsafe
  refine ⟨cache', l', hsweeps, hevicted, ?_⟩
  intro hpolicy hlate hne
  apply Nat.lt_of_le_of_ne hevicted.sublist.length_le
  intro hlength
  apply hne
  -- what is reached has no time to live
  have hall : ∀ x ∈ reached cache l, decide (x.2.ttlSeconds ≤ 0) = true := by
    intro x hx
    have hsplit := hidden_append_reached cache l
    have hhead : ∀ y ∈ (reached cache l).head?, pointed cache y.1 = true :=
      fun y => pointed_head_reached
    generalize reached cache l = r at hsplit hhead hx
    obtain ⟨y, r, rfl⟩ := List.exists_cons_of_ne_nil (List.ne_nil_of_mem hx)
    obtain ⟨i, hi, hptr⟩ := pointed_iff.mp (hhead y rfl)
    have hexpired := hclean hlength i (List.mem_range.mpr hi) _ (y :: r) hsplit.symm hptr x hx
    have hmem : x ∈ l := hsplit ▸ List.mem_append_right _ hx
    have hover := hlate x hmem
    simp only [expired, Bool.and_eq_false_iff, decide_eq_false_iff_not] at hexpired
    rw [decide_eq_true_eq]
    omega
  unfold staying
  rw [hpolicy]
  dsimp only
  rw [List.filter_eq_self.mpr hall, hidden_append_reached]

theorem Linked.evictOne (h : Linked cache l) {key : CStr} {j : Nat}
    (hindex : bucketIndex cache key = some j) {now : Int} (hsafe : SafeEvict cache now) :
    ∃ cache' l', dcEvictOne cache now = some cache' ∧ Evicted cache cache' l l' ∧
      (Late now l → l ≠ staying cache l → l'.length < l.length) := by
  unfold SafeEvict at hsafe
  unfold dcEvictOne
  cases hpolicy : cache.evictionPolicy with
  | none =>
      rw [hpolicy] at hsafe
      obtain ⟨cache', l', hevict, hevicted, hlt⟩ :=
        Linked.evictAtTail h hindex hsafe (.inr hpolicy)
      exact ⟨cache', l', hevict, hevicted, fun _ => hlt⟩
  | lru =>
      rw [hpolicy] at hsafe
      obtain ⟨cache', l', hevict, hevicted, hlt⟩ :=
        Linked.evictAtTail h hindex hsafe (.inl hpolicy)
      exact ⟨cache', l', hevict, hevicted, fun _ => hlt⟩
  | lfu =>
      rw [hpolicy] at hsafe
      obtain ⟨cache', l', hevict, hevicted, hlt⟩ := Linked.evictLfu h hindex hsafe hpolicy
      exact ⟨cache', l', hevict, hevicted, fun _ => hlt⟩
  | ttl =>
      rw [hpolicy] at hsafe
      obtain ⟨cache', l', hevict, hevicted, hlt⟩ := Linked.evictTtl h hsafe
      exact ⟨cache', l', hevict, hevicted, hlt hpolicy⟩

end MiniBackend.Infra.Proofs.EvictionRounds
