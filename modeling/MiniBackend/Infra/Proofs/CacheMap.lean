import MiniBackend.Infra.Proofs.CacheData

/-!
# The cache as a finite map

Each hash chain is a tail of the recency list, since both use the link `next`: a chain starts
at its bucket's pointer and runs through all older entries.  An entry is found as long as it
is not before the pointer of its own bucket.
-/

namespace MiniBackend.Infra.Proofs.CacheMap

open MiniBackend.Infra.Cache MiniBackend.Infra.Proofs.CacheData
open MiniBackend.Lib.CString MiniBackend.Lib.LinkedHeap

/-! ## The abstract map -/

/-- The calls whose effect is that of a map. -/
inductive MapCall
  | put (key : CStr) (value : List UInt8) (clock : Clock)
  | get (key : CStr) (reply : Reply)
  | delete (key : CStr)
deriving DecidableEq

def MapCall.key : MapCall → CStr
  | .put key _ _ => key
  | .get key _ => key
  | .delete key => key

def MapCall.toOp : MapCall → Op
  | .put key value clock => .put key value 0 clock
  | .get key reply => .get key reply
  | .delete key => .delete key

abbrev Contents := CStr → Option (List UInt8)

def mapStep (m : Contents) : MapCall → Contents
  | .put key value _ => Function.update m key (some value)
  | .get _ _ => m
  | .delete key => Function.update m key none

/-- What was put and not deleted since. -/
def contents (calls : List MapCall) : Contents := calls.foldl mapStep fun _ => none

/-! ## Careful calls -/

def LostLink (cache : DcCache) (p : Nat) : Prop :=
  cache.lruHead ≠ some p ∧ (cache.heap p).bind Node.prev = none

instance (cache : DcCache) (p : Nat) : Decidable (LostLink cache p) :=
  inferInstanceAs (Decidable (_ ∧ _))

def MoveIsSafe (cache : DcCache) (i p : Nat) : Prop :=
  cache.lruHead = some p ∨ (cache.buckets i = some p ∧ ¬ LostLink cache p)

instance (cache : DcCache) (i p : Nat) : Decidable (MoveIsSafe cache i p) :=
  inferInstanceAs (Decidable (_ ∨ _ ∧ _))

def FreeIsSafe (cache : DcCache) (i p : Nat) : Prop :=
  (∀ j < cache.bucketCount, j ≠ i → cache.buckets j ≠ some p) ∧
    (cache.buckets i = some p → ¬ LostLink cache p)

instance (cache : DcCache) (i p : Nat) : Decidable (FreeIsSafe cache i p) :=
  inferInstanceAs (Decidable (_ ∧ _))

def IsSafe (cache : DcCache) (i p : Nat) : MapCall → Prop
  | .put _ _ _ => MoveIsSafe cache i p
  | .get _ _ => MoveIsSafe cache i p
  | .delete _ => FreeIsSafe cache i p

instance (cache : DcCache) (i p : Nat) : (call : MapCall) → Decidable (IsSafe cache i p call)
  | .put _ _ _ => inferInstanceAs (Decidable (MoveIsSafe cache i p))
  | .get _ _ => inferInstanceAs (Decidable (MoveIsSafe cache i p))
  | .delete _ => inferInstanceAs (Decidable (FreeIsSafe cache i p))

def Careful (cache : DcCache) (call : MapCall) : Prop :=
  ∀ i ∈ bucketIndex cache call.key, ∀ p ∈ (dcFindEntry cache call.key).join,
    IsSafe cache i p call

instance (cache : DcCache) (call : MapCall) : Decidable (Careful cache call) :=
  inferInstanceAs (Decidable (∀ i ∈ bucketIndex cache call.key,
    ∀ p ∈ (dcFindEntry cache call.key).join, IsSafe cache i p call))

/-- Each call of a run is careful in the state it is made in. -/
def CarefulRun : DcCache → List MapCall → Prop
  | _, [] => True
  | cache, call :: calls =>
      Careful cache call ∧ ∀ r ∈ step cache call.toOp, CarefulRun r.1 calls

def decidableCarefulRun : (cache : DcCache) → (calls : List MapCall) →
    Decidable (CarefulRun cache calls)
  | _, [] => isTrue trivial
  | cache, call :: calls =>
      have : ∀ r : DcCache × Result, Decidable (CarefulRun r.1 calls) :=
        fun r => decidableCarefulRun r.1 calls
      inferInstanceAs (Decidable
        (Careful cache call ∧ ∀ r ∈ step cache call.toOp, CarefulRun r.1 calls))

instance (cache : DcCache) (calls : List MapCall) : Decidable (CarefulRun cache calls) :=
  decidableCarefulRun cache calls

/-! ## Chains -/

def slot (key : CStr) : Nat := (dcHash key).toNat % 256

def Chain (l : List (Nat × DcEntry)) (ptr : Link) (i : Nat) : Prop :=
  ∃ a b, l = a ++ b ∧ ptr = firstOr b none ∧ ∀ x ∈ a, slot x.2.key ≠ i

theorem Chain.whole (x : Nat × DcEntry) (l : List (Nat × DcEntry)) (i : Nat) :
    Chain (x :: l) (some x.1) i :=
  ⟨[], x :: l, rfl, rfl, fun _ h => absurd h List.not_mem_nil⟩

theorem Chain.cons {x : Nat × DcEntry} {l : List (Nat × DcEntry)} {ptr : Link} {i : Nat}
    (hx : slot x.2.key ≠ i) (h : Chain l ptr i) : Chain (x :: l) ptr i := by
  obtain ⟨a, b, hl, hptr, ha⟩ := h
  refine ⟨x :: a, b, by rw [hl, List.cons_append], hptr, ?_⟩
  intro y hy
  rcases List.mem_cons.mp hy with rfl | hmem
  · exact hx
  · exact ha y hmem

/-- Only the bucket that points to an entry notices when it is taken out. -/
theorem Chain.remove {x : Nat × DcEntry} {l m : List (Nat × DcEntry)} {ptr : Link} {i : Nat}
    (hptr : ptr ≠ some x.1) (h : Chain (l ++ x :: m) ptr i) : Chain (l ++ m) ptr i := by
  obtain ⟨a, b, hl, hfirst, ha⟩ := h
  rcases List.append_eq_append_iff.mp hl with ⟨c, hac, hxm⟩ | ⟨c, hlc, hb⟩
  · cases c with
    | nil =>
        rw [List.nil_append] at hxm
        rw [hfirst, ← hxm] at hptr
        exact absurd rfl hptr
    | cons y c =>
        rw [List.cons_append, List.cons.injEq] at hxm
        refine ⟨l ++ c, b, ?_, hfirst, ?_⟩
        · rw [hxm.2, List.append_assoc]
        · intro z hz
          apply ha
          rw [hac]
          rcases List.mem_append.mp hz with hzl | hzc
          · exact List.mem_append_left _ hzl
          · exact List.mem_append_right _ (List.mem_cons_of_mem _ hzc)
  · refine ⟨a, c ++ m, ?_, ?_, ha⟩
    · rw [hlc, List.append_assoc]
    · cases c with
      | nil =>
          rw [hfirst, hb] at hptr
          exact absurd rfl hptr
      | cons y c => rw [hfirst, hb, List.cons_append, firstOr, List.cons_append, firstOr]

theorem Chain.congr {l l' : List (Nat × DcEntry)} {ptr : Link} {i : Nat}
    (hsame : l'.map (fun x => (x.1, x.2.key)) = l.map fun x => (x.1, x.2.key))
    (h : Chain l ptr i) : Chain l' ptr i := by
  obtain ⟨a, b, hl, hptr, ha⟩ := h
  rw [hl, List.map_append] at hsame
  obtain ⟨a', b', hl', ha', hb'⟩ := List.map_eq_append_iff.mp hsame
  refine ⟨a', b', hl', ?_, ?_⟩
  · rw [hptr]
    cases b with
    | nil =>
        rw [List.map_nil, List.map_eq_nil_iff] at hb'
        rw [hb']
    | cons x b =>
        cases b' with
        | nil => simp at hb'
        | cons y b' =>
            simp only [List.map_cons, List.cons.injEq, Prod.mk.injEq] at hb'
            rw [firstOr, firstOr, hb'.1.1]
  · intro x hx
    have hmem : (x.1, x.2.key) ∈ a.map fun x => (x.1, x.2.key) := by
      rw [← ha']
      exact List.mem_map_of_mem hx
    obtain ⟨y, hy, heq⟩ := List.mem_map.mp hmem
    have hkey : y.2.key = x.2.key := congrArg Prod.snd heq
    rw [← hkey]
    exact ha y hy

/-! ## Invariant -/

/-- The entries and their links, newest entry first. -/
structure Shape (heap : Heap DcEntry) (head : Link) (buckets : Nat → Link)
    (l : List (Nat × DcEntry)) : Prop where
  segment : Segment heap none l none
  head_eq : head = firstOr l none
  chains : ∀ i < 256, Chain l (buckets i) i

/-- The entries are those of the map; none of them can expire. -/
structure Entries (fresh : Nat) (m : Contents) (l : List (Nat × DcEntry)) : Prop where
  nodup : (ids l).Nodup
  below : ∀ p ∈ ids l, p < fresh
  keys : (l.map fun x => x.2.key).Nodup
  lasting : ∀ x ∈ l, x.2.ttlSeconds = 0 ∧ x.2.stale = false
  contents : ∀ key value, m key = some value ↔ ∃ x ∈ l, x.2.key = key ∧ x.2.value = value

/-- Without limits nothing is evicted, and without a backend nothing else is stored. -/
structure Unlimited (config : DcCacheConfig) : Prop where
  entries : config.maxEntries = 0
  memory : config.maxMemoryBytes = 0
  backend : config.backendRead = false

structure Represents (cache : DcCache) (m : Contents) (l : List (Nat × DcEntry)) : Prop where
  shape : Shape cache.heap cache.lruHead cache.buckets l
  entries : Entries cache.fresh m l
  count : cache.entryCount = l.length
  buckets : cache.bucketCount = 256
  unlimited : Unlimited cache.toDcCacheConfig

theorem slot_lt (key : CStr) : slot key < 256 := Nat.mod_lt _ (by decide)

variable {cache : DcCache} {m : Contents} {l a b : List (Nat × DcEntry)} {x : Nat × DcEntry}
  {key : CStr}

theorem Represents.bucketIndex (h : Represents cache m l) (key : CStr) :
    Cache.bucketIndex cache key = some (slot key) := by
  rw [Cache.bucketIndex, h.buckets]
  rfl

theorem Entries.length_le {fresh : Nat} (h : Entries fresh m l) : l.length ≤ fresh := by
  have hsub : ids l ⊆ List.range fresh := fun p hp => List.mem_range.mpr (h.below p hp)
  calc
    l.length = (ids l).length := (List.length_map ..).symm
    _ ≤ (List.range fresh).length := (List.subperm_of_subset h.nodup hsub).length_le
    _ = fresh := List.length_range

theorem Entries.remove {fresh : Nat} (h : Entries fresh m (a ++ x :: b)) :
    Entries fresh (Function.update m x.2.key none) (a ++ b) ∧ x.1 ∉ ids (a ++ b) ∧
      ∀ y ∈ a ++ b, y.2.key ≠ x.2.key := by
  have hperm : (a ++ x :: b).Perm (x :: (a ++ b)) := List.perm_middle
  have hids : (x.1 :: ids (a ++ b)).Nodup := (hperm.map Prod.fst).nodup_iff.mp h.nodup
  have hkeys : (x.2.key :: (a ++ b).map fun y => y.2.key).Nodup :=
    (hperm.map fun y : Nat × DcEntry => y.2.key).nodup_iff.mp h.keys
  have hmem : ∀ y ∈ a ++ b, y ∈ a ++ x :: b := fun y hy =>
    hperm.mem_iff.mpr (List.mem_cons_of_mem _ hy)
  have hother : ∀ y ∈ a ++ b, y.2.key ≠ x.2.key := by
    intro y hy heq
    apply (List.nodup_cons.mp hkeys).1
    rw [← heq]
    exact List.mem_map_of_mem hy
  refine ⟨⟨(List.nodup_cons.mp hids).2, ?_, (List.nodup_cons.mp hkeys).2, ?_, ?_⟩,
    (List.nodup_cons.mp hids).1, hother⟩
  · intro p hp
    obtain ⟨y, hy, rfl⟩ := List.mem_map.mp hp
    exact h.below _ (mem_ids_of_mem (hmem y hy))
  · intro y hy
    exact h.lasting y (hmem y hy)
  · intro key value
    by_cases hkey : key = x.2.key
    · subst hkey
      rw [Function.update_self]
      constructor
      · intro hnone
        contradiction
      · rintro ⟨y, hy, heq, _⟩
        exact absurd heq (hother y hy)
    · rw [Function.update_of_ne hkey, h.contents]
      constructor
      · rintro ⟨y, hy, heq, hvalue⟩
        rcases List.mem_cons.mp (hperm.mem_iff.mp hy) with rfl | hrest
        · exact absurd heq.symm hkey
        · exact ⟨y, hrest, heq, hvalue⟩
      · rintro ⟨y, hy, heq, hvalue⟩
        exact ⟨y, hmem y hy, heq, hvalue⟩

theorem Entries.push {fresh fresh' : Nat} (h : Entries fresh m l) (hnot : x.1 ∉ ids l)
    (hother : ∀ y ∈ l, y.2.key ≠ x.2.key) (hx : x.1 < fresh') (hfresh : fresh ≤ fresh')
    (hlasting : x.2.ttlSeconds = 0 ∧ x.2.stale = false) :
    Entries fresh' (Function.update m x.2.key (some x.2.value)) (x :: l) := by
  refine ⟨List.nodup_cons.mpr ⟨hnot, h.nodup⟩, ?_, List.nodup_cons.mpr ⟨?_, h.keys⟩, ?_, ?_⟩
  · intro p hp
    rcases List.mem_cons.mp hp with rfl | hmem
    · exact hx
    · exact Nat.lt_of_lt_of_le (h.below p hmem) hfresh
  · intro hmem
    obtain ⟨y, hy, heq⟩ := List.mem_map.mp hmem
    exact hother y hy heq
  · intro y hy
    rcases List.mem_cons.mp hy with rfl | hmem
    · exact hlasting
    · exact h.lasting y hmem
  · intro key value
    by_cases hkey : key = x.2.key
    · subst hkey
      rw [Function.update_self, Option.some.injEq]
      constructor
      · intro hvalue
        exact ⟨x, List.mem_cons_self, rfl, hvalue⟩
      · rintro ⟨y, hy, heq, hvalue⟩
        rcases List.mem_cons.mp hy with rfl | hmem
        · exact hvalue
        · exact absurd heq (hother y hmem)
    · rw [Function.update_of_ne hkey, h.contents]
      constructor
      · rintro ⟨y, hy, heq, hvalue⟩
        exact ⟨y, List.mem_cons_of_mem _ hy, heq, hvalue⟩
      · rintro ⟨y, hy, heq, hvalue⟩
        rcases List.mem_cons.mp hy with rfl | hmem
        · exact absurd heq.symm hkey
        · exact ⟨y, hmem, heq, hvalue⟩

/-! ## Lookup -/

theorem Represents.walk_none (h : Represents cache m l) (hnone : ∀ x ∈ l, x.2.key ≠ key) :
    walk cache (fun _ e => e.key == key) (slot key) = some none := by
  obtain ⟨a, b, rfl, hptr, _⟩ := h.shape.chains (slot key) (slot_lt key)
  have hlength := h.entries.length_le
  rw [walk, hptr]
  apply (segment_append.mp h.shape.segment).2.search_none
  · intro x hx
    simpa using hnone x (List.mem_append_right _ hx)
  · rw [List.length_append] at hlength
    omega

/-- An entry is found, and the entry before it in its chain is the one before it in the
recency list, unless the chain starts with it. -/
theorem Represents.walk_some (h : Represents cache m l) (hx : x ∈ l) :
    ∃ a b r, l = a ++ x :: b ∧
      walk cache (fun _ e => e.key == x.2.key) (slot x.2.key) = some (some (r, x.1)) ∧
      ((r = none ∧ cache.buckets (slot x.2.key) = some x.1 ∧
          ∀ y ∈ a, slot y.2.key ≠ slot x.2.key) ∨
        (r = lastOr none a ∧ r ≠ none ∧ cache.buckets (slot x.2.key) ≠ some x.1)) := by
  obtain ⟨a, b, rfl, hptr, ha⟩ := h.shape.chains (slot x.2.key) (slot_lt _)
  have hxb : x ∈ b := by
    rcases List.mem_append.mp hx with hxa | hxb
    · exact absurd rfl (ha x hxa)
    · exact hxb
  obtain ⟨u, v, rfl⟩ := List.append_of_mem hxb
  have hlength := h.entries.length_le
  have hseg := (segment_append.mp h.shape.segment).2
  have hnodup := h.entries.nodup
  have hkeys := h.entries.keys
  simp only [ids_append, ids_cons, List.map_append, List.map_cons] at hnodup hkeys
  have hnodup := (List.nodup_append.mp (List.nodup_append.mp hnodup).2.1).2.2
  have hkeys := (List.nodup_append.mp (List.nodup_append.mp hkeys).2.1).2.2
  have hwalk : walk cache (fun _ e => e.key == x.2.key) (slot x.2.key) =
      some (some (lastOr none u, x.1)) := by
    rw [walk, hptr]
    apply hseg.search_first
    · intro y hy
      simpa using hkeys y.2.key (List.mem_map_of_mem hy) x.2.key List.mem_cons_self
    · simp
    · simp only [List.length_append, List.length_cons] at hlength
      omega
  refine ⟨a ++ u, v, lastOr none u, (List.append_assoc ..).symm, hwalk, ?_⟩
  cases u with
  | nil =>
      rw [List.append_nil]
      exact Or.inl ⟨rfl, hptr, ha⟩
  | cons y u =>
      refine Or.inr ⟨?_, ?_, ?_⟩
      · rw [lastOr_append]
        rfl
      · exact lastOr_cons_ne_none none y u
      · rw [hptr]
        intro heq
        exact hnodup y.1 List.mem_cons_self x.1 List.mem_cons_self (Option.some.inj heq)

theorem Represents.find_none (h : Represents cache m l) (hnone : ∀ x ∈ l, x.2.key ≠ key) :
    dcFindEntry cache key = some none := by
  simp [dcFindEntry, h.bucketIndex, h.walk_none hnone]

theorem Represents.find_some (h : Represents cache m l) (hx : x ∈ l) :
    dcFindEntry cache x.2.key = some (some x.1) := by
  obtain ⟨_, _, _, _, hwalk, _⟩ := h.walk_some hx
  simp [dcFindEntry, h.bucketIndex, hwalk]

theorem Represents.contents_none (h : Represents cache m l) (hnone : ∀ x ∈ l, x.2.key ≠ key) :
    m key = none := by
  cases hm : m key with
  | none => rfl
  | some value =>
      obtain ⟨x, hx, hkey, _⟩ := (h.entries.contents key value).mp hm
      exact absurd hkey (hnone x hx)

theorem Represents.contents_some (h : Represents cache m l) (hx : x ∈ l) :
    m x.2.key = some x.2.value :=
  (h.entries.contents _ _).mpr ⟨x, hx, rfl, rfl⟩

theorem key_cases (l : List (Nat × DcEntry)) (key : CStr) :
    (∀ x ∈ l, x.2.key ≠ key) ∨ ∃ x ∈ l, x.2.key = key := by
  by_cases hkey : ∃ x ∈ l, x.2.key = key
  · exact Or.inr hkey
  · refine Or.inl fun x hx heq => hkey ⟨x, hx, heq⟩

/-! ## Moving an entry to the front -/

theorem Shape.node {heap : Heap DcEntry} {head : Link} {buckets : Nat → Link}
    (h : Shape heap head buckets (a ++ x :: b)) :
    ∃ prev, heap x.1 = some ⟨x.2, firstOr b none, prev⟩ ∧
      (prev = none ∨ prev = lastOr none a) := by
  obtain ⟨_, ⟨hnode, _⟩⟩ := segment_append.mp h.segment
  exact hnode

theorem eq_nil_of_firstOr (hnodup : (ids (a ++ x :: b)).Nodup)
    (hfirst : firstOr (a ++ x :: b) none = some x.1) : a = [] := by
  cases a with
  | nil => rfl
  | cons y a =>
      simp only [List.cons_append, ids_cons, ids_append, List.nodup_cons] at hnodup
      have hmem : y.1 ∈ ids a ++ x.1 :: ids b := by
        rw [Option.some.inj hfirst]
        exact List.mem_append_right _ List.mem_cons_self
      exact absurd hmem hnodup.1

theorem firstOr_remove (h : firstOr (a ++ x :: b) none ≠ some x.1) :
    firstOr (a ++ b) none = firstOr (a ++ x :: b) none := by
  cases a with
  | nil => exact absurd rfl h
  | cons y a => rfl

theorem Represents.link_back (h : Represents cache m (a ++ x :: b))
    (hlink : ¬ LostLink cache x.1) :
    cache.heap x.1 = some ⟨x.2, firstOr b none, lastOr none a⟩ := by
  obtain ⟨prev, hnode, hprev⟩ := h.shape.node
  rcases hprev with hnone | heq
  · by_cases hhead : cache.lruHead = some x.1
    · rw [hnode, hnone, eq_nil_of_firstOr h.entries.nodup (h.shape.head_eq.symm.trans hhead)]
      rfl
    · have hlost : LostLink cache x.1 := ⟨hhead, by rw [hnode, hnone]; rfl⟩
      exact absurd hlost hlink
  · rw [hnode, heq]

theorem Shape.touch (h : Shape cache.heap cache.lruHead cache.buckets (a ++ x :: b))
    (hnodup : (ids (a ++ x :: b)).Nodup)
    (hnode : cache.heap x.1 = some ⟨x.2, firstOr b none, lastOr none a⟩)
    (hhead : cache.lruHead ≠ some x.1) (hbucket : cache.buckets (slot x.2.key) = some x.1) :
    ∃ heap tail, dcLruTouch cache x.1 =
        some { cache with heap := heap, lruHead := some x.1, lruTail := tail } ∧
      Shape heap (some x.1) cache.buckets (x :: (a ++ b)) := by
  have hfirst : cache.lruHead = firstOr (a ++ b) none := by
    rw [h.head_eq] at hhead ⊢
    exact (firstOr_remove hhead).symm
  obtain ⟨mid, heap, hunlink, hmid, hlink, hseg⟩ := h.segment.moveFront hnode hnodup
  rw [← hfirst] at hlink
  let tail := if cache.lruTail = some x.1 then lastOr none a else cache.lruTail
  refine ⟨heap, if tail = none then some x.1 else tail, ?_, hseg, rfl, ?_⟩
  · rw [dcLruTouch, if_neg hhead, hunlink]
    simp only [Option.bind_eq_bind, Option.bind_some, hmid, hlink, tail]
  · intro i hi
    by_cases hptr : cache.buckets i = some x.1
    · rw [hptr]
      exact Chain.whole ..
    · apply Chain.cons
      · intro heq
        rw [heq] at hbucket
        exact hptr hbucket
      · exact (h.chains i hi).remove hptr

theorem Represents.rewrite (h : Represents cache m (a ++ x :: b))
    (hsafe : MoveIsSafe cache (slot x.2.key) x.1) {f : Node DcEntry → Node DcEntry} {d : DcEntry}
    (hdata : ∀ node, node.data = x.2 → (f node).data = d)
    (hnext : ∀ node, (f node).next = node.next) (hprev : ∀ node, (f node).prev = node.prev)
    (hkey : d.key = x.2.key) (hlasting : d.ttlSeconds = 0 ∧ d.stale = false)
    (memoryUsed : UInt64) (hitCount : Nat) :
    ∃ heap cache', modifyNode cache.heap x.1 f = some heap ∧
      dcLruTouch { cache with heap := heap, memoryUsed := memoryUsed, hitCount := hitCount } x.1 =
        some cache' ∧
      Represents cache' (Function.update m x.2.key (some d.value)) ((x.1, d) :: (a ++ b)) := by
  obtain ⟨prev, hnode, _⟩ := h.shape.node
  let heap := Function.update cache.heap x.1 (some (f ⟨x.2, firstOr b none, prev⟩))
  have hmodify : modifyNode cache.heap x.1 f = some heap := by
    rw [modifyNode, hnode]
  have hseg : Segment heap none (a ++ (x.1, d) :: b) none :=
    h.shape.segment.update h.entries.nodup hnode (hdata _ rfl) (hnext _) (Or.inr (hprev _))
  have hshape : Shape heap cache.lruHead cache.buckets (a ++ (x.1, d) :: b) := by
    refine ⟨hseg, ?_, ?_⟩
    · rw [h.shape.head_eq, firstOr_append, firstOr_append]
      rfl
    · intro i hi
      apply Chain.congr _ (h.shape.chains i hi)
      simp [hkey]
  have hentries : Entries cache.fresh (Function.update m x.2.key (some d.value))
      ((x.1, d) :: (a ++ b)) := by
    obtain ⟨hrest, hnot, hother⟩ := h.entries.remove
    have hx := h.entries.below x.1 (mem_ids_of_mem (List.mem_append_right _ List.mem_cons_self))
    have hpush := hrest.push (x := (x.1, d)) hnot (by simpa [hkey] using hother) hx le_rfl hlasting
    simpa [hkey] using hpush
  have hcount : cache.entryCount = ((x.1, d) :: (a ++ b)).length := by
    rw [h.count]
    simp
    omega
  by_cases hhead : cache.lruHead = some x.1
  · -- the entry is the first one already
    have ha : a = [] := eq_nil_of_firstOr h.entries.nodup (h.shape.head_eq.symm.trans hhead)
    subst ha
    exact ⟨heap, _, hmodify, if_pos hhead, hshape, hentries, hcount, h.buckets, h.unlimited⟩
  · rcases hsafe with heq | ⟨hbucket, hlink⟩
    · exact absurd heq hhead
    · have hback := h.link_back hlink
      have hnode' : heap x.1 = some ⟨d, firstOr b none, lastOr none a⟩ := by
        have hprev' : prev = lastOr none a := by
          have heq := Option.some.inj (hnode.symm.trans hback)
          exact congrArg Node.prev heq
        have hnode'' : f ⟨x.2, firstOr b none, prev⟩ = ⟨d, firstOr b none, lastOr none a⟩ := by
          have h1 := hdata ⟨x.2, firstOr b none, prev⟩ rfl
          have h2 := hnext ⟨x.2, firstOr b none, prev⟩
          have h3 := (hprev ⟨x.2, firstOr b none, prev⟩).trans hprev'
          exact Node.ext h1 h2 h3
        rw [← hnode'']
        exact Function.update_self ..
      have hbucket' : cache.buckets (slot d.key) = some x.1 := by rw [hkey, hbucket]
      have hids : (ids (a ++ (x.1, d) :: b)).Nodup := by
        have hnodup := h.entries.nodup
        rw [ids_append, ids_cons] at hnodup ⊢
        exact hnodup
      obtain ⟨heap', tail, htouch, hshape'⟩ := @Shape.touch
        { cache with heap := heap, memoryUsed := memoryUsed, hitCount := hitCount }
        a b (x.1, d) hshape hids hnode' hhead hbucket'
      exact ⟨heap, _, hmodify, htouch, hshape', hentries, hcount, h.buckets, h.unlimited⟩

/-! ## Put -/

theorem writeThrough_represents (h : Represents cache m l) (key : CStr) (value : List UInt8) :
    Represents (writeThrough cache key value) m l := by
  unfold writeThrough
  split
  · exact ⟨h.shape, h.entries, h.count, h.buckets, h.unlimited⟩
  · exact h

theorem Represents.makeRoom (h : Represents cache m l) (key : CStr) (value : List UInt8)
    (rounds : List Int) :
    Cache.makeRoom cache key value rounds = some cache := by
  have hstop : ∀ full : DcCache → Bool, full cache = false →
      evictWhile full rounds cache = some (cache, rounds) := by
    intro full hfull
    unfold evictWhile
    rw [hfull]
    rfl
  have hentries := h.unlimited.entries
  have hmemory := h.unlimited.memory
  simp [Cache.makeRoom, hstop, hentries, hmemory]

theorem Represents.insert (h : Represents cache m l) (hnone : ∀ x ∈ l, x.2.key ≠ key)
    (value : List UInt8) (now : Int) :
    ∃ cache', insertEntry cache key value 0 now = some cache' ∧
      Represents cache' (Function.update m key (some value))
        ((cache.fresh, ⟨key, value, 0, now, now, 1, false⟩) :: l) := by
  let e : DcEntry := ⟨key, value, 0, now, now, 1, false⟩
  let p := cache.fresh
  have hp : p ∉ ids l := fun hmem => Nat.lt_irrefl p (h.entries.below p hmem)
  let heap := Function.update cache.heap p (some ⟨e, cache.buckets (slot key), none⟩)
  have hnode : heap p = some ⟨e, cache.buckets (slot key), none⟩ := Function.update_self ..
  have hseg : Segment heap none l none := by
    apply h.shape.segment.congr
    intro q hq
    apply Function.update_of_ne
    intro heq
    exact hp (heq ▸ hq)
  have hbucket : ∀ q, cache.buckets (slot key) = some q → q ∈ ids l := by
    intro q hq
    obtain ⟨a, b, rfl, hptr, _⟩ := h.shape.chains (slot key) (slot_lt key)
    rw [ids_append]
    exact List.mem_append_right _ (firstOr_none_mem (hptr.symm.trans hq))
  obtain ⟨mid, hclear, hseg, hframe⟩ := hseg.clearPrev h.entries.nodup hbucket
  have hmid : mid p = some ⟨e, cache.buckets (slot key), none⟩ := (hframe p hp).trans hnode
  obtain ⟨heap', hlink, hseg⟩ := hseg.linkFront hmid hp h.entries.nodup
  rw [← h.shape.head_eq] at hlink
  have hhead : cache.lruHead ≠ some p := by
    rw [h.shape.head_eq]
    intro heq
    exact hp (firstOr_none_mem heq)
  have hunlink : unlink heap p = some mid := by
    simp [unlink, hnode, setNext, hclear]
  let tail := if cache.lruTail = some p then none else cache.lruTail
  refine ⟨{ cache with
      heap := heap'
      fresh := p + 1
      buckets := Function.update cache.buckets (slot key) (some p)
      entryCount := cache.entryCount + 1
      memoryUsed := cache.memoryUsed + footprint key value
      lruHead := some p
      lruTail := if tail = none then some p else tail }, ?_, ⟨hseg, rfl, ?_⟩, ?_, ?_, ?_, ?_⟩
  · rw [insertEntry, h.bucketIndex, Option.bind_eq_bind, Option.bind_some, dcLruTouch,
      if_neg hhead]
    simp only [heap, p, e] at hunlink hmid hlink
    simp only [Option.bind_eq_bind, Option.bind_some, hunlink, hmid, hlink, tail, p]
  · intro i hi
    by_cases heq : i = slot key
    · subst heq
      dsimp only
      rw [Function.update_self]
      exact Chain.whole ..
    · dsimp only
      rw [Function.update_of_ne heq]
      exact Chain.cons (fun hslot => heq hslot.symm) (h.shape.chains i hi)
  · exact h.entries.push (x := (p, e)) hp hnone (Nat.lt_succ_self p) (Nat.le_succ _) ⟨rfl, rfl⟩
  · rw [List.length_cons, ← h.count]
  · exact h.buckets
  · exact h.unlimited

theorem Represents.put (h : Represents cache m l) {value : List UInt8} {clock : Clock}
    (hcareful : Careful cache (.put key value clock)) :
    ∃ cache' l', dcCachePut cache key value 0 clock = some cache' ∧
      Represents cache' (Function.update m key (some value)) l' := by
  rcases key_cases l key with hnone | ⟨x, hx, rfl⟩
  · obtain ⟨cache', hinsert, hrep⟩ := h.insert hnone value clock.now
    refine ⟨_, _, ?_, writeThrough_represents hrep key value⟩
    simp [dcCachePut, h.find_none hnone, h.makeRoom, hinsert]
  · have hfind := h.find_some hx
    have hsafe : MoveIsSafe cache (slot x.2.key) x.1 :=
      hcareful _ (h.bucketIndex _) x.1 (by simp [MapCall.key, hfind])
    obtain ⟨a, b, rfl⟩ := List.append_of_mem hx
    obtain ⟨prev, hnode, _⟩ := h.shape.node
    obtain ⟨heap, cache', hmodify, htouch, hrep⟩ := h.rewrite hsafe
      (f := fun e => { e with data := { e.data with
        value := value
        ttlSeconds := 0
        createdAt := clock.now
        accessCount := e.data.accessCount + 1 } })
      (d := { x.2 with
        value := value
        ttlSeconds := 0
        createdAt := clock.now
        accessCount := x.2.accessCount + 1 })
      (fun node hnode => by rw [hnode]) (fun _ => rfl) (fun _ => rfl) rfl
      ⟨rfl, (h.entries.lasting x hx).2⟩
      (cache.memoryUsed - UInt64.ofNat x.2.value.length + UInt64.ofNat value.length)
      cache.hitCount
    refine ⟨_, _, ?_, writeThrough_represents hrep x.2.key value⟩
    simp [dcCachePut, hfind, overwriteEntry, hnode, hmodify, htouch]

/-! ## Get -/

theorem Represents.alive (h : Represents cache m l) {p : Nat} (hp : p ∈ ids l) :
    dataAt cache.heap p ≠ none := by
  obtain ⟨x, hx, rfl⟩ := List.mem_map.mp hp
  rw [h.shape.segment.dataAt_of_mem hx]
  exact Option.some_ne_none _

theorem Represents.hit (h : Represents cache m (a ++ x :: b)) (now : Int) :
    ∃ cache', Cache.hit cache x.1 now = some (cache', some x.2.value) := by
  obtain ⟨prev, hnode, hprev⟩ := h.shape.node
  let d : DcEntry := { x.2 with lastAccess := now, accessCount := x.2.accessCount + 1 }
  let heap := Function.update cache.heap x.1 (some ⟨d, firstOr b none, prev⟩)
  have hmodify : modifyNode cache.heap x.1 (fun e => { e with data := { e.data with
      lastAccess := now
      accessCount := e.data.accessCount + 1 } }) = some heap := by
    rw [modifyNode, hnode]
  have hheap : heap x.1 = some ⟨d, firstOr b none, prev⟩ := Function.update_self ..
  have halive : ∀ q ∈ ids (a ++ x :: b), dataAt heap q ≠ none := by
    intro q hq
    by_cases heq : q = x.1
    · rw [heq, dataAt, hheap]
      exact Option.some_ne_none _
    · have hother : heap q = cache.heap q := Function.update_of_ne heq _ _
      rw [dataAt, hother]
      exact h.alive hq
  obtain ⟨cache', htouch⟩ := @dcLruTouch_isSome
    { cache with heap := heap, hitCount := cache.hitCount + 1 } x.1 _ hheap
    (by
      intro q hq
      apply halive
      rw [ids_append]
      rcases hprev with hnone | hlast
      · exact absurd (hnone.symm.trans hq) (Option.some_ne_none q).symm
      · exact List.mem_append_left _ (lastOr_none_mem (hlast.symm.trans hq)))
    (by
      intro q hq
      apply halive
      rw [ids_append, ids_cons]
      exact List.mem_append_right _ (List.mem_cons_of_mem _ (firstOr_none_mem hq)))
    (by
      intro q hq
      apply halive
      exact firstOr_none_mem (h.shape.head_eq.symm.trans hq))
  have hdata : dataAt cache'.heap x.1 = some d := by
    rw [dcLruTouch_dataAt htouch]
    exact congrArg (Option.map Node.data) hheap
  obtain ⟨node, hnode', hd⟩ := Option.map_eq_some_iff.mp hdata
  refine ⟨cache', ?_⟩
  simp [Cache.hit, hmodify, htouch, hnode', hd, d]

theorem Represents.get (h : Represents cache m l) (key : CStr) (reply : Reply) :
    ∃ cache', dcCacheGet cache key reply = some (cache', m key) := by
  rcases key_cases l key with hnone | ⟨x, hx, rfl⟩
  · rw [h.contents_none hnone]
    simp [dcCacheGet, h.find_none hnone, readBackend, h.unlimited.backend]
  · have hfind := h.find_some hx
    have hlasting := h.entries.lasting x hx
    rw [h.contents_some hx]
    obtain ⟨a, b, rfl⟩ := List.append_of_mem hx
    obtain ⟨prev, hnode, _⟩ := h.shape.node
    obtain ⟨cache', hhit⟩ := h.hit reply.now
    refine ⟨cache', ?_⟩
    simp [dcCacheGet, hfind, hnode, expired, hlasting, hhit]

theorem Represents.get_keeps (h : Represents cache m l) {reply : Reply}
    (hcareful : Careful cache (.get key reply)) :
    ∃ cache' l', dcCacheGet cache key reply = some (cache', m key) ∧ Represents cache' m l' := by
  rcases key_cases l key with hnone | ⟨x, hx, rfl⟩
  · rw [h.contents_none hnone]
    refine ⟨{ cache with missCount := cache.missCount + 1 }, l, ?_,
      ⟨h.shape, h.entries, h.count, h.buckets, h.unlimited⟩⟩
    simp [dcCacheGet, h.find_none hnone, readBackend, h.unlimited.backend]
  · have hfind := h.find_some hx
    have hsafe : MoveIsSafe cache (slot x.2.key) x.1 :=
      hcareful _ (h.bucketIndex _) x.1 (by simp [MapCall.key, hfind])
    have hlasting := h.entries.lasting x hx
    have hm := h.contents_some hx
    obtain ⟨a, b, rfl⟩ := List.append_of_mem hx
    obtain ⟨prev, hnode, _⟩ := h.shape.node
    obtain ⟨heap, cache', hmodify, htouch, hrep⟩ := h.rewrite hsafe
      (f := fun e => { e with data := { e.data with
        lastAccess := reply.now
        accessCount := e.data.accessCount + 1 } })
      (d := { x.2 with lastAccess := reply.now, accessCount := x.2.accessCount + 1 })
      (fun node hnode => by rw [hnode]) (fun _ => rfl) (fun _ => rfl) rfl hlasting
      cache.memoryUsed (cache.hitCount + 1)
    have hsame : Function.update m x.2.key (some x.2.value) = m := by
      rw [← hm]
      exact Function.update_eq_self x.2.key m
    rw [hsame] at hrep
    refine ⟨cache', _, ?_, hrep⟩
    obtain ⟨node, hnode', hdata⟩ := Option.map_eq_some_iff.mp
      (hrep.shape.segment.dataAt_of_mem List.mem_cons_self)
    rw [hm]
    simp [dcCacheGet, hfind, hnode, expired, hlasting, Cache.hit, hmodify, htouch, hnode', hdata]

/-! ## Delete -/

theorem notifyEvict_eq (cache : DcCache) (e : DcEntry) :
    ∃ callbacks, notifyEvict cache e = { cache with callbacks := callbacks } := by
  unfold notifyEvict
  split
  · exact ⟨_, rfl⟩
  · exact ⟨cache.callbacks, rfl⟩

/-- The hash chain and the recency list both let go of an entry. -/
theorem Represents.unchain {r : Link} (h : Represents cache m (a ++ x :: b))
    (hsafe : FreeIsSafe cache (slot x.2.key) x.1)
    (hr : (r = none ∧ cache.buckets (slot x.2.key) = some x.1 ∧
        ∀ y ∈ a, slot y.2.key ≠ slot x.2.key) ∨
      (r = lastOr none a ∧ r ≠ none ∧ cache.buckets (slot x.2.key) ≠ some x.1)) :
    ∃ heap buckets heap' node,
      (∀ callbacks, setChain { cache with callbacks := callbacks } (slot x.2.key) r
          (firstOr b none) =
        some { cache with callbacks := callbacks, heap := heap, buckets := buckets }) ∧
      unlink heap x.1 = some heap' ∧ heap' x.1 = some node ∧ node.next = firstOr b none ∧
      Segment heap' none (a ++ b) none ∧ ∀ i < 256, Chain (a ++ b) (buckets i) i := by
  obtain ⟨hl, ⟨_, hm⟩⟩ := segment_append.mp h.shape.segment
  have hnodup := h.entries.nodup
  have hother : ∀ i < 256, i ≠ slot x.2.key → Chain (a ++ b) (cache.buckets i) i := by
    intro i hi hne
    apply (h.shape.chains i hi).remove
    apply hsafe.1 i _ hne
    rw [h.buckets]
    exact hi
  rcases hr with ⟨hnone, hbucket, ha⟩ | ⟨hlast, hsome, hbucket⟩
  · have hnode := h.link_back (hsafe.2 hbucket)
    obtain ⟨heap', hunlink, hseg, hsame, _⟩ := hl.unlink hnode hm hnodup (Or.inl rfl)
    refine ⟨cache.heap, Function.update cache.buckets (slot x.2.key) (firstOr b none), heap', _,
      ?_, hunlink, hsame.trans hnode, rfl, hseg, ?_⟩
    · intro callbacks
      rw [hnone]
      rfl
    · intro i hi
      by_cases heq : i = slot x.2.key
      · subst heq
        rw [Function.update_self]
        exact ⟨a, b, rfl, rfl, ha⟩
      · rw [Function.update_of_ne heq]
        exact hother i hi heq
  · obtain ⟨prev, hnode, hprev⟩ := h.shape.node
    obtain ⟨heap, heap', hset, hunlink, hseg, hsame⟩ :=
      h.shape.segment.skip hnode hprev h.entries.nodup
    refine ⟨heap, cache.buckets, heap', _, ?_, hunlink, hsame.trans hnode, rfl, hseg, ?_⟩
    · intro callbacks
      rw [← hlast] at hset
      cases r with
      | none => contradiction
      | some q => simp [setChain, hset]
    · intro i hi
      by_cases heq : i = slot x.2.key
      · subst heq
        exact (h.shape.chains _ hi).remove hbucket
      · exact hother i hi heq

theorem Represents.delete (h : Represents cache m l) (hcareful : Careful cache (.delete key)) :
    ∃ cache' done l', dcCacheDelete cache key = some (cache', done) ∧
      Represents cache' (Function.update m key none) l' := by
  rcases key_cases l key with hnone | ⟨x, hx, rfl⟩
  · have hsame : Function.update m key none = m := by
      rw [← h.contents_none hnone]
      exact Function.update_eq_self key m
    rw [hsame]
    refine ⟨cache, false, l, ?_, h⟩
    simp [dcCacheDelete, h.bucketIndex, h.walk_none hnone]
  · have hfind := h.find_some hx
    have hsafe : FreeIsSafe cache (slot x.2.key) x.1 :=
      hcareful _ (h.bucketIndex _) x.1 (by simp [MapCall.key, hfind])
    obtain ⟨a, b, r, rfl, hwalk, hr⟩ := h.walk_some hx
    obtain ⟨prev, hnode, _⟩ := h.shape.node
    obtain ⟨heap, buckets, heap', node, hchain, hunlink, hnode', hnext, hseg, hchains⟩ :=
      h.unchain hsafe hr
    obtain ⟨callbacks, hnotify⟩ := notifyEvict_eq cache x.2
    obtain ⟨hentries, hnot, _⟩ := h.entries.remove
    refine ⟨{ cache with
        callbacks := callbacks
        heap := Function.update heap' x.1 none
        buckets := buckets
        lruHead := if cache.lruHead = some x.1 then node.next else cache.lruHead
        lruTail := if cache.lruTail = some x.1 then node.prev else cache.lruTail
        memoryUsed := cache.memoryUsed - footprint node.data.key node.data.value
        entryCount := cache.entryCount - 1 }, true, a ++ b, ?_, ⟨?_, ?_, hchains⟩, hentries, ?_,
      h.buckets, h.unlimited⟩
    · simp [dcCacheDelete, h.bucketIndex, hwalk, removeEntry, hnode, hnotify, leaveChain, hchain,
        hunlink, hnode']
    · apply hseg.congr
      intro q hq
      apply Function.update_of_ne
      intro heq
      exact hnot (heq ▸ hq)
    · dsimp only
      by_cases hhead : cache.lruHead = some x.1
      · rw [if_pos hhead, hnext,
          eq_nil_of_firstOr h.entries.nodup (h.shape.head_eq.symm.trans hhead)]
        rfl
      · rw [if_neg hhead]
        rw [h.shape.head_eq] at hhead ⊢
        exact (firstOr_remove hhead).symm
    · dsimp only
      rw [h.count]
      simp

/-! ## Runs -/

theorem create_represents {config : DcCacheConfig} (h : Unlimited config) :
    Represents (dcCacheCreate config) (fun _ => none) [] := by
  refine ⟨⟨trivial, rfl, ?_⟩, ⟨List.nodup_nil, ?_, List.nodup_nil, ?_, ?_⟩, rfl, ?_, h⟩
  · intro i _
    exact ⟨[], [], rfl, rfl, fun x hx => absurd hx List.not_mem_nil⟩
  · intro p hp
    exact absurd hp List.not_mem_nil
  · intro x hx
    exact absurd hx List.not_mem_nil
  · intro key value
    simp
  · simp [dcCacheCreate, h.entries]

theorem step_represents (h : Represents cache m l) {call : MapCall}
    (hcareful : Careful cache call) :
    ∃ cache' result l', step cache call.toOp = some (cache', result) ∧
      Represents cache' (mapStep m call) l' := by
  cases call with
  | put key value clock =>
      obtain ⟨cache', l', hput, hrep⟩ := h.put hcareful
      refine ⟨cache', .stored, l', ?_, hrep⟩
      simp [MapCall.toOp, step, hput]
  | get key reply =>
      obtain ⟨cache', l', hget, hrep⟩ := h.get_keeps hcareful
      refine ⟨cache', .got (m key), l', ?_, hrep⟩
      simp [MapCall.toOp, step, hget]
  | delete key =>
      obtain ⟨cache', done, l', hdelete, hrep⟩ := h.delete hcareful
      refine ⟨cache', .deleted done, l', ?_, hrep⟩
      simp [MapCall.toOp, step, hdelete]

theorem run_represents {calls : List MapCall} (h : Represents cache m l)
    (hcareful : CarefulRun cache calls) :
    ∃ cache' results l', runAll cache (calls.map MapCall.toOp) = some (cache', results) ∧
      Represents cache' (calls.foldl mapStep m) l' := by
  induction calls generalizing cache m l with
  | nil => exact ⟨cache, [], l, rfl, h⟩
  | cons call calls ih =>
      obtain ⟨hcall, hrest⟩ := hcareful
      obtain ⟨mid, result, l', hstep, hrep⟩ := step_represents h hcall
      obtain ⟨cache', results, l'', hrun, hrep'⟩ := ih hrep (hrest _ hstep)
      refine ⟨cache', result :: results, l'', ?_, hrep'⟩
      simp [runAll, hstep, hrun]

/-- A run of careful calls returns, and in its last state a lookup of any key has the answer
of the map, and the entries are counted. -/
theorem careful_run_refines_map (config : DcCacheConfig) (calls : List MapCall)
    (hlimits : Unlimited config) (hcareful : CarefulRun (dcCacheCreate config) calls) :
    ∃ cache results,
      runAll (dcCacheCreate config) (calls.map MapCall.toOp) = some (cache, results) ∧
      (∀ key reply, (dcCacheGet cache key reply).map Prod.snd = some (contents calls key)) ∧
      ∃ keys : List CStr, keys.Nodup ∧ (∀ key, key ∈ keys ↔ contents calls key ≠ none) ∧
        cache.entryCount = keys.length := by
  obtain ⟨cache, results, l, hrun, hrep⟩ := run_represents (create_represents hlimits) hcareful
  refine ⟨cache, results, hrun, ?_, l.map fun x => x.2.key, hrep.entries.keys, ?_, ?_⟩
  · intro key reply
    obtain ⟨cache', hget⟩ := hrep.get key reply
    rw [hget]
    rfl
  · intro key
    rw [Option.ne_none_iff_exists', List.mem_map]
    constructor
    · rintro ⟨x, hx, rfl⟩
      exact ⟨x.2.value, hrep.contents_some hx⟩
    · rintro ⟨value, hvalue⟩
      obtain ⟨x, hx, hkey, _⟩ := (hrep.entries.contents key value).mp hvalue
      exact ⟨x, hx, hkey⟩
  · rw [hrep.count, List.length_map]

def unlimitedConfig : DcCacheConfig where
  maxEntries := 0
  maxMemoryBytes := 0
  evictionPolicy := .lru
  stampedeProtection := false
  writeStrategy := .behind
  backendRead := false
  backendWrite := false
  onEvict := false

def noon : Clock := ⟨43200, []⟩

def quiet : Reply := ⟨43200, false, ⟨none, noon⟩, ⟨none, noon⟩⟩

/-- Two keys of one bucket: the newer one is read and the older one deleted. -/
def collidingCalls : List MapCall :=
  [.put (lit "ab") [1] noon, .put (lit "bA") [2] noon, .get (lit "bA") quiet,
    .put (lit "c") [3] noon, .delete (lit "ab"), .get (lit "ab") quiet]

theorem careful_run_refines_map_colliding :
    ∃ cache results,
      runAll (dcCacheCreate unlimitedConfig) (collidingCalls.map MapCall.toOp) =
        some (cache, results) ∧
      (∀ key reply,
        (dcCacheGet cache key reply).map Prod.snd = some (contents collidingCalls key)) ∧
      ∃ keys : List CStr, keys.Nodup ∧
        (∀ key, key ∈ keys ↔ contents collidingCalls key ≠ none) ∧
        cache.entryCount = keys.length :=
  careful_run_refines_map unlimitedConfig collidingCalls ⟨rfl, rfl, rfl⟩ (by decide +kernel)

/-- Reading the older of two keys of one bucket moves it before the pointer of the bucket, and
the next lookup misses it. -/
theorem get_misses_moved_entry :
    contents [.put (lit "ab") [1] noon, .put (lit "bA") [2] noon, .get (lit "ab") quiet]
        (lit "ab") = some [1] ∧
      (runAll (dcCacheCreate unlimitedConfig)
        [.put (lit "ab") [1] 0 noon, .put (lit "bA") [2] 0 noon, .get (lit "ab") quiet,
          .get (lit "ab") quiet]).map Prod.snd =
        some [.stored, .stored, .got (some [1]), .got none] := by
  constructor
  · decide
  · decide

end MiniBackend.Infra.Proofs.CacheMap
