import MiniBackend.JobSystem.Proofs.TaggedQueue

/-!
# Deduplication by key

A key is looked up as it was given, but only its first 63 bytes are stored.  A longer key is never
found, so the queue may come to hold it a second time.
-/

namespace MiniBackend.JobSystem.Proofs.KeyUniqueness

open MiniBackend.Lib MiniBackend.Lib.CString MiniBackend.Lib.Runs
open MiniBackend.JobSystem.Delayed MiniBackend.JobSystem.Proofs.DelayedQueueOrder
open MiniBackend.JobSystem.Proofs.TaggedQueue

/-- No two stored entries have the same key, unless it is empty. -/
def KeysApart (dq : DelayedQueue) : Prop :=
  (entries dq).Pairwise fun e e' => e.key = e'.key → e.key = []

def givenKey : Op → Option CStr
  | .enqueue _ key .. => key
  | .cancel _ | .cancelByKey _ | .dequeue _ => none

/-- A call; the tag of an entry is the key given by the call that wrote it. -/
def keyedStep (q : Tagged (Option CStr)) (op : Op) : Tagged (Option CStr) :=
  q.step (op, givenKey op)

def keyedCreate (capacity : Int) : Tagged (Option CStr) := .create none capacity true

/-- No two stored entries were written by calls with the same key, unless it is missing or empty. -/
def CallsApart (q : Tagged (Option CStr)) : Prop :=
  q.entries.Pairwise fun e e' => e.2 = e'.2 → e.2.getD [] = []

/-- An enqueue that adds an entry and whose key is too long to be stored finds no entry that has
the bytes of the key that are stored. -/
def StoredApart (dq : DelayedQueue) : Op → Prop
  | .enqueue _ (some key) (some _) .. => dq.size < dq.capacity → dqKeyLen ≤ key.length →
      ∀ e ∈ entries dq, e.key ≠ strncpy key (dqKeyLen - 1)
  | _ => True

theorem erase_keyedStep (q : Tagged (Option CStr)) (op : Op) :
    (keyedStep q op).erase = Delayed.step q.erase op := erase_step q (op, givenKey op)

/-! ## The stored keys -/

def StoresGiven (q : Tagged (Option CStr)) : Prop :=
  ∀ e ∈ q.entries, e.1.key = strncpy (e.2.getD []) (dqKeyLen - 1)

theorem strncpy_eq_nil_iff {key : CStr} : strncpy key (dqKeyLen - 1) = [] ↔ key = [] := by
  rw [strncpy, List.take_eq_nil_iff]
  exact or_iff_right (by decide)

theorem length_strncpy_lt (key : CStr) : (strncpy key (dqKeyLen - 1)).length < dqKeyLen := by
  rw [strncpy, List.length_take]
  simp only [dqKeyLen]
  omega

theorem callsApart_of_keysApart {q : Tagged (Option CStr)} (hstores : StoresGiven q)
    (h : KeysApart q.erase) : CallsApart q := by
  rw [KeysApart, entries_erase, List.pairwise_map] at h
  refine h.imp_of_mem fun {e e'} he he' hapart heq => ?_
  have hsame : e.1.key = e'.1.key := by rw [hstores e he, hstores e' he', heq]
  have hnil := hapart hsame
  rwa [hstores e he, strncpy_eq_nil_iff] at hnil

theorem map_key_perm_of_replaces {l l' : List (DqEntry × Option CStr)}
    {old new : DqEntry × Option CStr} (h : (old :: l').Perm (new :: l))
    (hkey : new.1.key = old.1.key) :
    (l'.map fun e => e.1.key).Perm (l.map fun e => e.1.key) := by
  have hmap := h.map fun e => e.1.key
  rw [List.map_cons, List.map_cons, hkey] at hmap
  exact List.perm_cons _ |>.mp hmap

/-! ## One call -/

structure Keyed (q : Tagged (Option CStr)) : Prop where
  stores : StoresGiven q
  dedup : q.dedupByKey = true

/-- What a call does to the keys: an enqueue may add one that is not there, as far as the queue
can tell; no other call adds one. -/
theorem keyedStep_cases (q : Tagged (Option CStr)) (op : Op) :
    (∃ out, (q.entries.map fun e => e.1.key).Perm
      (out ++ (keyedStep q op).entries.map fun e => e.1.key)) ∨
      ∃ id key cb ud delayMs now₁ now₂ now₃,
        op = .enqueue id key (some cb) ud delayMs now₁ now₂ now₃ ∧ q.size < q.capacity ∧
        (q.dedupByKey = true → dqFindByKey q.erase key = none) ∧
        ((keyedStep q op).entries.map fun e => e.1.key).Perm
          (strncpy (key.getD []) (dqKeyLen - 1) :: q.entries.map fun e => e.1.key) := by
  have hcancel : ∀ found, (∀ idx ∈ found, idx < q.size) →
      ∃ out, (q.entries.map fun e => e.1.key).Perm
        (out ++ (q.cancelEntry found).entries.map fun e => e.1.key) := by
    intro found hlt
    cases found with
    | none => exact ⟨[], List.Perm.refl _⟩
    | some idx =>
        exact ⟨[], (map_key_perm_of_replaces (perm_cancelEntry q (hlt idx rfl)) rfl).symm⟩
  cases op with
  | enqueue id key cb ud delayMs now₁ now₂ now₃ =>
      have hstep : keyedStep q (.enqueue id key cb ud delayMs now₁ now₂ now₃) =
          q.enqueue key id key cb ud delayMs now₁ now₂ now₃ := rfl
      rw [hstep]
      rcases enqueue_cases key q id key cb ud delayMs now₁ now₂ now₃ with
        ⟨-, heq⟩ | ⟨idx, new, hfind, hkey, heq⟩ | ⟨hcb, hroom, hnone, new, hkey, heq⟩
      · rw [heq]
        exact .inl ⟨[], List.Perm.refl _⟩
      · rw [heq]
        have hidx : idx < q.size := (dqFindByKey_eq_some hfind).1
        exact .inl ⟨[], (map_key_perm_of_replaces (perm_overwrite q hidx (new, key)) hkey).symm⟩
      · obtain ⟨cb, rfl⟩ := Option.ne_none_iff_exists'.mp hcb
        rw [heq]
        refine .inr ⟨id, key, cb, ud, delayMs, now₁, now₂, now₃, rfl, hroom, hnone, ?_⟩
        have hmap := (perm_insert q (new, key)).map fun e => e.1.key
        rwa [List.map_cons, hkey] at hmap
  | cancel id => exact .inl (hcancel _ fun idx hidx => (dqFindById_eq_some hidx).1)
  | cancelByKey key => exact .inl (hcancel _ fun idx hidx => (dqFindByKey_eq_some hidx).1)
  | dequeue now =>
      obtain ⟨⟨out, hout⟩, -⟩ := dequeue_takes q now
      have hmap := hout.map fun e => e.1.key
      rw [List.map_append] at hmap
      exact .inl ⟨_, hmap⟩

theorem keyed_step (q : Tagged (Option CStr)) (op : Op) (h : Keyed q) : Keyed (keyedStep q op) where
  stores e he := by
    rcases mem_step he with hold | ⟨htag, hwrites⟩ | ⟨e', he', rfl⟩
    · exact h.stores e hold
    · obtain ⟨id, key, cb, ud, delayMs, now₁, now₂, now₃, rfl, hkey⟩ := hwrites
      rw [htag, givenKey]
      rcases hkey with hkey | ⟨rfl, old, hold, hkey⟩
      · exact hkey
      · have hlt := length_strncpy_lt (old.2.getD [])
        rw [← h.stores old hold, hkey] at hlt
        exact (strncpy_of_le (Nat.le_sub_one_of_lt hlt)).symm
    · exact h.stores e' he'
  dedup := (dedupByKey_step q _).trans h.dedup

theorem keysApart_iff (q : Tagged (Option CStr)) : KeysApart q.erase ↔
    (q.entries.map fun e => e.1.key).Pairwise fun k k' => k = k' → k = [] := by
  rw [KeysApart, entries_erase, List.pairwise_map, List.pairwise_map]

theorem keysApart_step (q : Tagged (Option CStr)) (op : Op) (h : Keyed q ∧ KeysApart q.erase)
    (hop : StoredApart q.erase op) : KeysApart (keyedStep q op).erase := by
  obtain ⟨hkeyed, hapart⟩ := h
  rw [keysApart_iff] at hapart ⊢
  have hsymm : ∀ {k k' : CStr}, (k = k' → k = []) → k' = k → k' = [] :=
    fun hkk' heq => heq ▸ hkk' heq.symm
  rcases keyedStep_cases q op with ⟨out, hout⟩ | ⟨id, key, cb, ud, delayMs, now₁, now₂, now₃, rfl,
    hroom, hnone, hperm⟩
  · exact ((hout.pairwise_iff hsymm).mp hapart).sublist (List.sublist_append_right out _)
  · refine (hperm.pairwise_iff hsymm).mpr (List.pairwise_cons.mpr ⟨?_, hapart⟩)
    intro stored hstored heq
    obtain ⟨e, he, rfl⟩ := List.mem_map.mp hstored
    have hmem : e.1 ∈ entries q.erase := by
      rw [entries_erase]
      exact List.mem_map_of_mem he
    cases key with
    | none => rfl
    | some key =>
        by_cases hlong : dqKeyLen ≤ key.length
        · exact absurd heq.symm (hop hroom hlong e.1 hmem)
        · -- the whole key is stored, and it has not been found
          have hshort : strncpy key (dqKeyLen - 1) = key :=
            strncpy_of_le (Nat.le_sub_one_of_lt (not_le.mp hlong))
          by_contra hne
          have hkey : key ≠ [] := fun hnil => hne (strncpy_eq_nil_iff.mpr hnil)
          exact dqFindByKey_none hkey (hnone hkeyed.dedup) e.1 hmem (heq.symm.trans hshort)

theorem storedApart_iff (dq : DelayedQueue) (op : Op) : StoredApart dq op ↔
    ∀ id key cb ud delayMs now₁ now₂ now₃,
      op = .enqueue id (some key) (some cb) ud delayMs now₁ now₂ now₃ → dq.size < dq.capacity →
        dqKeyLen ≤ key.length → ∀ e ∈ entries dq, e.key ≠ strncpy key (dqKeyLen - 1) := by
  constructor
  · rintro h id key cb ud delayMs now₁ now₂ now₃ rfl
    exact h
  · intro h
    cases op with
    | enqueue id key cb ud delayMs now₁ now₂ now₃ =>
        cases key with
        | none => trivial
        | some key =>
            cases cb with
            | none => trivial
            | some cb => exact h id key cb ud delayMs now₁ now₂ now₃ rfl
    | cancel id => trivial
    | cancelByKey key => trivial
    | dequeue now => trivial

theorem dqFindByKey_long {q : Tagged (Option CStr)} (h : Keyed q) {key : CStr}
    (hlong : dqKeyLen ≤ key.length) : dqFindByKey q.erase (some key) = none := by
  cases hfind : dqFindByKey q.erase (some key) with
  | none => rfl
  | some idx =>
      obtain ⟨hidx, hfound, -⟩ := dqFindByKey_eq_some hfind
      have hmem : q.heap idx ∈ q.entries := mem_entries_iff.mpr ⟨idx, hidx, rfl⟩
      have hlt := length_strncpy_lt ((q.heap idx).2.getD [])
      rw [← h.stores _ hmem] at hlt
      have hlen : key.length = (q.heap idx).1.key.length :=
        congrArg List.length (Option.some.inj hfound)
      omega

theorem storedApart_of_keysApart (q : Tagged (Option CStr)) (op : Op) (h : Keyed q)
    (hapart : KeysApart (keyedStep q op).erase) : StoredApart q.erase op := by
  rw [storedApart_iff]
  rintro id key cb ud delayMs now₁ now₂ now₃ rfl hroom hlong e he heq
  have hstep : keyedStep q (.enqueue id (some key) (some cb) ud delayMs now₁ now₂ now₃) =
      q.enqueue (some key) id (some key) (some cb) ud delayMs now₁ now₂ now₃ := rfl
  rw [hstep, keysApart_iff] at hapart
  rcases enqueue_cases (some key) q id (some key) (some cb) ud delayMs now₁ now₂ now₃ with
    ⟨hrejected, -⟩ | ⟨idx, new, hfind, -⟩ | ⟨-, -, -, new, hkey, hinsert⟩
  · have hfull : q.erase.capacity ≤ q.erase.size := hrejected.resolve_left (by simp)
    omega
  · rw [dqFindByKey_long h hlong] at hfind
    exact absurd hfind (by simp)
  · have hmap := (perm_insert q (new, some key)).map fun e => e.1.key
    rw [hinsert] at hapart
    have hcons := (hmap.pairwise_iff fun {k k'} hkk' heq => heq ▸ hkk' heq.symm).mp hapart
    rw [List.map_cons, List.pairwise_cons, hkey] at hcons
    rw [entries_erase] at he
    obtain ⟨stored, hstored, rfl⟩ := List.mem_map.mp he
    have hnil := hcons.1 stored.1.key (List.mem_map.mpr ⟨stored, hstored, rfl⟩) heq.symm
    rw [Option.getD_some, strncpy_eq_nil_iff] at hnil
    rw [hnil] at hlong
    exact absurd hlong (by decide)

/-! ## Runs -/

theorem keyed_create (capacity : Int) : Keyed (keyedCreate capacity) where
  stores _ he := absurd he List.not_mem_nil
  dedup := rfl

theorem erase_keyedRun (capacity : Int) (ops : List Op) :
    (run keyedStep (keyedCreate capacity) ops).erase =
      run Delayed.step (delayedQueueCreate capacity true) ops :=
  run_comp keyedStep erase_keyedStep (keyedCreate capacity) ops

/-- The stored keys, and the calls that wrote the entries, stay apart in the runs in which every
enqueue with a long key meets the condition, and in no others. -/
theorem keys_unique_iff (capacity : Int) (ops : List Op) :
    (∀ n, KeysApart (run Delayed.step (delayedQueueCreate capacity true) (ops.take n)) ∧
        CallsApart (run keyedStep (keyedCreate capacity) (ops.take n))) ↔
      Always Delayed.step StoredApart (delayedQueueCreate capacity true) ops := by
  have htransport := always_comp keyedStep (p := StoredApart) erase_keyedStep
    (keyedCreate capacity) ops
  have herase : (keyedCreate capacity).erase = delayedQueueCreate capacity true := rfl
  rw [herase] at htransport
  rw [← htransport]
  constructor
  · intro h
    refine always_of_prefixes_keeps keyedStep (I := fun q => KeysApart q.erase) keyed_step
      (fun q op => storedApart_of_keysApart q op) (keyed_create capacity) fun n => ?_
    rw [erase_keyedRun]
    exact (h n).1
  · intro h n
    have hempty : KeysApart (keyedCreate capacity).erase := List.Pairwise.nil
    have hfinal : Keyed _ ∧ KeysApart _ := run_invariant keyedStep
      (I := fun q => Keyed q ∧ KeysApart q.erase)
      (fun q op h hop => ⟨keyed_step q op h.1, keysApart_step q op h hop⟩)
      ⟨keyed_create capacity, hempty⟩ (h.take keyedStep n)
    refine ⟨?_, callsApart_of_keysApart hfinal.1.stores hfinal.2⟩
    rw [← erase_keyedRun]
    exact hfinal.2

def longKey : CStr := List.replicate 64 107

/-- The same long key twice. -/
def longKeyRun : List Op :=
  [.enqueue 1 (some longKey) (some 9) 0 100 0 0 0, .enqueue 2 (some longKey) (some 9) 0 100 0 0 0]

theorem long_key_stored_twice :
    ¬KeysApart (run Delayed.step (delayedQueueCreate 16 true) longKeyRun) := by
  intro h
  rw [KeysApart, List.pairwise_iff_getElem] at h
  exact absurd (h 0 1 (by decide) (by decide) (by decide)) (by decide)

end MiniBackend.JobSystem.Proofs.KeyUniqueness
