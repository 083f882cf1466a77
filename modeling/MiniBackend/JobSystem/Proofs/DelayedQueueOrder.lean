import MiniBackend.JobSystem.DelayedQueue
import MiniBackend.Lib.Runs

/-!
# The delayed queue is a priority queue

Every call keeps the heap ordered by fire time.  A dequeue delivers a due entry with
the earliest fire time among those that are not cancelled, and takes nothing else out
of the queue but cancelled entries.
-/

namespace MiniBackend.JobSystem.Proofs.DelayedQueueOrder

open MiniBackend.Lib MiniBackend.Lib.Runs MiniBackend.Lib.BinaryHeap
open MiniBackend.JobSystem.Delayed

def entries (dq : DelayedQueue) : List DqEntry := contents dq.heap dq.size

def Ordered (dq : DelayedQueue) : Prop := HeapOrder DqEntry.fireTime dq.heap dq.size

/-- What a dequeue at time `now` delivers, and what it leaves in the queue. -/
structure DequeuesTo (dq : DelayedQueue) (now : Int) (out : Option DqEntry)
    (dq' : DelayedQueue) : Prop where
  delivered : ∀ e, out = some e →
    e ∈ entries dq ∧ e.cancelled = false ∧ e.fireTime ≤ now ∧
      ∀ e' ∈ entries dq, e'.cancelled = false → e.fireTime ≤ e'.fireTime
  nothing_due : out = none → ∀ e ∈ entries dq, e.cancelled = false → now < e.fireTime
  removed : ∃ purged, (∀ e ∈ purged, e.cancelled = true) ∧
    (entries dq).Perm (out.toList ++ purged ++ entries dq')

def Replaces (dq dq' : DelayedQueue) (old new : DqEntry) : Prop :=
  old ∈ entries dq ∧ (old :: entries dq').Perm (new :: entries dq)

/-- The entry that an accepted enqueue adds. -/
def newEntry (id : UInt64) (key : Option CString.CStr) (cb ud delayMs : UInt64)
    (now₁ now₂ now₃ : Int) : DqEntry where
  id := id
  key := match key with
    | some key => CString.strncpy key (dqKeyLen - 1)
    | none => []
  callback := cb
  userdata := ud
  fireTime := newFireTime now₁ now₂ now₃ delayMs
  delayMs := delayMs
  cancelled := false

/-- The entry with the key of an accepted enqueue, after the call. -/
def requeued (old : DqEntry) (id cb ud delayMs : UInt64) (now : Int) : DqEntry :=
  { old with
    id, callback := cb, userdata := ud, fireTime := fireTimeAfter now delayMs, delayMs,
    cancelled := false }

/-- A stored entry has the key, in a queue that looks for it. -/
def KeyStored (dq : DelayedQueue) (key : Option CString.CStr) (e : DqEntry) : Prop :=
  dq.dedupByKey = true ∧ key = some e.key ∧ e.key ≠ []

/-- A cancellation returns 0 and sets the flag of a wanted entry, or finds none, returns -1 and
does nothing. -/
def CancelsOne (dq : DelayedQueue) (wanted : DqEntry → Prop) (call : Int × DelayedQueue) : Prop :=
  (call.1 = 0 ∧ ∃ old, wanted old ∧ Replaces dq call.2 old { old with cancelled := true }) ∨
    (call.1 = -1 ∧ call.2 = dq ∧ ∀ e ∈ entries dq, ¬wanted e)

/-- What a call does to the stored entries, and what it returns: an enqueue that returns 0 gives a
stored key its new job or adds the job, and one that is refused does nothing. -/
def KeepsEntries (dq : DelayedQueue) : Op → Prop
  | .enqueue id key cb ud delayMs now₁ now₂ now₃ =>
      let call := dqEnqueue dq id key cb ud delayMs now₁ now₂ now₃
      match cb with
      | none => call = (-1, dq)
      | some cb =>
          (dq.capacity ≤ dq.size → call = (-2, dq)) ∧
          (dq.size < dq.capacity → call.1 = 0 ∧
            ((∃ old, KeyStored dq key old ∧
                Replaces dq call.2 old (requeued old id cb ud delayMs now₁)) ∨
              ((∀ e ∈ entries dq, ¬KeyStored dq key e) ∧ (entries call.2).Perm
                (newEntry id key cb ud delayMs now₁ now₂ now₃ :: entries dq))))
  | .cancel id => CancelsOne dq (fun e => e.id = id) (dqCancel dq id)
  | .cancelByKey key =>
      CancelsOne dq (fun e => key = some e.key ∧ e.key ≠ []) (dqCancelByKey dq key)
  | .dequeue now => DequeuesTo dq now (dqDequeue dq now).1 (dqDequeue dq now).2

/-! ## Removing the root -/

theorem removeRoot_ordered {dq : DelayedQueue} (h : Ordered dq) (hsize : dq.size ≠ 0) :
    Ordered (removeRoot dq) := by
  obtain ⟨heap, size, capacity, dedup⟩ := dq
  obtain ⟨n, rfl⟩ := Nat.exists_eq_succ_of_ne_zero hsize
  have hroot := HeapOrder.removeRoot h
  by_cases hn : 0 < n
  · simpa [Ordered, removeRoot, dqHeapSiftDown, hn] using hroot
  · have hzero : n = 0 := by omega
    subst hzero
    intro i _ hi
    exact absurd hi (Nat.not_lt_zero i)

theorem entries_removeRoot_perm {dq : DelayedQueue} (hsize : dq.size ≠ 0) :
    (entries dq).Perm (dq.heap 0 :: entries (removeRoot dq)) := by
  obtain ⟨heap, size, capacity, dedup⟩ := dq
  obtain ⟨n, rfl⟩ := Nat.exists_eq_succ_of_ne_zero hsize
  have hperm := (contents_removeRoot_perm DqEntry.fireTime heap n).symm
  by_cases hn : 0 < n
  · simpa [entries, removeRoot, dqHeapSiftDown, hn] using hperm
  · have hzero : n = 0 := by omega
    subst hzero
    simp [entries, removeRoot, contents]

theorem size_removeRoot (dq : DelayedQueue) : (removeRoot dq).size = dq.size - 1 := rfl

theorem Ordered.root_le {dq : DelayedQueue} (h : Ordered dq) {e : DqEntry}
    (he : e ∈ entries dq) : (dq.heap 0).fireTime ≤ e.fireTime := by
  obtain ⟨i, hi, rfl⟩ := List.mem_map.mp he
  exact HeapOrder.root_le h (List.mem_range.mp hi)

/-! ## Dequeuing -/

/-- Nothing is delivered when every entry that is not cancelled fires later. -/
theorem dequeuesTo_none {dq : DelayedQueue} {now : Int}
    (hlater : ∀ e ∈ entries dq, e.cancelled = false → now < e.fireTime) :
    DequeuesTo dq now none dq := by
  refine ⟨fun e he => ?_, fun _ => hlater, [], by simp, List.Perm.refl _⟩
  cases he

theorem dequeuesTo_empty {dq : DelayedQueue} (hsize : dq.size = 0) (now : Int) :
    DequeuesTo dq now none dq := by
  apply dequeuesTo_none
  rw [entries, hsize]
  exact fun e he => absurd he List.not_mem_nil

theorem dequeuesTo_root {dq : DelayedQueue} (h : Ordered dq) (hsize : dq.size ≠ 0) {now : Int}
    (hlive : (dq.heap 0).cancelled = false) (hdue : (dq.heap 0).fireTime ≤ now) :
    DequeuesTo dq now (some (dq.heap 0)) (removeRoot dq) := by
  have hperm := entries_removeRoot_perm hsize
  have hroot : dq.heap 0 ∈ entries dq := hperm.symm.subset List.mem_cons_self
  refine ⟨fun e he => ?_, fun hnone => ?_, [], by simp, ?_⟩
  · obtain rfl := Option.some.inj he
    exact ⟨hroot, hlive, hdue, fun e' he' _ => h.root_le he'⟩
  · cases hnone
  · simpa using hperm

theorem DequeuesTo.of_cancelled {dq dq' : DelayedQueue} {now : Int} {out : Option DqEntry}
    (hsize : dq.size ≠ 0) (hcancelled : (dq.heap 0).cancelled = true)
    (h : DequeuesTo (removeRoot dq) now out dq') : DequeuesTo dq now out dq' := by
  have hperm := entries_removeRoot_perm hsize
  have hrest : ∀ e ∈ entries (removeRoot dq), e ∈ entries dq :=
    fun e he => hperm.symm.subset (List.mem_cons_of_mem _ he)
  -- the cancelled root is neither due nor a candidate
  have hlive : ∀ e ∈ entries dq, e.cancelled = false → e ∈ entries (removeRoot dq) := by
    intro e he hlive
    refine (List.mem_cons.mp (hperm.subset he)).resolve_left ?_
    rintro rfl
    rw [hcancelled] at hlive
    exact absurd hlive (by decide)
  obtain ⟨purged, hpurged, hleft⟩ := h.removed
  refine ⟨fun e he => ?_, fun hnone e he hc => h.nothing_due hnone e (hlive e he hc) hc,
    dq.heap 0 :: purged, ?_, ?_⟩
  · obtain ⟨hin, hc, hdue, hmin⟩ := h.delivered e he
    exact ⟨hrest e hin, hc, hdue, fun e' he' hc' => hmin e' (hlive e' he' hc') hc'⟩
  · intro e he
    rcases List.mem_cons.mp he with rfl | he
    · exact hcancelled
    · exact hpurged e he
  · apply hperm.trans
    apply (hleft.cons _).trans
    simp only [List.append_assoc, List.cons_append]
    exact List.perm_middle.symm

theorem dequeueLoop_spec (now : Int) {fuel : Nat} {dq : DelayedQueue} (h : Ordered dq)
    (hfuel : dq.size ≤ fuel) :
    Ordered (dequeueLoop now fuel dq).2 ∧
      DequeuesTo dq now (dequeueLoop now fuel dq).1 (dequeueLoop now fuel dq).2 := by
  induction fuel generalizing dq with
  | zero => exact ⟨h, dequeuesTo_empty (by omega) now⟩
  | succ fuel ih =>
      unfold dequeueLoop
      split
      · next hsize => exact ⟨h, dequeuesTo_empty hsize now⟩
      · next hsize =>
          split
          · next hcancelled =>
              have hfuel' : (removeRoot dq).size ≤ fuel := by
                rw [size_removeRoot]
                omega
              obtain ⟨hord, hto⟩ := ih (removeRoot_ordered h hsize) hfuel'
              exact ⟨hord, hto.of_cancelled hsize hcancelled⟩
          · next hlive =>
              rw [Bool.not_eq_true] at hlive
              split
              · next hlater =>
                  refine ⟨h, dequeuesTo_none fun e he _ => ?_⟩
                  exact lt_of_lt_of_le hlater (h.root_le he)
              · next hdue =>
                  exact ⟨removeRoot_ordered h hsize,
                    dequeuesTo_root h hsize hlive (not_lt.mp hdue)⟩

theorem dqDequeue_spec {dq : DelayedQueue} (h : Ordered dq) (now : Int) :
    Ordered (dqDequeue dq now).2 ∧
      DequeuesTo dq now (dqDequeue dq now).1 (dqDequeue dq now).2 :=
  dequeueLoop_spec now h (Nat.le_refl dq.size)

/-! ## One call -/

theorem mem_entries {dq : DelayedQueue} {i : Nat} (hi : i < dq.size) :
    dq.heap i ∈ entries dq :=
  List.mem_map_of_mem (List.mem_range.mpr hi)

theorem dqFindByKey_eq_some {dq : DelayedQueue} {key : Option CString.CStr} {idx : Nat}
    (h : dqFindByKey dq key = some idx) :
    idx < dq.size ∧ key = some (dq.heap idx).key ∧ (dq.heap idx).key ≠ [] := by
  unfold dqFindByKey at h
  split at h
  · simp at h
  next key =>
    split at h
    · simp at h
    next hne =>
      obtain ⟨hkey, hidx, -⟩ := CArray.findIndex_eq_some.mp h
      obtain rfl := beq_iff_eq.mp hkey
      exact ⟨hidx, rfl, hne⟩

theorem dqFindByKey_none {dq : DelayedQueue} {key : CString.CStr} (hne : key ≠ [])
    (h : dqFindByKey dq (some key) = none) : ∀ e ∈ entries dq, e.key ≠ key := by
  intro e he
  obtain ⟨i, hi, rfl⟩ := List.mem_map.mp he
  rw [dqFindByKey, if_neg hne, CArray.findIndex_eq_none] at h
  simpa using h i (List.mem_range.mp hi)

theorem dqFindById_eq_some {dq : DelayedQueue} {id : UInt64} {idx : Nat}
    (h : dqFindById dq id = some idx) : idx < dq.size ∧ (dq.heap idx).id = id := by
  obtain ⟨hid, hidx, -⟩ := CArray.findIndex_eq_some.mp h
  exact ⟨hidx, beq_iff_eq.mp hid⟩

theorem dqFindById_none {dq : DelayedQueue} {id : UInt64} (h : dqFindById dq id = none) :
    ∀ e ∈ entries dq, e.id ≠ id := by
  intro e he
  obtain ⟨i, hi, rfl⟩ := List.mem_map.mp he
  rw [dqFindById, CArray.findIndex_eq_none] at h
  simpa using h i (List.mem_range.mp hi)

def overwritten (dq : DelayedQueue) (idx : Nat) (new : DqEntry) : DelayedQueue :=
  let heap := dqHeapSiftUp (Function.update dq.heap idx new) idx
  { dq with heap := dqHeapSiftDown heap idx dq.size }

def inserted (dq : DelayedQueue) (new : DqEntry) : DelayedQueue :=
  let heap := Function.update dq.heap dq.size new
  { dq with heap := dqHeapSiftUp heap dq.size, size := dq.size + 1 }

section Enqueue

variable (dq : DelayedQueue) (id : UInt64) (key : Option CString.CStr) (ud delayMs : UInt64)
  (now₁ now₂ now₃ : Int)

theorem dqEnqueue_full (cb : UInt64) (hfull : dq.capacity ≤ dq.size) :
    dqEnqueue dq id key (some cb) ud delayMs now₁ now₂ now₃ = (-2, dq) := by
  unfold dqEnqueue
  exact if_pos hfull

/-- With room, an enqueue overwrites the entry that has the key, or adds an entry. -/
theorem dqEnqueue_room (cb : UInt64) (hroom : dq.size < dq.capacity) :
    (∃ idx < dq.size, KeyStored dq key (dq.heap idx) ∧
      dqEnqueue dq id key (some cb) ud delayMs now₁ now₂ now₃ =
        (0, overwritten dq idx (requeued (dq.heap idx) id cb ud delayMs now₁))) ∨
    ((∀ e ∈ entries dq, ¬KeyStored dq key e) ∧
      dqEnqueue dq id key (some cb) ud delayMs now₁ now₂ now₃ =
        (0, inserted dq (newEntry id key cb ud delayMs now₁ now₂ now₃))) := by
  unfold dqEnqueue
  dsimp only
  rw [if_neg (Nat.not_le.mpr hroom)]
  cases hfind : if dq.dedupByKey then dqFindByKey dq key else none with
  | some idx =>
      have hdedup : dq.dedupByKey = true := by
        by_contra hoff
        rw [if_neg hoff] at hfind
        cases hfind
      rw [if_pos hdedup] at hfind
      obtain ⟨hidx, hkey, hne⟩ := dqFindByKey_eq_some hfind
      exact Or.inl ⟨idx, hidx, ⟨hdedup, hkey, hne⟩, rfl⟩
  | none =>
      refine Or.inr ⟨?_, rfl⟩
      rintro e he ⟨hdedup, rfl, hne⟩
      rw [if_pos hdedup] at hfind
      exact dqFindByKey_none hne hfind e he rfl

theorem ordered_dqEnqueue (cb : Option UInt64) (h : Ordered dq) :
    Ordered (dqEnqueue dq id key cb ud delayMs now₁ now₂ now₃).2 := by
  cases cb with
  | none => exact h
  | some cb =>
      rcases Nat.lt_or_ge dq.size dq.capacity with hroom | hfull
      · obtain ⟨idx, hidx, -, heq⟩ | ⟨-, heq⟩ :=
          dqEnqueue_room dq id key ud delayMs now₁ now₂ now₃ cb hroom
        · rw [heq]
          exact HeapOrder.replace h hidx _
        · rw [heq]
          exact HeapOrder.insert h _
      · rw [dqEnqueue_full dq id key ud delayMs now₁ now₂ now₃ cb hfull]
        exact h

theorem keepsEntries_enqueue (cb : Option UInt64) :
    KeepsEntries dq (.enqueue id key cb ud delayMs now₁ now₂ now₃) := by
  cases cb with
  | none => exact rfl
  | some cb =>
      refine ⟨dqEnqueue_full dq id key ud delayMs now₁ now₂ now₃ cb, fun hroom => ?_⟩
      obtain ⟨idx, hidx, hkey, heq⟩ | ⟨hnone, heq⟩ :=
        dqEnqueue_room dq id key ud delayMs now₁ now₂ now₃ cb hroom
      · rw [heq]
        refine ⟨rfl, Or.inl ⟨dq.heap idx, hkey, mem_entries hidx, ?_⟩⟩
        exact contents_replace_perm DqEntry.fireTime dq.heap hidx _
      · rw [heq]
        exact ⟨rfl, Or.inr ⟨hnone, contents_insert_perm DqEntry.fireTime dq.heap dq.size _⟩⟩

end Enqueue

theorem ordered_cancelEntry {dq : DelayedQueue} (h : Ordered dq) (found : Option Nat) :
    Ordered (cancelEntry dq found).2 := by
  cases found with
  | none => exact h
  | some idx =>
      have htime : ∀ i, (Function.update dq.heap idx
          { dq.heap idx with cancelled := true } i).fireTime = (dq.heap i).fireTime := by
        intro i
        by_cases hi : i = idx
        · rw [hi, Function.update_self]
        · rw [Function.update_of_ne hi]
      intro i h0 hi
      show (Function.update dq.heap idx _ (parent i)).fireTime ≤
        (Function.update dq.heap idx _ i).fireTime
      rw [htime, htime]
      exact h i h0 hi

theorem replaces_cancelEntry {dq : DelayedQueue} {idx : Nat} (hidx : idx < dq.size) :
    Replaces dq (cancelEntry dq (some idx)).2 (dq.heap idx)
      { dq.heap idx with cancelled := true } :=
  ⟨mem_entries hidx, contents_update_swap_perm dq.heap hidx _⟩

theorem ordered_step (dq : DelayedQueue) (op : Op) (h : Ordered dq) : Ordered (step dq op) := by
  cases op with
  | enqueue id key cb ud delayMs now₁ now₂ now₃ =>
      exact ordered_dqEnqueue dq id key ud delayMs now₁ now₂ now₃ cb h
  | cancel id => exact ordered_cancelEntry h (dqFindById dq id)
  | cancelByKey key => exact ordered_cancelEntry h (dqFindByKey dq key)
  | dequeue now => exact (dqDequeue_spec h now).1

theorem cancelsOne_cancelEntry {dq : DelayedQueue} {wanted : DqEntry → Prop} {found : Option Nat}
    (hsome : ∀ idx ∈ found, idx < dq.size ∧ wanted (dq.heap idx))
    (hnone : found = none → ∀ e ∈ entries dq, ¬wanted e) :
    CancelsOne dq wanted (cancelEntry dq found) := by
  cases found with
  | none => exact Or.inr ⟨rfl, rfl, hnone rfl⟩
  | some idx =>
      obtain ⟨hidx, hwanted⟩ := hsome idx rfl
      exact Or.inl ⟨rfl, _, hwanted, replaces_cancelEntry hidx⟩

theorem keepsEntries_of_ordered {dq : DelayedQueue} (h : Ordered dq) (op : Op) :
    KeepsEntries dq op := by
  cases op with
  | enqueue id key cb ud delayMs now₁ now₂ now₃ =>
      exact keepsEntries_enqueue dq id key ud delayMs now₁ now₂ now₃ cb
  | cancel id =>
      exact cancelsOne_cancelEntry (fun idx hidx => dqFindById_eq_some hidx) dqFindById_none
  | cancelByKey key =>
      refine cancelsOne_cancelEntry (fun idx hidx => dqFindByKey_eq_some hidx) fun hfind => ?_
      rintro e he ⟨rfl, hne⟩
      exact dqFindByKey_none hne hfind e he rfl
  | dequeue now => exact (dqDequeue_spec h now).2

/-! ## Runs -/

theorem ordered_run (capacity : Int) (dedup : Bool) (ops : List Op) :
    Ordered (run step (delayedQueueCreate capacity dedup) ops) := by
  have hempty : Ordered (delayedQueueCreate capacity dedup) :=
    fun i _ hi => absurd hi (Nat.not_lt_zero i)
  exact run_keeps step ordered_step hempty ops

/-- After every sequence of calls the heap is ordered, a dequeue at any reading of the clock is
correct, and every other call stores, changes or leaves what its result says. -/
theorem delayed_queue_correct (capacity : Int) (dedup : Bool) (ops : List Op) :
    let dq := run step (delayedQueueCreate capacity dedup) ops
    (∀ i, 0 < i → i < dq.size →
      (dq.heap ((i - 1) / 2)).fireTime ≤ (dq.heap i).fireTime) ∧
      (∀ now, DequeuesTo dq now (dqDequeue dq now).1 (dqDequeue dq now).2) ∧
      ∀ op, KeepsEntries dq op := by
  have h := ordered_run capacity dedup ops
  exact ⟨h, fun now => (dqDequeue_spec h now).2, keepsEntries_of_ordered h⟩

/-- Two jobs, of which the second fires first, and the cancellation of a third. -/
def storedJobs : List Op :=
  [.enqueue 1 (some (CString.lit "mail")) (some 7) 0 9000 100 100 100,
    .enqueue 2 none (some 8) 5 2000 100 100 100, .enqueue 3 none (some 8) 6 1000 100 100 100,
    .cancel 3]

theorem delayed_queue_correct_delivers :
    let dq := run step (delayedQueueCreate 4 true) storedJobs
    dq.size = 3 ∧
      (dqDequeue dq 103).1 = some ⟨2, [], 8, 5, 102, 2000, false⟩ ∧
      DequeuesTo dq 103 (dqDequeue dq 103).1 (dqDequeue dq 103).2 ∧
      KeepsEntries dq (.cancel 1) :=
  ⟨by decide, by decide, (delayed_queue_correct 4 true storedJobs).2.1 103,
    (delayed_queue_correct 4 true storedJobs).2.2 (.cancel 1)⟩

end MiniBackend.JobSystem.Proofs.DelayedQueueOrder
