import MiniBackend.JobSystem.Proofs.DelayedQueueOrder

/-!
# The delayed queue with tagged entries

Each entry carries a tag of the call of `dq_enqueue` that wrote it last.  The queue never looks at
the tags: without them it is the delayed queue.
-/

namespace MiniBackend.JobSystem.Proofs.TaggedQueue

open MiniBackend.Lib MiniBackend.Lib.Runs MiniBackend.Lib.BinaryHeap
open MiniBackend.JobSystem.Delayed MiniBackend.JobSystem.Proofs.DelayedQueueOrder

variable {τ : Type*}

structure Tagged (τ : Type*) where
  heap : Nat → DqEntry × τ
  size : Nat
  capacity : Nat
  dedupByKey : Bool

def Tagged.erase (q : Tagged τ) : DelayedQueue where
  heap := Prod.fst ∘ q.heap
  size := q.size
  capacity := q.capacity
  dedupByKey := q.dedupByKey

def Tagged.entries (q : Tagged τ) : List (DqEntry × τ) := contents q.heap q.size

/-- A queue in which nothing has been enqueued; the tag stands for the unused entries. -/
def Tagged.create (unused : τ) (capacity : Int) (dedup : Bool) : Tagged τ :=
  let dq := delayedQueueCreate capacity dedup
  { heap := fun i => (dq.heap i, unused)
    size := dq.size
    capacity := dq.capacity
    dedupByKey := dq.dedupByKey }

def fireTime : DqEntry × τ → Int := DqEntry.fireTime ∘ Prod.fst

def Tagged.overwrite (q : Tagged τ) (idx : Nat) (new : DqEntry × τ) : Tagged τ :=
  let heap := siftUp fireTime idx (Function.update q.heap idx new) idx
  { q with heap := siftDown fireTime q.size heap idx q.size }

def Tagged.insert (q : Tagged τ) (new : DqEntry × τ) : Tagged τ :=
  { q with
    heap := siftUp fireTime q.size (Function.update q.heap q.size new) q.size
    size := q.size + 1 }

def Tagged.enqueue (tag : τ) (q : Tagged τ) (id : UInt64) (key : Option CString.CStr)
    (cb : Option UInt64) (ud delayMs : UInt64) (now₁ now₂ now₃ : Int) : Tagged τ :=
  match cb with
  | none => q
  | some cb =>
      if q.capacity ≤ q.size then q
      else
        match if q.dedupByKey then dqFindByKey q.erase key else none with
        | some idx =>
            q.overwrite idx
              ({ (q.heap idx).1 with
                id, callback := cb, userdata := ud, fireTime := fireTimeAfter now₁ delayMs,
                delayMs, cancelled := false }, tag)
        | none =>
            q.insert
              ({ id
                 key := match key with
                  | some key => CString.strncpy key (dqKeyLen - 1)
                  | none => []
                 callback := cb
                 userdata := ud
                 fireTime := newFireTime now₁ now₂ now₃ delayMs
                 delayMs
                 cancelled := false }, tag)

def cancelled (e : DqEntry × τ) : DqEntry × τ := ({ e.1 with cancelled := true }, e.2)

def Tagged.cancelEntry (q : Tagged τ) (found : Option Nat) : Tagged τ :=
  match found with
  | none => q
  | some idx => { q with heap := Function.update q.heap idx (cancelled (q.heap idx)) }

def Tagged.removeRoot (q : Tagged τ) : Tagged τ :=
  let heap := Function.update q.heap 0 (q.heap (q.size - 1))
  let size := q.size - 1
  { q with heap := if 0 < size then siftDown fireTime size heap 0 size else heap, size }

def Tagged.dequeueLoop (now : Int) : Nat → Tagged τ → Option (DqEntry × τ) × Tagged τ
  | 0, q => (none, q)
  | fuel + 1, q =>
      if q.size = 0 then (none, q)
      else if (q.heap 0).1.cancelled then dequeueLoop now fuel q.removeRoot
      else if now < (q.heap 0).1.fireTime then (none, q)
      else (some (q.heap 0), q.removeRoot)

def Tagged.dequeue (q : Tagged τ) (now : Int) : Option (DqEntry × τ) × Tagged τ :=
  dequeueLoop now q.size q

def Tagged.step (q : Tagged τ) (call : Op × τ) : Tagged τ :=
  match call.1 with
  | .enqueue id key cb ud delayMs now₁ now₂ now₃ =>
      q.enqueue call.2 id key cb ud delayMs now₁ now₂ now₃
  | .cancel id => q.cancelEntry (dqFindById q.erase id)
  | .cancelByKey key => q.cancelEntry (dqFindByKey q.erase key)
  | .dequeue now => (q.dequeue now).2

/-! ## Without the tags -/

theorem entries_erase (q : Tagged τ) : entries q.erase = q.entries.map Prod.fst := by
  rw [entries, Tagged.entries, contents, contents, List.map_map]
  rfl

theorem fst_comp_update (heap : Nat → DqEntry × τ) (idx : Nat) (new : DqEntry × τ) :
    Prod.fst ∘ Function.update heap idx new = Function.update (Prod.fst ∘ heap) idx new.1 :=
  Function.comp_update Prod.fst heap idx new

theorem erase_overwrite (q : Tagged τ) (idx : Nat) (new : DqEntry × τ) :
    (q.overwrite idx new).erase = overwritten q.erase idx new.1 := by
  have hheap := comp_siftDown DqEntry.fireTime Prod.fst q.size
    (siftUp fireTime idx (Function.update q.heap idx new) idx) idx q.size
  have hup := comp_siftUp DqEntry.fireTime Prod.fst idx (Function.update q.heap idx new) idx
  rw [fst_comp_update] at hup
  rw [show Prod.fst ∘ siftUp fireTime idx (Function.update q.heap idx new) idx = _
    from hup] at hheap
  exact congrArg (fun heap => { q.erase with heap }) hheap

theorem erase_insert (q : Tagged τ) (new : DqEntry × τ) :
    (q.insert new).erase = inserted q.erase new.1 := by
  have hup := comp_siftUp DqEntry.fireTime Prod.fst q.size
    (Function.update q.heap q.size new) q.size
  rw [fst_comp_update] at hup
  exact congrArg (fun heap => { q.erase with heap, size := q.size + 1 }) hup

theorem erase_enqueue (tag : τ) (q : Tagged τ) (id : UInt64) (key : Option CString.CStr)
    (cb : Option UInt64) (ud delayMs : UInt64) (now₁ now₂ now₃ : Int) :
    (q.enqueue tag id key cb ud delayMs now₁ now₂ now₃).erase =
      (dqEnqueue q.erase id key cb ud delayMs now₁ now₂ now₃).2 := by
  unfold Tagged.enqueue dqEnqueue
  cases cb with
  | none => rfl
  | some cb =>
      by_cases hfull : q.capacity ≤ q.size
      · have hfull' : q.erase.capacity ≤ q.erase.size := hfull
        dsimp only
        rw [if_pos hfull, if_pos hfull']
      · have hroom : ¬q.erase.capacity ≤ q.erase.size := hfull
        dsimp only
        rw [if_neg hfull, if_neg hroom]
        have hdedup : q.erase.dedupByKey = q.dedupByKey := rfl
        rw [hdedup]
        cases (if q.dedupByKey then dqFindByKey q.erase key else none) with
        | none => exact erase_insert q _
        | some idx => exact erase_overwrite q idx _

theorem erase_cancelEntry (q : Tagged τ) (found : Option Nat) :
    (q.cancelEntry found).erase = (Delayed.cancelEntry q.erase found).2 := by
  cases found with
  | none => rfl
  | some idx =>
      exact congrArg (fun heap => { q.erase with heap }) (fst_comp_update q.heap idx _)

theorem erase_removeRoot (q : Tagged τ) : q.removeRoot.erase = Delayed.removeRoot q.erase := by
  have hheap := fst_comp_update q.heap 0 (q.heap (q.size - 1))
  have hdown := comp_siftDown DqEntry.fireTime Prod.fst (q.size - 1)
    (Function.update q.heap 0 (q.heap (q.size - 1))) 0 (q.size - 1)
  rw [hheap] at hdown
  refine congrArg (fun heap => { q.erase with heap, size := q.size - 1 }) ?_
  unfold Tagged.removeRoot
  dsimp only
  by_cases hpos : 0 < q.size - 1
  · rw [if_pos hpos]
    exact hdown.trans (if_pos hpos).symm
  · rw [if_neg hpos]
    exact hheap.trans (if_neg hpos).symm

theorem erase_dequeueLoop (now : Int) (fuel : Nat) (q : Tagged τ) :
    ((Tagged.dequeueLoop now fuel q).1.map Prod.fst, (Tagged.dequeueLoop now fuel q).2.erase) =
      Delayed.dequeueLoop now fuel q.erase := by
  induction fuel generalizing q with
  | zero => rfl
  | succ fuel ih =>
      unfold Tagged.dequeueLoop Delayed.dequeueLoop
      have hsize : q.erase.size = q.size := rfl
      have hroot : q.erase.heap 0 = (q.heap 0).1 := rfl
      rw [hsize, hroot]
      by_cases hempty : q.size = 0
      · rw [if_pos hempty, if_pos hempty]
        rfl
      · rw [if_neg hempty, if_neg hempty]
        by_cases hcancelled : (q.heap 0).1.cancelled = true
        · rw [if_pos hcancelled, if_pos hcancelled, ← erase_removeRoot]
          exact ih q.removeRoot
        · rw [if_neg hcancelled, if_neg hcancelled, ← erase_removeRoot]
          split
          · rfl
          · rfl

theorem erase_dequeue (q : Tagged τ) (now : Int) :
    ((q.dequeue now).1.map Prod.fst, (q.dequeue now).2.erase) = dqDequeue q.erase now :=
  erase_dequeueLoop now q.size q

theorem erase_step (q : Tagged τ) (call : Op × τ) :
    (q.step call).erase = Delayed.step q.erase call.1 := by
  obtain ⟨op, tag⟩ := call
  cases op with
  | enqueue id key cb ud delayMs now₁ now₂ now₃ =>
      exact erase_enqueue tag q id key cb ud delayMs now₁ now₂ now₃
  | cancel id => exact erase_cancelEntry q _
  | cancelByKey key => exact erase_cancelEntry q _
  | dequeue now => exact congrArg Prod.snd (erase_dequeue q now)

/-! ## The stored entries -/

theorem mem_entries_iff {q : Tagged τ} {e : DqEntry × τ} :
    e ∈ q.entries ↔ ∃ i < q.size, q.heap i = e := by
  simp [Tagged.entries, contents]

theorem perm_overwrite (q : Tagged τ) {idx : Nat} (hidx : idx < q.size) (new : DqEntry × τ) :
    (q.heap idx :: (q.overwrite idx new).entries).Perm (new :: q.entries) :=
  contents_replace_perm fireTime q.heap hidx new

theorem perm_insert (q : Tagged τ) (new : DqEntry × τ) :
    (q.insert new).entries.Perm (new :: q.entries) :=
  contents_insert_perm fireTime q.heap q.size new

theorem perm_cancelEntry (q : Tagged τ) {idx : Nat} (hidx : idx < q.size) :
    (q.heap idx :: (q.cancelEntry (some idx)).entries).Perm
      (cancelled (q.heap idx) :: q.entries) :=
  contents_update_swap_perm q.heap hidx _

theorem perm_removeRoot {q : Tagged τ} (hsize : q.size ≠ 0) :
    q.entries.Perm (q.heap 0 :: q.removeRoot.entries) := by
  obtain ⟨heap, size, capacity, dedup⟩ := q
  obtain ⟨n, rfl⟩ := Nat.exists_eq_succ_of_ne_zero hsize
  have hperm := (contents_removeRoot_perm fireTime heap n).symm
  by_cases hn : 0 < n
  · simpa [Tagged.entries, Tagged.removeRoot, hn] using hperm
  · have hzero : n = 0 := by omega
    subst hzero
    simp [Tagged.entries, Tagged.removeRoot, contents]

theorem dequeueLoop_takes (now : Int) (fuel : Nat) (q : Tagged τ) :
    (∃ out, q.entries.Perm (out ++ (Tagged.dequeueLoop now fuel q).2.entries)) ∧
      ∀ e ∈ (Tagged.dequeueLoop now fuel q).1, e ∈ q.entries ∧ e.1.cancelled = false := by
  induction fuel generalizing q with
  | zero => exact ⟨⟨[], List.Perm.refl _⟩, by simp [Tagged.dequeueLoop]⟩
  | succ fuel ih =>
      unfold Tagged.dequeueLoop
      by_cases hempty : q.size = 0
      · rw [if_pos hempty]
        exact ⟨⟨[], List.Perm.refl _⟩, by simp⟩
      · have hroot := perm_removeRoot hempty
        rw [if_neg hempty]
        by_cases hcancelled : (q.heap 0).1.cancelled = true
        · rw [if_pos hcancelled]
          obtain ⟨⟨out, hout⟩, hdelivered⟩ := ih q.removeRoot
          refine ⟨⟨q.heap 0 :: out, hroot.trans (hout.cons _)⟩, fun e he => ?_⟩
          obtain ⟨hmem, hlive⟩ := hdelivered e he
          exact ⟨hroot.symm.subset (List.mem_cons_of_mem _ hmem), hlive⟩
        · rw [if_neg hcancelled]
          split
          · exact ⟨⟨[], List.Perm.refl _⟩, by simp⟩
          · refine ⟨⟨[q.heap 0], hroot⟩, fun e he => ?_⟩
            obtain rfl := Option.some.inj he
            exact ⟨hroot.symm.subset List.mem_cons_self, by simpa using hcancelled⟩

theorem dequeue_takes (q : Tagged τ) (now : Int) :
    (∃ out, q.entries.Perm (out ++ (q.dequeue now).2.entries)) ∧
      ∀ e ∈ (q.dequeue now).1, e ∈ q.entries ∧ e.1.cancelled = false :=
  dequeueLoop_takes now q.size q

/-- An enqueue is rejected, overwrites the entry that has the key, or adds an entry. -/
theorem enqueue_cases (tag : τ) (q : Tagged τ) (id : UInt64) (key : Option CString.CStr)
    (cb : Option UInt64) (ud delayMs : UInt64) (now₁ now₂ now₃ : Int) :
    ((cb = none ∨ q.capacity ≤ q.size) ∧
        q.enqueue tag id key cb ud delayMs now₁ now₂ now₃ = q) ∨
      (∃ idx new, dqFindByKey q.erase key = some idx ∧ new.key = (q.heap idx).1.key ∧
        q.enqueue tag id key cb ud delayMs now₁ now₂ now₃ = q.overwrite idx (new, tag)) ∨
      (cb ≠ none ∧ q.size < q.capacity ∧
        (q.dedupByKey = true → dqFindByKey q.erase key = none) ∧
        ∃ new, new.key = CString.strncpy (key.getD []) (dqKeyLen - 1) ∧
          q.enqueue tag id key cb ud delayMs now₁ now₂ now₃ = q.insert (new, tag)) := by
  unfold Tagged.enqueue
  cases cb with
  | none => exact .inl ⟨.inl rfl, rfl⟩
  | some cb =>
      dsimp only
      by_cases hfull : q.capacity ≤ q.size
      · rw [if_pos hfull]
        exact .inl ⟨.inr hfull, rfl⟩
      · rw [if_neg hfull]
        refine .inr ?_
        cases hfind : (if q.dedupByKey then dqFindByKey q.erase key else none) with
        | some idx =>
            have hfound : dqFindByKey q.erase key = some idx := by
              split at hfind
              · exact hfind
              · exact absurd hfind (by simp)
            exact .inl ⟨idx, _, hfound, by rfl, rfl⟩
        | none =>
            refine .inr ⟨by simp, by omega, fun hdedup => ?_, _, ?_, rfl⟩
            · rwa [if_pos hdedup] at hfind
            · cases key with
              | none => rfl
              | some key => rfl

/-- The call writes an entry with this key: the given key cut to its place, or one that is stored
and equal to the given key. -/
def WritesKey (q : Tagged τ) (op : Op) (stored : CString.CStr) : Prop :=
  ∃ id key cb ud delayMs now₁ now₂ now₃, op = .enqueue id key cb ud delayMs now₁ now₂ now₃ ∧
    (stored = CString.strncpy (key.getD []) (dqKeyLen - 1) ∨
      key = some stored ∧ ∃ e ∈ q.entries, e.1.key = stored)

theorem mem_step {q : Tagged τ} {op : Op} {tag : τ} {e : DqEntry × τ}
    (he : e ∈ (q.step (op, tag)).entries) :
    e ∈ q.entries ∨ (e.2 = tag ∧ WritesKey q op e.1.key) ∨ ∃ e' ∈ q.entries, e = cancelled e' := by
  have hcancel : ∀ found, (∀ idx ∈ found, idx < q.size) → e ∈ (q.cancelEntry found).entries →
      e ∈ q.entries ∨ ∃ e' ∈ q.entries, e = cancelled e' := by
    intro found hlt he
    cases found with
    | none => exact .inl he
    | some idx =>
        have hidx := hlt idx rfl
        rcases List.mem_cons.mp ((perm_cancelEntry q hidx).subset (List.mem_cons_of_mem _ he)) with
          rfl | hold
        · exact .inr ⟨q.heap idx, mem_entries_iff.mpr ⟨idx, hidx, rfl⟩, rfl⟩
        · exact .inl hold
  cases op with
  | enqueue id key cb ud delayMs now₁ now₂ now₃ =>
      have hstep : q.step (.enqueue id key cb ud delayMs now₁ now₂ now₃, tag) =
          q.enqueue tag id key cb ud delayMs now₁ now₂ now₃ := rfl
      rw [hstep] at he
      rcases enqueue_cases tag q id key cb ud delayMs now₁ now₂ now₃ with
        ⟨-, heq⟩ | ⟨idx, new, hfind, hkey, heq⟩ | ⟨-, -, -, new, hkey, heq⟩
      · rw [heq] at he
        exact .inl he
      · rw [heq] at he
        obtain ⟨hidx, hfound, -⟩ := dqFindByKey_eq_some hfind
        have hmem : q.heap idx ∈ q.entries := mem_entries_iff.mpr ⟨idx, hidx, rfl⟩
        rcases List.mem_cons.mp ((perm_overwrite q hidx _).subset (List.mem_cons_of_mem _ he)) with
          rfl | hold
        · refine .inr (.inl ⟨rfl, id, key, cb, ud, delayMs, now₁, now₂, now₃, rfl, .inr ⟨?_, ?_⟩⟩)
          · exact hfound.trans (congrArg some hkey.symm)
          · exact ⟨q.heap idx, hmem, hkey.symm⟩
        · exact .inl hold
      · rw [heq] at he
        rcases List.mem_cons.mp ((perm_insert q _).subset he) with rfl | hold
        · exact .inr (.inl ⟨rfl, id, key, cb, ud, delayMs, now₁, now₂, now₃, rfl, .inl hkey⟩)
        · exact .inl hold
  | cancel id =>
      exact (hcancel _ (fun idx hidx => (dqFindById_eq_some hidx).1) he).imp_right .inr
  | cancelByKey key =>
      exact (hcancel _ (fun idx hidx => (dqFindByKey_eq_some hidx).1) he).imp_right .inr
  | dequeue now =>
      obtain ⟨⟨out, hout⟩, -⟩ := dequeue_takes q now
      exact .inl (hout.symm.subset (List.mem_append_right out he))

theorem dedupByKey_dequeueLoop (now : Int) (fuel : Nat) (q : Tagged τ) :
    (Tagged.dequeueLoop now fuel q).2.dedupByKey = q.dedupByKey := by
  induction fuel generalizing q with
  | zero => rfl
  | succ fuel ih =>
      unfold Tagged.dequeueLoop
      split
      · rfl
      · split
        · exact ih q.removeRoot
        · split
          · rfl
          · rfl

theorem dedupByKey_step (q : Tagged τ) (call : Op × τ) :
    (q.step call).dedupByKey = q.dedupByKey := by
  obtain ⟨op, tag⟩ := call
  have hcancel : ∀ found, (q.cancelEntry found).dedupByKey = q.dedupByKey := by
    intro found
    cases found with
    | none => rfl
    | some idx => rfl
  cases op with
  | enqueue id key cb ud delayMs now₁ now₂ now₃ =>
      have hstep : q.step (.enqueue id key cb ud delayMs now₁ now₂ now₃, tag) =
          q.enqueue tag id key cb ud delayMs now₁ now₂ now₃ := rfl
      rw [hstep]
      rcases enqueue_cases tag q id key cb ud delayMs now₁ now₂ now₃ with
        ⟨-, heq⟩ | ⟨idx, new, -, -, heq⟩ | ⟨-, -, -, new, -, heq⟩
      · rw [heq]
      · rw [heq]
        rfl
      · rw [heq]
        rfl
  | cancel id => exact hcancel _
  | cancelByKey key => exact hcancel _
  | dequeue now => exact dedupByKey_dequeueLoop now q.size q

/-!
# Cancelled jobs

`dq_cancel` sets the flag of the first entry with the id.  If all other entries with the id have
the flag already, no entry that was there before the call is delivered under this id again.
-/

section CancelledJobs

open MiniBackend.Lib MiniBackend.Lib.Runs
open MiniBackend.JobSystem.Delayed MiniBackend.JobSystem.Proofs.DelayedQueueOrder

/-- A queue whose entries are stamped with the number of the call that wrote them, and the number
of the next call. -/
def stampedStep (s : Tagged Nat × Nat) (op : Op) : Tagged Nat × Nat :=
  (s.1.step (op, s.2), s.2 + 1)

def stampedCreate (capacity : Int) (dedup : Bool) : Tagged Nat × Nat :=
  (.create 0 capacity dedup, 0)

/-- The queue after the calls. -/
def stamped (capacity : Int) (dedup : Bool) (ops : List Op) : Tagged Nat :=
  (run stampedStep (stampedCreate capacity dedup) ops).1

/-- All entries with the id are cancelled, except for the one that the cancellation finds. -/
def CancelsAll (dq : DelayedQueue) : Op → Prop
  | .cancel id => ∀ found ∈ dqFindById dq id, ∀ i < dq.size, i ≠ found → (dq.heap i).id = id →
      (dq.heap i).cancelled = true
  | _ => True

instance (dq : DelayedQueue) : DecidablePred (CancelsAll dq) := fun op =>
  match op with
  | .cancel id => inferInstanceAs (Decidable (∀ found ∈ dqFindById dq id, ∀ i < dq.size,
      i ≠ found → (dq.heap i).id = id → (dq.heap i).cancelled = true))
  | .enqueue .. | .cancelByKey _ | .dequeue _ => .isTrue trivial

theorem erase_stampedStep (s : Tagged Nat × Nat) (op : Op) :
    (stampedStep s op).1.erase = Delayed.step s.1.erase op := erase_step s.1 (op, s.2)

theorem erase_stamped (capacity : Int) (dedup : Bool) (ops : List Op) :
    (stamped capacity dedup ops).erase =
      run Delayed.step (delayedQueueCreate capacity dedup) ops :=
  run_comp stampedStep (f := fun s => s.1.erase) erase_stampedStep
    (stampedCreate capacity dedup) ops

/-! ## After a cancellation -/

def OldCancelled (id : UInt64) (m : Nat) (s : Tagged Nat × Nat) : Prop :=
  m < s.2 ∧ ∀ e ∈ s.1.entries, e.1.id = id → e.2 ≤ m → e.1.cancelled = true

theorem oldCancelled_step {id : UInt64} {m : Nat} (s : Tagged Nat × Nat) (op : Op)
    (h : OldCancelled id m s) : OldCancelled id m (stampedStep s op) := by
  obtain ⟨hlt, hold⟩ := h
  refine ⟨Nat.lt_succ_of_lt hlt, fun e he hid hle => ?_⟩
  rcases mem_step he with hmem | ⟨hstamp, -⟩ | ⟨e', -, rfl⟩
  · exact hold e hmem hid hle
  · rw [hstamp] at hle
    omega
  · rfl

theorem oldCancelled_cancel {s : Tagged Nat × Nat} {id : UInt64}
    (hfound : (dqCancel s.1.erase id).1 = 0) (h : CancelsAll s.1.erase (.cancel id)) :
    OldCancelled id s.2 (stampedStep s (.cancel id)) := by
  refine ⟨Nat.lt_succ_self _, fun e he hid _ => ?_⟩
  cases hfind : dqFindById s.1.erase id with
  | none =>
      rw [dqCancel, hfind] at hfound
      exact absurd hfound (by simp [Delayed.cancelEntry])
  | some found =>
      have hstep : (stampedStep s (.cancel id)).1 = s.1.cancelEntry (dqFindById s.1.erase id) := rfl
      rw [hstep, hfind] at he
      obtain ⟨i, hi, rfl⟩ := mem_entries_iff.mp he
      by_cases hif : i = found
      · rw [hif, Tagged.cancelEntry]
        simp [cancelled]
      · have hsame : (s.1.cancelEntry (some found)).heap i = s.1.heap i :=
          Function.update_of_ne hif ..
        rw [hsame] at hid ⊢
        exact h found hfind i hi hif hid

/-! ## Runs -/

theorem clock_stamped (capacity : Int) (dedup : Bool) (ops : List Op) :
    (run stampedStep (stampedCreate capacity dedup) ops).2 = ops.length := by
  have hcount : ∀ (l : List Op) (s : Tagged Nat × Nat),
      (run stampedStep s l).2 = s.2 + l.length := by
    intro l
    induction l with
    | nil => exact fun s => rfl
    | cons op l ih =>
        intro s
        rw [run_cons, ih, List.length_cons]
        exact Nat.add_right_comm s.2 1 l.length
  rw [hcount]
  exact Nat.zero_add _

/-- Where every cancellation finds the last entry of its id that is not cancelled, a dequeue after
a successful `dq_cancel` delivers the id only for calls of `dq_enqueue` that came later. -/
theorem cancelled_never_fires (capacity : Int) (dedup : Bool) {before after : List Op} {id : UInt64}
    (h : Always Delayed.step CancelsAll (delayedQueueCreate capacity dedup)
      (before ++ .cancel id :: after))
    (hfound : (dqCancel (run Delayed.step (delayedQueueCreate capacity dedup) before) id).1 = 0)
    (now : Int) :
    let ops := before ++ .cancel id :: after
    (dqDequeue (run Delayed.step (delayedQueueCreate capacity dedup) ops) now).1 =
        ((stamped capacity dedup ops).dequeue now).1.map Prod.fst ∧
      ∀ e ∈ ((stamped capacity dedup ops).dequeue now).1, e.1.id = id → before.length < e.2 := by
  intro ops
  constructor
  · rw [← erase_stamped]
    exact (congrArg Prod.fst (erase_dequeue _ now)).symm
  · intro e he hid
    have hmeets : CancelsAll (stamped capacity dedup before).erase (.cancel id) := by
      rw [erase_stamped]
      exact ((always_append _).mp h).2.1
    rw [← erase_stamped] at hfound
    have hold := oldCancelled_cancel hfound hmeets
    rw [clock_stamped] at hold
    have hfinal := run_keeps stampedStep oldCancelled_step hold after
    obtain ⟨hmem, hlive⟩ := (dequeue_takes (stamped capacity dedup ops) now).2 e he
    have hstate : stamped capacity dedup ops = (run stampedStep (stampedStep
        (run stampedStep (stampedCreate capacity dedup) before) (.cancel id)) after).1 := by
      rw [stamped, run_append, run_cons]
    rw [hstate] at hmem
    by_contra hnot
    have hcancelled := hfinal.2 e hmem hid (not_lt.mp hnot)
    rw [hlive] at hcancelled
    exact absurd hcancelled (by decide)

/-- Job 7 is cancelled after job 8 was; nothing is delivered. -/
theorem cancelled_never_fires_second :
    (dqDequeue (run Delayed.step (delayedQueueCreate 16 false)
      ([.enqueue 8 (some [97]) (some 9) 0 100 0 0 0, .enqueue 7 (some [98]) (some 9) 0 200 0 0 0,
        .cancel 8] ++ [.cancel 7])) 1000).1 = none ∧
    ∀ e ∈ ((stamped 16 false
      ([.enqueue 8 (some [97]) (some 9) 0 100 0 0 0, .enqueue 7 (some [98]) (some 9) 0 200 0 0 0,
        .cancel 8] ++ [.cancel 7])).dequeue 1000).1, e.1.id = 7 → 3 < e.2 := by
  have hmeets : Always Delayed.step CancelsAll (delayedQueueCreate 16 false)
      ([.enqueue 8 (some [97]) (some 9) 0 100 0 0 0, .enqueue 7 (some [98]) (some 9) 0 200 0 0 0,
        .cancel 8] ++ [.cancel 7]) := by decide
  exact ⟨by decide, (cancelled_never_fires 16 false hmeets (by decide) 1000).2⟩

/-- Job 7 is enqueued twice and cancelled once. -/
def repeatedIdRun : List Op :=
  [.enqueue 7 (some [97]) (some 9) 0 100 0 0 0, .enqueue 7 (some [98]) (some 9) 0 200 0 0 0]

/-- The second entry is delivered although the cancellation has returned 0. -/
theorem second_entry_fires :
    (dqCancel (run Delayed.step (delayedQueueCreate 16 false) repeatedIdRun) 7).1 = 0 ∧
      ((stamped 16 false (repeatedIdRun ++ [.cancel 7])).dequeue 1000).1.map
        (fun e => (e.1.id, e.2)) = some (7, 1) := by
  decide

end CancelledJobs

end MiniBackend.JobSystem.Proofs.TaggedQueue
