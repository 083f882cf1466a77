import MiniBackend.Lib.CString
import MiniBackend.Lib.CArray
import MiniBackend.Lib.BinaryHeap

/-!
# `delayed_queue.c`

Jobs ordered by the time at which they fire, in a binary heap.  Callbacks and user
data are pointers that the queue only stores.  Each reading of the clock is an
argument of its own; the queue pointer and the output pointer are non-null.
-/

namespace MiniBackend.JobSystem.Delayed

open MiniBackend.Lib MiniBackend.Lib.CString MiniBackend.Lib.CArray

def dqMaxEntries : Nat := 1024
def dqKeyLen : Nat := 64

structure DqEntry where
  id : UInt64
  key : CStr
  callback : UInt64
  userdata : UInt64
  fireTime : Int
  delayMs : UInt64
  cancelled : Bool
deriving DecidableEq

/-- Only the first `size` entries of `heap` are in use. -/
structure DelayedQueue where
  heap : Nat → DqEntry
  size : Nat
  capacity : Nat
  dedupByKey : Bool

def zeroEntry : DqEntry := ⟨0, [], 0, 0, 0, 0, false⟩

def delayedQueueCreate (capacity : Int) (dedup : Bool) : DelayedQueue where
  heap := fun _ => zeroEntry
  size := 0
  capacity := if capacity ≤ 0 then dqMaxEntries else capacity.toNat
  dedupByKey := dedup

def dqHeapSiftUp (heap : Nat → DqEntry) (idx : Nat) : Nat → DqEntry :=
  BinaryHeap.siftUp DqEntry.fireTime idx heap idx

def dqHeapSiftDown (heap : Nat → DqEntry) (idx size : Nat) : Nat → DqEntry :=
  BinaryHeap.siftDown DqEntry.fireTime size heap idx size

/-- `none` stands for -1; a `NULL` or empty key is never found. -/
def dqFindByKey (dq : DelayedQueue) (key : Option CStr) : Option Nat :=
  match key with
  | none => none
  | some key => if key = [] then none else findIndex (fun i => (dq.heap i).key == key) dq.size

def dqFindById (dq : DelayedQueue) (id : UInt64) : Option Nat :=
  findIndex (fun i => (dq.heap i).id == id) dq.size

/-- `(time_t)(time(NULL) + delay_ms / 1000)`: the sum is taken modulo `2 ^ 64`. -/
def fireTimeAfter (now : Int) (delayMs : UInt64) : Int :=
  (now + (delayMs / 1000).toNat).bmod (2 ^ 64)

/-- The fire time of a new entry, with the three readings of the clock it may take. -/
def newFireTime (now₁ now₂ now₃ : Int) (delayMs : UInt64) : Int :=
  if fireTimeAfter now₁ delayMs ≤ now₂ then now₃ + 1 else fireTimeAfter now₁ delayMs

def dqEnqueue (dq : DelayedQueue) (id : UInt64) (key : Option CStr) (cb : Option UInt64)
    (ud : UInt64) (delayMs : UInt64) (now₁ now₂ now₃ : Int) : Int × DelayedQueue :=
  match cb with
  | none => (-1, dq)
  | some cb =>
      if dq.capacity ≤ dq.size then (-2, dq)
      else
        match if dq.dedupByKey then dqFindByKey dq key else none with
        | some idx =>
            let entry : DqEntry :=
              { dq.heap idx with
                id, callback := cb, userdata := ud, fireTime := fireTimeAfter now₁ delayMs,
                delayMs, cancelled := false }
            let heap := dqHeapSiftUp (Function.update dq.heap idx entry) idx
            (0, { dq with heap := dqHeapSiftDown heap idx dq.size })
        | none =>
            let entry : DqEntry :=
              { id
                key := match key with
                  | some key => strncpy key (dqKeyLen - 1)
                  | none => []
                callback := cb
                userdata := ud
                fireTime := newFireTime now₁ now₂ now₃ delayMs
                delayMs
                cancelled := false }
            let heap := Function.update dq.heap dq.size entry
            (0, { dq with heap := dqHeapSiftUp heap dq.size, size := dq.size + 1 })

def cancelEntry (dq : DelayedQueue) (found : Option Nat) : Int × DelayedQueue :=
  match found with
  | none => (-1, dq)
  | some idx =>
      (0, { dq with
        heap := Function.update dq.heap idx { dq.heap idx with cancelled := true } })

def dqCancel (dq : DelayedQueue) (id : UInt64) : Int × DelayedQueue :=
  cancelEntry dq (dqFindById dq id)

def dqCancelByKey (dq : DelayedQueue) (key : Option CStr) : Int × DelayedQueue :=
  cancelEntry dq (dqFindByKey dq key)

def removeRoot (dq : DelayedQueue) : DelayedQueue :=
  let heap := Function.update dq.heap 0 (dq.heap (dq.size - 1))
  let size := dq.size - 1
  { dq with heap := if 0 < size then dqHeapSiftDown heap 0 size else heap, size }

/-- Each recursive call has one entry less, so `size` calls are enough. -/
def dequeueLoop (now : Int) : Nat → DelayedQueue → Option DqEntry × DelayedQueue
  | 0, dq => (none, dq)
  | fuel + 1, dq =>
      if dq.size = 0 then (none, dq)
      else if (dq.heap 0).cancelled then dequeueLoop now fuel (removeRoot dq)
      else if now < (dq.heap 0).fireTime then (none, dq)
      else (some (dq.heap 0), removeRoot dq)

/-- The entry that is delivered when 1 is returned; `none` when 0 is. -/
def dqDequeue (dq : DelayedQueue) (now : Int) : Option DqEntry × DelayedQueue :=
  dequeueLoop now dq.size dq

/-! ## Runs -/

inductive Op
  | enqueue (id : UInt64) (key : Option CStr) (cb : Option UInt64) (ud delayMs : UInt64)
      (now₁ now₂ now₃ : Int)
  | cancel (id : UInt64)
  | cancelByKey (key : Option CStr)
  | dequeue (now : Int)
deriving DecidableEq

def step (dq : DelayedQueue) : Op → DelayedQueue
  | .enqueue id key cb ud delayMs now₁ now₂ now₃ =>
      (dqEnqueue dq id key cb ud delayMs now₁ now₂ now₃).2
  | .cancel id => (dqCancel dq id).2
  | .cancelByKey key => (dqCancelByKey dq key).2
  | .dequeue now => (dqDequeue dq now).2

end MiniBackend.JobSystem.Delayed
