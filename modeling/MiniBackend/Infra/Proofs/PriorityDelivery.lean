import MiniBackend.Infra.MessageQueue

/-!
# Consuming by priority

The messages of a queue go through a heap of their slots.  What is popped is every slot once, by
priority, so the callback sees each message once and in this order.
-/

namespace MiniBackend.Infra.Proofs.PriorityDelivery

open MiniBackend.Lib.BinaryHeap MiniBackend.Lib.CString MiniBackend.Infra.MessageQueue

variable {σ : Type} {cb : MqConsumeCallback σ} {messages : List (Option MqMessage)}

/-! ## The heap -/

theorem mqPqPop_succ (heap : Nat → MqPrioEntry) (size : Nat) :
    mqPqPop ⟨heap, size + 1⟩ = some (heap 0,
      ⟨siftDown MqPrioEntry.priority size (Function.update heap 0 (heap size)) 0 size, size⟩) := by
  unfold mqPqPop
  rw [if_neg (Nat.succ_ne_zero size), Nat.add_sub_cancel]
  dsimp only
  split
  · rfl
  · rename_i hlast
    have hsize : size = 0 := by omega
    subst hsize
    rw [Function.update_eq_self]
    rfl

/-- The loop calls back for the slots in the order in which the heap is drained. -/
theorem popLoop_eq (rounds : Nat) (heap : Nat → MqPrioEntry) (size : Nat) (userData : σ)
    (hrounds : size < rounds) :
    popLoop cb messages rounds ⟨heap, size⟩ userData =
      some (((drain MqPrioEntry.priority size heap).map (·.msgIndex)).foldl
        (callBack cb messages) userData) := by
  induction size generalizing rounds heap userData with
  | zero =>
      obtain ⟨rounds, rfl⟩ := Nat.exists_eq_add_of_lt hrounds
      rfl
  | succ size ih =>
      cases rounds with
      | zero => omega
      | succ rounds =>
          rw [popLoop, mqPqPop_succ]
          exact ih rounds _ _ (by omega)

structure Holds (entries : List MqPrioEntry) (pq : MqPriorityQueue) : Prop where
  order : HeapOrder MqPrioEntry.priority pq.heap pq.size
  contents : (contents pq.heap pq.size).Perm entries

theorem holds_mqPqCreate : Holds [] mqPqCreate :=
  ⟨fun _ _ hi => absurd hi (Nat.not_lt_zero _), List.Perm.refl _⟩

theorem Holds.push {entries : List MqPrioEntry} {pq : MqPriorityQueue} (h : Holds entries pq)
    (priority : Int) (msgIndex : Nat) :
    Holds (entries ++ [⟨priority, msgIndex⟩]) (mqPqPush pq priority msgIndex) where
  order := h.order.insert _
  contents := by
    have hcons := (contents_insert_perm MqPrioEntry.priority pq.heap pq.size
      ⟨priority, msgIndex⟩).trans (h.contents.cons _)
    exact hcons.trans (List.perm_append_singleton _ _).symm

theorem holds_foldl (f : Nat → Int) (n : Nat) :
    Holds ((List.range n).map fun j => ⟨f j, j⟩)
      ((List.range n).foldl (fun pq j => mqPqPush pq (f j) j) mqPqCreate) := by
  induction n with
  | zero => exact holds_mqPqCreate
  | succ n ih =>
      rw [List.range_succ, List.map_append, List.foldl_append]
      exact ih.push (f n) n

/-! ## The delivery -/

/-- Every slot once, those of lower priority values first. -/
structure DeliveryOrder (f : Nat → Int) (n : Nat) (order : List Nat) : Prop where
  complete : order.Perm (List.range n)
  sorted : order.Pairwise fun i j => f i ≤ f j

theorem deliveryOrder_drain {f : Nat → Int} {n : Nat} {pq : MqPriorityQueue}
    (h : Holds ((List.range n).map fun j => ⟨f j, j⟩) pq) :
    DeliveryOrder f n ((drain MqPrioEntry.priority pq.size pq.heap).map (·.msgIndex)) := by
  have hperm : (drain MqPrioEntry.priority pq.size pq.heap).Perm
      ((List.range n).map fun j => ⟨f j, j⟩) := (drain_perm _ _ _).trans h.contents
  constructor
  · have hindices := hperm.map (·.msgIndex)
    have hindex : (fun e : MqPrioEntry => e.msgIndex) ∘ (fun j => ⟨f j, j⟩) = id := rfl
    rw [List.map_map, hindex, List.map_id] at hindices
    exact hindices
  · rw [List.pairwise_map]
    apply h.order.drain_sorted.imp_of_mem
    intro a b ha hb hle
    obtain ⟨i, -, rfl⟩ := List.mem_map.mp (hperm.subset ha)
    obtain ⟨j, -, rfl⟩ := List.mem_map.mp (hperm.subset hb)
    exact hle

/-- The messages that the callback is called for, when the slots come in an order. -/
def callsFor (messages : List (Option MqMessage)) (order : List Nat) : List MqMessage :=
  order.filterMap fun j => messages[j]?.join

theorem foldl_callBack (cb : MqConsumeCallback σ) (messages : List (Option MqMessage))
    (order : List Nat) (userData : σ) :
    order.foldl (callBack cb messages) userData =
      (callsFor messages order).foldl (fun userData msg => (cb userData msg).2.2) userData := by
  rw [callsFor, List.foldl_filterMap]
  congr 1
  funext userData j
  unfold callBack
  rcases messages[j]? with _ | _ | msg <;> rfl

theorem callsFor_perm {messages : List (Option MqMessage)} {order : List Nat}
    (hcomplete : order.Perm (List.range messages.length)) :
    (callsFor messages order).Perm (messages.filterMap id) := by
  have hslots : (List.range messages.length).map (fun j => messages[j]?.join) = messages := by
    apply List.ext_getElem?
    intro j
    by_cases hj : j < messages.length
    · rw [List.getElem?_map, List.getElem?_range hj, Option.map_some,
        List.getElem?_eq_getElem hj]
      rfl
    · rw [List.getElem?_eq_none (by simpa using hj), List.getElem?_eq_none (by omega)]
  have hinOrder : (List.range messages.length).filterMap (fun j => messages[j]?.join) =
      messages.filterMap id := by
    conv_rhs => rw [← hslots, List.filterMap_map]
    rfl
  rw [← hinOrder]
  exact hcomplete.filterMap _

theorem modifyQueue_empty {broker : MqBroker} {i : Nat} {q : MqQueue}
    (hget : broker.queues[i]? = some q) (hempty : q.messages = []) :
    modifyQueue broker i ({ · with messages := [] }) = broker := by
  have hsame : broker.queues.modify i ({ · with messages := [] }) = broker.queues := by
    apply List.ext_getElem?
    intro j
    by_cases hij : i = j
    · subst hij
      rw [List.getElem?_modify_eq, hget, ← hempty]
      rfl
    · exact List.getElem?_modify_ne _ _ hij
  rw [modifyQueue, hsame]

/-- The callback is called for every message of the queue once, in an order that is sorted by
priority, and the queue is empty afterwards. -/
theorem consume_priority_complete (broker : MqBroker) (queue : CStr)
    (priorities : Option (Nat → Int)) (msgCount : Int) (cb : MqConsumeCallback σ) (userData : σ)
    {i : Nat} {q : MqQueue} (hfind : broker.queues.findIdx? (·.name.val = queue) = some i)
    (hget : broker.queues[i]? = some q) :
    ∃ order, DeliveryOrder (priorityOf priorities msgCount) q.messages.length order ∧
      (callsFor q.messages order).Perm (q.messages.filterMap id) ∧
      mqBasicConsumePriority broker queue priorities msgCount cb userData =
        some (0, modifyQueue broker i ({ · with messages := [] }),
          (callsFor q.messages order).foldl (fun userData msg => (cb userData msg).2.2)
            userData) := by
  have hheap := holds_foldl (priorityOf priorities msgCount) q.messages.length
  have horder := deliveryOrder_drain hheap
  refine ⟨_, horder, callsFor_perm horder.complete, ?_⟩
  rw [← foldl_callBack]
  unfold mqBasicConsumePriority
  rw [hfind]
  dsimp only
  rw [hget, Option.map_some, Option.getD_some]
  split
  · rename_i hzero
    have hempty := List.length_eq_zero_iff.mp hzero
    rw [modifyQueue_empty hget hempty, hempty]
    rfl
  · have hsize : ((List.range q.messages.length).foldl (fun pq j =>
        mqPqPush pq (priorityOf priorities msgCount j) j) mqPqCreate).size =
          q.messages.length := by
      have hlength := hheap.contents.length_eq
      rwa [contents, List.length_map, List.length_map, List.length_range,
        List.length_range] at hlength
    rw [popLoop_eq _ _ _ _ (by omega)]
    rfl

def alerts : Field mqMaxKeyLen := ⟨lit "alerts", by decide⟩

def alert (text : String) : MqMessage :=
  ⟨alerts, noKey, lit text, ⟨lit "alert-1", by decide⟩, 0, 0, 0, 10, 100⟩

def alertQueue : MqQueue :=
  ⟨alerts, 0, noName, noKey, [some (alert "a"), some (alert "b"), some (alert "c")]⟩

def alertBroker : MqBroker := ⟨[], [alertQueue], []⟩

/-- The callback notes down the bodies. -/
def noteBody (seen : List CStr) (msg : MqMessage) : Int × MqMessage × List CStr :=
  (mqAckSuccess, msg, seen ++ [msg.body])

/-- The third message has no priority. -/
def alertPriorities : Option (Nat → Int) := some fun j => if j = 0 then 5 else -1

theorem consume_priority_complete_alerts :
    ∃ order, DeliveryOrder (priorityOf alertPriorities 2) alertQueue.messages.length order ∧
      (callsFor alertQueue.messages order).Perm (alertQueue.messages.filterMap id) ∧
      mqBasicConsumePriority alertBroker (lit "alerts") alertPriorities 2 noteBody [] =
        some (0, modifyQueue alertBroker 0 ({ · with messages := [] }),
          (callsFor alertQueue.messages order).foldl
            (fun seen msg => (noteBody seen msg).2.2) []) :=
  consume_priority_complete alertBroker (lit "alerts") alertPriorities 2 noteBody []
    (by decide) rfl

example : (mqBasicConsumePriority alertBroker (lit "alerts") alertPriorities 2 noteBody []).map
    (·.2.2) = some [lit "b", lit "c", lit "a"] := by decide

end MiniBackend.Infra.Proofs.PriorityDelivery
