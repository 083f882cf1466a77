import MiniBackend.Infra.Proofs.DedupWindow
import MiniBackend.Lib.Overflow
import Mathlib.Algebra.Order.BigOperators.Group.Finset

/-!
# Dead letters that circulate

A full queue publishes the message to its dead-letter exchange, whose bindings may lead back to
it.  If two of them do, each letter makes two letters and `mq_basic_publish` never returns.  It
returns if and only if there are numbers of copies that the queues can bear.
-/

namespace MiniBackend.Infra.Proofs.DeadLetters

open MiniBackend.Lib.CArray MiniBackend.Lib.CString MiniBackend.Lib.Overflow MiniBackend.Lib.Runs
open MiniBackend.Infra.MessageQueue MiniBackend.Infra.Proofs.BrokerGrowth
open MiniBackend.Infra.Proofs.DedupWindow

variable {base broker : MqBroker} {msg : MqMessage}

def targets (broker : MqBroker) (exchange : CStr) (routingKey : Option CStr) :
    List (Fin broker.queues.length) :=
  (broker.bindings.filter (follows broker exchange routingKey)).flatMap fun bd =>
    (List.finRange broker.queues.length).filter fun j =>
      (broker.queues.get j).name.val = bd.queue.val

def deadLetters (broker : MqBroker) (p : Fin broker.queues.length) :
    List (Fin broker.queues.length) :=
  if 0 < (broker.queues.get p).dlx.val.length then
    targets broker (broker.queues.get p).dlx (some (broker.queues.get p).dlxRk)
  else []

def overflow (q : MqQueue) (n : Nat) : Nat :=
  if 0 < q.maxLength then n - (q.maxLength.toNat - q.messages.length) else 0

/-- There are numbers of copies for the queues that cover what is published to each queue and
what overflows into it. -/
def Absorbs (broker : MqBroker) (exchange : CStr) (routingKey : Option CStr) : Prop :=
  ∃ load : Fin broker.queues.length → Nat, ∀ j,
    (targets broker exchange routingKey).count j +
      ∑ p, overflow (broker.queues.get p) (load p) * (deadLetters broker p).count j ≤ load j

/-! ## The queues as boxes -/

def network (broker : MqBroker) : Network (Fin broker.queues.length) where
  limit p :=
    if 0 < (broker.queues.get p).maxLength then some (broker.queues.get p).maxLength.toNat
    else none
  forward p :=
    if 0 < (broker.queues.get p).dlx.val.length then
      some (targets broker (broker.queues.get p).dlx (some (broker.queues.get p).dlxRk))
    else none

def counts (base broker : MqBroker) (j : Fin base.queues.length) : Nat :=
  (broker.queues[j.val]?.map (·.messages.length)).getD 0

theorem counts_of_getElem? {j : Fin base.queues.length} {q : MqQueue}
    (hq : broker.queues[j.val]? = some q) : counts base broker j = q.messages.length := by
  rw [counts, hq]
  rfl

theorem passed_network (broker : MqBroker) (p : Fin broker.queues.length) :
    passed (network broker) p = deadLetters broker p := by
  unfold passed network deadLetters
  dsimp only
  split <;> rfl

theorem excess_network (broker : MqBroker) (p : Fin broker.queues.length) (n : Nat) :
    excess (network broker) (counts broker broker) p n = overflow (broker.queues.get p) n := by
  have hlength : counts broker broker p = (broker.queues.get p).messages.length :=
    counts_of_getElem? (List.getElem?_eq_getElem p.isLt)
  unfold excess network overflow
  dsimp only
  by_cases h : 0 < (broker.queues.get p).maxLength
  · rw [if_pos h, if_pos h, hlength]
  · rw [if_neg h, if_neg h]

theorem absorbs_iff (broker : MqBroker) (exchange : CStr) (routingKey : Option CStr) :
    Absorbs broker exchange routingKey ↔
      ∃ load, Bears (network broker) (counts broker broker)
        (targets broker exchange routingKey) load := by
  apply exists_congr
  intro load
  apply forall_congr'
  intro j
  unfold inflow
  simp only [excess_network, passed_network]

/-! ## Publishing is sending -/

theorem follows_of_extends (h : Extends msg base broker) (exchange : CStr)
    (routingKey : Option CStr) :
    follows broker exchange routingKey = follows base exchange routingKey := by
  ext bd
  unfold follows findExchange
  rw [h.exchanges_eq]

theorem room_iff {j : Fin base.queues.length} {q : MqQueue}
    (hq : broker.queues[j.val]? = some q) (hmax : q.maxLength = (base.queues.get j).maxLength) :
    Room (network base) (counts base broker) j ↔ isFull q = false := by
  unfold Room network isFull
  dsimp only
  rw [counts_of_getElem? hq, ← hmax, decide_eq_false_iff_not]
  by_cases hlimit : 0 < q.maxLength
  · rw [if_pos hlimit]
    constructor
    · intro hroom
      have hlt := hroom _ rfl
      omega
    · intro hempty m hm
      rw [← Option.some.inj hm]
      omega
  · rw [if_neg hlimit]
    constructor
    · exact fun _ hfull => hlimit hfull.1
    · exact fun _ _ hm => nomatch hm

theorem counts_push {j : Fin base.queues.length} {q : MqQueue}
    (hq : broker.queues[j.val]? = some q) :
    counts base (modifyQueue broker j (·.push msg)) = bump (counts base broker) j := by
  ext i
  rw [bump_apply]
  unfold counts modifyQueue
  dsimp only
  rw [List.getElem?_modify]
  by_cases h : j = i
  · rw [← h, hq, if_pos rfl]
    simp [MqQueue.push]
  · rw [if_neg h]
    simp [Fin.val_inj, h]

/-- A round for a queue of the name puts a letter into it; the other rounds do nothing. -/
theorem map_offer {depth : Nat}
    (ih : ∀ b exchange routingKey, Extends msg base b →
      (mqBasicPublish depth b exchange routingKey msg).map (fun result => counts base result.2) =
        send (network base) depth (counts base b) (targets base exchange routingKey))
    {s : Delivery} (h : Extends msg base s.broker) (queue : CStr) (j : Fin base.queues.length) :
    (offer (deadLetter depth) queue msg s j).map (fun t => counts base t.broker) =
      if (base.queues.get j).name.val = queue then
        put (network base) (send (network base) depth) (counts base s.broker) j
      else some (counts base s.broker) := by
  obtain ⟨q, hq, n, hgrown, -⟩ := h.queue j _ (List.getElem?_eq_getElem j.isLt)
  have hroom := room_iff hq (by rw [hgrown]; rfl)
  have hname : q.name = (base.queues.get j).name := by
    rw [hgrown]
    rfl
  have hforward : (network base).forward j =
      if 0 < q.dlx.val.length then some (targets base q.dlx (some q.dlxRk)) else none := by
    rw [hgrown]
    rfl
  unfold offer
  rw [Option.mem_def.mp hq]
  dsimp only
  rw [hname]
  by_cases hsame : (base.queues.get j).name.val = queue
  · rw [if_pos hsame, if_pos hsame, put]
    by_cases hfull : isFull q = true
    · have hnoroom : ¬Room (network base) (counts base s.broker) j := by
        rw [hroom, hfull]
        decide
      rw [if_pos hfull, if_neg hnoroom, hforward]
      by_cases hdlx : 0 < q.dlx.val.length
      · have hpass := ih s.broker q.dlx (some q.dlxRk) h
        rw [if_pos hdlx, if_pos hdlx, deadLetter, Option.map_map, Option.map_map]
        exact hpass
      · rw [if_neg hdlx, if_neg hdlx]
        rfl
    · have hempty := Bool.eq_false_of_not_eq_true hfull
      rw [if_neg hfull, if_pos (hroom.mpr hempty), ← counts_push hq]
      rfl
  · rw [if_neg hsame, if_neg hsame]
    rfl

theorem map_mqBasicPublish (depth : Nat) (exchange : CStr) (routingKey : Option CStr)
    (h : Extends msg base broker) :
    (mqBasicPublish depth broker exchange routingKey msg).map
        (fun result => counts base result.2) =
      send (network base) depth (counts base broker) (targets base exchange routingKey) := by
  induction depth generalizing broker exchange routingKey with
  | zero => rfl
  | succ depth ih =>
      have hbinding : ∀ (s : Delivery) (bd : MqBinding), Extends msg base s.broker →
          (((List.range base.queues.length).map fun j => (bd.queue.val, j)).foldlM
            (offerAt depth msg) s).map (fun t => counts base t.broker) =
          ((List.finRange base.queues.length).filter fun j =>
            (base.queues.get j).name.val = bd.queue.val).foldlM
            (put (network base) (send (network base) depth)) (counts base s.broker) := by
        intro s bd hs
        rw [← List.map_coe_finRange_eq_range, List.map_map, List.foldlM_map, List.foldlM_filter]
        apply map_foldlM_of_invariant (P := fun t : Delivery => Extends msg base t.broker)
          (f := fun t : Delivery => counts base t.broker) _ _ _ hs
        · intro t j ht
          have hround := map_offer (fun _ exchange routingKey hb => ih exchange routingKey hb)
            ht bd.queue j
          simpa [offerAt] using hround
        · exact fun t j t' ht hround => ht.trans (offerAt_extends hround)
      rw [mqBasicPublish_places, places, targets, send, follows_of_extends h, h.bindings_eq,
        h.length_eq, foldlM_flatMap, foldlM_flatMap, Option.map_map]
      apply map_foldlM_of_invariant (P := fun t : Delivery => Extends msg base t.broker)
        (f := fun t : Delivery => counts base t.broker) hbinding _ _ h
      exact fun s bd s' hs hloop => hs.trans (loop_extends hloop)

/-! ## When a publish returns -/

theorem exists_publish_iff (broker : MqBroker) (exchange : CStr) (routingKey : Option CStr)
    (msg : MqMessage) :
    (∃ depth, (mqBasicPublish depth broker exchange routingKey msg).isSome) ↔
      ∃ depth, (send (network broker) depth (counts broker broker)
        (targets broker exchange routingKey)).isSome := by
  apply exists_congr
  intro depth
  rw [← map_mqBasicPublish depth exchange routingKey (Extends.refl msg broker), Option.isSome_map]

theorem publish_returns_iff (broker : MqBroker) (exchange : CStr) (routingKey : Option CStr)
    (msg : MqMessage) :
    (∃ depth, (mqBasicPublish depth broker exchange routingKey msg).isSome) ↔
      Absorbs broker exchange routingKey := by
  rw [exists_publish_iff, exists_send_iff, absorbs_iff]

/-- A queue for one message that is its own dead-letter queue, and that is bound twice. -/
def circulating : List Configure :=
  [.exchangeDeclare ⟨jobs, .direct⟩, .queueDeclare ⟨jobs, 1, jobs, newJob⟩,
    .queueBind jobs jobs (some newJob), .queueBind jobs jobs (some newJob)]

def onlyQueue : Fin (run configure mqBrokerCreate circulating).queues.length := ⟨0, by decide⟩

/-- The queue would have to bear two letters and two more for each but the first. -/
theorem not_absorbs_circulating :
    ¬Absorbs (run configure mqBrokerCreate circulating) (lit "jobs") (some (lit "new")) := by
  intro ⟨load, hload⟩
  have hsent : (targets (run configure mqBrokerCreate circulating) (lit "jobs")
      (some (lit "new"))).count onlyQueue = 2 := by decide
  have hpassed : (deadLetters (run configure mqBrokerCreate circulating) onlyQueue).count
      onlyQueue = 2 := by decide
  have hover : overflow ((run configure mqBrokerCreate circulating).queues.get onlyQueue)
      (load onlyQueue) = load onlyQueue - 1 := rfl
  have hsum := Finset.single_le_sum_of_canonicallyOrdered (f := fun p =>
    overflow ((run configure mqBrokerCreate circulating).queues.get p) (load p) *
      (deadLetters (run configure mqBrokerCreate circulating) p).count onlyQueue)
    (Finset.mem_univ onlyQueue)
  have hborne := hload onlyQueue
  rw [hover, hpassed] at hsum
  rw [hsent] at hborne
  omega

theorem circulating_never_returns :
    ¬∃ depth, (mqBasicPublish depth (run configure mqBrokerCreate circulating) (lit "jobs")
      (some (lit "new")) job).isSome := by
  rw [exists_publish_iff, exists_send_iff, ← absorbs_iff]
  exact not_absorbs_circulating

end MiniBackend.Infra.Proofs.DeadLetters
