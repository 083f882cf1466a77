import MiniBackend.Infra.MessageQueue

/-!
# Publishing appends

Whatever becomes of a message, a publish leaves the configuration of the broker as it is and
puts copies of the message behind the messages of a queue, and none behind those of a full one.
-/

namespace MiniBackend.Infra.Proofs.BrokerGrowth

open MiniBackend.Lib.CArray MiniBackend.Lib.CString
open MiniBackend.Infra.MessageQueue

def copies (msg : MqMessage) (n : Nat) (q : MqQueue) : MqQueue :=
  { q with messages := q.messages ++ List.replicate n (some msg) }

theorem copies_zero (msg : MqMessage) (q : MqQueue) : copies msg 0 q = q := by
  rw [copies, List.replicate_zero, List.append_nil]

theorem copies_add (msg : MqMessage) (n m : Nat) (q : MqQueue) :
    copies msg m (copies msg n q) = copies msg (n + m) q := by
  rw [copies, copies, copies, List.append_assoc, List.replicate_append_replicate]

theorem copies_inj {msg : MqMessage} {n m : Nat} {q : MqQueue}
    (h : copies msg n q = copies msg m q) : n = m := by
  have hmessages := congrArg MqQueue.messages h
  have hlength := congrArg List.length hmessages
  simp only [copies, List.length_append, List.length_replicate] at hlength
  omega

/-- `q'` is `q` with more copies of the message, with none if it is full. -/
def Grown (msg : MqMessage) (q q' : MqQueue) : Prop :=
  ∃ n, q' = copies msg n q ∧ (isFull q = true → n = 0)

theorem Grown.refl (msg : MqMessage) (q : MqQueue) : Grown msg q q :=
  ⟨0, (copies_zero msg q).symm, fun _ => rfl⟩

theorem Grown.trans {msg : MqMessage} {q q' q'' : MqQueue} (h : Grown msg q q')
    (h' : Grown msg q' q'') : Grown msg q q'' := by
  obtain ⟨n, hq', hfull⟩ := h
  obtain ⟨m, hq'', hfull'⟩ := h'
  refine ⟨n + m, ?_, ?_⟩
  · rw [hq'', hq', copies_add]
  · intro hq
    have hn : n = 0 := hfull hq
    rw [hq', hn, copies_zero] at hfull'
    have hm : m = 0 := hfull' hq
    omega

theorem grown_push {q : MqQueue} (hroom : isFull q = false) (msg : MqMessage) :
    Grown msg q (q.push msg) := by
  refine ⟨1, rfl, ?_⟩
  intro hfull
  rw [hroom] at hfull
  contradiction

structure Extends (msg : MqMessage) (broker broker' : MqBroker) : Prop where
  exchanges_eq : broker'.exchanges = broker.exchanges
  bindings_eq : broker'.bindings = broker.bindings
  length_eq : broker'.queues.length = broker.queues.length
  queue : ∀ i : Nat, ∀ q ∈ broker.queues[i]?, ∃ q' ∈ broker'.queues[i]?, Grown msg q q'

theorem Extends.refl (msg : MqMessage) (broker : MqBroker) : Extends msg broker broker :=
  ⟨rfl, rfl, rfl, fun _ q hq => ⟨q, hq, Grown.refl msg q⟩⟩

theorem Extends.trans {msg : MqMessage} {b b' b'' : MqBroker} (h : Extends msg b b')
    (h' : Extends msg b' b'') : Extends msg b b'' where
  exchanges_eq := h'.exchanges_eq.trans h.exchanges_eq
  bindings_eq := h'.bindings_eq.trans h.bindings_eq
  length_eq := h'.length_eq.trans h.length_eq
  queue i q hq := by
    obtain ⟨q', hq', hgrown⟩ := h.queue i q hq
    obtain ⟨q'', hq'', hgrown'⟩ := h'.queue i q' hq'
    exact ⟨q'', hq'', hgrown.trans hgrown'⟩

theorem extends_push {broker : MqBroker} {j : Nat}
    (hroom : ∀ q ∈ broker.queues[j]?, isFull q = false) (msg : MqMessage) :
    Extends msg broker (modifyQueue broker j (·.push msg)) where
  exchanges_eq := rfl
  bindings_eq := rfl
  length_eq := List.length_modify ..
  queue i q hq := by
    have hget : (modifyQueue broker j (·.push msg)).queues[i]? =
        some (if j = i then q.push msg else q) := by
      rw [modifyQueue, List.getElem?_modify, hq]
      rfl
    refine ⟨_, hget, ?_⟩
    by_cases hj : j = i
    · rw [if_pos hj]
      rw [← hj] at hq
      exact grown_push (hroom q hq) msg
    · rw [if_neg hj]
      exact Grown.refl msg q

/-- A round of the inner loop, when the dead letters only append. -/
theorem offer_extends {deadLetter : MqBroker → CStr → CStr → MqMessage → Option MqBroker}
    {msg : MqMessage}
    (hdead : ∀ b dlx dlxRk b', deadLetter b dlx dlxRk msg = some b' → Extends msg b b')
    {queue : CStr} {s s' : Delivery} {j : Nat}
    (hoffer : offer deadLetter queue msg s j = some s') : Extends msg s.broker s'.broker := by
  unfold offer at hoffer
  split at hoffer
  next => exact Option.some.inj hoffer ▸ Extends.refl ..
  next q hq =>
    split at hoffer
    next =>
      split at hoffer
      next =>
        split at hoffer
        · obtain ⟨b, hb, heq⟩ := Option.map_eq_some_iff.mp hoffer
          exact heq ▸ hdead _ _ _ _ hb
        · exact Option.some.inj hoffer ▸ Extends.refl ..
      next hfull =>
        have hroom : ∀ q ∈ s.broker.queues[j]?, isFull q = false := by
          intro q' hq'
          rw [hq, Option.mem_def, Option.some.injEq] at hq'
          rw [← hq']
          exact Bool.eq_false_of_not_eq_true hfull
        exact Option.some.inj hoffer ▸ extends_push hroom msg
    next => exact Option.some.inj hoffer ▸ Extends.refl ..

theorem publish_extends {depth : Nat} {broker : MqBroker} {exchange : CStr}
    {routingKey : Option CStr} {msg : MqMessage} {result : Int × MqBroker}
    (hpublish : mqBasicPublish depth broker exchange routingKey msg = some result) :
    Extends msg broker result.2 := by
  induction depth generalizing broker exchange routingKey result with
  | zero => contradiction
  | succ depth ih =>
      rw [mqBasicPublish] at hpublish
      obtain ⟨s, hloop, heq⟩ := Option.map_eq_some_iff.mp hpublish
      rw [← heq]
      apply foldlM_invariant (P := fun s : Delivery => Extends msg broker s.broker) _
        (Extends.refl msg broker) hloop
      intro s bd _ s' hs hround
      split at hround
      · apply foldlM_invariant (P := fun s : Delivery => Extends msg broker s.broker) _ hs hround
        intro t j _ t' ht hoffer
        apply ht.trans
        apply offer_extends _ hoffer
        intro b dlx dlxRk b' hdead
        obtain ⟨result', hpublish', heq'⟩ := Option.map_eq_some_iff.mp hdead
        exact heq' ▸ ih hpublish'
      · exact Option.some.inj hround ▸ hs

end MiniBackend.Infra.Proofs.BrokerGrowth
