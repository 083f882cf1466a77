import MiniBackend.Infra.Proofs.BrokerGrowth
import MiniBackend.Lib.Runs

/-!
# How many copies a queue gets

Both ways to publish go through the bindings and copy the message once for each binding that
they follow.  They agree on which bindings these are, except for those of a topic exchange:
`mq_basic_publish` follows all of them.
-/

namespace MiniBackend.Infra.Proofs.BrokerRouting

open MiniBackend.Lib.CArray MiniBackend.Lib.CString MiniBackend.Lib.Runs
open MiniBackend.Infra.MessageQueue MiniBackend.Infra.Proofs.BrokerGrowth

/-! ## Routing -/

def leading (broker : MqBroker) (exchange : CStr) (q : MqQueue) : List MqBinding :=
  broker.bindings.filter fun bd => bd.exchange.val = exchange ∧ bd.queue.val = q.name.val

def routed (broker : MqBroker) (exchange : CStr) (ex : MqExchange) (key : CStr)
    (msg : MqMessage) : MqBroker :=
  { broker with
    queues := broker.queues.map fun q =>
      if (leading broker exchange q).any (routeMatch ex key) then q.push msg else q }

/-- Both ways to publish route the message. -/
structure Routes (broker : MqBroker) (exchange : CStr) (ex : MqExchange) (key : CStr)
    (msg : MqMessage) : Prop where
  publish : ∀ depth, (mqBasicPublish (depth + 1) broker exchange (some key) msg).map (·.2) =
    some (routed broker exchange ex key msg)
  publishTopic : (mqBasicPublishTopic broker exchange key msg).2 =
    routed broker exchange ex key msg

/-- At most one binding to a queue matches, and for a topic exchange there is no other one. -/
def OneMatch (broker : MqBroker) (exchange : CStr) (ex : MqExchange) (key : CStr)
    (q : MqQueue) : Prop :=
  (leading broker exchange q).countP (routeMatch ex key) ≤ 1 ∧
    (ex.type = .topic →
      ∀ bd ∈ leading broker exchange q, mqTopicMatch bd.routingKey key = true)

instance decidableOneMatch (broker : MqBroker) (exchange : CStr) (ex : MqExchange) (key : CStr)
    (q : MqQueue) : Decidable (OneMatch broker exchange ex key q) :=
  inferInstanceAs (Decidable ((leading broker exchange q).countP (routeMatch ex key) ≤ 1 ∧
    (ex.type = .topic →
      ∀ bd ∈ leading broker exchange q, mqTopicMatch bd.routingKey key = true)))

/-! ## Copies -/

def copied (broker : MqBroker) (msg : MqMessage) (n : MqQueue → Nat) : MqBroker :=
  { broker with queues := broker.queues.map fun q => copies msg (n q) q }

theorem copied_eq_iff {broker : MqBroker} {msg : MqMessage} {n m : MqQueue → Nat} :
    copied broker msg n = copied broker msg m ↔ ∀ q ∈ broker.queues, n q = m q := by
  rw [copied, copied, MqBroker.mk.injEq, List.map_inj_left]
  constructor
  · exact fun h q hq => copies_inj (h.2.1 q hq)
  · intro h
    refine ⟨rfl, ?_, rfl⟩
    intro q hq
    rw [h q hq]

theorem routed_eq (broker : MqBroker) (exchange : CStr) (ex : MqExchange) (key : CStr)
    (msg : MqMessage) : routed broker exchange ex key msg =
      copied broker msg fun q =>
        if (leading broker exchange q).any (routeMatch ex key) then 1 else 0 := by
  rw [routed, copied, MqBroker.mk.injEq, List.map_inj_left]
  refine ⟨rfl, ?_, rfl⟩
  intro q _
  split
  · rfl
  · rw [copies_zero]

/-! ## The loops -/

def copyTo (queue : CStr) (msg : MqMessage) (q : MqQueue) : MqQueue :=
  copies msg (if q.name.val = queue then 1 else 0) q

theorem offerAlways_broker (queue : CStr) (msg : MqMessage) (s : Delivery) (j : Nat) :
    (offerAlways queue msg s j).broker = modifyQueue s.broker j (copyTo queue msg) := by
  unfold offerAlways
  cases hq : s.broker.queues[j]? with
  | none =>
      dsimp only
      rw [modifyQueue, List.modify_eq_self (List.getElem?_eq_none_iff.mp hq)]
  | some q =>
      dsimp only
      by_cases hname : q.name.val = queue
      · rw [if_pos hname]
        dsimp only
        rw [modifyQueue, modifyQueue, modify_congr]
        intro q' hq'
        rw [hq, Option.mem_def, Option.some.injEq] at hq'
        rw [← hq', copyTo, if_pos hname]
        rfl
      · have hsame : s.broker.queues.modify j (copyTo queue msg) = s.broker.queues := by
          rw [modify_congr (g := id), List.modify_id]
          intro q' hq'
          rw [hq, Option.mem_def, Option.some.injEq] at hq'
          rw [← hq', copyTo, if_neg hname, copies_zero]
          rfl
        rw [if_neg hname, modifyQueue, hsame]

theorem offerAlways_loop (queue : CStr) (msg : MqMessage) (js : List Nat) (s : Delivery) :
    (js.foldl (offerAlways queue msg) s).broker =
      { s.broker with
        queues := js.foldl (fun l j => l.modify j (copyTo queue msg)) s.broker.queues } := by
  induction js generalizing s with
  | nil => rfl
  | cons j js ih =>
      rw [List.foldl_cons, ih, offerAlways_broker]
      rfl

def offerBindings (p : MqBinding → Prop) [DecidablePred p] (n : Nat) (msg : MqMessage)
    (bindings : List MqBinding) (s : Delivery) : Delivery :=
  bindings.foldl
    (fun s bd => if p bd then (List.range n).foldl (offerAlways bd.queue msg) s else s) s

theorem copied_copyTo (broker : MqBroker) (queue : CStr) (msg : MqMessage)
    (n : MqQueue → Nat) (hn : ∀ q m, n (copies msg m q) = n q) :
    copied { broker with queues := broker.queues.map (copyTo queue msg) } msg n =
      copied broker msg fun q => (if q.name.val = queue then 1 else 0) + n q := by
  rw [copied, copied, MqBroker.mk.injEq, List.map_map, List.map_inj_left]
  refine ⟨rfl, ?_, rfl⟩
  intro q _
  rw [Function.comp_apply, copyTo, copies_add, hn]

theorem offerBindings_broker (p : MqBinding → Prop) [DecidablePred p] (msg : MqMessage)
    (bindings : List MqBinding) (s : Delivery) :
    (offerBindings p s.broker.queues.length msg bindings s).broker =
      copied s.broker msg fun q =>
        bindings.countP fun bd => p bd ∧ bd.queue.val = q.name.val := by
  induction bindings generalizing s with
  | nil =>
      have hsame : s.broker.queues.map (fun q => copies msg 0 q) = s.broker.queues.map id :=
        List.map_congr_left fun q _ => copies_zero msg q
      rw [offerBindings, List.foldl_nil]
      simp only [copied, List.countP_nil]
      rw [hsame, List.map_id]
  | cons bd bindings ih =>
      rw [offerBindings, List.foldl_cons]
      by_cases hp : p bd
      · have hloop := offerAlways_loop bd.queue msg (List.range s.broker.queues.length) s
        rw [foldl_modify_range] at hloop
        have hlength : s.broker.queues.length = ((List.range s.broker.queues.length).foldl
            (offerAlways bd.queue msg) s).broker.queues.length := by
          rw [hloop, List.length_map]
        have hrest := ih ((List.range s.broker.queues.length).foldl (offerAlways bd.queue msg) s)
        rw [← hlength, hloop, copied_copyTo _ _ _ _ fun _ _ => rfl] at hrest
        rw [if_pos hp, ← offerBindings, hrest, copied_eq_iff]
        intro q _
        rw [List.countP_cons, Nat.add_comm]
        by_cases hqueue : q.name.val = bd.queue.val
        · rw [if_pos hqueue, if_pos (decide_eq_true ⟨hp, hqueue.symm⟩)]
        · rw [if_neg hqueue, if_neg]
          exact fun hboth => hqueue (of_decide_eq_true hboth).2.symm
      · rw [if_neg hp, ← offerBindings, ih, copied_eq_iff]
        intro q _
        rw [List.countP_cons_of_neg]
        exact fun hboth => hp (of_decide_eq_true hboth).1

/-! ## What the two functions do -/

theorem mqBasicPublishTopic_eq {broker : MqBroker} {exchange : CStr} {ex : MqExchange}
    (hex : findExchange broker exchange = some ex) (key : CStr) (msg : MqMessage) :
    (mqBasicPublishTopic broker exchange key msg).2 =
      copied broker msg fun q => (leading broker exchange q).countP (routeMatch ex key) := by
  have hloop := offerBindings_broker
    (fun bd => bd.exchange.val = exchange ∧ routeMatch ex key bd = true) msg broker.bindings
    ⟨broker, 0⟩
  rw [mqBasicPublishTopic, hex]
  refine hloop.trans ?_
  rw [copied_eq_iff]
  intro q _
  rw [leading, List.countP_filter]
  apply List.countP_congr
  intro bd _
  simp only [Bool.and_eq_true, decide_eq_true_eq]
  exact ⟨fun h => ⟨h.1.2, h.1.1, h.2⟩, fun h => ⟨⟨h.2.1, h.1⟩, h.2.2⟩⟩

/-- No queue has a limit. -/
def Unlimited (broker : MqBroker) : Prop := ∀ q ∈ broker.queues, q.maxLength ≤ 0

theorem Unlimited.offerAlways {s : Delivery} (hunlimited : Unlimited s.broker) (queue : CStr)
    (msg : MqMessage) (j : Nat) : Unlimited (offerAlways queue msg s j).broker := by
  rw [offerAlways_broker]
  intro q hq
  obtain ⟨i, hi, hget⟩ := List.getElem_of_mem hq
  simp only [modifyQueue] at hi hget
  rw [List.getElem_modify] at hget
  have hold := hunlimited _ (List.getElem_mem (l := s.broker.queues) (by simpa using hi))
  split at hget
  · rw [← hget]
    exact hold
  · rw [← hget]
    exact hold

/-- Without limits nothing becomes a dead letter. -/
theorem offer_eq_offerAlways {s : Delivery} (hunlimited : Unlimited s.broker)
    (deadLetter : MqBroker → CStr → CStr → MqMessage → Option MqBroker) (queue : CStr)
    (msg : MqMessage) (j : Nat) :
    offer deadLetter queue msg s j = some (offerAlways queue msg s j) := by
  unfold offer MessageQueue.offerAlways
  cases hq : s.broker.queues[j]? with
  | none => rfl
  | some q =>
      have hroom : isFull q = false := by
        have hlimit := hunlimited q (List.mem_of_getElem? hq)
        rw [isFull, decide_eq_false_iff_not]
        exact fun hfull => absurd hfull.1 (not_lt_of_ge hlimit)
      dsimp only
      rw [hroom, if_neg Bool.false_ne_true]
      split <;> rfl

theorem mqBasicPublish_eq {broker : MqBroker} (hunlimited : Unlimited broker) (depth : Nat)
    (exchange key : CStr) (msg : MqMessage) :
    (mqBasicPublish (depth + 1) broker exchange (some key) msg).map (·.2) =
      some (copied broker msg fun q => (leading broker exchange q).countP
        (follows broker exchange (some key))) := by
  have hloop := offerBindings_broker (fun bd => follows broker exchange (some key) bd = true) msg
    broker.bindings ⟨broker, 0⟩
  have hkept : ∀ (queue : CStr) (js : List Nat) (s : Delivery), Unlimited s.broker →
      Unlimited (js.foldl (MessageQueue.offerAlways queue msg) s).broker := by
    intro queue js
    induction js with
    | nil => exact fun _ h => h
    | cons j js ih => exact fun s h => ih _ (h.offerAlways queue msg j)
  rw [mqBasicPublish, foldlM_eq_some_foldl (I := fun s : Delivery => Unlimited s.broker)
    (h := fun s bd => if follows broker exchange (some key) bd then
      (List.range broker.queues.length).foldl (MessageQueue.offerAlways bd.queue msg) s else s)
    _ _ _ hunlimited]
  · rw [Option.map_some, Option.map_some, Option.some.injEq]
    refine hloop.trans ?_
    rw [copied_eq_iff]
    intro q _
    rw [leading, List.countP_filter]
    apply List.countP_congr
    intro bd _
    simp only [Bool.and_eq_true, decide_eq_true_eq]
    constructor
    · intro h
      exact ⟨h.1, (of_decide_eq_true h.1).1, h.2⟩
    · exact fun h => ⟨h.1, h.2.2⟩
  · intro s bd hs
    split
    · exact foldlM_eq_some_foldl (I := fun s : Delivery => Unlimited s.broker)
        (fun s j hs => offer_eq_offerAlways hs _ _ msg j)
        (fun s j hs => hs.offerAlways _ msg j) _ hs
    · rfl
  · intro s bd hs
    split
    · exact hkept _ _ _ hs
    · exact hs

/-! ## When they route -/

theorem followed_eq_matched {broker : MqBroker} {exchange : CStr} {ex : MqExchange}
    (hex : findExchange broker exchange = some ex) (htype : ex.type ≠ .topic) (key : CStr)
    (q : MqQueue) :
    (leading broker exchange q).countP (follows broker exchange (some key)) =
      (leading broker exchange q).countP (routeMatch ex key) := by
  apply List.countP_congr
  intro bd hbd
  have hexchange : bd.exchange.val = exchange :=
    (of_decide_eq_true (List.mem_filter.mp hbd).2).1
  rw [follows, hex, routeMatch]
  cases hkind : ex.type with
  | direct => simp [hexchange, hkind]
  | topic => exact absurd hkind htype
  | fanout => simp [hexchange, hkind]

theorem followed_topic {broker : MqBroker} {exchange : CStr} {ex : MqExchange}
    (hex : findExchange broker exchange = some ex) (htype : ex.type = .topic) (key : CStr)
    (q : MqQueue) :
    (leading broker exchange q).countP (follows broker exchange (some key)) =
      (leading broker exchange q).length := by
  rw [List.countP_eq_length]
  intro bd hbd
  have hexchange : bd.exchange.val = exchange :=
    (of_decide_eq_true (List.mem_filter.mp hbd).2).1
  rw [follows, hex]
  simp [hexchange, htype]

theorem ite_any_eq_countP {α : Type*} {p : α → Bool} {l : List α} :
    l.countP p = (if l.any p then 1 else 0) ↔ l.countP p ≤ 1 := by
  have hpos : l.any p = true ↔ 0 < l.countP p := by
    rw [List.any_eq_true, List.countP_pos_iff]
  by_cases hany : l.any p = true
  · rw [if_pos hany]
    have := hpos.mp hany
    omega
  · rw [if_neg hany]
    have := mt hpos.mpr hany
    omega

theorem oneMatch_iff {broker : MqBroker} {exchange : CStr} {ex : MqExchange}
    (hex : findExchange broker exchange = some ex) (key : CStr) (q : MqQueue) :
    ((leading broker exchange q).countP (follows broker exchange (some key)) =
        (if (leading broker exchange q).any (routeMatch ex key) then 1 else 0) ∧
      (leading broker exchange q).countP (routeMatch ex key) =
        (if (leading broker exchange q).any (routeMatch ex key) then 1 else 0)) ↔
      OneMatch broker exchange ex key q := by
  rw [OneMatch, ← ite_any_eq_countP]
  by_cases htype : ex.type = .topic
  · have htopic : ∀ bd, routeMatch ex key bd = mqTopicMatch bd.routingKey key := by
      intro bd
      rw [routeMatch, htype]
    have hall : (leading broker exchange q).countP (routeMatch ex key) =
        (leading broker exchange q).length ↔
        ∀ bd ∈ leading broker exchange q, mqTopicMatch bd.routingKey key = true := by
      rw [List.countP_eq_length]
      simp only [htopic]
    rw [followed_topic hex htype, ← hall]
    constructor
    · exact fun h => ⟨h.2, fun _ => h.2.trans h.1.symm⟩
    · exact fun h => ⟨(h.2 htype).symm.trans h.1, h.1⟩
  · rw [followed_eq_matched hex htype]
    exact ⟨fun h => ⟨h.2, fun htopic => absurd htopic htype⟩, fun h => ⟨h.1, h.1⟩⟩

theorem routes_iff {broker : MqBroker} (hunlimited : Unlimited broker) {exchange : CStr}
    {ex : MqExchange} (hex : findExchange broker exchange = some ex) (key : CStr)
    (msg : MqMessage) :
    Routes broker exchange ex key msg ↔ ∀ q ∈ broker.queues, OneMatch broker exchange ex key q := by
  have hpublish : ∀ depth, (mqBasicPublish (depth + 1) broker exchange (some key) msg).map (·.2) =
      some (routed broker exchange ex key msg) ↔
      ∀ q ∈ broker.queues,
        (leading broker exchange q).countP (follows broker exchange (some key)) =
          (if (leading broker exchange q).any (routeMatch ex key) then 1 else 0) := by
    intro depth
    rw [mqBasicPublish_eq hunlimited, routed_eq, Option.some.injEq, copied_eq_iff]
  have htopic : (mqBasicPublishTopic broker exchange key msg).2 =
      routed broker exchange ex key msg ↔
      ∀ q ∈ broker.queues, (leading broker exchange q).countP (routeMatch ex key) =
        (if (leading broker exchange q).any (routeMatch ex key) then 1 else 0) := by
    rw [mqBasicPublishTopic_eq hex, routed_eq, copied_eq_iff]
  constructor
  · intro hroutes q hq
    exact (oneMatch_iff hex key q).mp
      ⟨(hpublish 0).mp (hroutes.publish 0) q hq, htopic.mp hroutes.publishTopic q hq⟩
  · intro hone
    constructor
    · intro depth
      exact (hpublish depth).mpr fun q hq => ((oneMatch_iff hex key q).mpr (hone q hq)).1
    · exact htopic.mpr fun q hq => ((oneMatch_iff hex key q).mpr (hone q hq)).2

def events : Field mqMaxKeyLen := ⟨lit "events", by decide⟩
def orders : Field mqMaxKeyLen := ⟨lit "orders", by decide⟩
def orderPattern : Field mqMaxRoutingKeyLen := ⟨lit "order.*", by decide⟩

/-- A topic exchange with a queue for what happens to orders. -/
def orderBroker : MqBroker :=
  run configure mqBrokerCreate
    [.exchangeDeclare ⟨events, .topic⟩,
      .queueDeclare ⟨orders, 0, noName, noKey⟩,
      .queueBind orders events (some orderPattern)]

def sampleMessage : MqMessage where
  exchangeName := events
  routingKey := noKey
  body := lit "m"
  messageId := ⟨lit "order-1", by decide⟩
  timestampMs := 0
  ttlSeconds := 0
  retryCount := 0
  maxRetries := 10
  backoffMs := 100

theorem routes_order_paid :
    Routes orderBroker (lit "events") ⟨events, .topic⟩ (lit "order.paid") sampleMessage :=
  (routes_iff (by unfold Unlimited; decide) (by decide) _ _).mpr
    (by decide +kernel)

/-- The key of the message does not match, and `mq_basic_publish` delivers it. -/
theorem delivers_user_created :
    ¬Routes orderBroker (lit "events") ⟨events, .topic⟩ (lit "user.created") sampleMessage := by
  intro hroutes
  exact absurd (hroutes.publish 0) (by decide +kernel)

end MiniBackend.Infra.Proofs.BrokerRouting
