import MiniBackend.Infra.Proofs.BrokerGrowth

/-!
# Where the messages of a queue go

Each message that is in a queue when it is consumed expires or is answered.  What is not
acknowledged should stay, and what cannot be tried again should go to the dead-letter exchange;
but a message that is answered with NACK is freed even if it could be tried again.
-/

namespace MiniBackend.Infra.Proofs.ConsumeAccounting

open MiniBackend.Lib.CArray MiniBackend.Lib.CString
open MiniBackend.Infra.MessageQueue MiniBackend.Infra.Proofs.BrokerGrowth

variable {σ : Type}

/-! ## Outcomes -/

/-- What happens to a message, with what the callback leaves in it. -/
inductive Outcome
  | expired (msg : MqMessage)
  | answered (ack : Int) (msg : MqMessage)

def Outcome.Retry : Outcome → Prop
  | .expired _ => False
  | .answered ack msg => ack = mqAckNack ∧ msg.retryCount < msg.maxRetries

instance decidableRetry : (out : Outcome) → Decidable out.Retry
  | .expired _ => .isFalse id
  | .answered ack msg =>
      inferInstanceAs (Decidable (ack = mqAckNack ∧ msg.retryCount < msg.maxRetries))

def Outcome.stays : Outcome → Option MqMessage
  | .expired _ => none
  | .answered ack msg =>
      if ack = mqAckSuccess then none
      else if ack = mqAckNack then
        if msg.retryCount < msg.maxRetries then some (retried msg) else none
      else some msg

def Outcome.dead : Outcome → Option MqMessage
  | .expired msg => some msg
  | .answered ack msg =>
      if ack = mqAckNack then
        if msg.retryCount < msg.maxRetries then none else some msg
      else none

def outcome (cb : MqConsumeCallback σ) (nowMs : Int) (userData : σ) (msg : MqMessage) :
    Outcome × σ :=
  if isExpired msg nowMs then (.expired msg, userData)
  else (.answered (cb userData msg).1 (cb userData msg).2.1, (cb userData msg).2.2)

def outcomes (cb : MqConsumeCallback σ) (clock : Nat → Int) :
    Nat → σ → List MqMessage → List Outcome
  | _, _, [] => []
  | j, userData, msg :: msgs =>
      (outcome cb (clock j) userData msg).1 ::
        outcomes cb clock (j + 1) (outcome cb (clock j) userData msg).2 msgs

/-- A call of `mq_basic_consume`. -/
structure Call (σ : Type) where
  broker : MqBroker
  queue : CStr
  cb : MqConsumeCallback σ
  userData : σ
  clock : Nat → Int

def Call.loop (call : Call σ) (fuel i : Nat) : Option (Consumption σ) :=
  consumeLoop fuel i call.cb call.clock fuel 0 ⟨call.broker, call.userData, []⟩

def Call.result (call : Call σ) (fuel : Nat) : Option (Int × Consumption σ) :=
  mqBasicConsume fuel call.broker call.queue call.cb call.userData call.clock

def Call.outcomes (call : Call σ) (msgs : List MqMessage) : List Outcome :=
  ConsumeAccounting.outcomes call.cb call.clock 0 call.userData msgs

def letterOf (q : MqQueue) (msg : MqMessage) : CStr × CStr × MqMessage := (q.dlx, q.dlxRk, msg)

/-- Nothing that was in queue `i` is lost. -/
structure Accounted (call : Call σ) (fuel i : Nat) (q : MqQueue) (outs : List Outcome)
    (final : Consumption σ) : Prop where
  /-- When the loop ends, the slot of each message has what is to stay of it. -/
  slots : ∃ s, call.loop fuel i = some s ∧ final = { s with broker := compact s.broker i } ∧
    ∃ q' ∈ s.broker.queues[i]?, q'.messages.take outs.length = outs.map Outcome.stays
  /-- In the end these are at the front of the queue, in their order. -/
  queued : ∃ q' ∈ final.broker.queues[i]?, ∃ later,
    q'.messages = (outs.filterMap Outcome.stays).map some ++ later
  dead : 0 < q.dlx.val.length → (outs.filterMap Outcome.dead).map (letterOf q) <+: final.published

/-! ## A round -/

def Outcome.left : Outcome → Option MqMessage
  | .expired _ => none
  | .answered ack msg => if ack = mqAckSuccess then none else if ack = mqAckNack then none
      else some msg

def letters (q : MqQueue) (out : Outcome) : List (CStr × CStr × MqMessage) :=
  if 0 < q.dlx.val.length then out.dead.toList.map (letterOf q) else []

theorem left_eq_stays_iff {out : Outcome} : out.left = out.stays ↔ ¬out.Retry := by
  cases out with
  | expired msg => exact ⟨fun _ h => h, fun _ => rfl⟩
  | answered ack msg =>
      rw [Outcome.left, Outcome.stays, Outcome.Retry]
      by_cases hsuccess : ack = mqAckSuccess
      · have hnack : ack ≠ mqAckNack := by
          rw [hsuccess]
          decide
        rw [if_pos hsuccess, if_pos hsuccess]
        exact ⟨fun _ h => hnack h.1, fun _ => rfl⟩
      · rw [if_neg hsuccess, if_neg hsuccess]
        by_cases hnack : ack = mqAckNack
        · rw [if_pos hnack, if_pos hnack]
          by_cases hretry : msg.retryCount < msg.maxRetries
          · rw [if_pos hretry]
            exact ⟨fun h => absurd h (by simp), fun h => absurd ⟨hnack, hretry⟩ h⟩
          · rw [if_neg hretry]
            exact ⟨fun _ h => hretry h.2, fun _ => rfl⟩
        · rw [if_neg hnack, if_neg hnack]
          exact ⟨fun _ h => hnack h.1, fun _ => rfl⟩

def SlotAt (i j : Nat) (q : MqQueue) (slot : Option MqMessage) (broker : MqBroker) : Prop :=
  ∃ added : List MqMessage, broker.queues[i]? =
    some { q with messages := q.messages.set j slot ++ added.map some }

theorem slotAt_of_getElem? {i j : Nat} {q : MqQueue} {slot : Option MqMessage}
    {broker : MqBroker} (hq : broker.queues[i]? = some q) (hslot : q.messages[j]? = some slot) :
    SlotAt i j q slot broker := by
  obtain ⟨hj, hget⟩ := List.getElem?_eq_some_iff.mp hslot
  refine ⟨[], ?_⟩
  rw [hq, ← hget, List.set_getElem_self, List.map_nil, List.append_nil]

theorem SlotAt.set {i j : Nat} {q : MqQueue} {slot : Option MqMessage} {broker : MqBroker}
    (h : SlotAt i j q slot broker) (hj : j < q.messages.length) (slot' : Option MqMessage) :
    SlotAt i j q slot' (setSlot broker i j slot') := by
  obtain ⟨added, hq⟩ := h
  have hlength : j < (q.messages.set j slot).length := by
    rw [List.length_set]
    exact hj
  refine ⟨added, ?_⟩
  rw [setSlot, modifyQueue, List.getElem?_modify_eq, hq, Option.map_eq_map, Option.map_some,
    List.set_append_left _ _ hlength, List.set_set]

theorem SlotAt.extends {i j : Nat} {q : MqQueue} {slot : Option MqMessage} {msg : MqMessage}
    {broker broker' : MqBroker} (h : SlotAt i j q slot broker)
    (hextends : Extends msg broker broker') : SlotAt i j q slot broker' := by
  obtain ⟨added, hq⟩ := h
  obtain ⟨q', hq', n, hgrown, _⟩ := hextends.queue i _ hq
  refine ⟨added ++ List.replicate n msg, ?_⟩
  rw [Option.mem_def.mp hq', hgrown, copies, List.map_append, List.map_replicate,
    List.append_assoc]

theorem publishDeadLetter_spec {depth : Nat} {q : MqQueue} {msg : MqMessage}
    {s s' : Consumption σ} (hpublish : publishDeadLetter depth q msg s = some s') :
    Extends msg s.broker s'.broker ∧ s'.userData = s.userData ∧
      s'.published = s.published ++ if 0 < q.dlx.val.length then [letterOf q msg] else [] := by
  unfold publishDeadLetter at hpublish
  split at hpublish
  next hdlx =>
    obtain ⟨result, hresult, heq⟩ := Option.map_eq_some_iff.mp hpublish
    rw [if_pos hdlx, ← heq]
    exact ⟨publish_extends hresult, rfl, rfl⟩
  next hdlx =>
    rw [if_neg hdlx, List.append_nil, ← Option.some.inj hpublish]
    exact ⟨Extends.refl .., rfl, rfl⟩

structure Round (i j : Nat) (q : MqQueue) (out : Outcome × σ) (s s' : Consumption σ) : Prop where
  slot : SlotAt i j q out.1.left s'.broker
  userData_eq : s'.userData = out.2
  published_eq : s'.published = s.published ++ letters q out.1

/-- The message goes to the dead-letter exchange, and its slot is cleared. -/
theorem round_buried {depth i j : Nat} {q : MqQueue} {msg : MqMessage} {slot : Option MqMessage}
    {out : Outcome} {s s' : Consumption σ} (hslot : SlotAt i j q slot s.broker)
    (hj : j < q.messages.length) (hleft : out.left = none) (hdead : out.dead = some msg)
    (hround : (publishDeadLetter depth q msg s).map (freeSlot i j) = some s') :
    Round i j q (out, s.userData) s s' := by
  obtain ⟨s₁, hpublish, heq⟩ := Option.map_eq_some_iff.mp hround
  obtain ⟨hextends, huser, hpublished⟩ := publishDeadLetter_spec hpublish
  rw [← heq]
  refine ⟨?_, huser, ?_⟩
  · dsimp only
    rw [hleft]
    exact (hslot.extends hextends).set hj none
  · rw [letters, hdead]
    exact hpublished

theorem round_quiet {i j : Nat} {q : MqQueue} {out : Outcome × σ} {s s' : Consumption σ}
    (hdead : out.1.dead = none) (huser : s'.userData = out.2)
    (hpublished : s'.published = s.published) (hslot : SlotAt i j q out.1.left s'.broker) :
    Round i j q out s s' := by
  refine ⟨hslot, huser, ?_⟩
  rw [letters, hdead, hpublished]
  simp

theorem consumeRound_spec {depth i j : Nat} {cb : MqConsumeCallback σ} {nowMs : Int}
    {s s' : Consumption σ} (hround : consumeRound depth i cb j nowMs s = some s') :
    ∃ q msg, s.broker.queues[i]? = some q ∧ q.messages[j]? = some (some msg) ∧
      Round i j q (outcome cb nowMs s.userData msg) s s' := by
  unfold consumeRound at hround
  split at hround
  next => contradiction
  next q hq =>
    split at hround
    next => contradiction
    next => contradiction
    next msg hmsg =>
      refine ⟨q, msg, hq, hmsg, ?_⟩
      have hj : j < q.messages.length := (List.getElem?_eq_some_iff.mp hmsg).1
      have hslot : SlotAt i j q (some msg) s.broker := slotAt_of_getElem? hq hmsg
      unfold outcome
      split at hround
      next hexpired =>
        rw [if_pos hexpired]
        exact round_buried hslot hj rfl rfl hround
      next hexpired =>
        rw [if_neg hexpired]
        generalize cb s.userData msg = answer at hround
        obtain ⟨ack, msg', userData⟩ := answer
        dsimp only at hround
        have hslot' := hslot.set hj (some msg')
        split at hround
        next hsuccess =>
          -- acknowledged
          have hnack : ack ≠ mqAckNack := by
            rw [hsuccess]
            decide
          have hdead : (Outcome.answered ack msg').dead = none := by
            rw [Outcome.dead, if_neg hnack]
          rw [← Option.some.inj hround]
          refine round_quiet hdead rfl rfl ?_
          dsimp only
          rw [Outcome.left, if_pos hsuccess]
          exact hslot'.set hj none
        next hsuccess =>
          split at hround
          next hnack =>
            have hleft : (Outcome.answered ack msg').left = none := by
              rw [Outcome.left, if_neg hsuccess, if_pos hnack]
            split at hround
            next hretry =>
              -- the slot of the retried message is cleared too
              have hdead : (Outcome.answered ack msg').dead = none := by
                rw [Outcome.dead, if_pos hnack, if_pos hretry]
              rw [← Option.some.inj hround]
              refine round_quiet hdead rfl rfl ?_
              dsimp only
              rw [hleft]
              exact (hslot'.set hj _).set hj none
            next hretry =>
              have hdead : (Outcome.answered ack msg').dead = some msg' := by
                rw [Outcome.dead, if_pos hnack, if_neg hretry]
              have hburied := round_buried hslot' hj hleft hdead hround
              exact ⟨hburied.slot, hburied.userData_eq, hburied.published_eq⟩
          next hnack =>
            have hdead : (Outcome.answered ack msg').dead = none := by
              rw [Outcome.dead, if_neg hnack]
            rw [← Option.some.inj hround]
            refine round_quiet hdead rfl rfl ?_
            dsimp only
            rw [Outcome.left, if_neg hsuccess, if_neg hnack]
            exact hslot'

/-! ## The loop -/

theorem messageCount_eq {broker : MqBroker} {i : Nat} {q : MqQueue}
    (hq : broker.queues[i]? = some q) : messageCount broker i = q.messages.length := by
  rw [messageCount, hq]
  rfl

variable {depth i : Nat} {cb : MqConsumeCallback σ} {clock : Nat → Int}

theorem loop_keeps {rounds j : Nat} {s s' : Consumption σ} {q : MqQueue}
    {slots rest : List (Option MqMessage)}
    (hloop : consumeLoop depth i cb clock rounds j s = some s')
    (hq : s.broker.queues[i]? = some q) (hmessages : q.messages = slots ++ rest)
    (hj : slots.length ≤ j) :
    (∃ q' more, s'.broker.queues[i]? = some q' ∧ q'.messages = slots ++ more) ∧
      s.published <+: s'.published := by
  induction rounds generalizing j s q rest with
  | zero => contradiction
  | succ rounds ih =>
      rw [consumeLoop] at hloop
      split at hloop
      next =>
        obtain ⟨s₁, hround, hrest⟩ := Option.bind_eq_some_iff.mp hloop
        obtain ⟨q₀, msg, hq₀, _, hafter⟩ := consumeRound_spec hround
        rw [hq, Option.some.injEq] at hq₀
        rw [← hq₀] at hafter
        obtain ⟨added, hq₁⟩ := hafter.slot
        have hmessages₁ : q.messages.set j (outcome cb (clock j) s.userData msg).1.left ++
            added.map some = slots ++ (rest.set (j - slots.length)
              (outcome cb (clock j) s.userData msg).1.left ++ added.map some) := by
          rw [hmessages, List.set_append_right _ _ hj, List.append_assoc]
        obtain ⟨hfound, hpublished⟩ := ih hrest hq₁ hmessages₁ (Nat.le_succ_of_le hj)
        refine ⟨hfound, List.IsPrefix.trans ?_ hpublished⟩
        rw [hafter.published_eq]
        exact List.prefix_append _ _
      next =>
        rw [← Option.some.inj hloop]
        exact ⟨⟨q, rest, hq, hmessages⟩, List.prefix_rfl⟩

theorem loop_spec {rounds j : Nat} {s s' : Consumption σ} {q : MqQueue}
    {slots rest : List (Option MqMessage)} {msgs : List MqMessage}
    (hloop : consumeLoop depth i cb clock rounds j s = some s')
    (hq : s.broker.queues[i]? = some q) (hmessages : q.messages = slots ++ (msgs.map some ++ rest))
    (hj : slots.length = j) :
    (∃ q' more, s'.broker.queues[i]? = some q' ∧
      q'.messages = slots ++ ((outcomes cb clock j s.userData msgs).map Outcome.left ++ more)) ∧
      s.published ++ (outcomes cb clock j s.userData msgs).flatMap (letters q) <+:
        s'.published := by
  induction msgs generalizing rounds j s q slots rest with
  | nil =>
      rw [List.map_nil, List.nil_append] at hmessages
      rw [outcomes, List.flatMap_nil, List.append_nil]
      exact loop_keeps hloop hq hmessages hj.le
  | cons msg msgs ih =>
      cases rounds with
      | zero => contradiction
      | succ rounds =>
          have hlength : j < messageCount s.broker i := by
            rw [messageCount_eq hq, hmessages, List.length_append, List.map_cons,
              List.cons_append, List.length_cons]
            omega
          rw [consumeLoop, if_pos hlength] at hloop
          obtain ⟨s₁, hround, hrest⟩ := Option.bind_eq_some_iff.mp hloop
          obtain ⟨q₀, msg₀, hq₀, hmsg₀, hafter⟩ := consumeRound_spec hround
          rw [hq, Option.some.injEq] at hq₀
          rw [← hq₀] at hafter hmsg₀
          -- the round finds the next message
          have hmsg : msg₀ = msg := by
            rw [hmessages, ← hj, List.getElem?_append_right le_rfl, Nat.sub_self, List.map_cons,
              List.cons_append, List.getElem?_cons_zero] at hmsg₀
            exact (Option.some.inj (Option.some.inj hmsg₀)).symm
          rw [hmsg] at hafter
          obtain ⟨added, hq₁⟩ := hafter.slot
          have hmessages₁ : q.messages.set j (outcome cb (clock j) s.userData msg).1.left ++
              added.map some = (slots ++ [(outcome cb (clock j) s.userData msg).1.left]) ++
                (msgs.map some ++ (rest ++ added.map some)) := by
            rw [hmessages, List.set_append_right _ _ hj.le, hj, Nat.sub_self, List.map_cons,
              List.cons_append, List.set_cons_zero]
            simp only [List.append_assoc, List.cons_append, List.nil_append]
          have hj₁ : (slots ++ [(outcome cb (clock j) s.userData msg).1.left]).length = j + 1 := by
            rw [List.length_append, hj]
            rfl
          obtain ⟨⟨q', more, hq', hmessages'⟩, hpublished⟩ := ih hrest hq₁ hmessages₁ hj₁
          rw [hafter.userData_eq] at hmessages' hpublished
          refine ⟨⟨q', more, hq', ?_⟩, ?_⟩
          · rw [hmessages', outcomes, List.map_cons, List.append_assoc]
            rfl
          · rw [outcomes, List.flatMap_cons, ← List.append_assoc, ← hafter.published_eq]
            exact hpublished

/-! ## Accounting -/

theorem flatMap_letters {q : MqQueue} (hdlx : 0 < q.dlx.val.length) (outs : List Outcome) :
    outs.flatMap (letters q) = (outs.filterMap Outcome.dead).map (letterOf q) := by
  induction outs with
  | nil => rfl
  | cons out outs ih =>
      rw [List.flatMap_cons, ih, letters, if_pos hdlx, List.filterMap_cons]
      cases out.dead <;> rfl

theorem filter_isSome (l : List (Option MqMessage)) :
    l.filter (·.isSome) = (l.filterMap id).map some := by
  induction l with
  | nil => rfl
  | cons a l ih =>
      cases a with
      | none => rw [List.filter_cons_of_neg (by simp), List.filterMap_cons_none rfl, ih]
      | some msg =>
          rw [List.filter_cons_of_pos (by simp), List.filterMap_cons_some (f := id) rfl, ih]
          rfl

theorem loop_of_result {call : Call σ} {fuel i : Nat} {final : Consumption σ} {r : Int}
    (hfound : call.broker.queues.findIdx? (·.name.val = call.queue) = some i)
    (hresult : call.result fuel = some (r, final)) :
    ∃ s, call.loop fuel i = some s ∧ final = { s with broker := compact s.broker i } := by
  rw [Call.result, mqBasicConsume, hfound] at hresult
  obtain ⟨s, hloop, heq⟩ := Option.map_eq_some_iff.mp hresult
  refine ⟨s, hloop, ?_⟩
  rw [Prod.mk.injEq] at heq
  exact heq.2.symm

theorem accounted_iff {call : Call σ} {fuel i : Nat} {q : MqQueue} {msgs : List MqMessage}
    {r : Int} {final : Consumption σ}
    (hfound : call.broker.queues.findIdx? (·.name.val = call.queue) = some i)
    (hq : call.broker.queues[i]? = some q) (hmessages : q.messages = msgs.map some)
    (hresult : call.result fuel = some (r, final)) :
    Accounted call fuel i q (call.outcomes msgs) final ↔
      ∀ out ∈ call.outcomes msgs, ¬out.Retry := by
  obtain ⟨s, hloop, hfinal⟩ := loop_of_result hfound hresult
  have hfront : q.messages = [] ++ (msgs.map some ++ []) := by
    rw [hmessages, List.nil_append, List.append_nil]
  obtain ⟨⟨q', more, hq', hslots⟩, hpublished⟩ := loop_spec hloop hq hfront rfl
  rw [List.nil_append] at hslots hpublished
  have htake : q'.messages.take (call.outcomes msgs).length =
      (call.outcomes msgs).map Outcome.left := by
    rw [hslots]
    exact List.take_left' (List.length_map _)
  constructor
  · intro hall out hout
    obtain ⟨s₀, hloop₀, _, q₀, hq₀, hstays⟩ := hall.slots
    rw [hloop, Option.some.injEq] at hloop₀
    rw [← hloop₀, Option.mem_def, hq', Option.some.injEq] at hq₀
    rw [← hq₀, htake, List.map_inj_left] at hstays
    exact left_eq_stays_iff.mp (hstays out hout)
  · intro hnone
    have hsame : (call.outcomes msgs).map Outcome.left =
        (call.outcomes msgs).map Outcome.stays :=
      List.map_congr_left fun out hout => left_eq_stays_iff.mpr (hnone out hout)
    constructor
    · exact ⟨s, hloop, hfinal, q', hq', htake.trans hsame⟩
    · have hcompact : final.broker.queues[i]? =
          some { q' with messages := q'.messages.filter (·.isSome) } := by
        rw [hfinal]
        dsimp only
        rw [compact, modifyQueue, List.getElem?_modify_eq, hq']
        rfl
      refine ⟨_, hcompact, more.filter (·.isSome), ?_⟩
      have hmessages' : q'.messages = (call.outcomes msgs).map Outcome.stays ++ more := by
        rw [← hsame]
        exact hslots
      dsimp only
      rw [hmessages', List.filter_append, filter_isSome, List.filterMap_map]
      rfl
    · intro hdlx
      rw [← flatMap_letters hdlx, hfinal]
      exact hpublished

/-! ## Calls that return -/

theorem consumeRound_of_no_dlx {j : Nat} {nowMs : Int} {s : Consumption σ} {q : MqQueue}
    {msg : MqMessage} (hq : s.broker.queues[i]? = some q)
    (hmsg : q.messages[j]? = some (some msg)) (hdlx : q.dlx.val = []) :
    ∃ s' slot, consumeRound depth i cb j nowMs s = some s' ∧
      s'.broker = setSlot s.broker i j slot := by
  have hno : ∀ msg (s : Consumption σ), publishDeadLetter depth q msg s = some s := by
    intro msg s
    rw [publishDeadLetter, hdlx]
    rfl
  have htwice : ∀ (broker : MqBroker) (slot slot' : Option MqMessage),
      setSlot (setSlot broker i j slot) i j slot' = setSlot broker i j slot' := by
    intro broker slot slot'
    simp only [setSlot, modifyQueue, List.modify_modify_eq, Function.comp_def, List.set_set]
  unfold consumeRound
  rw [hq]
  dsimp only
  rw [hmsg]
  dsimp only
  rw [hno]
  split
  · exact ⟨_, none, rfl, rfl⟩
  · generalize cb s.userData msg = answer
    obtain ⟨ack, msg', userData⟩ := answer
    dsimp only
    rw [hno]
    split
    · exact ⟨_, none, rfl, htwice ..⟩
    · split
      · split
        · refine ⟨_, none, rfl, ?_⟩
          rw [freeSlot]
          dsimp only
          rw [htwice, htwice]
        · exact ⟨_, none, rfl, htwice ..⟩
      · exact ⟨_, some msg', rfl, rfl⟩

theorem loop_of_no_dlx {j : Nat} {s : Consumption σ} {q : MqQueue}
    {slots : List (Option MqMessage)} {msgs : List MqMessage}
    (hq : s.broker.queues[i]? = some q) (hmessages : q.messages = slots ++ msgs.map some)
    (hj : slots.length = j) (hdlx : q.dlx.val = []) :
    ∃ s', consumeLoop depth i cb clock (msgs.length + 1) j s = some s' := by
  induction msgs generalizing j s q slots with
  | nil =>
      refine ⟨s, ?_⟩
      rw [consumeLoop, messageCount_eq hq, hmessages, if_neg]
      rw [List.map_nil, List.append_nil, hj]
      exact Nat.lt_irrefl j
  | cons msg msgs ih =>
      have hmsg : q.messages[j]? = some (some msg) := by
        rw [hmessages, List.getElem?_append_right hj.le, hj, Nat.sub_self]
        rfl
      have hdefined : ∃ s₁ slot, consumeRound depth i cb j (clock j) s = some s₁ ∧
          s₁.broker = setSlot s.broker i j slot := consumeRound_of_no_dlx hq hmsg hdlx
      obtain ⟨s₁, slot, hround, hbroker⟩ := hdefined
      have hq₁ : s₁.broker.queues[i]? = some { q with messages := q.messages.set j slot } := by
        rw [hbroker, setSlot, modifyQueue, List.getElem?_modify_eq, hq]
        rfl
      have hmessages₁ : q.messages.set j slot = (slots ++ [slot]) ++ msgs.map some := by
        rw [hmessages, List.set_append_right _ _ hj.le, hj, Nat.sub_self, List.map_cons,
          List.set_cons_zero, List.append_assoc, List.singleton_append]
      have hj₁ : (slots ++ [slot]).length = j + 1 := by
        rw [List.length_append, hj]
        rfl
      obtain ⟨s', hrest⟩ := ih hq₁ hmessages₁ hj₁ hdlx
      refine ⟨s', ?_⟩
      rw [List.length_cons, consumeLoop, messageCount_eq hq,
        if_pos (List.getElem?_eq_some_iff.mp hmsg).1, hround]
      exact hrest

/-- Without a dead-letter exchange one round for each message is enough. -/
theorem result_of_no_dlx {call : Call σ} {i : Nat} {q : MqQueue} {msgs : List MqMessage}
    (hfound : call.broker.queues.findIdx? (·.name.val = call.queue) = some i)
    (hq : call.broker.queues[i]? = some q) (hmessages : q.messages = msgs.map some)
    (hdlx : q.dlx.val = []) : ∃ final, call.result (msgs.length + 1) = some (0, final) := by
  have hfront : q.messages = [] ++ msgs.map some := by
    rw [hmessages, List.nil_append]
  have hreturns : ∃ s, consumeLoop (msgs.length + 1) i call.cb call.clock (msgs.length + 1) 0
      ⟨call.broker, call.userData, []⟩ = some s := loop_of_no_dlx hq hfront rfl hdlx
  obtain ⟨s, hloop⟩ := hreturns
  refine ⟨{ s with broker := compact s.broker i }, ?_⟩
  rw [Call.result, mqBasicConsume, hfound]
  dsimp only
  rw [hloop]
  rfl

def mails : Field mqMaxKeyLen := ⟨lit "mails", by decide⟩

/-- A message that lives for `ttlSeconds`. -/
def message (ttlSeconds : Int) : MqMessage :=
  ⟨mails, noKey, lit "m", ⟨lit "mail-1", by decide⟩, 0, ttlSeconds, 0, 10, 100⟩

/-- A queue without a dead-letter exchange. -/
def mailsQueue (msgs : List MqMessage) : MqQueue :=
  ⟨mails, 0, noName, noKey, msgs.map some⟩

/-- The answer to all messages is `ack`. -/
def answerAll (ack : Int) (msgs : List MqMessage) : Call Unit where
  broker := ⟨[], [mailsQueue msgs], []⟩
  queue := lit "mails"
  cb := fun _ msg => (ack, msg, ())
  userData := ()
  clock := fun _ => 5000

theorem accounted_requeue :
    ∃ final, (answerAll 2 [message 1, message 0]).result 3 = some (0, final) ∧
      Accounted (answerAll 2 [message 1, message 0]) 3 0 (mailsQueue [message 1, message 0])
        ((answerAll 2 [message 1, message 0]).outcomes [message 1, message 0]) final :=
  ⟨_, rfl, (accounted_iff rfl rfl rfl rfl).mpr (by decide)⟩

/-- A message with ten retries left is gone. -/
theorem nack_loses_message :
    ∃ final, (answerAll mqAckNack [message 0]).result 2 = some (0, final) ∧
      ¬Accounted (answerAll mqAckNack [message 0]) 2 0 (mailsQueue [message 0])
        ((answerAll mqAckNack [message 0]).outcomes [message 0]) final := by
  refine ⟨_, rfl, ?_⟩
  intro hall
  obtain ⟨q', hq', later, hqueued⟩ := hall.queued
  rw [← Option.some.inj hq'] at hqueued
  contradiction

end MiniBackend.Infra.Proofs.ConsumeAccounting
