import MiniBackend.Infra.Proofs.BrokerGrowth
import MiniBackend.Lib.RecentWindow
import MiniBackend.Lib.Runs

/-!
# Publishing each message once

`mq_basic_publish_dedup` remembers the id of a message before the message is published.  A
message that could not be delivered counts as a duplicate from then on, so a second call says
that it was delivered.  As long as each new message finds a queue with room, the ids that are
remembered are those that were delivered.
-/

namespace MiniBackend.Infra.Proofs.DedupWindow

open MiniBackend.Lib.CArray MiniBackend.Lib.CString MiniBackend.Lib.Runs
open MiniBackend.Lib.RecentWindow
open MiniBackend.Infra.MessageQueue MiniBackend.Infra.Proofs.BrokerGrowth

/-! ## Delivery -/

def Delivered (before after : MqBroker) (exchange : CStr) (routingKey : Option CStr)
    (msg : MqMessage) : Prop :=
  ∃ bd ∈ before.bindings, follows before exchange routingKey bd = true ∧
    ∃ j < before.queues.length, ∃ q ∈ before.queues[j]?, ∃ q' ∈ after.queues[j]?,
      q.name.val = bd.queue.val ∧ some msg ∈ q'.messages.drop q.messages.length

instance decidableDelivered (before after : MqBroker) (exchange : CStr)
    (routingKey : Option CStr) (msg : MqMessage) :
    Decidable (Delivered before after exchange routingKey msg) :=
  inferInstanceAs (Decidable (∃ bd ∈ before.bindings, follows before exchange routingKey bd = true ∧
    ∃ j < before.queues.length, ∃ q ∈ before.queues[j]?, ∃ q' ∈ after.queues[j]?,
      q.name.val = bd.queue.val ∧ some msg ∈ q'.messages.drop q.messages.length))

def Accepts (broker : MqBroker) (exchange : CStr) (routingKey : Option CStr) : Prop :=
  ∃ bd ∈ broker.bindings, follows broker exchange routingKey bd = true ∧
    ∃ q ∈ broker.queues, q.name.val = bd.queue.val ∧ isFull q = false

instance decidableAccepts (broker : MqBroker) (exchange : CStr) (routingKey : Option CStr) :
    Decidable (Accepts broker exchange routingKey) :=
  inferInstanceAs (Decidable (∃ bd ∈ broker.bindings, follows broker exchange routingKey bd = true ∧
    ∃ q ∈ broker.queues, q.name.val = bd.queue.val ∧ isFull q = false))

/-! ## Runs -/

structure Call where
  id : CStr
  result : Int
  /-- The id was not in the window. -/
  recorded : Bool
  /-- The call delivered its message. -/
  delivered : Bool
deriving DecidableEq

variable {σ : Type}

structure System (σ : Type) where
  tracker : MqDedupTracker
  broker : MqBroker
  userData : σ
  /-- The calls so far. -/
  calls : List Call

def init (userData : σ) : System σ := ⟨mqDedupTracker, mqBrokerCreate, userData, []⟩

inductive Op (σ : Type)
  | configure (op : Configure)
  | consume (queue : CStr) (cb : MqConsumeCallback σ) (clock : Nat → Int)
  | publishDedup (exchange : CStr) (routingKey : Option CStr) (msg : MqMessage)

/-- `none` when the calls for dead letters are nested deeper than `fuel`, or a loop takes more
rounds. -/
def step (fuel : Nat) (s : System σ) : Op σ → Option (System σ)
  | .configure op => some { s with broker := configure s.broker op }
  | .consume queue cb clock =>
      (mqBasicConsume fuel s.broker queue cb s.userData clock).map fun result =>
        { s with broker := result.2.broker, userData := result.2.userData }
  | .publishDedup exchange routingKey msg =>
      (mqBasicPublishDedup fuel s.tracker s.broker exchange routingKey msg).map fun result =>
        { s with
          tracker := result.2.1
          broker := result.2.2
          calls := s.calls ++
            [⟨msg.messageId, result.1, !mqIsDuplicate s.tracker msg.messageId,
              decide (Delivered s.broker result.2.2 exchange routingKey msg)⟩] }

/-- Calls that return 0 delivered their message, then or before, and no message was delivered
twice within the window. -/
structure Idempotent (calls : List Call) : Prop where
  acknowledged : ∀ earlier call later, calls = earlier ++ call :: later → call.result = 0 →
    ∃ c ∈ earlier ++ [call], c.id = call.id ∧ c.delivered = true
  once : ∀ segment, segment <:+: calls →
    (segment.map (·.id)).toFinset.card ≤ mqDedupWindow →
    ((segment.filter (·.delivered)).map (·.id)).Nodup

/-- A message whose id is not in the window is accepted. -/
def AcceptsNew (s : System σ) : Op σ → Prop
  | .publishDedup exchange routingKey msg =>
      mqIsDuplicate s.tracker msg.messageId = false → Accepts s.broker exchange routingKey
  | .configure _ | .consume .. => True

instance decidableAcceptsNew (s : System σ) : (op : Op σ) → Decidable (AcceptsNew s op)
  | .publishDedup exchange routingKey msg =>
      inferInstanceAs (Decidable (mqIsDuplicate s.tracker msg.messageId = false →
        Accepts s.broker exchange routingKey))
  | .configure _ | .consume .. => .isTrue trivial

/-! ## What a publish delivers -/

theorem delivered_of_copies {before after : MqBroker} {exchange : CStr}
    {routingKey : Option CStr} {bd : MqBinding} (hbd : bd ∈ before.bindings)
    (hfollows : follows before exchange routingKey bd = true) {j : Nat} {q : MqQueue}
    (hq : before.queues[j]? = some q) (hname : q.name.val = bd.queue.val) {msg : MqMessage}
    {n : Nat} (hn : n ≠ 0) (hq' : after.queues[j]? = some (copies msg n q)) :
    Delivered before after exchange routingKey msg := by
  have hj : j < before.queues.length := (List.getElem?_eq_some_iff.mp hq).1
  refine ⟨bd, hbd, hfollows, j, hj, q, hq, copies msg n q, hq', hname, ?_⟩
  rw [copies, List.drop_left]
  exact List.mem_replicate.mpr ⟨hn, rfl⟩

abbrev Place : Type := CStr × Nat

def places (broker : MqBroker) (exchange : CStr) (routingKey : Option CStr) : List Place :=
  (broker.bindings.filter (follows broker exchange routingKey)).flatMap fun bd =>
    (List.range broker.queues.length).map fun j => (bd.queue.val, j)

theorem mem_places {broker : MqBroker} {exchange : CStr} {routingKey : Option CStr}
    {bd : MqBinding} (hbd : bd ∈ broker.bindings)
    (hfollows : follows broker exchange routingKey bd = true) {j : Nat}
    (hj : j < broker.queues.length) :
    (bd.queue.val, j) ∈ places broker exchange routingKey := by
  apply List.mem_flatMap_of_mem (List.mem_filter.mpr ⟨hbd, hfollows⟩)
  exact List.mem_map_of_mem (List.mem_range.mpr hj)

def deadLetter (depth : Nat) (broker : MqBroker) (dlx dlxRk : CStr) (msg : MqMessage) :
    Option MqBroker :=
  (mqBasicPublish depth broker dlx (some dlxRk) msg).map (·.2)

def offerAt (depth : Nat) (msg : MqMessage) (s : Delivery) (place : Place) : Option Delivery :=
  offer (deadLetter depth) place.1 msg s place.2

theorem mqBasicPublish_places (depth : Nat) (broker : MqBroker) (exchange : CStr)
    (routingKey : Option CStr) (msg : MqMessage) :
    mqBasicPublish (depth + 1) broker exchange routingKey msg =
      ((places broker exchange routingKey).foldlM (offerAt depth msg) ⟨broker, 0⟩).map
        fun s => (if 0 < s.delivered then 0 else -1, s.broker) := by
  rw [mqBasicPublish, places, foldlM_flatMap, List.foldlM_filter]
  simp only [List.foldlM_map]
  rfl

theorem offerAt_extends {depth : Nat} {msg : MqMessage} {s s' : Delivery} {place : Place}
    (hround : offerAt depth msg s place = some s') : Extends msg s.broker s'.broker := by
  apply offer_extends _ hround
  intro b dlx dlxRk b' hdead
  obtain ⟨result, hpublish, heq⟩ := Option.map_eq_some_iff.mp hdead
  rw [← heq]
  exact publish_extends hpublish

theorem loop_extends {depth : Nat} {msg : MqMessage} {ps : List Place} {s s' : Delivery}
    (hloop : ps.foldlM (offerAt depth msg) s = some s') : Extends msg s.broker s'.broker := by
  apply foldlM_invariant (P := fun t : Delivery => Extends msg s.broker t.broker) _
    (Extends.refl msg s.broker) hloop
  intro t place _ t' ht hround
  exact ht.trans (offerAt_extends hround)

theorem offerAt_of_room {depth : Nat} {msg : MqMessage} {s s' : Delivery} {place : Place}
    (hround : offerAt depth msg s place = some s') {q : MqQueue}
    (hq : s.broker.queues[place.2]? = some q) (hname : q.name.val = place.1)
    (hroom : isFull q = false) : s'.broker.queues[place.2]? = some (copies msg 1 q) := by
  rw [offerAt, offer, hq] at hround
  dsimp only at hround
  rw [if_pos hname, hroom, if_neg Bool.false_ne_true] at hround
  rw [← Option.some.inj hround]
  dsimp only
  rw [modifyQueue, List.getElem?_modify_eq, hq]
  rfl

/-- A queue with room gets the message in its round, if the dead letters of others have not
brought it before. -/
theorem delivered_of_accepts {fuel : Nat} {broker : MqBroker} {exchange : CStr}
    {routingKey : Option CStr} {msg : MqMessage} {result : Int × MqBroker}
    (haccepts : Accepts broker exchange routingKey)
    (hpublish : mqBasicPublish fuel broker exchange routingKey msg = some result) :
    Delivered broker result.2 exchange routingKey msg := by
  cases fuel with
  | zero => contradiction
  | succ depth =>
      obtain ⟨bd, hbd, hfollows, q, hmem, hname, hroom⟩ := haccepts
      obtain ⟨j, hj, hget⟩ := List.getElem_of_mem hmem
      have hq : broker.queues[j]? = some q := List.getElem?_eq_some_iff.mpr ⟨hj, hget⟩
      rw [mqBasicPublish_places] at hpublish
      obtain ⟨s, hloop, heq⟩ := Option.map_eq_some_iff.mp hpublish
      obtain ⟨before, after, s₁, s₂, _, hbefore, hround, hafter⟩ :=
        foldlM_of_mem (mem_places hbd hfollows hj) hloop
      obtain ⟨q₁, hq₁, n₁, hgrown₁, _⟩ := (loop_extends hbefore).queue j q hq
      have hround_gets : ∃ n ≠ 0, s₂.broker.queues[j]? = some (copies msg n q) := by
        by_cases hn : n₁ = 0
        · rw [hn, copies_zero] at hgrown₁
          rw [hgrown₁] at hq₁
          exact ⟨1, Nat.one_ne_zero, offerAt_of_room hround hq₁ hname hroom⟩
        · obtain ⟨q₂, hq₂, n₂, hgrown₂, _⟩ := (offerAt_extends hround).queue j q₁ hq₁
          refine ⟨n₁ + n₂, by omega, ?_⟩
          rw [Option.mem_def.mp hq₂, hgrown₂, hgrown₁, copies_add]
      obtain ⟨n, hn, hq₂⟩ := hround_gets
      obtain ⟨q', hq', m, hgrown, _⟩ := (loop_extends hafter).queue j _ hq₂
      have hm : n + m ≠ 0 := by omega
      rw [← heq]
      apply delivered_of_copies hbd hfollows hq hname hm
      rw [Option.mem_def.mp hq', hgrown, copies_add]

theorem delivered_iff_accepts {fuel : Nat} {broker : MqBroker} {exchange : CStr}
    {routingKey : Option CStr} {msg : MqMessage} {result : Int × MqBroker}
    (hpublish : mqBasicPublish fuel broker exchange routingKey msg = some result) :
    Delivered broker result.2 exchange routingKey msg ↔ Accepts broker exchange routingKey := by
  constructor
  · intro hdelivered
    obtain ⟨bd, hbd, hfollows, j, _, q, hq, q', hq', hname, hmsg⟩ := hdelivered
    refine ⟨bd, hbd, hfollows, q, List.mem_of_getElem? hq, hname, ?_⟩
    by_contra hfull
    obtain ⟨q'', hq'', n, hgrown, hnone⟩ := (publish_extends hpublish).queue j q hq
    rw [hq', Option.mem_def, Option.some.injEq] at hq''
    rw [hq'', hgrown, hnone (Bool.eq_true_of_not_eq_false hfull), copies_zero,
      List.drop_length] at hmsg
    contradiction
  · exact fun haccepts => delivered_of_accepts haccepts hpublish

/-! ## The window -/

theorem mqDedupWindow_pos : 0 < mqDedupWindow := by
  decide

def recordedIds (calls : List Call) : List CStr := (calls.filter (·.recorded)).map (·.id)

theorem recordedIds_append (calls calls' : List Call) :
    recordedIds (calls ++ calls') = recordedIds calls ++ recordedIds calls' := by
  rw [recordedIds, List.filter_append, List.map_append]
  rfl

theorem mqIsDuplicate_iff {tracker : MqDedupTracker} {id : CStr} :
    mqIsDuplicate tracker id = true ↔
      ∃ i < (if tracker.filled then mqDedupWindow else tracker.pos), tracker.entries i = id := by
  rw [mqIsDuplicate, findIndex, List.find?_isSome]
  simp only [List.mem_range, decide_eq_true_eq]

/-- What is known of the calls, whatever became of their messages. -/
structure Tracked (s : System σ) : Prop where
  ring : Holds mqDedupWindow (recordedIds s.calls) s.tracker.entries s.tracker.pos
    s.tracker.filled
  spaced : Spaced mqDedupWindow (recordedIds s.calls)
  delivered : ∀ c ∈ s.calls, c.delivered = true → c.recorded = true
  known : ∀ earlier call later, s.calls = earlier ++ call :: later →
    call.id ∈ recordedIds (earlier ++ [call])

theorem tracked_init (userData : σ) : Tracked (init userData) where
  ring := holds_nil mqDedupWindow_pos _
  spaced := spaced_nil _
  delivered _ hc := absurd hc List.not_mem_nil
  known earlier call later hcalls := by
    have hnil : earlier ++ call :: later = [] := hcalls.symm
    rw [List.append_eq_nil_iff] at hnil
    exact absurd hnil.2 (List.cons_ne_nil _ _)

theorem holds_record {tracker : MqDedupTracker} {history : List CStr}
    (h : Holds mqDedupWindow history tracker.entries tracker.pos tracker.filled) (id : Field 37) :
    Holds mqDedupWindow (history ++ [id.val]) (mqDedupRecord tracker id).entries
      (mqDedupRecord tracker id).pos (mqDedupRecord tracker id).filled := by
  have hwrite := h.write mqDedupWindow_pos id.val
  have hcopy : strncpy id.val 36 = id.val := strncpy_of_le (Nat.le_of_lt_succ id.property)
  unfold mqDedupRecord
  rw [hcopy]
  dsimp only
  split
  next hwrap =>
    rw [if_pos hwrap, if_pos hwrap] at hwrite
    exact hwrite
  next hwrap =>
    rw [if_neg hwrap, if_neg hwrap] at hwrite
    exact hwrite

theorem Tracked.duplicate {s : System σ} (h : Tracked s) {call : Call}
    (hid : mqIsDuplicate s.tracker call.id = true) (hrecorded : call.recorded = false)
    (hdelivered : call.delivered = false) : Tracked { s with calls := s.calls ++ [call] } := by
  have hsame : recordedIds (s.calls ++ [call]) = recordedIds s.calls := by
    have hnone : recordedIds [call] = [] := by
      rw [recordedIds, List.filter_cons_of_neg (by rw [hrecorded]; decide)]
      rfl
    rw [recordedIds_append, hnone, List.append_nil]
  refine ⟨?_, ?_, ?_, ?_⟩
  · dsimp only
    rw [hsame]
    exact h.ring
  · dsimp only
    rw [hsame]
    exact h.spaced
  · intro c hc hdeliveredC
    rcases List.mem_append.mp hc with hold | hnew
    · exact h.delivered c hold hdeliveredC
    · rw [List.mem_singleton.mp hnew, hdelivered] at hdeliveredC
      contradiction
  · apply split_append_singleton (P := fun earlier c => c.id ∈ recordedIds (earlier ++ [c])) h.known
    have hrecent := (h.ring.mem_iff mqDedupWindow_pos).mp (mqIsDuplicate_iff.mp hid)
    rw [hsame]
    exact mem_of_mem_recent hrecent

theorem Tracked.new {s : System σ} (h : Tracked s) {id : Field 37} {call : Call}
    (hid : call.id = id.val) (hnew : mqIsDuplicate s.tracker id = false)
    (hrecorded : call.recorded = true) (broker : MqBroker) :
    Tracked ⟨mqDedupRecord s.tracker id, broker, s.userData, s.calls ++ [call]⟩ := by
  have hone : recordedIds (s.calls ++ [call]) = recordedIds s.calls ++ [id.val] := by
    have hcall : recordedIds [call] = [id.val] := by
      rw [recordedIds, List.filter_cons_of_pos hrecorded, List.filter_nil, List.map_singleton, hid]
    rw [recordedIds_append, hcall]
  refine ⟨?_, ?_, ?_, ?_⟩
  · dsimp only
    rw [hone]
    exact holds_record h.ring id
  · dsimp only
    rw [hone]
    apply h.spaced.append_singleton
    intro hrecent
    have hdup := mqIsDuplicate_iff.mpr ((h.ring.mem_iff mqDedupWindow_pos).mpr hrecent)
    rw [hnew] at hdup
    exact Bool.false_ne_true hdup
  · intro c hc hdelivered
    rcases List.mem_append.mp hc with hold | hlast
    · exact h.delivered c hold hdelivered
    · rw [List.mem_singleton.mp hlast]
      exact hrecorded
  · apply split_append_singleton (P := fun earlier c => c.id ∈ recordedIds (earlier ++ [c])) h.known
    rw [hone, hid]
    exact List.mem_append_right _ List.mem_cons_self

/-! ## Runs of calls -/

theorem not_delivered_self (broker : MqBroker) (exchange : CStr) (routingKey : Option CStr)
    (msg : MqMessage) : ¬Delivered broker broker exchange routingKey msg := by
  intro h
  obtain ⟨_, _, _, j, _, q, hq, q', hq', _, hmsg⟩ := h
  rw [Option.mem_def.mp hq, Option.mem_def, Option.some.injEq] at hq'
  rw [← hq', List.drop_length] at hmsg
  contradiction

/-- Either the id is in the window and nothing else happens, or it is recorded and the message
is published. -/
theorem mqBasicPublishDedup_cases {fuel : Nat} {tracker : MqDedupTracker} {broker : MqBroker}
    {exchange : CStr} {routingKey : Option CStr} {msg : MqMessage}
    {result : Int × MqDedupTracker × MqBroker}
    (h : mqBasicPublishDedup fuel tracker broker exchange routingKey msg = some result) :
    (mqIsDuplicate tracker msg.messageId = true ∧ result = (0, tracker, broker)) ∨
      (mqIsDuplicate tracker msg.messageId = false ∧
        ∃ published, mqBasicPublish fuel broker exchange routingKey msg = some published ∧
          result = (published.1, mqDedupRecord tracker msg.messageId, published.2)) := by
  unfold mqBasicPublishDedup at h
  split at h
  next hdup => exact .inl ⟨hdup, (Option.some.inj h).symm⟩
  next hnew =>
    obtain ⟨published, hpublish, heq⟩ := Option.map_eq_some_iff.mp h
    exact .inr ⟨Bool.eq_false_of_not_eq_true hnew, published, hpublish, heq.symm⟩

theorem Tracked.next {fuel : Nat} {s s' : System σ} (h : Tracked s) {op : Op σ}
    (hstep : step fuel s op = some s') : Tracked s' := by
  cases op with
  | configure op =>
      rw [← Option.some.inj hstep]
      exact ⟨h.ring, h.spaced, h.delivered, h.known⟩
  | consume queue cb clock =>
      obtain ⟨result, _, heq⟩ := Option.map_eq_some_iff.mp hstep
      rw [← heq]
      exact ⟨h.ring, h.spaced, h.delivered, h.known⟩
  | publishDedup exchange routingKey msg =>
      obtain ⟨result, hresult, heq⟩ := Option.map_eq_some_iff.mp hstep
      rw [← heq]
      rcases mqBasicPublishDedup_cases hresult with ⟨hdup, hsame⟩ | ⟨hnew, published, _, hpublished⟩
      · rw [hsame]
        apply h.duplicate hdup
        · rw [hdup]
          rfl
        · exact decide_eq_false (not_delivered_self s.broker exchange routingKey msg)
      · rw [hpublished]
        apply h.new rfl hnew
        rw [hnew]
        rfl

def RecordedDelivered (s : System σ) : Prop :=
  ∀ c ∈ s.calls, c.recorded = true → c.delivered = true

theorem RecordedDelivered.next {fuel : Nat} {s s' : System σ} (h : RecordedDelivered s)
    {op : Op σ} (haccepts : AcceptsNew s op) (hstep : step fuel s op = some s') :
    RecordedDelivered s' := by
  cases op with
  | configure op => exact Option.some.inj hstep ▸ h
  | consume queue cb clock =>
      obtain ⟨result, _, heq⟩ := Option.map_eq_some_iff.mp hstep
      exact heq ▸ h
  | publishDedup exchange routingKey msg =>
      obtain ⟨result, hresult, heq⟩ := Option.map_eq_some_iff.mp hstep
      rw [← heq]
      intro c hc hrecorded
      rcases List.mem_append.mp hc with hold | hlast
      · exact h c hold hrecorded
      · rw [List.mem_singleton.mp hlast] at hrecorded ⊢
        rcases mqBasicPublishDedup_cases hresult with
          ⟨hdup, _⟩ | ⟨hnew, published, hpublish, hpublished⟩
        · dsimp only at hrecorded
          rw [hdup] at hrecorded
          contradiction
        · rw [hpublished]
          apply decide_eq_true
          exact (delivered_iff_accepts hpublish).mpr (haccepts hnew)

/-- Within the window no message is delivered twice, in any run. -/
theorem Tracked.once {s : System σ} (h : Tracked s) {segment : List Call}
    (hsegment : segment <:+: s.calls)
    (hfew : (segment.map (·.id)).toFinset.card ≤ mqDedupWindow) :
    ((segment.filter (·.delivered)).map (·.id)).Nodup := by
  obtain ⟨before, later, hcalls⟩ := hsegment
  have hspaced : Spaced mqDedupWindow (recordedIds segment) := by
    have hall := h.spaced
    rw [← hcalls, List.append_assoc, recordedIds_append, recordedIds_append] at hall
    have hfront := hall.right.take (recordedIds segment).length
    rw [List.take_left] at hfront
    exact hfront
  have hnodup : (recordedIds segment).Nodup := by
    apply hspaced.nodup
    refine le_trans (Finset.card_le_card ?_) hfew
    intro id hid
    rw [List.mem_toFinset] at hid ⊢
    exact (List.filter_sublist.map _).subset hid
  have hsame : segment.filter (·.delivered) =
      (segment.filter (·.recorded)).filter (·.delivered) := by
    rw [List.filter_filter]
    apply List.filter_congr
    intro c hc
    have hmem : c ∈ s.calls := by
      rw [← hcalls]
      exact List.mem_append_left _ (List.mem_append_right _ hc)
    cases hdelivered : c.delivered with
    | false => rfl
    | true =>
        rw [h.delivered c hmem hdelivered]
        rfl
  rw [hsame]
  exact List.Nodup.sublist (List.filter_sublist.map _) hnodup

theorem tracked_run {fuel : Nat} {userData : σ} {ops : List (Op σ)} {s : System σ}
    (hrun : runOption (step fuel) (init userData) ops = some s) : Tracked s :=
  runOption_keeps_of_forall (step fuel) (fun _ _ _ h hstep => h.next hstep)
    (tracked_init userData) hrun

theorem idempotent_of_accepts {fuel : Nat} {userData : σ} {ops : List (Op σ)} {s : System σ}
    (hrun : runOption (step fuel) (init userData) ops = some s)
    (haccepts : AlwaysOption (step fuel) AcceptsNew (init userData) ops) :
    Idempotent s.calls := by
  have htracked := tracked_run hrun
  have hrecorded : RecordedDelivered s :=
    runOption_keeps (step fuel) (fun _ _ _ h haccepts hstep => h.next haccepts hstep)
      (fun _ hc => absurd hc List.not_mem_nil) haccepts hrun
  constructor
  · intro earlier call later hcalls _
    obtain ⟨c, hc, hid⟩ := List.mem_map.mp (htracked.known earlier call later hcalls)
    obtain ⟨hmem, hrec⟩ := List.mem_filter.mp hc
    refine ⟨c, hmem, hid, hrecorded c ?_ hrec⟩
    rw [hcalls]
    rcases List.mem_append.mp hmem with hold | hlast
    · exact List.mem_append_left _ hold
    · rw [List.mem_singleton.mp hlast]
      exact List.mem_append_right _ List.mem_cons_self
  · exact fun segment hsegment hfew => htracked.once hsegment hfew

def jobs : Field mqMaxKeyLen := ⟨lit "jobs", by decide⟩

def newJob : Field mqMaxRoutingKeyLen := ⟨lit "new", by decide⟩

def job : MqMessage :=
  ⟨jobs, newJob, lit "m", ⟨lit "job-1", by decide⟩, 0, 0, 0, 10, 100⟩

/-- A queue is bound, and the message is published twice. -/
def publishTwice : List (Op Unit) :=
  [.configure (.exchangeDeclare ⟨jobs, .direct⟩),
    .configure (.queueDeclare ⟨jobs, 0, noName, noKey⟩),
    .configure (.queueBind jobs jobs (some newJob)),
    .publishDedup (lit "jobs") (some (lit "new")) job,
    .publishDedup (lit "jobs") (some (lit "new")) job]

theorem idempotent_publishTwice :
    ∃ s, runOption (step 1) (init ()) publishTwice = some s ∧ Idempotent s.calls := by
  have haccepts : AlwaysOption (step 1) AcceptsNew (init ()) publishTwice := by
    decide
  have hdefined : ∃ s, runOption (step 1) (init ()) publishTwice = some s := ⟨_, rfl⟩
  obtain ⟨s, hrun⟩ := hdefined
  exact ⟨s, hrun, idempotent_of_accepts hrun haccepts⟩

/-- The queue is declared too late for the first call; the second one returns 0. -/
def publishTooEarly : List (Op Unit) :=
  [.configure (.exchangeDeclare ⟨jobs, .direct⟩),
    .publishDedup (lit "jobs") (some (lit "new")) job,
    .configure (.queueDeclare ⟨jobs, 0, noName, noKey⟩),
    .configure (.queueBind jobs jobs (some newJob)),
    .publishDedup (lit "jobs") (some (lit "new")) job]

theorem retry_is_duplicate :
    ∃ s, runOption (step 1) (init ()) publishTooEarly = some s ∧ ¬Idempotent s.calls := by
  refine ⟨_, rfl, ?_⟩
  intro hall
  obtain ⟨c, hc, _, hdelivered⟩ := hall.acknowledged [_] _ [] rfl rfl
  have hnone : ∀ c ∈ [(⟨lit "job-1", -1, true, false⟩ : Call), ⟨lit "job-1", 0, false, false⟩],
      c.delivered = false := by decide
  rw [hnone c hc] at hdelivered
  exact Bool.false_ne_true hdelivered

end MiniBackend.Infra.Proofs.DedupWindow
