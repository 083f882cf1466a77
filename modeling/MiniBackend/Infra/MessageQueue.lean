import MiniBackend.Lib.BinaryHeap
import MiniBackend.Lib.CArray
import MiniBackend.Lib.CString
import Mathlib.Logic.Function.Basic
import Mathlib.Data.List.Basic

/-!
# `message_queue.c`

Topic patterns, the broker with its two ways to publish, consuming, also by priority, and the
window of the message ids that were seen.  The pointers are non-null unless an argument is an
`Option`, memory does not run out, and no confirm callback is set.
-/

namespace MiniBackend.Infra.MessageQueue

open MiniBackend.Lib MiniBackend.Lib.CArray MiniBackend.Lib.CString

/-! ## Topic patterns -/

def dot : UInt8 := 46

def starMark : UInt8 := 42

def hashMark : UInt8 := 35

/-- The loop under `'#'`: a recursive call at each place of the routing key. -/
def tryEach (topicMatch : List UInt8 → Bool) : List UInt8 → Bool
  | [] => false
  | c :: routingKey =>
      if topicMatch (c :: routingKey) then true else tryEach topicMatch routingKey

/-- 1 is `true`.  A call on what is left of both strings is the next round of the loop. -/
def mqTopicMatch : List UInt8 → List UInt8 → Bool
  | [], routingKey => routingKey = []
  | p :: pattern, [] => p = hashMark ∧ pattern = []
  | p :: pattern, c :: routingKey =>
      if p = hashMark then
        if pattern = [] then true
        else tryEach (mqTopicMatch pattern) (c :: routingKey)
      else if p = starMark then
        let rest := (c :: routingKey).dropWhile (· ≠ dot)
        -- The separator is consumed from both strings or from neither.
        match pattern, rest with
        | q :: pattern', d :: rest' =>
            if d = dot ∧ q = dot then mqTopicMatch pattern' rest'
            else mqTopicMatch (q :: pattern') (d :: rest')
        | pattern, rest => mqTopicMatch pattern rest
      else if p ≠ c then false
      else mqTopicMatch pattern routingKey
termination_by structural pattern => pattern

/-! ## The broker -/

def mqMaxKeyLen : Nat := 64
def mqMaxRoutingKeyLen : Nat := 128
def mqMaxQueues : Nat := 256

inductive MqExchangeType
  | direct
  | topic
  | fanout
deriving DecidableEq

def mqAckSuccess : Int := 0
def mqAckNack : Int := 1

structure MqMessage where
  exchangeName : Field mqMaxKeyLen
  routingKey : Field mqMaxRoutingKeyLen
  /-- `body_len` bytes. -/
  body : List UInt8
  messageId : Field 37
  timestampMs : Int
  ttlSeconds : Int
  retryCount : Int
  maxRetries : Int
  backoffMs : Int
deriving DecidableEq

structure MqQueue where
  name : Field mqMaxKeyLen
  maxLength : Int
  dlx : Field mqMaxKeyLen
  dlxRk : Field mqMaxRoutingKeyLen
  /-- The slots below `count`; `none` is a null pointer. -/
  messages : List (Option MqMessage)
deriving DecidableEq

structure MqBinding where
  exchange : Field mqMaxKeyLen
  queue : Field mqMaxKeyLen
  routingKey : Field mqMaxRoutingKeyLen
deriving DecidableEq

structure MqExchange where
  name : Field mqMaxKeyLen
  type : MqExchangeType
deriving DecidableEq

structure MqBroker where
  exchanges : List MqExchange
  queues : List MqQueue
  bindings : List MqBinding
deriving DecidableEq

structure MqQueueDeclare where
  queueName : Field mqMaxKeyLen
  maxLength : Int
  deadLetterExchange : Field mqMaxKeyLen
  deadLetterRoutingKey : Field mqMaxRoutingKeyLen

def noName : Field mqMaxKeyLen := ⟨[], by decide⟩
def noKey : Field mqMaxRoutingKeyLen := ⟨[], by decide⟩

def mqBrokerCreate : MqBroker where
  exchanges := [⟨⟨lit "amq.default", by decide⟩, .direct⟩]
  queues := []
  bindings := []

def mqExchangeDeclare (broker : MqBroker) (decl : MqExchange) : Int × MqBroker :=
  if broker.exchanges.any (·.name = decl.name) then (0, broker)
  else if mqMaxQueues ≤ broker.exchanges.length then (-1, broker)
  else (0, { broker with exchanges := broker.exchanges ++ [decl] })

def mqQueueDeclare (broker : MqBroker) (decl : MqQueueDeclare) : Int × MqBroker :=
  if broker.queues.any (·.name = decl.queueName) then (0, broker)
  else if mqMaxQueues ≤ broker.queues.length then (-1, broker)
  else
    (0, { broker with
      queues := broker.queues ++ [⟨decl.queueName, decl.maxLength, decl.deadLetterExchange,
        decl.deadLetterRoutingKey, []⟩] })

/-- The names fit into the binding that they are copied to. -/
def mqQueueBind (broker : MqBroker) (queue exchange : Field mqMaxKeyLen)
    (routingKey : Option (Field mqMaxRoutingKeyLen)) : Int × MqBroker :=
  if mqMaxQueues * 4 ≤ broker.bindings.length then (-1, broker)
  else
    (0, { broker with
      bindings := broker.bindings ++ [⟨exchange, queue, routingKey.getD noKey⟩] })

def mqQueueUnbind (broker : MqBroker) (queue exchange : CStr) (routingKey : Option CStr) :
    Int × MqBroker :=
  let isBinding := fun bd : MqBinding =>
    bd.queue.val = queue ∧ bd.exchange.val = exchange ∧
      ∀ key ∈ routingKey, bd.routingKey.val = key
  if broker.bindings.any (isBinding ·) then
    (0, { broker with bindings := broker.bindings.eraseP (isBinding ·) })
  else (-1, broker)

/-- The calls that set up a broker. -/
inductive Configure
  | exchangeDeclare (decl : MqExchange)
  | queueDeclare (decl : MqQueueDeclare)
  | queueBind (queue exchange : Field mqMaxKeyLen)
      (routingKey : Option (Field mqMaxRoutingKeyLen))
  | queueUnbind (queue exchange : CStr) (routingKey : Option CStr)

def configure (broker : MqBroker) : Configure → MqBroker
  | .exchangeDeclare decl => (mqExchangeDeclare broker decl).2
  | .queueDeclare decl => (mqQueueDeclare broker decl).2
  | .queueBind queue exchange routingKey => (mqQueueBind broker queue exchange routingKey).2
  | .queueUnbind queue exchange routingKey => (mqQueueUnbind broker queue exchange routingKey).2

def findExchange (broker : MqBroker) (exchange : CStr) : Option MqExchange :=
  broker.exchanges.find? (·.name.val = exchange)

/-! ## Publishing -/

/-- The broker and the counter of a publish. -/
structure Delivery where
  broker : MqBroker
  delivered : Nat

def modifyQueue (broker : MqBroker) (j : Nat) (f : MqQueue → MqQueue) : MqBroker :=
  { broker with queues := broker.queues.modify j f }

def MqQueue.push (q : MqQueue) (msg : MqMessage) : MqQueue :=
  { q with messages := q.messages ++ [some msg] }

def isFull (q : MqQueue) : Bool := 0 < q.maxLength ∧ q.maxLength ≤ q.messages.length

/-- A round of the inner loop: the message is copied to queue `j` if the binding leads there. -/
def offer (deadLetter : MqBroker → CStr → CStr → MqMessage → Option MqBroker) (queue : CStr)
    (msg : MqMessage) (s : Delivery) (j : Nat) : Option Delivery :=
  match s.broker.queues[j]? with
  | none => some s
  | some q =>
      if q.name.val = queue then
        if isFull q then
          if 0 < q.dlx.val.length then
            (deadLetter s.broker q.dlx q.dlxRk msg).map ({ s with broker := · })
          else some s
        else some ⟨modifyQueue s.broker j (·.push msg), s.delivered + 1⟩
      else some s

/-- The bindings that `mq_basic_publish` follows. -/
def follows (broker : MqBroker) (exchange : CStr) (routingKey : Option CStr) (bd : MqBinding) :
    Bool :=
  bd.exchange.val = exchange ∧ ∀ key ∈ routingKey, bd.routingKey.val ≠ key →
    ∃ ex ∈ findExchange broker exchange, ex.type ≠ .direct

/-- The message is published to the dead-letter exchange of a queue that is full.  `none` when
such calls are nested deeper than `depth`. -/
def mqBasicPublish : Nat → MqBroker → CStr → Option CStr → MqMessage → Option (Int × MqBroker)
  | 0, _, _, _, _ => none
  | depth + 1, broker, exchange, routingKey, msg =>
      let deadLetter := fun broker dlx dlxRk msg =>
        (mqBasicPublish depth broker dlx (some dlxRk) msg).map (·.2)
      let delivery := broker.bindings.foldlM
        (fun s bd =>
          if follows broker exchange routingKey bd then
            (List.range broker.queues.length).foldlM (offer deadLetter bd.queue msg) s
          else some s)
        (⟨broker, 0⟩ : Delivery)
      delivery.map fun s => (if 0 < s.delivered then 0 else -1, s.broker)

def routeMatch (ex : MqExchange) (routingKey : CStr) (bd : MqBinding) : Bool :=
  match ex.type with
  | .fanout => true
  | .topic => mqTopicMatch bd.routingKey routingKey
  | .direct => bd.routingKey.val = routingKey

def offerAlways (queue : CStr) (msg : MqMessage) (s : Delivery) (j : Nat) : Delivery :=
  match s.broker.queues[j]? with
  | none => s
  | some q =>
      if q.name.val = queue then
        ⟨modifyQueue s.broker j (·.push msg), s.delivered + 1⟩
      else s

def mqBasicPublishTopic (broker : MqBroker) (exchange routingKey : CStr) (msg : MqMessage) :
    Int × MqBroker :=
  match findExchange broker exchange with
  | none => (-1, broker)
  | some ex =>
      let s := broker.bindings.foldl
        (fun s bd =>
          if bd.exchange.val = exchange ∧ routeMatch ex routingKey bd then
            (List.range broker.queues.length).foldl (offerAlways bd.queue msg) s
          else s)
        (⟨broker, 0⟩ : Delivery)
      (if 0 < s.delivered then 0 else -1, s.broker)

/-! ## Consuming -/

/-- The answer, what the callback leaves in the message, and what it leaves in its data. -/
abbrev MqConsumeCallback (σ : Type) := σ → MqMessage → Int × MqMessage × σ

structure Consumption (σ : Type) where
  broker : MqBroker
  userData : σ
  /-- The arguments of the calls of `mq_basic_publish` so far. -/
  published : List (CStr × CStr × MqMessage)
deriving DecidableEq

def isExpired (msg : MqMessage) (nowMs : Int) : Bool :=
  0 < msg.ttlSeconds ∧ msg.ttlSeconds * 1000 < nowMs - msg.timestampMs

def retried (msg : MqMessage) : MqMessage :=
  { msg with retryCount := msg.retryCount + 1, backoffMs := msg.backoffMs * 2 }

/-- What slot `j` of queue `i` points to. -/
def setSlot (broker : MqBroker) (i j : Nat) (slot : Option MqMessage) : MqBroker :=
  modifyQueue broker i fun q => { q with messages := q.messages.set j slot }

variable {σ : Type}

def publishDeadLetter (depth : Nat) (q : MqQueue) (msg : MqMessage) (s : Consumption σ) :
    Option (Consumption σ) :=
  if 0 < q.dlx.val.length then
    (mqBasicPublish depth s.broker q.dlx (some q.dlxRk) msg).map fun result =>
      { s with
        broker := result.2
        published := s.published ++ [(q.dlx.val, q.dlxRk.val, msg)] }
  else some s

/-- `mq_message_free(msg)`, and the slot is cleared. -/
def freeSlot (i j : Nat) (s : Consumption σ) : Consumption σ :=
  { s with broker := setSlot s.broker i j none }

/-- A round of the loop over the messages of queue `i`; it is undefined for a null pointer. -/
def consumeRound (depth i : Nat) (cb : MqConsumeCallback σ) (j : Nat) (nowMs : Int)
    (s : Consumption σ) : Option (Consumption σ) :=
  match s.broker.queues[i]? with
  | none => none
  | some q =>
      match q.messages[j]? with
      | none | some none => none
      | some (some msg) =>
          if isExpired msg nowMs then (publishDeadLetter depth q msg s).map (freeSlot i j)
          else
            let (ack, msg, userData) := cb s.userData msg
            let s := { s with broker := setSlot s.broker i j (some msg), userData }
            if ack = mqAckSuccess then some (freeSlot i j s)
            else if ack = mqAckNack then
              if msg.retryCount < msg.maxRetries then
                some (freeSlot i j
                  { s with broker := setSlot s.broker i j (some (retried msg)) })
              else (publishDeadLetter depth q msg s).map (freeSlot i j)
            else some s

def messageCount (broker : MqBroker) (i : Nat) : Nat :=
  ((broker.queues[i]?).map (·.messages.length)).getD 0

/-- The loop from slot `j` on, for at most as many rounds as the first argument says; a dead
letter can come back to the end of the queue. -/
def consumeLoop (depth i : Nat) (cb : MqConsumeCallback σ) (clock : Nat → Int) :
    Nat → Nat → Consumption σ → Option (Consumption σ)
  | 0, _, _ => none
  | rounds + 1, j, s =>
      if j < messageCount s.broker i then
        (consumeRound depth i cb j (clock j) s).bind
          (consumeLoop depth i cb clock rounds (j + 1))
      else some s

/-- The messages that are left move to the front. -/
def compact (broker : MqBroker) (i : Nat) : MqBroker :=
  modifyQueue broker i fun q => { q with messages := q.messages.filter (·.isSome) }

/-- `clock j` is the time at which slot `j` is looked at. -/
def mqBasicConsume (fuel : Nat) (broker : MqBroker) (queue : CStr) (cb : MqConsumeCallback σ)
    (userData : σ) (clock : Nat → Int) : Option (Int × Consumption σ) :=
  match broker.queues.findIdx? (·.name.val = queue) with
  | none => some (-1, ⟨broker, userData, []⟩)
  | some i =>
      (consumeLoop fuel i cb clock fuel 0 ⟨broker, userData, []⟩).map fun s =>
        (0, { s with broker := compact s.broker i })

/-! ## Consuming by priority -/

structure MqPrioEntry where
  priority : Int
  msgIndex : Nat
deriving DecidableEq

/-- Only the first `size` entries of `heap` are in use; there is room for every push. -/
structure MqPriorityQueue where
  heap : Nat → MqPrioEntry
  size : Nat

def mqPqCreate : MqPriorityQueue := ⟨fun _ => ⟨0, 0⟩, 0⟩

def mqPqSiftUp (heap : Nat → MqPrioEntry) (idx : Nat) : Nat → MqPrioEntry :=
  BinaryHeap.siftUp MqPrioEntry.priority idx heap idx

def mqPqSiftDown (heap : Nat → MqPrioEntry) (idx size : Nat) : Nat → MqPrioEntry :=
  BinaryHeap.siftDown MqPrioEntry.priority size heap idx size

def mqPqPush (pq : MqPriorityQueue) (priority : Int) (msgIndex : Nat) : MqPriorityQueue :=
  ⟨mqPqSiftUp (Function.update pq.heap pq.size ⟨priority, msgIndex⟩) pq.size, pq.size + 1⟩

def mqPqPop (pq : MqPriorityQueue) : Option (MqPrioEntry × MqPriorityQueue) :=
  if pq.size = 0 then none
  else
    let size := pq.size - 1
    if 0 < size then
      some (pq.heap 0, ⟨mqPqSiftDown (Function.update pq.heap 0 (pq.heap size)) 0 size, size⟩)
    else some (pq.heap 0, ⟨pq.heap, size⟩)

/-- `priorities` is `none` for a null pointer. -/
def priorityOf (priorities : Option (Nat → Int)) (msgCount : Int) (j : Nat) : Int :=
  match priorities with
  | some priorities => if (j : Int) < msgCount then priorities j else 0
  | none => 0

/-- The callback is called for the message in a slot; a null pointer is skipped. -/
def callBack (cb : MqConsumeCallback σ) (messages : List (Option MqMessage)) (userData : σ)
    (idx : Nat) : σ :=
  match messages[idx]? with
  | some (some msg) => (cb userData msg).2.2
  | _ => userData

/-- The loop that pops, for at most as many rounds as the first argument says. -/
def popLoop (cb : MqConsumeCallback σ) (messages : List (Option MqMessage)) :
    Nat → MqPriorityQueue → σ → Option σ
  | 0, _, _ => none
  | rounds + 1, pq, userData =>
      match mqPqPop pq with
      | none => some userData
      | some (entry, pq) =>
          popLoop cb messages rounds pq (callBack cb messages userData entry.msgIndex)

/-- The result, the broker and the data of the callback, whose answers are not looked at.  `none`
when popping takes more rounds than there are messages, and one. -/
def mqBasicConsumePriority (broker : MqBroker) (queue : CStr) (priorities : Option (Nat → Int))
    (msgCount : Int) (cb : MqConsumeCallback σ) (userData : σ) : Option (Int × MqBroker × σ) :=
  match broker.queues.findIdx? (·.name.val = queue) with
  | none => some (-1, broker, userData)
  | some i =>
      let messages := ((broker.queues[i]?).map (·.messages)).getD []
      if messages.length = 0 then some (0, broker, userData)
      else
        let pq := (List.range messages.length).foldl
          (fun pq j => mqPqPush pq (priorityOf priorities msgCount j) j) mqPqCreate
        (popLoop cb messages (messages.length + 1) pq userData).map fun userData =>
          (0, modifyQueue broker i ({ · with messages := [] }), userData)

/-! ## Message ids that were seen -/

def mqDedupWindow : Nat := 10000

structure MqDedupTracker where
  entries : Nat → CStr
  pos : Nat
  filled : Bool

def mqDedupTracker : MqDedupTracker := ⟨fun _ => [], 0, false⟩

def mqIsDuplicate (tracker : MqDedupTracker) (messageId : CStr) : Bool :=
  (findIndex (fun i => tracker.entries i = messageId)
    (if tracker.filled then mqDedupWindow else tracker.pos)).isSome

def mqDedupRecord (tracker : MqDedupTracker) (messageId : CStr) : MqDedupTracker :=
  let entries := Function.update tracker.entries tracker.pos (strncpy messageId 36)
  if mqDedupWindow ≤ tracker.pos + 1 then ⟨entries, 0, true⟩
  else ⟨entries, tracker.pos + 1, tracker.filled⟩

def mqBasicPublishDedup (depth : Nat) (tracker : MqDedupTracker) (broker : MqBroker)
    (exchange : CStr) (routingKey : Option CStr) (msg : MqMessage) :
    Option (Int × MqDedupTracker × MqBroker) :=
  if mqIsDuplicate tracker msg.messageId then some (0, tracker, broker)
  else
    (mqBasicPublish depth broker exchange routingKey msg).map fun result =>
      (result.1, mqDedupRecord tracker msg.messageId, result.2)

end MiniBackend.Infra.MessageQueue
