import MiniBackend.WebServer.EventLoop
import MiniBackend.Lib.Runs

/-!
# To whom responses go

A work item holds the address of a slot.  Its response goes to the client whose request it is
as long as the slot is neither overwritten with the last connection nor filled for a new
client before the item is finished, and as long as no descriptor is handed out again while a
slot in use still holds its number.
-/

namespace MiniBackend.WebServer.Proofs.ResponseDelivery

open MiniBackend.WebServer.Http MiniBackend.WebServer.Routing MiniBackend.WebServer.Server
open MiniBackend.WebServer.Events
open MiniBackend.Lib.Runs MiniBackend.Lib.CString

variable {ω : Type}

def heldItem : WorkerPhase → Option Item
  | .ready => none
  | .dequeued item => some item
  | .processed item => some item

def unfinished (srv : Server ω) : List Item := srv.queue ++ srv.workers.filterMap heldItem

/-- Every response went to the client that sent the bytes of its request. -/
def Delivered (srv : Server ω) : Prop :=
  ∀ entry ∈ srv.sent, entry.item.senders ≠ [] ∧ ∀ c ∈ entry.item.senders, c = entry.receiver

def Removable (srv : Server ω) (i : Nat) : Prop :=
  i + 1 < srv.connCount → ∀ item ∈ unfinished srv, item.slot ≠ i

def Unused (srv : Server ω) (fd : Int) : Prop :=
  (∀ i < srv.connCount, (srv.slots i).fd ≠ fd) ∧
    ∀ item ∈ unfinished srv, (srv.slots item.slot).fd ≠ fd

/-- The removal or the new connection of a step disturbs no unfinished item. -/
def Undisturbed (srv : Server ω) : Event → Prop
  | .accept clientFd _ _ =>
      srv.connCount < srv.connCapacity →
        (∀ item ∈ unfinished srv, item.slot ≠ srv.connCount) ∧ Unused srv clientFd
  | .receive i bytes now =>
      (receive (srv.slots i) bytes now).1 = .disconnect ∨
          (receive (srv.slots i) bytes now).1 = .reject →
        Removable srv i
  | .reap i now => isIdle srv i now = true → Removable srv i
  | _ => True

instance (srv : Server ω) (i : Nat) : Decidable (Removable srv i) :=
  inferInstanceAs (Decidable (_ → _))

instance (srv : Server ω) (fd : Int) : Decidable (Unused srv fd) :=
  inferInstanceAs (Decidable (_ ∧ _))

instance (srv : Server ω) (event : Event) : Decidable (Undisturbed srv event) :=
  match event with
  | .accept _ _ _ => inferInstanceAs (Decidable (_ → _))
  | .receive _ _ _ => inferInstanceAs (Decidable (_ → _))
  | .reap _ _ => inferInstanceAs (Decidable (_ → _))
  | .dequeue _ => .isTrue trivial
  | .process _ => .isTrue trivial
  | .send _ _ => .isTrue trivial

/-! ## The invariant -/

def Owned (srv : Server ω) (i : Nat) : Prop :=
  ∀ c, srv.descriptors (srv.slots i).fd = some c → c = srv.peer i

structure Inv (srv : Server ω) : Prop where
  owned : ∀ i < srv.connCount, Owned srv i
  buffered : ∀ i < srv.connCount, ∀ c ∈ srv.senders i, c = srv.peer i
  itemOwned : ∀ item ∈ unfinished srv, Owned srv item.slot
  itemSenders : ∀ item ∈ unfinished srv,
    item.senders ≠ [] ∧ ∀ c ∈ item.senders, c = srv.peer item.slot
  negative : ∀ fd < 0, srv.descriptors fd = none
  delivered : Delivered srv

variable {srv : Server ω}

/-! ## Sockets and slots -/

theorem descriptors_closeSocket {fd fd' : Int} {c : Client}
    (h : (closeSocket srv fd).descriptors fd' = some c) : srv.descriptors fd' = some c := by
  by_cases heq : fd' = fd
  · subst heq
    simp [closeSocket] at h
  · simpa only [closeSocket, Function.update_of_ne heq] using h

theorem Inv.closeSocket (h : Inv srv) (fd : Int) : Inv (closeSocket srv fd) where
  owned := fun i hi c hc => h.owned i hi c (descriptors_closeSocket hc)
  buffered := h.buffered
  itemOwned := fun item hitem c hc => h.itemOwned item hitem c (descriptors_closeSocket hc)
  itemSenders := h.itemSenders
  negative := by
    intro fd' hneg
    cases hget : (Events.closeSocket srv fd).descriptors fd' with
    | none => rfl
    | some c =>
        have hsome := descriptors_closeSocket hget
        rw [h.negative fd' hneg] at hsome
        contradiction
  delivered := h.delivered

/-- A slot may change in everything but its descriptor, which it may lose. -/
theorem Inv.setSlot (h : Inv srv) (i : Nat) {conn : BufferedConnection}
    (hfd : conn.fd = (srv.slots i).fd ∨ conn.fd < 0) : Inv (setSlot srv i conn) := by
  have howned : ∀ j, Owned srv j → Owned (Events.setSlot srv i conn) j := by
    intro j hj c hc
    by_cases hji : j = i
    · subst hji
      simp only [Events.setSlot, Function.update_self] at hc
      rcases hfd with hsame | hneg
      · exact hj c (hsame ▸ hc)
      · rw [h.negative _ hneg] at hc
        contradiction
    · simp only [Events.setSlot, Function.update_of_ne hji] at hc
      exact hj c hc
  exact ⟨fun j hj => howned j (h.owned j hj), h.buffered,
    fun item hitem => howned _ (h.itemOwned item hitem), h.itemSenders, h.negative, h.delivered⟩

theorem Inv.releaseSlot (h : Inv srv) (i : Nat) : Inv (releaseSlot srv i) := by
  unfold Events.releaseSlot
  by_cases hfd : 0 ≤ (srv.slots i).fd
  · simp only [if_pos hfd]
    apply (h.closeSocket _).setSlot
    right
    simp
  · simp only [if_neg hfd]
    apply h.setSlot
    left
    rfl

/-- Moving the last connection to a slot that no unfinished item refers to. -/
theorem Inv.moveLast (h : Inv srv) {i : Nat} (hlast : srv.connCount - 1 < srv.connCount)
    (hfree : ∀ item ∈ unfinished srv, item.slot ≠ i) : Inv (moveLast srv i) where
  owned := by
    intro j hj c hc
    by_cases hji : j = i
    · subst hji
      simp only [Events.moveLast, Function.update_self] at hc ⊢
      exact h.owned _ hlast c hc
    · simp only [Events.moveLast, Function.update_of_ne hji] at hc ⊢
      exact h.owned j hj c hc
  buffered := by
    intro j hj c hc
    by_cases hji : j = i
    · subst hji
      simp only [Events.moveLast, Function.update_self] at hc ⊢
      exact h.buffered _ hlast c hc
    · simp only [Events.moveLast, Function.update_of_ne hji] at hc ⊢
      exact h.buffered j hj c hc
  itemOwned := by
    intro item hitem c hc
    simp only [Events.moveLast, Function.update_of_ne (hfree item hitem)] at hc ⊢
    exact h.itemOwned item hitem c hc
  itemSenders := by
    intro item hitem
    simp only [Events.moveLast, Function.update_of_ne (hfree item hitem)]
    exact h.itemSenders item hitem
  negative := h.negative
  delivered := h.delivered

theorem Inv.dropLast (h : Inv srv) : Inv { srv with connCount := srv.connCount - 1 } where
  owned := fun i hi => h.owned i (Nat.lt_of_lt_of_le hi (Nat.sub_le _ _))
  buffered := fun i hi => h.buffered i (Nat.lt_of_lt_of_le hi (Nat.sub_le _ _))
  itemOwned := h.itemOwned
  itemSenders := h.itemSenders
  negative := h.negative
  delivered := h.delivered

theorem unfinished_releaseSlot (srv : Server ω) (i : Nat) :
    unfinished (releaseSlot srv i) = unfinished srv ∧
      (releaseSlot srv i).connCount = srv.connCount := by
  unfold Events.releaseSlot
  by_cases hfd : 0 ≤ (srv.slots i).fd
  · simp only [if_pos hfd]
    exact ⟨rfl, rfl⟩
  · simp only [if_neg hfd]
    exact ⟨rfl, rfl⟩

theorem Inv.removeConnection (h : Inv srv) {i : Nat} (hremovable : Removable srv i) :
    Inv (serverRemoveConnection srv i) := by
  unfold serverRemoveConnection
  by_cases hbound : srv.connCount ≤ i
  · rw [if_pos hbound]
    exact h
  · rw [if_neg hbound]
    obtain ⟨hitems, hcount⟩ := unfinished_releaseSlot srv i
    have hrelease := h.releaseSlot i
    by_cases hmove : i < srv.connCount - 1
    · have hmove' : i < (Events.releaseSlot srv i).connCount - 1 := by rwa [hcount]
      simp only [if_pos hmove']
      apply Inv.dropLast
      apply hrelease.moveLast
      · rw [hcount]
        omega
      · rw [hitems]
        exact hremovable (by omega)
    · have hmove' : ¬ i < (Events.releaseSlot srv i).connCount - 1 := by rwa [hcount]
      simp only [if_neg hmove']
      exact hrelease.dropLast

/-! ## Connections -/

theorem Inv.addConnection (h : Inv srv) {fd : Int} (hnonneg : 0 ≤ fd) (client : Client)
    (now : Int) (hfree : ∀ item ∈ unfinished srv, item.slot ≠ srv.connCount)
    (hunused : Unused srv fd) :
    Inv (serverAddConnection
      { srv with descriptors := Function.update srv.descriptors fd (some client) } fd client
        now) where
  owned := by
    intro i hi c hc
    have hi : i < srv.connCount + 1 := hi
    by_cases hlast : i = srv.connCount
    · subst hlast
      simp only [serverAddConnection, newConnection, Function.update_self,
        Option.some.injEq] at hc ⊢
      exact hc.symm
    · have hlt : i < srv.connCount := by omega
      simp only [serverAddConnection, Function.update_of_ne hlast,
        Function.update_of_ne (hunused.1 i hlt)] at hc ⊢
      exact h.owned i hlt c hc
  buffered := by
    intro i hi c hc
    have hi : i < srv.connCount + 1 := hi
    by_cases hlast : i = srv.connCount
    · subst hlast
      simp [serverAddConnection] at hc
    · have hlt : i < srv.connCount := by omega
      simp only [serverAddConnection, Function.update_of_ne hlast] at hc ⊢
      exact h.buffered i hlt c hc
  itemOwned := by
    intro item hitem c hc
    simp only [serverAddConnection, Function.update_of_ne (hfree item hitem),
      Function.update_of_ne (hunused.2 item hitem)] at hc ⊢
    exact h.itemOwned item hitem c hc
  itemSenders := by
    intro item hitem
    simp only [serverAddConnection, Function.update_of_ne (hfree item hitem)]
    exact h.itemSenders item hitem
  negative := by
    intro fd' hneg
    have hne : fd' ≠ fd := by omega
    simp only [serverAddConnection, Function.update_of_ne hne]
    exact h.negative fd' hneg
  delivered := h.delivered

/-- The buffer of a slot may change to bytes of the client that it was filled for. -/
theorem Inv.setSenders (h : Inv srv) (i : Nat) {senders : List Client}
    (hsenders : i < srv.connCount → ∀ c ∈ senders, c = srv.peer i) :
    Inv { srv with senders := Function.update srv.senders i senders } where
  owned := h.owned
  buffered := by
    intro j hj c hc
    by_cases hji : j = i
    · subst hji
      simp only [Function.update_self] at hc
      exact hsenders hj c hc
    · simp only [Function.update_of_ne hji] at hc
      exact h.buffered j hj c hc
  itemOwned := h.itemOwned
  itemSenders := h.itemSenders
  negative := h.negative
  delivered := h.delivered

theorem Inv.submit (h : Inv srv) {item : Item} (howned : Owned srv item.slot)
    (hsenders : item.senders ≠ [] ∧ ∀ c ∈ item.senders, c = srv.peer item.slot) :
    Inv { srv with queue := srv.queue ++ [item] } := by
  have hmem : ∀ other ∈ unfinished { srv with queue := srv.queue ++ [item] },
      other ∈ unfinished srv ∨ other = item := by
    intro other hother
    simp only [unfinished, List.mem_append, List.mem_singleton] at hother ⊢
    rcases hother with (hqueue | hnew) | hheld
    · exact Or.inl (Or.inl hqueue)
    · exact Or.inr hnew
    · exact Or.inl (Or.inr hheld)
  refine ⟨h.owned, h.buffered, ?_, ?_, h.negative, h.delivered⟩
  · intro other hother
    rcases hmem other hother with hold | rfl
    · exact h.itemOwned other hold
    · exact howned
  · intro other hother
    rcases hmem other hother with hold | rfl
    · exact h.itemSenders other hold
    · exact hsenders

theorem Inv.shrink (h : Inv srv) {queue : List Item} {workers : List WorkerPhase}
    (hsub : ∀ item ∈ unfinished { srv with queue := queue, workers := workers },
      item ∈ unfinished srv) : Inv { srv with queue := queue, workers := workers } where
  owned := h.owned
  buffered := h.buffered
  itemOwned := fun item hitem => h.itemOwned item (hsub item hitem)
  itemSenders := fun item hitem => h.itemSenders item (hsub item hitem)
  negative := h.negative
  delivered := h.delivered

/-! ## Steps of the event loop -/

theorem Inv.acceptConnection (h : Inv srv) (fd : Int) (client : Client) (now : Int)
    (hquiet : Undisturbed srv (.accept fd client now)) :
    Inv (acceptConnection srv fd client now) := by
  unfold Events.acceptConnection
  split
  · exact h
  · rename_i hopen
    split
    · rename_i hroom
      obtain ⟨hfree, hunused⟩ := hquiet hroom
      exact h.addConnection (by omega) client now hfree hunused
    · exact h

theorem Inv.reap (h : Inv srv) (i : Nat) (now : Int) (hquiet : Undisturbed srv (.reap i now)) :
    Inv (reap srv i now) := by
  unfold Events.reap
  split
  · rename_i hidle
    exact h.removeConnection (hquiet hidle)
  · exact h

theorem receive_fd (conn : BufferedConnection) (bytes : List UInt8) (now : Int) :
    (receive conn bytes now).2.fd = conn.fd := by
  have hparse : ∀ conn : BufferedConnection, (parseHttpRequest conn).2.fd = conn.fd := by
    intro conn
    unfold parseHttpRequest
    simp only
    split
    · split <;> rfl
    · rfl
  unfold receive
  simp only
  split
  · rfl
  · have hfd := hparse { conn with
      recvBuf := conn.recvBuf ++ bytes.take (recvRoom conn)
      recvLen := (conn.recvBuf ++ bytes.take (recvRoom conn)).length
      lastActivity := now }
    split
    · rename_i hrec
      rwa [hrec] at hfd
    · rename_i hrec
      rwa [hrec] at hfd
    · rename_i hrec
      rwa [hrec] at hfd

theorem readable_eq_some {i : Nat} {client : Client} (h : readable srv i = some client) :
    i < srv.connCount ∧ srv.descriptors (srv.slots i).fd = some client := by
  unfold readable at h
  split at h
  · contradiction
  · rename_i hnot
    exact ⟨by omega, h⟩

theorem Inv.receiveStep (h : Inv srv) (i : Nat) (bytes : List UInt8) (now : Int)
    (hquiet : Undisturbed srv (.receive i bytes now)) : Inv (receiveStep srv i bytes now) := by
  unfold Events.receiveStep
  cases hreadable : readable srv i with
  | none => exact h
  | some client =>
      obtain ⟨hi, hclient⟩ := readable_eq_some hreadable
      have hpeer : client = srv.peer i := h.owned i hi client hclient
      have hsenders : ∀ c ∈ srv.senders i ++ [client], c = srv.peer i := by
        intro c hc
        rcases List.mem_append.mp hc with hold | hnew
        · exact h.buffered i hi c hold
        · rw [List.mem_singleton.mp hnew]
          exact hpeer
      have hfd := receive_fd (srv.slots i) bytes now
      have hquiet : (receive (srv.slots i) bytes now).1 = .disconnect ∨
          (receive (srv.slots i) bytes now).1 = .reject → Removable srv i := hquiet
      generalize hrec : receive (srv.slots i) bytes now = received at hfd hquiet
      obtain ⟨outcome, conn⟩ := received
      have hslot := h.setSlot i (Or.inl hfd)
      cases outcome with
      | disconnect => exact h.removeConnection (hquiet (Or.inl rfl))
      | wait => exact hslot.setSenders i fun _ => hsenders
      | submit =>
          simp only
          split
          · exact h
          · have hbuffered := hslot.setSenders i fun _ => hsenders
            refine hbuffered.submit ?_ ⟨by simp, hsenders⟩
            exact hbuffered.owned i hi
      | reject =>
          apply Inv.removeConnection
          · apply h.setSlot
            exact Or.inl hfd
          · exact hquiet (Or.inr rfl)

/-! ## Steps of a worker -/

theorem mem_unfinished_of_held {w : Nat} {phase : WorkerPhase} {item : Item}
    (hphase : srv.workers[w]? = some phase) (hheld : heldItem phase = some item) :
    item ∈ unfinished srv := by
  apply List.mem_append_right
  exact List.mem_filterMap.mpr ⟨phase, List.mem_of_getElem? hphase, hheld⟩

theorem held_of_set {workers : List WorkerPhase} {w : Nat} {phase : WorkerPhase} {item : Item}
    (h : item ∈ (workers.set w phase).filterMap heldItem) :
    item ∈ workers.filterMap heldItem ∨ heldItem phase = some item := by
  obtain ⟨other, hother, hheld⟩ := List.mem_filterMap.mp h
  rcases List.mem_or_eq_of_mem_set hother with hold | rfl
  · exact Or.inl (List.mem_filterMap.mpr ⟨other, hold, hheld⟩)
  · exact Or.inr hheld

theorem Inv.setPhase (h : Inv srv) (w : Nat) {phase : WorkerPhase}
    (hheld : ∀ item, heldItem phase = some item → item ∈ unfinished srv) :
    Inv (setPhase srv w phase) := by
  apply h.shrink
  intro item hitem
  rcases List.mem_append.mp hitem with hqueue | hworker
  · exact List.mem_append_left _ hqueue
  · rcases held_of_set hworker with hold | heq
    · exact List.mem_append_right _ hold
    · exact hheld item heq

theorem Inv.setWorld (h : Inv srv) (world : ω) : Inv { srv with world := world } :=
  ⟨h.owned, h.buffered, h.itemOwned, h.itemSenders, h.negative, h.delivered⟩

theorem Inv.dequeueStep (h : Inv srv) (w : Nat) : Inv (dequeueStep srv w) := by
  unfold Events.dequeueStep
  split
  · rename_i item queue hphase hqueue
    apply h.shrink
    intro other hother
    rcases List.mem_append.mp hother with hrest | hworker
    · apply List.mem_append_left
      rw [hqueue]
      exact List.mem_cons_of_mem item hrest
    · rcases held_of_set hworker with hold | hheld
      · exact List.mem_append_right _ hold
      · cases hheld
        apply List.mem_append_left
        rw [hqueue]
        exact List.mem_cons_self
  · exact h

theorem Inv.processStep (h : Inv srv) (call : UInt64 → HandlerFn ω) (w : Nat) :
    Inv (processStep call srv w) := by
  unfold Events.processStep
  split
  · rename_i item hphase
    have hitem := mem_unfinished_of_held hphase rfl
    simp only
    split
    · apply h.setPhase
      intro other hheld
      contradiction
    · apply Inv.setPhase
      · apply Inv.setWorld
        apply h.setSlot
        exact Or.inl rfl
      · intro other hheld
        cases hheld
        exact hitem
  · exact h

theorem Inv.sendTo (h : Inv srv) {item : Item} (hitem : item ∈ unfinished srv) :
    Inv (sendTo srv item) := by
  unfold Events.sendTo
  simp only
  cases hclient : srv.descriptors (srv.slots item.slot).fd with
  | none => exact h
  | some client =>
      refine ⟨h.owned, h.buffered, h.itemOwned, h.itemSenders, h.negative, ?_⟩
      intro entry hentry
      rcases List.mem_append.mp hentry with hold | hnew
      · exact h.delivered entry hold
      · rw [List.mem_singleton.mp hnew]
        obtain ⟨hne, hsenders⟩ := h.itemSenders item hitem
        refine ⟨hne, ?_⟩
        intro c hc
        calc
          c = srv.peer item.slot := hsenders c hc
          _ = client := (h.itemOwned item hitem client hclient).symm

theorem Inv.finishSlot (h : Inv srv) (i : Nat) (now : Int) : Inv (finishSlot srv i now) := by
  unfold Events.finishSlot
  cases hkeep : (srv.slots i).keepAlive with
  | true =>
      simp only [finishConnection, hkeep, if_true]
      apply Inv.setSenders
      · apply h.setSlot
        exact Or.inl rfl
      · intro _ c hc
        contradiction
  | false =>
      simp only [finishConnection, hkeep, Bool.false_eq_true, if_false]
      apply (h.closeSocket _).setSlot
      right
      simp

theorem Inv.sendStep (h : Inv srv) (w : Nat) (now : Int) : Inv (sendStep srv w now) := by
  unfold Events.sendStep
  split
  · rename_i item hphase
    have hsent := h.sendTo (mem_unfinished_of_held hphase rfl)
    apply (hsent.finishSlot item.slot now).setPhase
    intro other hheld
    contradiction
  · exact h

theorem Inv.step (h : Inv srv) (call : UInt64 → HandlerFn ω) (event : Event)
    (hquiet : Undisturbed srv event) : Inv (step call srv event) := by
  cases event with
  | accept fd client now => exact h.acceptConnection fd client now hquiet
  | receive i bytes now => exact h.receiveStep i bytes now hquiet
  | reap i now => exact h.reap i now hquiet
  | dequeue w => exact h.dequeueStep w
  | process w => exact h.processStep call w
  | send w now => exact h.sendStep w now

/-! ## Runs -/

theorem inv_serverStart (connCapacity : Nat) (keepaliveTimeout : Int) (router : Option Router)
    (middleware : Middleware.MiddlewareChain ω) (numWorkers : Nat) (world : ω) :
    Inv (serverStart connCapacity keepaliveTimeout router middleware numWorkers world) := by
  have hnone : unfinished
      (serverStart connCapacity keepaliveTimeout router middleware numWorkers world) = [] := by
    rw [unfinished, serverStart, List.nil_append, List.filterMap_eq_nil_iff]
    intro phase hphase
    rw [List.eq_of_mem_replicate hphase]
    rfl
  constructor
  case owned => exact fun i hi => absurd hi (Nat.not_lt_zero i)
  case buffered => exact fun i hi => absurd hi (Nat.not_lt_zero i)
  case itemOwned => rw [hnone]; exact fun item hitem => by contradiction
  case itemSenders => rw [hnone]; exact fun item hitem => by contradiction
  case negative => exact fun fd _ => rfl
  case delivered => exact fun entry hentry => by contradiction

/-- In every interleaving in which no step disturbs an unfinished item, every response goes
to the client that sent the request. -/
theorem responses_delivered (call : UInt64 → HandlerFn ω) (connCapacity : Nat)
    (keepaliveTimeout : Int) (router : Option Router)
    (middleware : Middleware.MiddlewareChain ω) (numWorkers : Nat) (world : ω)
    {events : List Event}
    (hquiet : Always (step call) Undisturbed
      (serverStart connCapacity keepaliveTimeout router middleware numWorkers world) events) :
    Delivered (run (step call)
      (serverStart connCapacity keepaliveTimeout router middleware numWorkers world) events) := by
  have hinv := run_invariant (step call) (fun srv event h => h.step call event)
    (inv_serverStart connCapacity keepaliveTimeout router middleware numWorkers world) hquiet
  exact hinv.delivered

theorem serverReapIdleConnections_eq_run (call : UInt64 → HandlerFn ω) (srv : Server ω)
    (now : Int) :
    serverReapIdleConnections srv now =
      run (step call) srv ((List.range srv.connCount).reverse.map fun i => .reap i now) := by
  simp only [serverReapIdleConnections, run, List.foldl_map, Events.step]

/-! ## One worker and two clients -/

def getRoot : List UInt8 := lit "GET / HTTP/1.1" ++ crlf ++ crlf

/-- A handler that answers nothing. -/
def silent : UInt64 → HandlerFn Unit := fun _ _ _ res world => (true, res, world)

def oneWorker : Server Unit := serverStart 8 15 none ⟨[], []⟩ 1 ()

/-- Both clients stay: each gets the response to its own request. -/
def bothStay : List Event :=
  [.accept 4 1 0, .accept 5 2 0, .receive 0 getRoot 1, .receive 1 getRoot 1, .dequeue 0,
    .process 0, .send 0 2, .dequeue 0, .process 0, .send 0 2]

theorem responses_delivered_bothStay :
    (run (step silent) oneWorker bothStay).sent.map Sent.receiver = [1, 2] ∧
      Delivered (run (step silent) oneWorker bothStay) := by
  have hquiet : Always (step silent) Undisturbed oneWorker bothStay := by decide +kernel
  exact ⟨by decide +kernel, responses_delivered silent 8 15 none ⟨[], []⟩ 1 () hquiet⟩

/-- The first client leaves after its request: the second one gets the response. -/
def firstLeaves : List Event :=
  [.accept 4 1 0, .accept 5 2 0, .receive 0 getRoot 1, .receive 0 [] 1, .dequeue 0,
    .process 0, .send 0 2]

theorem response_misdelivered :
    (run (step silent) oneWorker firstLeaves).sent = [⟨⟨0, [1]⟩, 2, ⟨200, [], []⟩⟩] ∧
      ¬ Delivered (run (step silent) oneWorker firstLeaves) := by
  have hsent : (run (step silent) oneWorker firstLeaves).sent =
      [⟨⟨0, [1]⟩, 2, ⟨200, [], []⟩⟩] := by decide +kernel
  refine ⟨hsent, ?_⟩
  intro hdelivered
  rw [Delivered, hsent] at hdelivered
  have hwrong := (hdelivered _ List.mem_cons_self).2 1 List.mem_cons_self
  exact absurd hwrong (by decide)

end MiniBackend.WebServer.Proofs.ResponseDelivery
