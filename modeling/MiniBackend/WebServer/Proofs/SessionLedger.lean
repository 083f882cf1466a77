import MiniBackend.Lib.Runs
import MiniBackend.WebServer.Session

/-!
# A session store is a ledger

A ledger keeps the sessions in the order of their creation and looks at the clock when it is
asked.  The store marks what it passes and moves sessions to other slots, and while its clock does
not run backwards nobody can tell.
-/

namespace MiniBackend.WebServer.Proofs.SessionLedger

open MiniBackend.Lib.CString MiniBackend.Lib.CArray MiniBackend.Lib.Runs
open MiniBackend.WebServer.Sessions

/-! ## The ledger -/

def alive (now : Int) (s : Session) : Bool := s.active && !decide (s.expiresAt < now)

def wanted (sessionId : CStr) (now : Int) (s : Session) : Bool := alive now s && s.id == sessionId

def lookup (ledger : SessionStore) (sessionId : CStr) (now : Int) : Option Session :=
  ledger.sessions.find? (wanted sessionId now)

def write (sessions : List Session) (sessionId : CStr) (now : Int) (f : Session → Session) :
    List Session :=
  sessions.map fun s => if wanted sessionId now s then f { s with lastAccess := now } else s

def ledgerCall (ledger : SessionStore) (op : Op) : Reply × SessionStore :=
  match op.call with
  | .access sessionId access =>
      match lookup ledger sessionId op.now with
      | none => (.null, ledger)
      | some s =>
          ((access.apply { s with lastAccess := op.now }).1, { ledger with
            sessions := write ledger.sessions sessionId op.now fun s => (access.apply s).2 })
  | .destroy sessionId =>
      (.done (lookup ledger sessionId op.now).isSome, { ledger with
        sessions := write ledger.sessions sessionId op.now fun s => { s with active := false } })
  | .cleanup =>
      (.removed (ledger.sessions.filter fun s => !alive op.now s).length, { ledger with
        sessions := ledger.sessions.filter (alive op.now) })
  | _ => call ledger op

def ledgerStep (s : List Reply × SessionStore) (op : Op) : List Reply × SessionStore :=
  (s.1 ++ [(ledgerCall s.2 op).1], (ledgerCall s.2 op).2)

/-! ## Identifiers -/

theorem generateSessionId_inj {a b r r' n m : UInt64}
    (h : generateSessionId a r n = generateSessionId b r' m) : n = m := by
  have hwide : ∀ n : UInt64, (hexWide 12 n.toNat).length ≤ 16 := fun n =>
    length_hexWide_le (by decide) n.toNat_lt
  rw [generateSessionId, generateSessionId, snprintf_of_lt, snprintf_of_lt] at h
  · have hdrop := congrArg (List.drop 20) h
    rw [List.drop_left' (by simp [length_hexPadded]), List.drop_left' (by simp [length_hexPadded])]
      at hdrop
    exact UInt64.toNat_inj.mp (hexWide_injective 12 hdrop)
  · have hm := hwide m
    simp only [List.length_append, length_hexPadded, sessionIdLen]
    omega
  · have hn := hwide n
    simp only [List.length_append, length_hexPadded, sessionIdLen]
    omega

/-- Identifiers are not repeated: each has its own value of the counter. -/
structure Numbered (counter : UInt64) (sessions : List Session) : Prop where
  nodup : (sessions.map Session.id).Nodup
  numbers : ∀ s ∈ sessions, ∃ now rnd n, n ≤ counter ∧ s.id = generateSessionId now rnd n

variable {counter : UInt64} {l m : List Session} {clock now : Int} {sessionId : CStr}

theorem Numbered.of_ids (h : Numbered counter l) (hids : (m.map Session.id).Sublist
    (l.map Session.id)) : Numbered counter m := by
  refine ⟨hids.nodup h.nodup, ?_⟩
  intro s hs
  obtain ⟨t, ht, hid⟩ := List.mem_map.mp (hids.subset (List.mem_map_of_mem hs))
  rw [← hid]
  exact h.numbers t ht

theorem Numbered.perm (h : Numbered counter l) (hperm : m.Perm l) : Numbered counter m :=
  ⟨(hperm.map _).nodup_iff.mpr h.nodup, fun s hs => h.numbers s (hperm.mem_iff.mp hs)⟩

theorem Numbered.create (h : Numbered counter l) (hwrap : counter.toNat + 1 < 2 ^ 64)
    {idNow rnd : UInt64} {s : Session} (hs : s.id = generateSessionId idNow rnd (counter + 1)) :
    Numbered (counter + 1) (l ++ [s]) := by
  have hnat : (counter + 1).toNat = counter.toNat + 1 := by
    rw [UInt64.toNat_add]
    exact Nat.mod_eq_of_lt hwrap
  constructor
  · rw [List.map_append, List.map_singleton, List.nodup_append]
    refine ⟨h.nodup, List.nodup_singleton _, ?_⟩
    intro id hid id' hid' heq
    obtain ⟨t, ht, rfl⟩ := List.mem_map.mp hid
    obtain ⟨now, rnd', n, hn, hnumber⟩ := h.numbers t ht
    rw [List.mem_singleton.mp hid', hs, hnumber] at heq
    have hsame := generateSessionId_inj heq
    rw [hsame, UInt64.le_iff_toNat_le, hnat] at hn
    omega
  · intro t ht
    rcases List.mem_append.mp ht with ht | ht
    · obtain ⟨now, rnd', n, hn, hnumber⟩ := h.numbers t ht
      refine ⟨now, rnd', n, ?_, hnumber⟩
      rw [UInt64.le_iff_toNat_le, hnat]
      rw [UInt64.le_iff_toNat_le] at hn
      omega
    · rw [List.mem_singleton.mp ht]
      exact ⟨idNow, rnd, counter + 1, UInt64.le_refl _, hs⟩

theorem Numbered.wanted_once (h : Numbered counter l) (sessionId : CStr) (now : Int) :
    l.Pairwise fun a b => wanted sessionId now a = true → wanted sessionId now b = false := by
  apply (pairwise_beq_of_nodup_map h.nodup sessionId).imp
  intro a b hab ha
  rw [wanted, Bool.and_eq_true] at ha
  rw [wanted, hab ha.2, Bool.and_false]

/-! ## Slots that are marked -/

def Marks (clock : Int) (slot s : Session) : Prop :=
  slot = s ∨ (s.expiresAt < clock ∧ slot = { s with active := false })

theorem Marks.later {slot s : Session} (h : Marks clock slot s) (hnow : clock ≤ now) :
    Marks now slot s :=
  h.imp_right fun hmarked => ⟨by omega, hmarked.2⟩

theorem Marks.alive_eq {slot s : Session} (h : Marks clock slot s) (hnow : clock ≤ now) :
    alive now slot = alive now s := by
  rcases h with rfl | ⟨hexpired, rfl⟩
  · rfl
  · have hlate : s.expiresAt < now := by omega
    simp [alive, hlate]

/-- What is alive was not marked. -/
theorem Marks.eq_of_alive {slot s : Session} (h : Marks clock slot s) (hnow : clock ≤ now)
    (halive : alive now s = true) : slot = s := by
  rcases h with rfl | ⟨hexpired, -⟩
  · rfl
  · have hlate : s.expiresAt < now := by omega
    simp [alive, hlate] at halive

theorem getLoop_none (h : List.Forall₂ (Marks clock) l m) (hnow : clock ≤ now)
    (hnone : ∀ s ∈ m, wanted sessionId now s = false) :
    ∃ l', getLoop sessionId now l = (none, l') ∧ List.Forall₂ (Marks now) l' m := by
  induction h with
  | nil => exact ⟨[], rfl, .nil⟩
  | @cons slot s l m hslot _ ih =>
      obtain ⟨hs, hm⟩ := List.forall_mem_cons.mp hnone
      obtain ⟨l', hloop, hrest⟩ := ih hm
      simp only [getLoop, hloop]
      by_cases hactive : slot.active = true
      · by_cases hexpired : slot.expiresAt < now
        · refine ⟨{ slot with active := false } :: l', by simp [hactive, hexpired], .cons ?_ hrest⟩
          rcases hslot with rfl | ⟨_, rfl⟩
          · exact .inr ⟨hexpired, rfl⟩
          · cases hactive
        · rcases hslot with rfl | ⟨_, rfl⟩
          · have hid : (slot.id == sessionId) = false := by
              simpa [wanted, alive, hactive, hexpired] using hs
            exact ⟨slot :: l', by simp [hactive, hexpired, hid], .cons (.inl rfl) hrest⟩
          · cases hactive
      · exact ⟨slot :: l', by simp [hactive], .cons (hslot.later hnow) hrest⟩

theorem getLoop_found {a b : List Session} {s : Session}
    (h : List.Forall₂ (Marks clock) l (a ++ s :: b)) (hnow : clock ≤ now)
    (ha : ∀ t ∈ a, wanted sessionId now t = false) (hs : wanted sessionId now s = true) :
    ∃ a' b', getLoop sessionId now l =
        (some a'.length, a' ++ { s with lastAccess := now } :: b') ∧
      List.Forall₂ (Marks now) a' a ∧ List.Forall₂ (Marks now) b' b := by
  induction a generalizing l with
  | nil =>
      cases h with
      | cons hslot hrest =>
          rw [wanted, Bool.and_eq_true] at hs
          rw [hslot.eq_of_alive hnow hs.1]
          have halive := hs.1
          rw [alive, Bool.and_eq_true, Bool.not_eq_true', decide_eq_false_iff_not] at halive
          refine ⟨[], _, ?_, .nil, hrest.imp fun _ _ h => h.later hnow⟩
          rw [getLoop, halive.1, if_neg halive.2, hs.2]
          rfl
  | cons t a ih =>
      cases h with
      | @cons slot _ l _ hslot hrest =>
          obtain ⟨ht, ha⟩ := List.forall_mem_cons.mp ha
          obtain ⟨a', b', hloop, ha', hb'⟩ := ih hrest ha
          simp only [getLoop, hloop]
          by_cases hactive : slot.active = true
          · by_cases hexpired : slot.expiresAt < now
            · refine ⟨{ slot with active := false } :: a', b', by simp [hactive, hexpired],
                .cons ?_ ha', hb'⟩
              rcases hslot with rfl | ⟨_, rfl⟩
              · exact .inr ⟨hexpired, rfl⟩
              · cases hactive
            · rcases hslot with rfl | ⟨_, rfl⟩
              · have hid : (slot.id == sessionId) = false := by
                  simpa [wanted, alive, hactive, hexpired] using ht
                exact ⟨slot :: a', b', by simp [hactive, hexpired, hid],
                  .cons (.inl rfl) ha', hb'⟩
              · cases hactive
          · exact ⟨slot :: a', b', by simp [hactive], .cons (hslot.later hnow) ha', hb'⟩

/-! ## Calls -/

/-- The slots hold the sessions of the ledger. -/
structure Follows (clock : Int) (store ledger : SessionStore) : Prop where
  settings : { store with sessions := ledger.sessions } = ledger
  slots : ∃ m, List.Forall₂ (Marks clock) store.sessions m ∧ m.Perm ledger.sessions
  numbered : Numbered store.counter ledger.sessions

variable {store ledger : SessionStore}

theorem write_of_none {sessions : List Session} {f : Session → Session}
    (h : ∀ s ∈ sessions, wanted sessionId now s = false) :
    write sessions sessionId now f = sessions := by
  have hsame : ∀ s ∈ sessions,
      (if wanted sessionId now s then f { s with lastAccess := now } else s) = id s := by
    intro s hs
    rw [h s hs]
    rfl
  rw [write, List.map_congr_left hsame, List.map_id]

theorem write_of_wanted {a b : List Session} {s : Session} {f : Session → Session}
    (ha : ∀ t ∈ a, wanted sessionId now t = false) (hs : wanted sessionId now s = true)
    (hb : ∀ t ∈ b, wanted sessionId now t = false) :
    write (a ++ s :: b) sessionId now f = a ++ f { s with lastAccess := now } :: b := by
  have hparts : write (a ++ s :: b) sessionId now f = write a sessionId now f ++
      f { s with lastAccess := now } :: write b sessionId now f := by
    simp [write, hs]
  rw [hparts, write_of_none ha, write_of_none hb]

theorem map_id_write {f : Session → Session} (hf : ∀ s, (f s).id = s.id) (sessions : List Session) :
    (write sessions sessionId now f).map Session.id = sessions.map Session.id := by
  rw [write, List.map_map]
  apply List.map_congr_left
  intro s _
  by_cases hs : wanted sessionId now s = true
  · rw [Function.comp_apply, if_pos hs, hf]
  · rw [Function.comp_apply, if_neg hs]

/-- A pointer that `session_get` returns is the slot of the session in the ledger. -/
theorem Follows.get (h : Follows clock store ledger) (hnow : clock ≤ now) (sessionId : CStr) :
    (lookup ledger sessionId now = none ∧ (sessionGet store sessionId now).1 = none ∧
      Follows now (sessionGet store sessionId now).2 ledger) ∨
    ∃ s i, lookup ledger sessionId now = some s ∧ (sessionGet store sessionId now).1 = some i ∧
      (sessionGet store sessionId now).2.sessions[i]? = some { s with lastAccess := now } ∧
      ∀ f : Session → Session, (∀ s, (f s).id = s.id) →
        Follows now { (sessionGet store sessionId now).2 with
            sessions := (sessionGet store sessionId now).2.sessions.modify i f }
          { ledger with sessions := write ledger.sessions sessionId now f } := by
  obtain ⟨m, hmarks, hperm⟩ := h.slots
  have honce := (h.numbered.perm hperm).wanted_once sessionId now
  have hlookup : lookup ledger sessionId now = m.find? (wanted sessionId now) :=
    (find?_perm_of_pairwise hperm honce (h.numbered.wanted_once sessionId now)).symm
  have hsettings := h.settings
  cases hfind : m.find? (wanted sessionId now) with
  | none =>
      have hnone : ∀ s ∈ m, wanted sessionId now s = false := by
        simpa using List.find?_eq_none.mp hfind
      obtain ⟨l', hloop, hmarks'⟩ := getLoop_none hmarks hnow hnone
      refine .inl ⟨hlookup.trans hfind, by rw [sessionGet, hloop], ?_⟩
      rw [sessionGet, hloop]
      exact ⟨hsettings, ⟨m, hmarks', hperm⟩, h.numbered⟩
  | some s =>
      obtain ⟨hs, a, b, rfl, ha⟩ := List.find?_eq_some_iff_append.mp hfind
      have ha : ∀ t ∈ a, wanted sessionId now t = false := fun t ht => by simpa using ha t ht
      have hb : ∀ t ∈ b, wanted sessionId now t = false := fun t ht =>
        (List.pairwise_cons.mp (List.pairwise_append.mp honce).2.1).1 t ht hs
      obtain ⟨a', b', hloop, ha', hb'⟩ := getLoop_found hmarks hnow ha hs
      refine .inr ⟨s, a'.length, hlookup.trans hfind, by rw [sessionGet, hloop], ?_, ?_⟩
      · rw [sessionGet, hloop]
        simp
      · intro f hf
        rw [sessionGet, hloop]
        refine ⟨?_, ⟨a ++ f { s with lastAccess := now } :: b, ?_, ?_⟩, ?_⟩
        · rw [← hsettings]
        · dsimp only
          rw [modify_append_cons]
          exact List.rel_append ha' (.cons (.inl rfl) hb')
        · rw [← write_of_wanted ha hs hb]
          exact hperm.map _
        · exact h.numbered.of_ids (by rw [map_id_write hf])

theorem Follows.length_eq (h : Follows clock store ledger) :
    store.sessions.length = ledger.sessions.length := by
  obtain ⟨m, hmarks, hperm⟩ := h.slots
  rw [hmarks.length_eq, hperm.length_eq]

theorem apply_id (access : Access) (s : Session) : (access.apply s).2.id = s.id := by
  cases access with
  | read => rfl
  | varSet key value =>
      simp only [Access.apply, sessionVarSet]
      split
      · rfl
      · split <;> rfl
  | varGet => rfl
  | varRemove key =>
      simp only [Access.apply, sessionVarRemove]
      split <;> rfl
  | clear => rfl

theorem filter_alive_eq (h : List.Forall₂ (Marks clock) l m) (hnow : clock ≤ now) :
    l.filter (alive now) = m.filter (alive now) := by
  induction h with
  | nil => rfl
  | @cons slot s l m hslot _ ih =>
      rw [List.filter_cons, List.filter_cons, ih, hslot.alive_eq hnow]
      by_cases halive : alive now s = true
      · rw [if_pos halive, if_pos halive, hslot.eq_of_alive hnow halive]
      · rw [if_neg halive, if_neg halive]

theorem cleanup_swept (store : SessionStore) (now : Int) :
    Swept (fun s => !alive now s) store.sessions 0
      ((sessionStoreCleanup store now).1, (sessionStoreCleanup store now).2.sessions) := by
  have hdead : (fun s : Session => !s.active || decide (s.expiresAt < now)) =
      fun s => !alive now s := by
    ext1 s
    simp [alive]
  rw [sessionStoreCleanup, hdead]
  exact sweep_spec _ _

/-- What is alive stays, in any order. -/
theorem Follows.cleanup (h : Follows clock store ledger) (hnow : clock ≤ now) :
    (sessionStoreCleanup store now).1 = (ledger.sessions.filter fun s => !alive now s).length ∧
      Follows now (sessionStoreCleanup store now).2
        { ledger with sessions := ledger.sessions.filter (alive now) } := by
  obtain ⟨m, hmarks, hperm⟩ := h.slots
  have hswept := cleanup_swept store now
  have hkeep : (fun s => !!alive now s) = alive now := by
    ext1 s
    exact Bool.not_not _
  have hsame := filter_alive_eq hmarks hnow
  constructor
  · have hsplit : ∀ l : List Session, (l.filter (alive now)).length +
        (l.filter fun s => !alive now s).length = l.length := fun l =>
      length_filter_add_filter_not (alive now) l
    have hkept := congrArg List.length hsame
    have hstore := hsplit store.sessions
    have hledger := hsplit ledger.sessions
    rw [(hperm.filter (alive now)).length_eq] at hkept
    have hlength := h.length_eq
    rw [hswept.removed]
    omega
  · refine ⟨by rw [← h.settings]; rfl, ⟨_, List.forall₂_same.mpr fun s _ => .inl rfl, ?_⟩, ?_⟩
    · have hstays := hswept.perm
      rw [hkeep, hsame] at hstays
      exact hstays.trans (hperm.filter _)
    · exact h.numbered.of_ids (List.filter_sublist.map _)

theorem Follows.create (h : Follows clock store ledger) (hnow : clock ≤ now)
    (hwrap : store.counter.toNat + 1 < 2 ^ 64) (idNow rnd : UInt64) :
    (accessSlot .read (sessionCreate store idNow rnd now)).1 =
        (accessSlot .read (sessionCreate ledger idNow rnd now)).1 ∧
      Follows now (accessSlot .read (sessionCreate store idNow rnd now)).2
        (accessSlot .read (sessionCreate ledger idNow rnd now)).2 := by
  obtain ⟨m, hmarks, hperm⟩ := h.slots
  have hsettings := h.settings
  have hcounter : ledger.counter = store.counter := by rw [← hsettings]
  have httl : ledger.defaultTtl = store.defaultTtl := by rw [← hsettings]
  rw [sessionCreate, sessionCreate, h.length_eq]
  by_cases hfull : sessionMaxCount ≤ ledger.sessions.length
  · rw [if_pos hfull, if_pos hfull]
    exact ⟨rfl, hsettings, ⟨m, hmarks.imp fun _ _ hslot => hslot.later hnow, hperm⟩, h.numbered⟩
  · rw [if_neg hfull, if_neg hfull, hcounter, httl]
    have hread : ∀ (l : List Session) (s : Session) (n : Nat), n = l.length →
        (l ++ [s])[n]? = some s ∧ (l ++ [s]).modify n (fun s => s) = l ++ [s] := by
      rintro l s n rfl
      exact ⟨List.getElem?_concat_length, modify_append_cons (fun s => s) l [] s⟩
    have hstore := hread store.sessions
      ⟨generateSessionId idNow rnd (store.counter + 1), [], now, now, now + store.defaultTtl, true⟩
      ledger.sessions.length h.length_eq.symm
    have hledger := hread ledger.sessions
      ⟨generateSessionId idNow rnd (store.counter + 1), [], now, now, now + store.defaultTtl, true⟩
      ledger.sessions.length rfl
    simp only [accessSlot, Access.apply, hstore.1, hstore.2, hledger.1, hledger.2, true_and]
    refine ⟨by rw [← hsettings], ⟨m ++ [_], ?_, hperm.append_right _⟩, h.numbered.create hwrap rfl⟩
    exact List.rel_append (hmarks.imp fun _ _ hslot => hslot.later hnow)
      (.cons (.inl rfl) .nil)

theorem Follows.access (h : Follows clock store ledger) (hnow : clock ≤ now) (sessionId : CStr)
    (access : Access) :
    (call store ⟨now, .access sessionId access⟩).1 =
        (ledgerCall ledger ⟨now, .access sessionId access⟩).1 ∧
      Follows now (call store ⟨now, .access sessionId access⟩).2
        (ledgerCall ledger ⟨now, .access sessionId access⟩).2 := by
  have hget := h.get hnow sessionId
  simp only [call, ledgerCall]
  generalize sessionGet store sessionId now = result at hget ⊢
  obtain ⟨found, after⟩ := result
  rcases hget with ⟨hlookup, rfl, hfollows⟩ | ⟨s, i, hlookup, rfl, hslot, hfollows⟩
  · rw [hlookup]
    exact ⟨rfl, hfollows⟩
  · dsimp only at hslot
    simp only [hlookup, accessSlot, hslot]
    exact ⟨trivial, hfollows (fun s => (access.apply s).2) (apply_id access)⟩

theorem Follows.destroy (h : Follows clock store ledger) (hnow : clock ≤ now) (sessionId : CStr) :
    (sessionDestroy store sessionId now).1 = (lookup ledger sessionId now).isSome ∧
      Follows now (sessionDestroy store sessionId now).2 { ledger with
        sessions := write ledger.sessions sessionId now fun s => { s with active := false } } := by
  have hget := h.get hnow sessionId
  rw [sessionDestroy]
  generalize sessionGet store sessionId now = result at hget ⊢
  obtain ⟨found, after⟩ := result
  rcases hget with ⟨hlookup, rfl, hfollows⟩ | ⟨s, i, hlookup, rfl, hslot, hfollows⟩
  · have hnone : ∀ s ∈ ledger.sessions, wanted sessionId now s = false := by
      simpa using List.find?_eq_none.mp hlookup
    rw [write_of_none hnone, hlookup]
    exact ⟨rfl, hfollows⟩
  · rw [hlookup]
    exact ⟨rfl, hfollows (fun s => { s with active := false }) fun _ => rfl⟩

theorem Follows.call (h : Follows clock store ledger) (hnow : clock ≤ now)
    (hwrap : store.counter.toNat + 1 < 2 ^ 64) (c : Call) :
    (call store ⟨now, c⟩).1 = (ledgerCall ledger ⟨now, c⟩).1 ∧
      Follows now (call store ⟨now, c⟩).2 (ledgerCall ledger ⟨now, c⟩).2 := by
  have hsettings := h.settings
  obtain ⟨m, hmarks, hperm⟩ := h.slots
  have hlater : List.Forall₂ (Marks now) store.sessions m :=
    hmarks.imp fun _ _ hslot => hslot.later hnow
  cases c with
  | create idNow rnd => exact h.create hnow hwrap idNow rnd
  | access sessionId access => exact h.access hnow sessionId access
  | destroy sessionId =>
      obtain ⟨hdone, hfollows⟩ := h.destroy hnow sessionId
      exact ⟨congrArg Reply.done hdone, hfollows⟩
  | cleanup =>
      obtain ⟨hremoved, hfollows⟩ := h.cleanup hnow
      exact ⟨congrArg Reply.removed hremoved, hfollows⟩
  | setTtl ttlSeconds =>
      simp only [ledgerCall, Sessions.call, sessionStoreSetTtl]
      split
      · exact ⟨trivial, by rw [← hsettings], ⟨m, hlater, hperm⟩, h.numbered⟩
      · exact ⟨trivial, hsettings, ⟨m, hlater, hperm⟩, h.numbered⟩
  | setCookie name path domain secure httpOnly =>
      exact ⟨rfl, by rw [← hsettings]; rfl, ⟨m, hlater, hperm⟩, h.numbered⟩

/-! ## Identifiers of a run -/

def storeStep (store : SessionStore) (op : Op) : SessionStore := (call store op).2

theorem map_id_getLoop (sessionId : CStr) (now : Int) (sessions : List Session) :
    (getLoop sessionId now sessions).2.map Session.id = sessions.map Session.id := by
  induction sessions with
  | nil => rfl
  | cons s rest ih =>
      simp only [getLoop]
      split
      · rw [List.map_cons, List.map_cons, ih]
      · split
        · rw [List.map_cons, List.map_cons, ih]
        · split
          · rfl
          · rw [List.map_cons, List.map_cons, ih]

theorem map_id_accessSlot (access : Access) (r : Option Nat × SessionStore) :
    (accessSlot access r).2.sessions.map Session.id = r.2.sessions.map Session.id := by
  obtain ⟨found, store⟩ := r
  cases found with
  | none => rfl
  | some i =>
      rw [accessSlot]
      split
      · rfl
      · exact map_modify_of_forall (apply_id access) store.sessions i

theorem map_id_destroy (store : SessionStore) (sessionId : CStr) (now : Int) :
    (sessionDestroy store sessionId now).2.sessions.map Session.id =
      store.sessions.map Session.id := by
  have hloop := map_id_getLoop sessionId now store.sessions
  rw [sessionDestroy, sessionGet]
  generalize getLoop sessionId now store.sessions = r at hloop
  obtain ⟨found, sessions⟩ := r
  cases found with
  | none => exact hloop
  | some i =>
      have hids := map_modify_of_forall (f := fun s : Session => { s with active := false })
        (g := Session.id) (fun _ => rfl) sessions i
      exact hids.trans hloop

theorem create_eq (hfull : ¬sessionMaxCount ≤ store.sessions.length) (idNow rnd : UInt64)
    (now : Int) :
    sessionCreate store idNow rnd now = (some store.sessions.length, { store with
      sessions := store.sessions ++ [⟨generateSessionId idNow rnd (store.counter + 1), [], now, now,
        now + store.defaultTtl, true⟩]
      counter := store.counter + 1 }) := by
  rw [sessionCreate, if_neg hfull]

theorem counter_accessSlot (access : Access) (r : Option Nat × SessionStore) :
    (accessSlot access r).2.counter = r.2.counter := by
  obtain ⟨found, store⟩ := r
  cases found with
  | none => rfl
  | some i =>
      rw [accessSlot]
      split <;> rfl

/-- Which identifiers there are changes with a new session and with a cleanup. -/
theorem map_id_call (store : SessionStore) (now : Int) (c : Call) :
    ((storeStep store ⟨now, c⟩).counter = store.counter ∧
        (storeStep store ⟨now, c⟩).sessions.map Session.id = store.sessions.map Session.id) ∨
      (∃ s idNow rnd, s.id = generateSessionId idNow rnd (store.counter + 1) ∧
        (storeStep store ⟨now, c⟩).counter = store.counter + 1 ∧
        (storeStep store ⟨now, c⟩).sessions.map Session.id =
          (store.sessions ++ [s]).map Session.id) ∨
      c = .cleanup := by
  cases c with
  | create idNow rnd =>
      rw [storeStep, call]
      dsimp only
      rw [map_id_accessSlot, counter_accessSlot]
      by_cases hfull : sessionMaxCount ≤ store.sessions.length
      · rw [sessionCreate, if_pos hfull]
        exact .inl ⟨rfl, rfl⟩
      · rw [create_eq hfull]
        exact .inr (.inl ⟨_, idNow, rnd, rfl, rfl, rfl⟩)
  | access sessionId access =>
      rw [storeStep, call]
      dsimp only
      rw [map_id_accessSlot, counter_accessSlot]
      exact .inl ⟨rfl, map_id_getLoop sessionId now store.sessions⟩
  | destroy sessionId =>
      refine .inl ⟨?_, map_id_destroy store sessionId now⟩
      simp only [storeStep, call, sessionDestroy, sessionGet]
      obtain ⟨found, sessions⟩ := getLoop sessionId now store.sessions
      cases found <;> rfl
  | cleanup => exact .inr (.inr rfl)
  | setTtl ttlSeconds =>
      simp only [storeStep, call, sessionStoreSetTtl]
      split <;> exact .inl ⟨rfl, rfl⟩
  | setCookie => exact .inl ⟨rfl, rfl⟩

theorem counter_call (store : SessionStore) (op : Op) :
    (storeStep store op).counter.toNat ≤ store.counter.toNat + 1 := by
  obtain ⟨now, c⟩ := op
  rcases map_id_call store now c with ⟨hcounter, -⟩ | ⟨s, idNow, rnd, -, hcounter, -⟩ | rfl
  · rw [hcounter]
    exact Nat.le_succ _
  · rw [hcounter, UInt64.toNat_add]
    exact Nat.mod_le _ _
  · exact Nat.le_succ _

/-! ## Runs -/

theorem run_follows {ops : List Op} (h : Follows clock store ledger) (outputs : List Reply)
    (hclock : ops.Pairwise fun a b => a.now ≤ b.now) (hfirst : ∀ op ∈ ops, clock ≤ op.now)
    (hcount : store.counter.toNat + ops.length < 2 ^ 64) :
    (run step (outputs, store) ops).1 = (run ledgerStep (outputs, ledger) ops).1 ∧
      ∃ last, (∀ now, clock ≤ now → (∀ op ∈ ops, op.now ≤ now) → last ≤ now) ∧
        Follows last (run step (outputs, store) ops).2
          (run ledgerStep (outputs, ledger) ops).2 := by
  induction ops generalizing clock store ledger outputs with
  | nil => exact ⟨rfl, clock, fun _ hnow _ => hnow, h⟩
  | cons op ops ih =>
      obtain ⟨now, c⟩ := op
      obtain ⟨hop, hclock⟩ := List.pairwise_cons.mp hclock
      rw [List.length_cons] at hcount
      have hnow : clock ≤ now := hfirst ⟨now, c⟩ List.mem_cons_self
      obtain ⟨hreply, hfollows⟩ := h.call hnow (by omega) c
      have hcounter : (call store ⟨now, c⟩).2.counter.toNat ≤ store.counter.toNat + 1 :=
        counter_call store ⟨now, c⟩
      rw [run_cons, run_cons, step, ledgerStep, hreply]
      obtain ⟨houtputs, last, hlast, hend⟩ := ih hfollows _ hclock hop (by omega)
      refine ⟨houtputs, last, ?_, hend⟩
      intro later hlater hall
      apply hlast later (hall _ List.mem_cons_self)
      exact fun op hmem => hall op (List.mem_cons_of_mem _ hmem)

theorem init_follows (clock : Int) : Follows clock sessionStoreInit sessionStoreInit :=
  ⟨rfl, ⟨[], .nil, .refl _⟩, List.nodup_nil, by simp [sessionStoreInit]⟩

/-- Every reply of a store is that of the ledger. -/
theorem store_refines_ledger {ops : List Op} (hclock : ops.Pairwise fun a b => a.now ≤ b.now)
    (hcount : ops.length < 2 ^ 64) :
    (run step ([], sessionStoreInit) ops).1 = (run ledgerStep ([], sessionStoreInit) ops).1 := by
  cases ops with
  | nil => rfl
  | cons op ops =>
      have hfirst : ∀ later ∈ op :: ops, op.now ≤ later.now :=
        List.forall_mem_cons.mpr ⟨Int.le_refl _, (List.pairwise_cons.mp hclock).1⟩
      have hzero : sessionStoreInit.counter.toNat = 0 := rfl
      exact (run_follows (init_follows op.now) [] hclock hfirst (by omega)).1

theorem store_refines_ledger_expiry :
    (run step ([], sessionStoreInit)
      [⟨5, .create 5 7⟩, ⟨6, .setTtl 10⟩, ⟨6, .create 6 8⟩,
        ⟨17, .access (generateSessionId 6 8 2) .read⟩, ⟨17, .cleanup⟩,
        ⟨18, .access (generateSessionId 5 7 1) (.varSet [97] [98])⟩]).1 =
    (run ledgerStep ([], sessionStoreInit)
      [⟨5, .create 5 7⟩, ⟨6, .setTtl 10⟩, ⟨6, .create 6 8⟩,
        ⟨17, .access (generateSessionId 6 8 2) .read⟩, ⟨17, .cleanup⟩,
        ⟨18, .access (generateSessionId 5 7 1) (.varSet [97] [98])⟩]).1 :=
  store_refines_ledger (by simp) (by simp)

/-! ## Pointers -/

/-- The identifier that is read through a pointer. -/
def idAt (store : SessionStore) (i : Nat) : Option CStr := store.sessions[i]?.map Session.id

/-- The session of a slot is not moved by a cleanup, and no other one is moved there. -/
def SlotStays (store : SessionStore) (now : Int) (i : Nat) : Prop :=
  i < (store.sessions.filter (alive now)).length ∧
    ∃ s, store.sessions[i]? = some s ∧ alive now s = true

theorem idAt_eq (store : SessionStore) (i : Nat) :
    idAt store i = (store.sessions.map Session.id)[i]? := (List.getElem?_map ..).symm

theorem numbered_step (h : Numbered store.counter store.sessions)
    (hwrap : store.counter.toNat + 1 < 2 ^ 64) (op : Op) :
    Numbered (storeStep store op).counter (storeStep store op).sessions := by
  obtain ⟨now, c⟩ := op
  rcases map_id_call store now c with ⟨hcounter, hids⟩ |
    ⟨s, idNow, rnd, hs, hcounter, hids⟩ | rfl
  · rw [hcounter]
    exact h.of_ids (by rw [hids])
  · rw [hcounter]
    exact (h.create hwrap hs).of_ids (by rw [hids])
  · exact (h.of_ids (List.filter_sublist.map _)).perm (cleanup_swept store now).perm

theorem idAt_cleanup_iff {i : Nat} {sid : CStr}
    (h : Numbered store.counter store.sessions) (hslot : idAt store i = some sid) (now : Int) :
    idAt (storeStep store ⟨now, .cleanup⟩) i = some sid ↔ SlotStays store now i := by
  have hswept := cleanup_swept store now
  have hkeep : (fun s => !!alive now s) = alive now := by
    ext1 s
    exact Bool.not_not _
  have hperm := hswept.perm
  have hstays := hswept.stays
  rw [hkeep] at hperm hstays
  obtain ⟨s, hs, hid⟩ := Option.map_eq_some_iff.mp hslot
  constructor
  · intro hafter
    obtain ⟨t, ht, htid⟩ := Option.map_eq_some_iff.mp hafter
    have htmem := hperm.mem_iff.mp (List.mem_of_getElem? ht)
    rw [List.mem_filter] at htmem
    -- another session with this identifier is not in the store
    have hsame : t = s := List.inj_on_of_nodup_map h.nodup htmem.1 (List.mem_of_getElem? hs)
      (htid.trans hid.symm)
    refine ⟨?_, s, hs, hsame ▸ htmem.2⟩
    rw [← hperm.length_eq]
    exact (List.getElem?_eq_some_iff.mp ht).1
  · rintro ⟨hi, t, ht, halive⟩
    rw [hs, Option.some.injEq] at ht
    have hafter := hstays i s hi hs (by rw [ht, halive]; rfl)
    rw [idAt]
    exact Option.map_eq_some_iff.mpr ⟨s, hafter, hid⟩

theorem idAt_step_iff {i : Nat} {sid : CStr}
    (h : Numbered store.counter store.sessions) (hslot : idAt store i = some sid) (op : Op) :
    idAt (storeStep store op) i = some sid ↔ (op.call = .cleanup → SlotStays store op.now i) := by
  obtain ⟨now, c⟩ := op
  by_cases hc : c = .cleanup
  · subst hc
    rw [idAt_cleanup_iff h hslot]
    exact ⟨fun hstays _ => hstays, fun hstays => hstays rfl⟩
  · have hafter : idAt (storeStep store ⟨now, c⟩) i = some sid := by
      rw [idAt_eq] at hslot ⊢
      rcases map_id_call store now c with ⟨-, hids⟩ | ⟨s, -, -, -, -, hids⟩ | hcleanup
      · rw [hids, hslot]
      · rw [hids, List.map_append, List.getElem?_append_left, hslot]
        exact (List.getElem?_eq_some_iff.mp hslot).1
      · exact absurd hcleanup hc
    exact ⟨fun _ hcleanup => absurd hcleanup hc, fun _ => hafter⟩

theorem pointer_stays {i : Nat} {sid : CStr} {ops : List Op}
    (h : Numbered store.counter store.sessions) (hcount : store.counter.toNat + ops.length < 2 ^ 64)
    (hslot : idAt store i = some sid) :
    (∀ n, idAt (run storeStep store (ops.take n)) i = some sid) ↔
      Always storeStep (fun store op => op.call = .cleanup → SlotStays store op.now i) store
        ops := by
  induction ops generalizing store with
  | nil => simp [Always, run, hslot]
  | cons op ops ih =>
      rw [List.length_cons] at hcount
      have hstep := numbered_step h (by omega) op
      have hcounter := counter_call store op
      have hiff := idAt_step_iff h hslot op
      rw [Always, ← hiff]
      constructor
      · intro hall
        have hafter : idAt (storeStep store op) i = some sid := hall 1
        exact ⟨hafter, (ih hstep (by omega) hafter).mp fun n => hall (n + 1)⟩
      · rintro ⟨hafter, hrest⟩ n
        cases n with
        | zero => exact hslot
        | succ n => exact (ih hstep (by omega) hafter).mpr hrest n

theorem run_numbered {ops : List Op}
    (h : Numbered store.counter store.sessions)
    (hcount : store.counter.toNat + ops.length < 2 ^ 64) :
    Numbered (run storeStep store ops).counter (run storeStep store ops).sessions ∧
      (run storeStep store ops).counter.toNat ≤ store.counter.toNat + ops.length := by
  induction ops generalizing store with
  | nil => exact ⟨h, Nat.le_refl _⟩
  | cons op ops ih =>
      rw [List.length_cons] at hcount ⊢
      have hcounter := counter_call store op
      obtain ⟨hnumbered, hbound⟩ := ih (numbered_step h (by omega) op) (by omega)
      rw [run_cons]
      exact ⟨hnumbered, by omega⟩

/-- A pointer to a session stays one as long as no cleanup moves the session, or removes it: until
then it is alive at each cleanup and in one of the first slots, as many as there are sessions
alive. -/
theorem pointer_stays_iff (before ops : List Op) (hcount : before.length + ops.length < 2 ^ 64)
    {i : Nat} {sid : CStr} (hslot : idAt (run storeStep sessionStoreInit before) i = some sid) :
    (∀ n, idAt (run storeStep sessionStoreInit (before ++ ops.take n)) i = some sid) ↔
      Always storeStep (fun store op => op.call = .cleanup → SlotStays store op.now i)
        (run storeStep sessionStoreInit before) ops := by
  have hzero : sessionStoreInit.counter.toNat = 0 := rfl
  have hinit : Numbered sessionStoreInit.counter sessionStoreInit.sessions :=
    ⟨List.nodup_nil, by simp [sessionStoreInit]⟩
  have hbefore : sessionStoreInit.counter.toNat + before.length < 2 ^ 64 := by omega
  obtain ⟨hnumbered, hbound⟩ := run_numbered hinit hbefore
  rw [← pointer_stays hnumbered (by omega) hslot]
  simp only [run_append]

theorem pointer_stays_first_slot :
    (∀ n, idAt (run storeStep sessionStoreInit ([⟨5, .create 5 7⟩, ⟨6, .create 6 8⟩] ++
        [⟨7, .destroy (generateSessionId 6 8 2)⟩, ⟨8, .cleanup⟩].take n)) 0 =
          some (generateSessionId 5 7 1)) ↔
      Always storeStep (fun store op => op.call = .cleanup → SlotStays store op.now 0)
        (run storeStep sessionStoreInit [⟨5, .create 5 7⟩, ⟨6, .create 6 8⟩])
        [⟨7, .destroy (generateSessionId 6 8 2)⟩, ⟨8, .cleanup⟩] :=
  pointer_stays_iff _ _ (by simp) (by decide)

end MiniBackend.WebServer.Proofs.SessionLedger
