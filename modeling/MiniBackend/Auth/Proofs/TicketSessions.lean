import MiniBackend.Auth.SsoModel
import MiniBackend.Lib.Runs

/-!
# Tickets and the sessions they are for

`sso_create_ticket` takes any session id with any user name, and `sso_validate_ticket` does not
look at the session.  A ticket is good for its service provider and is accepted once, but its
session may have ended or may never have been there.
-/

namespace MiniBackend.Auth.Proofs.TicketSessions

open MiniBackend.Auth.Sso MiniBackend.Lib.CString MiniBackend.Lib.CArray MiniBackend.Lib.Runs

/-! ## Runs -/

inductive Op
  | registerSp (entityId acsUrl sloUrl certPem : CStr) (protocol : SsoProtocol)
      (binding : SsoBinding)
  | establishTrust (spEntityId : CStr)
  | createUser (username email displayName : CStr) (now : Int)
  | authenticate (username spEntityId : CStr) (sidSize asSize : Option Nat) (draws : Draws)
  | createTicket (username spEntityId sessionId : CStr) (tSize : Option Nat) (draws : Draws)
  | validateTicket (ticket : CStr) (spEntityId : Option CStr) (uSize asSize : Option Nat)
      (now : Int)
  | validateSession (sessionId : CStr) (uSize : Option Nat) (now accessed : Int)
  | logout (sessionId : CStr)

structure Established where
  sessionId : CStr
  username : CStr
  expiresAt : Int
deriving DecidableEq

structure Issued where
  ticket : CStr
  username : CStr
  sessionId : CStr
  spEntityId : CStr
deriving DecidableEq

/-- The tables with the last reading of the clock, the sessions and the tickets so far, the
sessions that were logged out and the tickets that were accepted. -/
structure History where
  model : SsoModel
  clock : Int
  established : List Established
  issued : List Issued
  loggedOut : List CStr
  accepted : List CStr

def start (idp : SsoIdentityProvider) (now : Int) : History :=
  ⟨{ ssoModelInit with idp := idp }, now, [], [], [], []⟩

def step (s : History) : Op → History
  | .registerSp entityId acsUrl sloUrl certPem protocol binding =>
      { s with
        model := (ssoRegisterSp s.model entityId acsUrl sloUrl certPem protocol binding).2 }
  | .establishTrust spEntityId => { s with model := (ssoEstablishTrust s.model spEntityId).2 }
  | .createUser username email displayName now =>
      { s with model := (ssoCreateUser s.model username email displayName now).2, clock := now }
  | .authenticate username spEntityId sidSize asSize draws =>
      let (result, _, _, model) :=
        ssoAuthenticateUser s.model username spEntityId sidSize asSize draws
      { s with
        model := model
        clock := draws.asserted
        established :=
          if result = 0 then
            s.established ++
              [⟨draws.id, strncpy username (ssoMaxUsernameLen - 1), draws.expiry + 3600⟩]
          else s.established }
  | .createTicket username spEntityId sessionId tSize draws =>
      let (result, _, model) :=
        ssoCreateTicket s.model username spEntityId sessionId tSize draws
      { s with
        model := model
        clock := draws.asserted
        issued :=
          if result = 0 then
            s.issued ++ [⟨draws.id, strncpy username (ssoMaxUsernameLen - 1),
              strncpy sessionId (ssoMaxSessionIdLen - 1), spEntityId⟩]
          else s.issued }
  | .validateTicket ticket spEntityId uSize asSize now =>
      let (result, _, _, model) := ssoValidateTicket s.model ticket spEntityId uSize asSize now
      { s with
        model := model
        clock := now
        accepted := if result = 0 then ticket :: s.accepted else s.accepted }
  | .validateSession sessionId uSize now accessed =>
      { s with
        model := (ssoValidateSession s.model sessionId uSize now accessed).2.2
        clock := accessed }
  | .logout sessionId =>
      let (result, model) := ssoLogout s.model sessionId
      { s with
        model := model
        loggedOut := if result = 0 then sessionId :: s.loggedOut else s.loggedOut }

def Live (s : History) (sessionId username : CStr) (now : Int) : Prop :=
  ∃ session ∈ s.established, session.sessionId = sessionId ∧ session.username = username ∧
    now ≤ session.expiresAt ∧ sessionId ∉ s.loggedOut

/-- What is asked of a ticket that is accepted with the given user name. -/
structure TicketSound (s : History) (ticket : CStr) (spEntityId : Option CStr)
    (username : Option CStr) (uSize : Option Nat) (now : Int) : Prop where
  issued : ∃ issue ∈ s.issued, issue.ticket = ticket ∧
    (∀ sp ∈ spEntityId, issue.spEntityId = sp) ∧
    ssoIsSpTrusted s.model issue.spEntityId = true ∧
    username = outBuffer uSize issue.username ∧ Live s issue.sessionId issue.username now
  once : ticket ∉ s.accepted

def CallHolds (s : History) : Op → Prop
  | .validateTicket ticket spEntityId uSize asSize now =>
      let (result, username, _, _) :=
        ssoValidateTicket s.model ticket spEntityId uSize asSize now
      result = 0 → TicketSound s ticket spEntityId username uSize now
  | _ => True

def Draws.Forward (draws : Draws) (clock : Int) : Prop :=
  clock ≤ draws.created ∧ draws.created ≤ draws.expiry ∧ draws.expiry ≤ draws.accessed ∧
    draws.accessed ≤ draws.asserted

/-- The clock does not go back and a generated id is new. -/
def Admissible (s : History) : Op → Prop
  | .createUser _ _ _ now => s.clock ≤ now
  | .authenticate _ _ _ _ draws =>
      Draws.Forward draws s.clock ∧ ∀ session ∈ s.model.sessions, session.sessionId ≠ draws.id
  | .createTicket _ _ _ _ draws =>
      Draws.Forward draws s.clock ∧ ∀ t ∈ s.model.tickets, t.ticket ≠ draws.id
  | .validateTicket _ _ _ _ now => s.clock ≤ now
  | .validateSession _ _ now accessed => s.clock ≤ now ∧ now ≤ accessed
  | .registerSp .. | .establishTrust _ | .logout _ => True

def Acceptable (t : SsoTicket) (spEntityId : Option CStr) (now : Int) : Prop :=
  t.valid = true ∧ t.consumed = false ∧ now ≤ t.expiresAt ∧ ∀ sp ∈ spEntityId, t.spEntityId = sp

def HasSession (model : SsoModel) (sessionId username : CStr) (now : Int) : Prop :=
  ∃ session ∈ model.sessions, session.sessionId = sessionId ∧ session.username = username ∧
    session.valid = true ∧ now ≤ session.expiresAt

/-- A ticket with nothing against it is only validated while its session is in the table. -/
def SessionKept (s : History) : Op → Prop
  | .validateTicket ticket spEntityId _ _ now =>
      ∀ t ∈ s.model.tickets, t.ticket = ticket → Acceptable t spEntityId now →
        HasSession s.model t.sessionId t.username now
  | _ => True

/-! ## Sessions -/

/-- The session table beside the history. -/
structure SessionsSound (sessions : List SsoSession) (established : List Established)
    (loggedOut : List CStr) (clock : Int) : Prop where
  records : sessions.map (fun session =>
    (⟨session.sessionId, session.username, session.expiresAt⟩ : Established)) = established
  nodup : (sessions.map (·.sessionId)).Nodup
  ended : ∀ session ∈ sessions, session.valid = false →
    session.sessionId ∈ loggedOut ∨ session.expiresAt < clock
  out : ∀ session ∈ sessions, session.sessionId ∈ loggedOut → session.valid = false
  known : ∀ sessionId ∈ loggedOut, ∃ session ∈ sessions, session.sessionId = sessionId

section

variable {sessions : List SsoSession} {established : List Established} {loggedOut : List CStr}
  {clock : Int}

theorem SessionsSound.later (h : SessionsSound sessions established loggedOut clock) {now : Int}
    (hnow : clock ≤ now) : SessionsSound sessions established loggedOut now where
  records := h.records
  nodup := h.nodup
  ended session hsession hvalid :=
    (h.ended session hsession hvalid).imp_right fun hexpired => hexpired.trans_le hnow
  out := h.out
  known := h.known

theorem SessionsSound.append (h : SessionsSound sessions established loggedOut clock)
    {session : SsoSession} (hvalid : session.valid = true)
    (hfresh : ∀ other ∈ sessions, other.sessionId ≠ session.sessionId) :
    SessionsSound (sessions ++ [session])
      (established ++ [⟨session.sessionId, session.username, session.expiresAt⟩]) loggedOut
      clock where
  records := by
    rw [List.map_append, h.records]
    rfl
  nodup := by
    rw [List.map_append, List.nodup_append]
    refine ⟨h.nodup, List.nodup_singleton _, ?_⟩
    intro id hid id' hid' heq
    obtain ⟨other, hother, rfl⟩ := List.mem_map.mp hid
    rw [List.map_singleton, List.mem_singleton] at hid'
    exact hfresh other hother (heq.trans hid')
  ended other hother hended := by
    rcases List.mem_append.mp hother with hold | hnew
    · exact h.ended other hold hended
    · rw [List.mem_singleton.mp hnew, hvalid] at hended
      contradiction
  out other hother hout := by
    rcases List.mem_append.mp hother with hold | hnew
    · exact h.out other hold hout
    · rw [List.mem_singleton.mp hnew] at hout
      obtain ⟨old, hold, heq⟩ := h.known _ hout
      exact absurd heq (hfresh old hold)
  known sessionId hout := by
    obtain ⟨old, hold, heq⟩ := h.known sessionId hout
    exact ⟨old, List.mem_append_left _ hold, heq⟩

theorem SessionsSound.update (h : SessionsSound sessions established loggedOut clock)
    {sessionId : CStr} {f : SsoSession → SsoSession} {loggedOut' : List CStr}
    (hid : ∀ x, (f x).sessionId = x.sessionId) (hname : ∀ x, (f x).username = x.username)
    (hexpiry : ∀ x, (f x).expiresAt = x.expiresAt)
    (hended : ∀ x ∈ sessions, x.sessionId = sessionId → (f x).valid = false →
      sessionId ∈ loggedOut' ∨ x.expiresAt < clock)
    (hout : ∀ x ∈ sessions, x.sessionId = sessionId → sessionId ∈ loggedOut' →
      (f x).valid = false)
    (hlogged : ∀ id, id ≠ sessionId → (id ∈ loggedOut' ↔ id ∈ loggedOut))
    (hknown : sessionId ∈ loggedOut' → ∃ x ∈ sessions, x.sessionId = sessionId) :
    SessionsSound (updateFirst (·.sessionId == sessionId) f sessions) established loggedOut'
      clock where
  records := by
    rw [← h.records]
    apply map_updateFirst
    intro x
    rw [hid, hname, hexpiry]
  nodup := by
    rw [map_updateFirst hid]
    exact h.nodup
  ended session hsession hvalid := by
    rcases mem_updateFirst_beq h.nodup hsession with ⟨hold, hne⟩ | ⟨x, hx, hkey, rfl⟩
    · rw [hlogged _ hne]
      exact h.ended session hold hvalid
    · rw [hid, hexpiry, hkey]
      exact hended x hx hkey hvalid
  out session hsession hmem := by
    rcases mem_updateFirst_beq h.nodup hsession with ⟨hold, hne⟩ | ⟨x, hx, hkey, rfl⟩
    · rw [hlogged _ hne] at hmem
      exact h.out session hold hmem
    · rw [hid, hkey] at hmem
      exact hout x hx hkey hmem
  known id hmem := by
    have hold : ∃ x ∈ sessions, x.sessionId = id := by
      by_cases hne : id = sessionId
      · rw [hne] at hmem ⊢
        exact hknown hmem
      · exact h.known id ((hlogged id hne).mp hmem)
    obtain ⟨x, hx, hkey⟩ := hold
    have hids := List.mem_map_of_mem (f := fun x : SsoSession => x.sessionId) hx
    rw [← map_updateFirst hid, hkey] at hids
    exact List.mem_map.mp hids

theorem SessionsSound.access (h : SessionsSound sessions established loggedOut clock)
    (sessionId : CStr) (accessed : Int) :
    SessionsSound
      (updateFirst (·.sessionId == sessionId) ({ · with lastAccessedAt := accessed }) sessions)
      established loggedOut clock := by
  refine h.update (fun _ => rfl) (fun _ => rfl) (fun _ => rfl) ?_ ?_ ?_ ?_
  · intro x hx hkey hvalid
    rw [← hkey]
    exact h.ended x hx hvalid
  · intro x hx hkey hmem
    exact h.out x hx (hkey ▸ hmem)
  · exact fun _ _ => Iff.rfl
  · exact h.known sessionId

theorem SessionsSound.expire (h : SessionsSound sessions established loggedOut clock)
    {session : SsoSession} (hsession : session ∈ sessions) (hexpired : session.expiresAt < clock) :
    SessionsSound
      (updateFirst (·.sessionId == session.sessionId) ({ · with valid := false }) sessions)
      established loggedOut clock := by
  refine h.update (fun _ => rfl) (fun _ => rfl) (fun _ => rfl) ?_ ?_ ?_ ?_
  · intro x hx hkey _
    rw [List.inj_on_of_nodup_map h.nodup hx hsession hkey]
    exact Or.inr hexpired
  · exact fun _ _ _ _ => rfl
  · exact fun _ _ => Iff.rfl
  · exact h.known session.sessionId

theorem SessionsSound.logout (h : SessionsSound sessions established loggedOut clock)
    {session : SsoSession} (hsession : session ∈ sessions) :
    SessionsSound
      (updateFirst (·.sessionId == session.sessionId) ({ · with valid := false }) sessions)
      established (session.sessionId :: loggedOut) clock := by
  refine h.update (fun _ => rfl) (fun _ => rfl) (fun _ => rfl) ?_ ?_ ?_ ?_
  · exact fun _ _ _ _ => Or.inl List.mem_cons_self
  · exact fun _ _ _ _ => rfl
  · intro id hne
    rw [List.mem_cons]
    exact or_iff_right hne
  · exact fun _ => ⟨session, hsession, rfl⟩

end

theorem SessionsSound.live_iff {s : History}
    (h : SessionsSound s.model.sessions s.established s.loggedOut s.clock) {now : Int}
    (hnow : s.clock ≤ now) (sessionId username : CStr) :
    Live s sessionId username now ↔ HasSession s.model sessionId username now := by
  constructor
  · intro ⟨record, hrecord, hid, hname, hexpiry, hout⟩
    rw [← h.records, List.mem_map] at hrecord
    obtain ⟨session, hsession, rfl⟩ := hrecord
    refine ⟨session, hsession, hid, hname, ?_, hexpiry⟩
    cases hvalid : session.valid with
    | true => rfl
    | false =>
        rcases h.ended session hsession hvalid with hlogged | hexpired
        · rw [← hid] at hout
          exact absurd hlogged hout
        · exact absurd (hexpired.trans_le hnow) (not_lt.mpr hexpiry)
  · intro ⟨session, hsession, hid, hname, hvalid, hexpiry⟩
    refine ⟨⟨session.sessionId, session.username, session.expiresAt⟩, ?_, hid, hname, hexpiry, ?_⟩
    · rw [← h.records]
      exact List.mem_map_of_mem hsession
    · intro hlogged
      rw [← hid] at hlogged
      rw [h.out session hsession hlogged] at hvalid
      contradiction

/-! ## Service providers -/

theorem trusted_registerSp {model : SsoModel} {sp : CStr} (h : ssoIsSpTrusted model sp = true)
    (entityId acsUrl sloUrl certPem : CStr) (protocol : SsoProtocol) (binding : SsoBinding) :
    ssoIsSpTrusted
      (ssoRegisterSp model entityId acsUrl sloUrl certPem protocol binding).2 sp = true := by
  unfold ssoRegisterSp
  split
  · exact h
  · split
    · exact h
    · unfold ssoIsSpTrusted at h ⊢
      cases hfind : model.sps.find? (·.entityId == sp) with
      | none =>
          rw [hfind] at h
          contradiction
      | some found =>
          rw [hfind] at h
          rw [List.find?_append, hfind]
          exact h

theorem trusted_establishTrust {model : SsoModel} {sp : CStr}
    (h : ssoIsSpTrusted model sp = true) (spEntityId : CStr) :
    ssoIsSpTrusted (ssoEstablishTrust model spEntityId).2 sp = true := by
  unfold ssoEstablishTrust
  split
  · exact h
  · unfold ssoIsSpTrusted at h ⊢
    by_cases hsame : sp = spEntityId
    · rw [hsame] at h ⊢
      rw [find?_updateFirst]
      · cases hfind : model.sps.find? (·.entityId == spEntityId) with
        | none =>
            rw [hfind] at h
            contradiction
        | some found => rfl
      · exact fun _ hkey => hkey
    · rw [find?_updateFirst_of_disjoint]
      · exact h
      · intro a hkey
        rw [beq_iff_eq] at hkey
        rw [hkey, beq_eq_false_iff_ne]
        exact ⟨Ne.symm hsame, Ne.symm hsame⟩

theorem short_registerSp {model : SsoModel}
    (h : ∀ sp ∈ model.sps, sp.entityId.length ≤ ssoMaxEntityIdLen - 1)
    (entityId acsUrl sloUrl certPem : CStr) (protocol : SsoProtocol) (binding : SsoBinding) :
    ∀ sp ∈ (ssoRegisterSp model entityId acsUrl sloUrl certPem protocol binding).2.sps,
      sp.entityId.length ≤ ssoMaxEntityIdLen - 1 := by
  unfold ssoRegisterSp
  split
  · exact h
  · split
    · exact h
    · intro sp hsp
      rcases List.mem_append.mp hsp with hold | hnew
      · exact h sp hold
      · rw [List.mem_singleton.mp hnew]
        exact List.length_take_le _ _

theorem short_establishTrust {model : SsoModel}
    (h : ∀ sp ∈ model.sps, sp.entityId.length ≤ ssoMaxEntityIdLen - 1) (spEntityId : CStr) :
    ∀ sp ∈ (ssoEstablishTrust model spEntityId).2.sps,
      sp.entityId.length ≤ ssoMaxEntityIdLen - 1 := by
  unfold ssoEstablishTrust
  split
  · exact h
  · intro sp hsp
    rcases mem_updateFirst hsp with hold | ⟨old, hold, -, rfl⟩
    · exact h sp hold
    · exact h old hold

/-! ## Tickets -/

structure TicketsSound (model : SsoModel) (issued : List Issued) (accepted : List CStr) :
    Prop where
  records : model.tickets.map (fun t =>
    (⟨t.ticket, t.username, t.sessionId, t.spEntityId⟩ : Issued)) = issued
  nodup : (model.tickets.map (·.ticket)).Nodup
  consumed : ∀ t ∈ model.tickets, t.ticket ∈ accepted → t.consumed = true
  known : ∀ ticket ∈ accepted, ∃ t ∈ model.tickets, t.ticket = ticket
  trusted : ∀ t ∈ model.tickets, ssoIsSpTrusted model t.spEntityId = true
  short : ∀ sp ∈ model.sps, sp.entityId.length ≤ ssoMaxEntityIdLen - 1

section

variable {model : SsoModel} {issued : List Issued} {accepted : List CStr}

theorem TicketsSound.keep (h : TicketsSound model issued accepted) {model' : SsoModel}
    (htickets : model'.tickets = model.tickets)
    (htrust : ∀ sp, ssoIsSpTrusted model sp = true → ssoIsSpTrusted model' sp = true)
    (hshort : ∀ sp ∈ model'.sps, sp.entityId.length ≤ ssoMaxEntityIdLen - 1) :
    TicketsSound model' issued accepted := by
  refine ⟨?_, ?_, ?_, ?_, ?_, hshort⟩
  · rw [htickets]
    exact h.records
  · rw [htickets]
    exact h.nodup
  · rw [htickets]
    exact h.consumed
  · rw [htickets]
    exact h.known
  · rw [htickets]
    exact fun t ht => htrust _ (h.trusted t ht)

theorem TicketsSound.same (h : TicketsSound model issued accepted) {model' : SsoModel}
    (htickets : model'.tickets = model.tickets) (hsps : model'.sps = model.sps) :
    TicketsSound model' issued accepted := by
  apply h.keep htickets
  · intro sp htrusted
    rw [ssoIsSpTrusted, hsps]
    exact htrusted
  · rw [hsps]
    exact h.short

theorem TicketsSound.short_of_trusted (h : TicketsSound model issued accepted) {sp : CStr}
    (htrusted : ssoIsSpTrusted model sp = true) : sp.length ≤ ssoMaxEntityIdLen - 1 := by
  unfold ssoIsSpTrusted at htrusted
  cases hfind : model.sps.find? (·.entityId == sp) with
  | none =>
      rw [hfind] at htrusted
      contradiction
  | some found =>
      have hid : found.entityId = sp := by simpa using List.find?_some hfind
      rw [← hid]
      exact h.short found (List.mem_of_find?_eq_some hfind)

theorem TicketsSound.append (h : TicketsSound model issued accepted) {t : SsoTicket}
    (hfresh : ∀ other ∈ model.tickets, other.ticket ≠ t.ticket)
    (htrusted : ssoIsSpTrusted model t.spEntityId = true) :
    TicketsSound { model with tickets := model.tickets ++ [t] }
      (issued ++ [⟨t.ticket, t.username, t.sessionId, t.spEntityId⟩]) accepted where
  records := by
    rw [List.map_append, h.records]
    rfl
  nodup := by
    rw [List.map_append, List.nodup_append]
    refine ⟨h.nodup, List.nodup_singleton _, ?_⟩
    intro id hid id' hid' heq
    obtain ⟨other, hother, rfl⟩ := List.mem_map.mp hid
    rw [List.map_singleton, List.mem_singleton] at hid'
    exact hfresh other hother (heq.trans hid')
  consumed other hother haccepted := by
    rcases List.mem_append.mp hother with hold | hnew
    · exact h.consumed other hold haccepted
    · rw [List.mem_singleton.mp hnew] at haccepted
      obtain ⟨old, hold, heq⟩ := h.known _ haccepted
      exact absurd heq (hfresh old hold)
  known ticket haccepted := by
    obtain ⟨old, hold, heq⟩ := h.known ticket haccepted
    exact ⟨old, List.mem_append_left _ hold, heq⟩
  trusted other hother := by
    rcases List.mem_append.mp hother with hold | hnew
    · exact h.trusted other hold
    · rw [List.mem_singleton.mp hnew]
      exact htrusted
  short := h.short

theorem TicketsSound.consume (h : TicketsSound model issued accepted) {t : SsoTicket}
    (ht : t ∈ model.tickets) :
    TicketsSound { model with
        tickets := updateFirst (·.ticket == t.ticket) ({ · with consumed := true }) model.tickets }
      issued (t.ticket :: accepted) where
  records := by
    rw [← h.records]
    apply map_updateFirst
    exact fun _ => rfl
  nodup := by
    dsimp only
    rw [map_updateFirst]
    · exact h.nodup
    · exact fun _ => rfl
  consumed other hother haccepted := by
    rcases mem_updateFirst_beq h.nodup hother with ⟨hold, hne⟩ | ⟨_, _, _, rfl⟩
    · exact h.consumed other hold ((List.mem_cons.mp haccepted).resolve_left hne)
    · rfl
  known ticket haccepted := by
    have hold : ∃ old ∈ model.tickets, old.ticket = ticket := by
      rcases List.mem_cons.mp haccepted with hlast | hbefore
      · exact ⟨t, ht, hlast.symm⟩
      · exact h.known ticket hbefore
    obtain ⟨old, hold, hkey⟩ := hold
    have hids := List.mem_map_of_mem (f := fun x : SsoTicket => x.ticket) hold
    rw [hkey] at hids
    rw [← List.mem_map]
    dsimp only
    rw [map_updateFirst]
    · exact hids
    · exact fun _ => rfl
  trusted other hother := by
    rcases mem_updateFirst hother with hold | ⟨old, hold, -, rfl⟩
    · exact h.trusted other hold
    · exact h.trusted old hold
  short := h.short

end

/-! ## Calls -/

theorem ssoAuthenticateUser_cases (model : SsoModel) (username spEntityId : CStr)
    (sidSize asSize : Option Nat) (draws : Draws) :
    let result := ssoAuthenticateUser model username spEntityId sidSize asSize draws
    (result.1 ≠ 0 ∧ result.2.2.2 = model) ∨
      (result.1 = 0 ∧ result.2.2.2 = { model with sessions := model.sessions ++
        [⟨draws.id, strncpy username (ssoMaxUsernameLen - 1), model.idp.entityId, draws.created,
          draws.expiry + 3600, draws.accessed, true⟩] }) := by
  intro result
  unfold result ssoAuthenticateUser
  split
  · exact Or.inl ⟨show (-1 : Int) ≠ 0 by decide, rfl⟩
  · split
    · exact Or.inl ⟨show (-2 : Int) ≠ 0 by decide, rfl⟩
    · split
      · exact Or.inl ⟨show (-3 : Int) ≠ 0 by decide, rfl⟩
      · exact Or.inr ⟨rfl, rfl⟩

theorem ssoCreateTicket_cases (model : SsoModel) (username spEntityId sessionId : CStr)
    (tSize : Option Nat) (draws : Draws) :
    let result := ssoCreateTicket model username spEntityId sessionId tSize draws
    (result.1 ≠ 0 ∧ result.2.2 = model) ∨
      (result.1 = 0 ∧ ssoIsSpTrusted model spEntityId = true ∧
        ∃ assertion, result.2.2 = { model with tickets := model.tickets ++
          [⟨draws.id, strncpy username (ssoMaxUsernameLen - 1),
            strncpy sessionId (ssoMaxSessionIdLen - 1),
            strncpy spEntityId (ssoMaxEntityIdLen - 1), assertion, draws.created,
            draws.expiry + 300, false, true⟩] }) := by
  intro result
  unfold result ssoCreateTicket
  split
  · exact Or.inl ⟨show (-1 : Int) ≠ 0 by decide, rfl⟩
  · next htrusted =>
      split
      · exact Or.inl ⟨show (-2 : Int) ≠ 0 by decide, rfl⟩
      · refine Or.inr ⟨rfl, ?_, _, rfl⟩
        simpa using htrusted

/-- A ticket with nothing against it is consumed, and any other call changes nothing. -/
theorem ssoValidateTicket_cases (model : SsoModel) (ticket : CStr) (spEntityId : Option CStr)
    (uSize asSize : Option Nat) (now : Int) :
    let result := ssoValidateTicket model ticket spEntityId uSize asSize now
    (result.1 ≠ 0 ∧ result.2.2.2 = model ∧
      ∀ t, model.tickets.find? (·.ticket == ticket) = some t → ¬ Acceptable t spEntityId now) ∨
      ∃ t, model.tickets.find? (·.ticket == ticket) = some t ∧ Acceptable t spEntityId now ∧
        result.1 = 0 ∧ result.2.1 = outBuffer uSize t.username ∧
        result.2.2.2 = { model with
          tickets := updateFirst (·.ticket == ticket) ({ · with consumed := true })
            model.tickets } := by
  intro result
  unfold result ssoValidateTicket
  cases hfind : model.tickets.find? (·.ticket == ticket) with
  | none => exact Or.inl ⟨show (-5 : Int) ≠ 0 by decide, rfl, fun t ht => by contradiction⟩
  | some t =>
      dsimp only
      split
      · next hinvalid =>
          refine Or.inl ⟨show (-1 : Int) ≠ 0 by decide, rfl, ?_⟩
          intro t' ht' hacc
          rw [Option.some.inj ht', hacc.1] at hinvalid
          contradiction
      · next hvalid =>
          split
          · next hconsumed =>
              refine Or.inl ⟨show (-2 : Int) ≠ 0 by decide, rfl, ?_⟩
              intro t' ht' hacc
              rw [Option.some.inj ht', hacc.2.1] at hconsumed
              contradiction
          · next hfresh =>
              split
              · next hexpired =>
                  refine Or.inl ⟨show (-3 : Int) ≠ 0 by decide, rfl, ?_⟩
                  intro t' ht' hacc
                  rw [Option.some.inj ht'] at hexpired
                  exact absurd hexpired (not_lt.mpr hacc.2.2.1)
              · next hintime =>
                  split
                  · next hother =>
                      refine Or.inl ⟨show (-4 : Int) ≠ 0 by decide, rfl, ?_⟩
                      intro t' ht' hacc
                      rw [Option.some.inj ht', Option.any_eq_true] at hother
                      obtain ⟨sp, hsp, hne⟩ := hother
                      rw [hacc.2.2.2 sp hsp] at hne
                      simp at hne
                  · next hsame =>
                      refine Or.inr ⟨t, rfl, ⟨?_, ?_, not_lt.mp hintime, ?_⟩, rfl, rfl, rfl⟩
                      · simpa using hvalid
                      · simpa using hfresh
                      · intro sp hsp
                        by_contra hne
                        apply hsame
                        rw [Option.any_eq_true]
                        exact ⟨sp, hsp, by simpa using hne⟩

theorem ssoRegisterSp_frame (model : SsoModel) (entityId acsUrl sloUrl certPem : CStr)
    (protocol : SsoProtocol) (binding : SsoBinding) :
    (ssoRegisterSp model entityId acsUrl sloUrl certPem protocol binding).2.sessions =
        model.sessions ∧
      (ssoRegisterSp model entityId acsUrl sloUrl certPem protocol binding).2.tickets =
        model.tickets := by
  unfold ssoRegisterSp
  split
  · exact ⟨rfl, rfl⟩
  · split
    · exact ⟨rfl, rfl⟩
    · exact ⟨rfl, rfl⟩

theorem ssoEstablishTrust_frame (model : SsoModel) (spEntityId : CStr) :
    (ssoEstablishTrust model spEntityId).2.sessions = model.sessions ∧
      (ssoEstablishTrust model spEntityId).2.tickets = model.tickets := by
  unfold ssoEstablishTrust
  split
  · exact ⟨rfl, rfl⟩
  · exact ⟨rfl, rfl⟩

theorem ssoCreateUser_frame (model : SsoModel) (username email displayName : CStr) (now : Int) :
    let model' := (ssoCreateUser model username email displayName now).2
    model'.sessions = model.sessions ∧ model'.tickets = model.tickets ∧
      model'.sps = model.sps := by
  intro model'
  unfold model' ssoCreateUser
  split
  · exact ⟨rfl, rfl, rfl⟩
  · split
    · exact ⟨rfl, rfl, rfl⟩
    · exact ⟨rfl, rfl, rfl⟩

/-! ## What the tables say about the history -/

structure Sound (s : History) : Prop where
  sessions : SessionsSound s.model.sessions s.established s.loggedOut s.clock
  tickets : TicketsSound s.model s.issued s.accepted

theorem Draws.Forward.le {draws : Draws} {clock : Int} (h : Draws.Forward draws clock) :
    clock ≤ draws.asserted := by
  obtain ⟨hcreated, hexpiry, haccessed, hasserted⟩ := h
  omega

theorem Sound.authenticate {s : History} (h : Sound s) {username spEntityId : CStr}
    {sidSize asSize : Option Nat} {draws : Draws}
    (hadm : Admissible s (.authenticate username spEntityId sidSize asSize draws)) :
    Sound (step s (.authenticate username spEntityId sidSize asSize draws)) := by
  have hlater := h.sessions.later hadm.1.le
  unfold step
  dsimp only
  rcases ssoAuthenticateUser_cases s.model username spEntityId sidSize asSize draws with
    ⟨hne, hmodel⟩ | ⟨hzero, hmodel⟩
  · rw [hmodel, if_neg hne]
    exact ⟨hlater, h.tickets⟩
  · rw [hmodel, if_pos hzero]
    exact ⟨hlater.append rfl hadm.2, h.tickets.same rfl rfl⟩

theorem Sound.createTicket {s : History} (h : Sound s) {username spEntityId sessionId : CStr}
    {tSize : Option Nat} {draws : Draws}
    (hadm : Admissible s (.createTicket username spEntityId sessionId tSize draws)) :
    Sound (step s (.createTicket username spEntityId sessionId tSize draws)) := by
  have hlater := h.sessions.later hadm.1.le
  unfold step
  dsimp only
  rcases ssoCreateTicket_cases s.model username spEntityId sessionId tSize draws with
    ⟨hne, hmodel⟩ | ⟨hzero, htrusted, assertion, hmodel⟩
  · rw [hmodel, if_neg hne]
    exact ⟨hlater, h.tickets⟩
  · have hwhole := strncpy_of_le (h.tickets.short_of_trusted htrusted)
    rw [hmodel, if_pos hzero, hwhole]
    exact ⟨hlater, h.tickets.append hadm.2 htrusted⟩

theorem Sound.validateTicket {s : History} (h : Sound s) {ticket : CStr}
    {spEntityId : Option CStr} {uSize asSize : Option Nat} {now : Int}
    (hadm : Admissible s (.validateTicket ticket spEntityId uSize asSize now)) :
    Sound (step s (.validateTicket ticket spEntityId uSize asSize now)) := by
  have hlater := h.sessions.later hadm
  unfold step
  dsimp only
  rcases ssoValidateTicket_cases s.model ticket spEntityId uSize asSize now with
    ⟨hne, hmodel, -⟩ | ⟨t, hfind, -, hzero, -, hmodel⟩
  · rw [hmodel, if_neg hne]
    exact ⟨hlater, h.tickets⟩
  · obtain ⟨ht, hkey⟩ := (find?_beq_eq_some_iff h.tickets.nodup).mp hfind
    rw [hmodel, if_pos hzero, ← hkey]
    exact ⟨hlater, h.tickets.consume ht⟩

theorem Sound.validateSession {s : History} (h : Sound s) {sessionId : CStr}
    {uSize : Option Nat} {now accessed : Int}
    (hadm : Admissible s (.validateSession sessionId uSize now accessed)) :
    Sound (step s (.validateSession sessionId uSize now accessed)) := by
  obtain ⟨hnow, haccessed⟩ := hadm
  have hlater := h.sessions.later (hnow.trans haccessed)
  unfold step ssoValidateSession
  dsimp only
  cases hfind : s.model.sessions.find? (·.sessionId == sessionId) with
  | none => exact ⟨hlater, h.tickets⟩
  | some session =>
      obtain ⟨hsession, hkey⟩ := (find?_beq_eq_some_iff h.sessions.nodup).mp hfind
      dsimp only
      split
      · exact ⟨hlater, h.tickets⟩
      · split
        · next hexpired =>
            rw [← hkey]
            exact ⟨hlater.expire hsession (hexpired.trans_le haccessed), h.tickets.same rfl rfl⟩
        · exact ⟨hlater.access sessionId accessed, h.tickets.same rfl rfl⟩

theorem Sound.logout {s : History} (h : Sound s) (sessionId : CStr) :
    Sound (step s (.logout sessionId)) := by
  unfold step ssoLogout
  dsimp only
  cases hfind : s.model.sessions.find? (·.sessionId == sessionId) with
  | none =>
      dsimp only
      rw [if_neg (show (-1 : Int) ≠ 0 by decide)]
      exact h
  | some session =>
      obtain ⟨hsession, hkey⟩ := (find?_beq_eq_some_iff h.sessions.nodup).mp hfind
      dsimp only
      rw [if_pos rfl, ← hkey]
      exact ⟨h.sessions.logout hsession, h.tickets.same rfl rfl⟩

theorem Sound.step {s : History} (h : Sound s) {op : Op} (hadm : Admissible s op) :
    Sound (step s op) := by
  cases op with
  | registerSp entityId acsUrl sloUrl certPem protocol binding =>
      obtain ⟨hsessions, htickets⟩ :=
        ssoRegisterSp_frame s.model entityId acsUrl sloUrl certPem protocol binding
      constructor
      · unfold TicketSessions.step
        dsimp only
        rw [hsessions]
        exact h.sessions
      · exact h.tickets.keep htickets
          (fun _ htrusted => trusted_registerSp htrusted _ _ _ _ _ _)
          (short_registerSp h.tickets.short _ _ _ _ _ _)
  | establishTrust spEntityId =>
      obtain ⟨hsessions, htickets⟩ := ssoEstablishTrust_frame s.model spEntityId
      constructor
      · unfold TicketSessions.step
        dsimp only
        rw [hsessions]
        exact h.sessions
      · exact h.tickets.keep htickets
          (fun _ htrusted => trusted_establishTrust htrusted spEntityId)
          (short_establishTrust h.tickets.short spEntityId)
  | createUser username email displayName now =>
      obtain ⟨hsessions, htickets, hsps⟩ :=
        ssoCreateUser_frame s.model username email displayName now
      constructor
      · unfold TicketSessions.step
        dsimp only
        rw [hsessions]
        exact h.sessions.later hadm
      · exact h.tickets.same htickets hsps
  | authenticate username spEntityId sidSize asSize draws => exact h.authenticate hadm
  | createTicket username spEntityId sessionId tSize draws => exact h.createTicket hadm
  | validateTicket ticket spEntityId uSize asSize now => exact h.validateTicket hadm
  | validateSession sessionId uSize now accessed => exact h.validateSession hadm
  | logout sessionId => exact h.logout sessionId

theorem sound_start (idp : SsoIdentityProvider) (now : Int) : Sound (start idp now) := by
  refine ⟨⟨?_, ?_, ?_, ?_, ?_⟩, ⟨?_, ?_, ?_, ?_, ?_, ?_⟩⟩ <;> simp [start, ssoModelInit]

/-- A ticket is accepted as the claim on it has it exactly when its session is there. -/
theorem Sound.ticketSound_iff {s : History} (h : Sound s) {t : SsoTicket}
    (ht : t ∈ s.model.tickets) {spEntityId : Option CStr} {uSize : Option Nat} {now : Int}
    (hnow : s.clock ≤ now) (hacc : Acceptable t spEntityId now) :
    TicketSound s t.ticket spEntityId (outBuffer uSize t.username) uSize now ↔
      HasSession s.model t.sessionId t.username now := by
  rw [← h.sessions.live_iff hnow]
  constructor
  · intro hsound
    obtain ⟨issue, hissue, hticket, -, -, -, hlive⟩ := hsound.issued
    rw [← h.tickets.records, List.mem_map] at hissue
    obtain ⟨other, hother, rfl⟩ := hissue
    rw [List.inj_on_of_nodup_map h.tickets.nodup hother ht hticket] at hlive
    exact hlive
  · intro hlive
    constructor
    · refine ⟨⟨t.ticket, t.username, t.sessionId, t.spEntityId⟩, ?_, rfl, hacc.2.2.2,
        h.tickets.trusted t ht, rfl, hlive⟩
      rw [← h.tickets.records]
      exact List.mem_map_of_mem ht
    · intro haccepted
      have hconsumed := h.tickets.consumed t ht haccepted
      rw [hacc.2.1] at hconsumed
      contradiction

theorem Sound.answer_iff {s : History} (h : Sound s) {op : Op} (hadm : Admissible s op) :
    CallHolds s op ↔ SessionKept s op := by
  cases op with
  | validateTicket ticket spEntityId uSize asSize now =>
      unfold CallHolds SessionKept
      dsimp only
      have hfind : ∀ t ∈ s.model.tickets, t.ticket = ticket →
          s.model.tickets.find? (·.ticket == ticket) = some t :=
        fun t ht hkey => (find?_beq_eq_some_iff h.tickets.nodup).mpr ⟨ht, hkey⟩
      rcases ssoValidateTicket_cases s.model ticket spEntityId uSize asSize now with
        ⟨hne, -, hrefused⟩ | ⟨t, hfound, hacc, hzero, hname, -⟩
      · refine iff_of_true (fun hzero => absurd hzero hne) ?_
        intro t ht hkey hacc
        exact absurd hacc (hrefused t (hfind t ht hkey))
      · obtain ⟨ht, hkey⟩ := (find?_beq_eq_some_iff h.tickets.nodup).mp hfound
        rw [forall_prop_of_true hzero, hname, ← hkey, h.ticketSound_iff ht hadm hacc]
        constructor
        · intro hhas other hother hsame _
          rw [List.inj_on_of_nodup_map h.tickets.nodup hother ht hsame]
          exact hhas
        · intro hkept
          exact hkept t ht rfl hacc
  | _ => exact Iff.rfl

/-! ## Whole runs -/

/-- In a run of any calls, the tickets that are accepted are all sound exactly when no ticket is
validated without its session. -/
theorem tickets_sound_iff {idp : SsoIdentityProvider} {now : Int} {ops : List Op}
    (hadm : Always step Admissible (start idp now) ops) :
    Always step CallHolds (start idp now) ops ↔ Always step SessionKept (start idp now) ops := by
  constructor
  · intro hholds
    refine always_of_invariant (I := Sound) step ?_ ?_ (sound_start idp now) (hadm.and step hholds)
    · exact fun s op hs hp => hs.step hp.1
    · exact fun s op hs hp => (hs.answer_iff hp.1).mp hp.2
  · intro hkept
    refine always_of_invariant (I := Sound) step ?_ ?_ (sound_start idp now) (hadm.and step hkept)
    · exact fun s op hs hp => hs.step hp.1
    · exact fun s op hs hp => (hs.answer_iff hp.1).mpr hp.2

instance decidableAdmissible (s : History) (op : Op) : Decidable (Admissible s op) :=
  match op with
  | .createUser _ _ _ _ => inferInstanceAs (Decidable (_ ≤ _))
  | .authenticate .. =>
      inferInstanceAs (Decidable ((_ ∧ _ ∧ _ ∧ _) ∧ ∀ session ∈ s.model.sessions, _ ≠ _))
  | .createTicket .. =>
      inferInstanceAs (Decidable ((_ ∧ _ ∧ _ ∧ _) ∧ ∀ t ∈ s.model.tickets, _ ≠ _))
  | .validateTicket .. => inferInstanceAs (Decidable (_ ≤ _))
  | .validateSession .. => inferInstanceAs (Decidable (_ ∧ _))
  | .registerSp .. | .establishTrust _ | .logout _ => .isTrue trivial

instance decidableAcceptable (t : SsoTicket) (spEntityId : Option CStr) (now : Int) :
    Decidable (Acceptable t spEntityId now) :=
  inferInstanceAs (Decidable (_ ∧ _ ∧ _ ∧ ∀ sp ∈ spEntityId, t.spEntityId = sp))

instance decidableHasSession (model : SsoModel) (sessionId username : CStr) (now : Int) :
    Decidable (HasSession model sessionId username now) :=
  inferInstanceAs (Decidable (∃ session ∈ model.sessions, _))

instance decidableSessionKept (s : History) (op : Op) : Decidable (SessionKept s op) :=
  match op with
  | .validateTicket ticket spEntityId _ _ now =>
      inferInstanceAs (Decidable (∀ t ∈ s.model.tickets, t.ticket = ticket →
        Acceptable t spEntityId now → HasSession s.model t.sessionId t.username now))
  | .registerSp .. | .establishTrust _ | .createUser .. | .authenticate .. | .createTicket ..
  | .validateSession .. | .logout _ => .isTrue trivial

def exampleIdp : SsoIdentityProvider := ⟨lit "https://idp", [], [], [], .post⟩

def drawsAt (id : CStr) (now : Int) : Draws := ⟨id, now, now, now, now, 0⟩

/-- A user of a trusted provider signs in and gets a ticket. -/
def signIn : List Op :=
  [.registerSp (lit "crm") [] [] [] .saml2 .post, .establishTrust (lit "crm"),
    .createUser (lit "ann") [] [] 1000,
    .authenticate (lit "ann") (lit "crm") (some 128) none (drawsAt (lit "a1") 1001),
    .createTicket (lit "ann") (lit "crm") (lit "a1") (some 128) (drawsAt (lit "f2") 1002)]

def present (now : Int) : Op := .validateTicket (lit "f2") (some (lit "crm")) (some 128) none now

/-- The ticket is accepted, and refused when it is presented again. -/
theorem tickets_sound_signIn :
    Always step CallHolds (start exampleIdp 1000) (signIn ++ [present 1003, present 1004]) :=
  (tickets_sound_iff (by decide)).mpr (by decide)

/-- The ticket is accepted after the user has logged out. -/
theorem accepted_after_logout :
    Always step Admissible (start exampleIdp 1000)
        (signIn ++ [.logout (lit "a1"), present 1003]) ∧
      ¬ Always step CallHolds (start exampleIdp 1000)
        (signIn ++ [.logout (lit "a1"), present 1003]) := by
  refine ⟨by decide, ?_⟩
  intro h
  rw [always_append] at h
  have hsound : TicketSound (step (run step (start exampleIdp 1000) signIn) (.logout (lit "a1")))
      (lit "f2") (some (lit "crm")) (some (lit "ann")) (some 128) 1003 := h.2.2.1 (by decide)
  obtain ⟨issue, hissue, -, -, -, -, _, -, -, -, -, hout⟩ := hsound.issued
  have hissued : (step (run step (start exampleIdp 1000) signIn) (.logout (lit "a1"))).issued =
      [⟨lit "f2", lit "ann", lit "a1", lit "crm"⟩] := by decide
  rw [hissued, List.mem_singleton] at hissue
  rw [hissue] at hout
  exact absurd hout (by decide)

end MiniBackend.Auth.Proofs.TicketSessions
