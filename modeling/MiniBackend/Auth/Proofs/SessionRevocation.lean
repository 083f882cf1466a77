import MiniBackend.Auth.SessionManager
import Mathlib.Logic.Function.Basic

/-!
# Revoked sessions

A ledger kept next to the manager records which user every issued id belongs to
and which ids have been revoked: by termination, by regeneration, or because all
sessions of their user were invalidated.  An id that is regenerated from a revoked
one counts as revoked.  The manager itself has only the five session states.
-/

namespace MiniBackend.Auth.Proofs.SessionRevocation

open MiniBackend.Lib.CString MiniBackend.Lib.CArray MiniBackend.Lib.Runs
open MiniBackend.Auth.Session

/-! ## The ledger -/

structure Ledger where
  owners : List (CStr × CStr)
  revoked : List CStr
deriving DecidableEq

def emptyLedger : Ledger := ⟨[], []⟩

def Ledger.idsOf (ledger : Ledger) (username : CStr) : List CStr :=
  (ledger.owners.filter (·.2 = username)).map (·.1)

def Ledger.ownersOf (ledger : Ledger) (sid : CStr) : List CStr :=
  (ledger.owners.filter (·.1 = sid)).map (·.2)

def record (ledger : Ledger) (sm : SessionManager) (op : Op) : Ledger :=
  match op with
  | .create (some username) _ _ _ _ generated =>
      if (call sm op).1 = 0 then
        { ledger with owners := (generated, username) :: ledger.owners }
      else ledger
  | .terminate (some sid) =>
      if (call sm op).1 = 0 then { ledger with revoked := sid :: ledger.revoked } else ledger
  | .regenerate (some old) _ generated =>
      if (call sm op).1 = 0 then
        { owners := (ledger.ownersOf old).map (fun username => (generated, username)) ++
            ledger.owners
          revoked := (if old ∈ ledger.revoked then [generated] else []) ++
            old :: ledger.revoked }
      else ledger
  | .invalidateAllForUser (some username) =>
      { ledger with revoked := ledger.idsOf username ++ ledger.revoked }
  | _ => ledger

abbrev Tracked := SessionManager × Ledger

def step (t : Tracked) (op : Op) : Tracked := ((call t.1 op).2, record t.2 t.1 op)

/-- A generated id was never issued before. -/
def FreshId (t : Tracked) : Op → Prop
  | .create _ _ _ _ _ generated => generated ∉ t.2.owners.map (·.1)
  | .regenerate _ _ generated => generated ∉ t.2.owners.map (·.1)
  | _ => True

def IsFinal (state : SessionState) : Prop := state = .terminated ∨ state = .invalidated

instance : DecidablePred IsFinal := fun _ => inferInstanceAs (Decidable (_ ∨ _))

/-- Every session of the user that is not already terminated or invalidated is
`ACTIVE`, and the user name fits its field. -/
def AllActive (t : Tracked) : Op → Prop
  | .invalidateAllForUser (some username) =>
      ∀ i < t.1.count, (t.1.sessions i).sessionId ∈ t.2.idsOf username →
        ¬IsFinal (t.1.sessions i).state →
        (t.1.sessions i).state = .active ∧ username.length < smMaxUsernameLen
  | _ => True

instance (t : Tracked) (op : Op) : Decidable (FreshId t op) :=
  match op with
  | .create .. => inferInstanceAs (Decidable (¬_))
  | .regenerate .. => inferInstanceAs (Decidable (¬_))
  | .validate .. | .extend .. | .terminate _ | .setAuthenticated .. | .invalidateAllForUser _
  | .cleanupExpired _ => .isTrue trivial

instance (t : Tracked) (op : Op) : Decidable (AllActive t op) :=
  match op with
  | .invalidateAllForUser (some username) =>
      inferInstanceAs (Decidable (∀ i < t.1.count, (t.1.sessions i).sessionId ∈
        t.2.idsOf username → ¬IsFinal (t.1.sessions i).state →
        (t.1.sessions i).state = .active ∧ username.length < smMaxUsernameLen))
  | .invalidateAllForUser none => .isTrue trivial
  | .create .. | .regenerate .. | .validate .. | .extend .. | .terminate _
  | .setAuthenticated .. | .cleanupExpired _ => .isTrue trivial

/-- The readings of the clock, in the order in which they are taken. -/
def clockReadings (ops : List Op) : List Int :=
  ops.filterMap fun op =>
    match op with
    | .create _ _ _ _ now _ => some now
    | .validate _ _ _ _ now => some now
    | .extend _ _ now => some now
    | .cleanupExpired now => some now
    | _ => none

/-- No revoked id passes validation. -/
def RevocationFinal (t : Tracked) : Prop :=
  ∀ sid ∈ t.2.revoked, ∀ (clientIp userAgent : Option CStr) (out : Option Nat) (now : Int),
    (smValidateSession t.1 (some sid) clientIp userAgent out now).1 ≠ 0

theorem mem_idsOf {ledger : Ledger} {sid username : CStr} :
    sid ∈ ledger.idsOf username ↔ (sid, username) ∈ ledger.owners := by
  simp [Ledger.idsOf]

theorem mem_ownersOf {ledger : Ledger} {sid username : CStr} :
    username ∈ ledger.ownersOf sid ↔ (sid, username) ∈ ledger.owners := by
  simp [Ledger.ownersOf]

theorem record_of_failed {ledger : Ledger} {sm : SessionManager} (op : Op)
    (hop : ∀ username, op ≠ .invalidateAllForUser username) (h : (call sm op).1 ≠ 0) :
    record ledger sm op = ledger := by
  unfold record
  split
  · exact if_neg h
  · exact if_neg h
  · exact if_neg h
  · exact absurd rfl (hop _)
  · rfl

/-! ## The invariant -/

structure Consistent (sm : SessionManager) (ledger : Ledger) : Prop where
  issued : ∀ i < sm.count, (sm.sessions i).sessionId ∈ ledger.owners.map (·.1)
  distinct : ∀ i < sm.count, ∀ j < sm.count,
    (sm.sessions i).sessionId = (sm.sessions j).sessionId → i = j
  owner : ∀ i < sm.count, ∀ username, ((sm.sessions i).sessionId, username) ∈ ledger.owners →
    (sm.sessions i).username = strncpy username (smMaxUsernameLen - 1)
  revokedIssued : ∀ sid ∈ ledger.revoked, sid ∈ ledger.owners.map (·.1)
  isFinal : ∀ i < sm.count, (sm.sessions i).sessionId ∈ ledger.revoked →
    IsFinal (sm.sessions i).state

theorem Consistent.congr {sm sm' : SessionManager} {ledger : Ledger} (h : Consistent sm ledger)
    (hsessions : sm'.sessions = sm.sessions) (hcount : sm'.count = sm.count) :
    Consistent sm' ledger := by
  obtain ⟨h1, h2, h3, h4, h5⟩ := h
  constructor
  · rwa [hsessions, hcount]
  · rwa [hsessions, hcount]
  · rwa [hsessions, hcount]
  · exact h4
  · rwa [hsessions, hcount]

theorem consistent_of_empty {sm : SessionManager} (h : sm.count = 0) :
    Consistent sm emptyLedger := by
  constructor <;> simp [h, emptyLedger]

theorem Consistent.rewrite {sm sm' : SessionManager} {ledger : Ledger}
    (h : Consistent sm ledger) (hcount : sm'.count = sm.count)
    (hsid : ∀ i, (sm'.sessions i).sessionId = (sm.sessions i).sessionId)
    (hname : ∀ i, (sm'.sessions i).username = (sm.sessions i).username)
    (hstate : ∀ i, IsFinal (sm.sessions i).state → IsFinal (sm'.sessions i).state) :
    Consistent sm' ledger where
  issued i hi := by
    rw [hsid]
    exact h.issued i (hcount ▸ hi)
  distinct i hi j hj hij := by
    rw [hsid, hsid] at hij
    exact h.distinct i (hcount ▸ hi) j (hcount ▸ hj) hij
  owner i hi username hmem := by
    rw [hsid] at hmem
    rw [hname]
    exact h.owner i (hcount ▸ hi) username hmem
  revokedIssued := h.revokedIssued
  isFinal i hi hmem := by
    rw [hsid] at hmem
    exact hstate i (h.isFinal i (hcount ▸ hi) hmem)

theorem Consistent.revoke {sm : SessionManager} {ledger : Ledger} (h : Consistent sm ledger)
    (sids : List CStr) (hissued : ∀ sid ∈ sids, sid ∈ ledger.owners.map (·.1))
    (hfinal : ∀ i < sm.count, (sm.sessions i).sessionId ∈ sids → IsFinal (sm.sessions i).state) :
    Consistent sm { ledger with revoked := sids ++ ledger.revoked } where
  issued := h.issued
  distinct := h.distinct
  owner := h.owner
  revokedIssued sid hmem := by
    rcases List.mem_append.mp hmem with hnew | hold
    · exact hissued sid hnew
    · exact h.revokedIssued sid hold
  isFinal i hi hmem := by
    rcases List.mem_append.mp hmem with hnew | hold
    · exact hfinal i hi hnew
    · exact h.isFinal i hi hold

theorem sessions_setSession (sm : SessionManager) (i : Nat) (s : SessionEntry) (j : Nat) :
    (setSession sm i s).sessions j = if j = i then s else sm.sessions j :=
  Function.update_apply sm.sessions i s j

theorem Consistent.setSession {sm : SessionManager} {ledger : Ledger} (h : Consistent sm ledger)
    {i : Nat} {s : SessionEntry} (hsid : s.sessionId = (sm.sessions i).sessionId)
    (hname : s.username = (sm.sessions i).username)
    (hstate : IsFinal (sm.sessions i).state → IsFinal s.state) :
    Consistent (setSession sm i s) ledger := by
  refine h.rewrite rfl (fun j => ?_) (fun j => ?_) (fun j => ?_)
  · rw [sessions_setSession]
    split
    · next hj => rw [hj, hsid]
    · rfl
  · rw [sessions_setSession]
    split
    · next hj => rw [hj, hname]
    · rfl
  · rw [sessions_setSession]
    split
    · next hj => rw [hj]; exact hstate
    · exact id

theorem Consistent.append {sm sm' : SessionManager} {ledger ledger' : Ledger}
    (h : Consistent sm ledger) (entry : SessionEntry) (names : List CStr)
    (hsessions : sm'.sessions = Function.update sm.sessions sm.count entry)
    (hcount : sm'.count = sm.count + 1)
    (hfresh : entry.sessionId ∉ ledger.owners.map (·.1))
    (howners : ledger'.owners = names.map (fun name => (entry.sessionId, name)) ++ ledger.owners)
    (hnames : names ≠ [])
    (hname : ∀ name ∈ names, entry.username = strncpy name (smMaxUsernameLen - 1))
    (hrevoked : ∀ sid ∈ ledger'.revoked,
      sid ∈ ledger.revoked ∨ sid = entry.sessionId ∧ IsFinal entry.state) :
    Consistent sm' ledger' := by
  have hlast : sm'.sessions sm.count = entry := by rw [hsessions, Function.update_self]
  have hrest : ∀ i < sm.count, sm'.sessions i = sm.sessions i := by
    intro i hi
    rw [hsessions, Function.update_of_ne (by omega)]
  have hcases : ∀ i < sm'.count, i < sm.count ∨ i = sm.count := by
    intro i hi
    omega
  have hmono : ∀ sid ∈ ledger.owners.map (·.1), sid ∈ ledger'.owners.map (·.1) := by
    intro sid hsid
    rw [howners, List.map_append]
    exact List.mem_append_right _ hsid
  have hentry : entry.sessionId ∈ ledger'.owners.map (·.1) := by
    obtain ⟨name, rest, rfl⟩ := List.exists_cons_of_ne_nil hnames
    simp [howners]
  have hother : ∀ i < sm.count, (sm.sessions i).sessionId ≠ entry.sessionId := by
    intro i hi heq
    exact hfresh (heq ▸ h.issued i hi)
  constructor
  · intro i hi
    obtain hlt | rfl := hcases i hi
    · rw [hrest i hlt]
      exact hmono _ (h.issued i hlt)
    · rwa [hlast]
  · intro i hi j hj hij
    obtain hlt | rfl := hcases i hi
    · rw [hrest i hlt] at hij
      obtain hlt' | rfl := hcases j hj
      · rw [hrest j hlt'] at hij
        exact h.distinct i hlt j hlt' hij
      · rw [hlast] at hij
        exact absurd hij (hother i hlt)
    · obtain hlt' | rfl := hcases j hj
      · rw [hrest j hlt', hlast] at hij
        exact absurd hij.symm (hother j hlt')
      · rfl
  · intro i hi username hmem
    rw [howners, List.mem_append, List.mem_map] at hmem
    obtain hlt | rfl := hcases i hi
    · rw [hrest i hlt] at hmem ⊢
      obtain ⟨name, -, heq⟩ | hmem := hmem
      · exact absurd (Prod.mk.inj heq).1.symm (hother i hlt)
      · exact h.owner i hlt username hmem
    · rw [hlast] at hmem ⊢
      obtain ⟨name, hmem, heq⟩ | hmem := hmem
      · exact (Prod.mk.inj heq).2 ▸ hname name hmem
      · exact absurd (List.mem_map_of_mem hmem) hfresh
  · intro sid hsid
    obtain hold | ⟨rfl, -⟩ := hrevoked sid hsid
    · exact hmono sid (h.revokedIssued sid hold)
    · exact hentry
  · intro i hi hmem
    obtain hlt | rfl := hcases i hi
    · rw [hrest i hlt] at hmem ⊢
      obtain hold | ⟨heq, -⟩ := hrevoked _ hmem
      · exact h.isFinal i hlt hold
      · exact absurd heq (hother i hlt)
    · rw [hlast] at hmem ⊢
      obtain hold | ⟨-, hfinal⟩ := hrevoked _ hmem
      · exact absurd (h.revokedIssued _ hold) hfresh
      · exact hfinal

/-! ## Cleaning up -/

/-- Every used slot after a removal was used before, and no slot is used twice. -/
theorem sessions_removeSlot (sm : SessionManager) {i j : Nat} (hj : j < sm.count - 1) :
    (removeSlot sm i).sessions j = sm.sessions (if j = i then sm.count - 1 else j) := by
  unfold removeSlot
  by_cases hi : i < sm.count - 1
  · rw [if_pos hi]
    dsimp only
    rw [sessions_setSession]
    split <;> rfl
  · rw [if_neg hi, if_neg (by omega)]

theorem Consistent.removeSlot {sm : SessionManager} {ledger : Ledger} (h : Consistent sm ledger)
    {i : Nat} : Consistent (removeSlot sm i) ledger := by
  have hcount : (Session.removeSlot sm i).count = sm.count - 1 := by
    unfold Session.removeSlot
    split <;> rfl
  have hold : ∀ j < (Session.removeSlot sm i).count, ∃ k < sm.count,
      k = (if j = i then sm.count - 1 else j) ∧
        (Session.removeSlot sm i).sessions j = sm.sessions k := by
    intro j hj
    rw [hcount] at hj
    refine ⟨_, ?_, rfl, sessions_removeSlot sm hj⟩
    split <;> omega
  constructor
  · intro j hj
    obtain ⟨k, hk, -, heq⟩ := hold j hj
    rw [heq]
    exact h.issued k hk
  · intro j hj j' hj' hjj'
    obtain ⟨k, hk, hkj, heq⟩ := hold j hj
    obtain ⟨k', hk', hkj', heq'⟩ := hold j' hj'
    rw [heq, heq'] at hjj'
    have hkk' := h.distinct k hk k' hk' hjj'
    rw [hcount] at hj hj'
    rw [hkj, hkj'] at hkk'
    split at hkk' <;> split at hkk' <;> omega
  · intro j hj username hmem
    obtain ⟨k, hk, -, heq⟩ := hold j hj
    rw [heq] at hmem ⊢
    exact h.owner k hk username hmem
  · exact h.revokedIssued
  · intro j hj hmem
    obtain ⟨k, hk, -, heq⟩ := hold j hj
    rw [heq] at hmem ⊢
    exact h.isFinal k hk hmem

theorem Consistent.cleanup {ledger : Ledger} (now : Int) (fuel : Nat) {sm : SessionManager}
    (h : Consistent sm ledger) (i : Nat) : Consistent (cleanupLoop now fuel i sm) ledger := by
  induction fuel generalizing i sm with
  | zero => exact h
  | succ fuel ih =>
      unfold cleanupLoop
      split
      · split
        · exact ih h.removeSlot i
        · exact ih h (i + 1)
      · exact h

/-! ## Invalidating a user -/

theorem invalidateStep_range (username : CStr) (sm : SessionManager) (n : Nat) :
    ((List.range n).foldl (invalidateStep username) (0, sm)).2.count = sm.count ∧
      ∀ i, ((List.range n).foldl (invalidateStep username) (0, sm)).2.sessions i =
        if i < n ∧ (sm.sessions i).username = username ∧ (sm.sessions i).state = .active then
          withState (sm.sessions i) .invalidated
        else sm.sessions i := by
  induction n with
  | zero => simp
  | succ n ih =>
      obtain ⟨hcount, hsessions⟩ := ih
      rw [List.range_succ, List.foldl_append]
      simp only [List.foldl_cons, List.foldl_nil]
      generalize (List.range n).foldl (invalidateStep username) (0, sm) = acc at hcount hsessions
      have hn : acc.2.sessions n = sm.sessions n := by
        rw [hsessions, if_neg (by omega)]
      unfold invalidateStep
      rw [hn]
      dsimp only
      split
      · next hhit =>
          refine ⟨hcount, fun i => ?_⟩
          rw [sessions_setSession]
          by_cases hi : i = n
          · subst hi
            simp [hhit]
          · rw [if_neg hi, hsessions]
            exact if_congr (and_congr_left' (by omega)) rfl rfl
      · next hmiss =>
          refine ⟨hcount, fun i => ?_⟩
          rw [hsessions]
          by_cases hi : i = n
          · subst hi
            rw [if_neg (by omega), if_neg (fun hc => hmiss hc.2)]
          · exact if_congr (and_congr_left' (by omega)) rfl rfl

theorem Consistent.invalidateAll {sm : SessionManager} {ledger : Ledger}
    (h : Consistent sm ledger) {username : CStr}
    (hactive : AllActive (sm, ledger) (.invalidateAllForUser (some username))) :
    Consistent (smInvalidateAllForUser sm (some username)).2
      { ledger with revoked := ledger.idsOf username ++ ledger.revoked } := by
  obtain ⟨hcount, hsessions⟩ := invalidateStep_range username sm sm.count
  have hkept : Consistent (smInvalidateAllForUser sm (some username)).2 ledger := by
    refine h.rewrite hcount (fun i => ?_) (fun i => ?_) (fun i hfinal => ?_)
    · rw [smInvalidateAllForUser, hsessions]
      split <;> rfl
    · rw [smInvalidateAllForUser, hsessions]
      split <;> rfl
    · rw [smInvalidateAllForUser, hsessions]
      split
      · exact .inr rfl
      · exact hfinal
  refine hkept.revoke _ (fun sid hsid => ?_) (fun i hi hsid => ?_)
  · exact List.mem_map_of_mem (mem_idsOf.mp hsid)
  · rw [smInvalidateAllForUser, hcount] at hi
    have hid : (sm.sessions i).sessionId ∈ ledger.idsOf username := by
      rw [smInvalidateAllForUser, hsessions] at hsid
      split at hsid <;> exact hsid
    rw [smInvalidateAllForUser, hsessions]
    -- a session of the user is either final already or met by the loop
    by_cases hfinal : IsFinal (sm.sessions i).state
    · split
      · exact .inr rfl
      · exact hfinal
    · obtain ⟨hstate, hlen⟩ := hactive i hi hid hfinal
      have hname := h.owner i hi username (mem_idsOf.mp hid)
      rw [strncpy_of_le (by omega)] at hname
      rw [if_pos ⟨hi, hname, hstate⟩]
      exact .inr rfl

/-! ## One call -/

theorem smFindSession_eq_some {sm : SessionManager} {sid : CStr} {i : Nat}
    (h : smFindSession sm (some sid) = some i) :
    i < sm.count ∧ (sm.sessions i).sessionId = sid := by
  obtain ⟨hid, hi, -⟩ := findIndex_eq_some.mp h
  exact ⟨hi, by simpa using hid⟩

theorem smCreateSession_cases (sm : SessionManager) (username clientIp userAgent : Option CStr)
    (out : Option Nat) (now : Int) (generated : CStr) :
    ((smCreateSession sm username clientIp userAgent out now generated).1 ≠ 0 ∧
        (smCreateSession sm username clientIp userAgent out now generated).2.2 = sm) ∨
      ∃ name, username = some name ∧
        (smCreateSession sm username clientIp userAgent out now generated).1 = 0 ∧
        (smCreateSession sm username clientIp userAgent out now generated).2.2.sessions =
          Function.update sm.sessions sm.count
            (newEntry sm (sm.sessions sm.count) name clientIp userAgent now generated) ∧
        (smCreateSession sm username clientIp userAgent out now generated).2.2.count =
          sm.count + 1 := by
  unfold smCreateSession
  split
  · split
    · exact .inl ⟨by simp, rfl⟩
    · split
      · exact .inl ⟨by simp, rfl⟩
      · exact .inr ⟨_, rfl, rfl, rfl, rfl⟩
  · exact .inl ⟨by simp, rfl⟩

theorem smValidateSession_final {sm : SessionManager} {sid : CStr}
    (h : ∀ i, smFindSession sm (some sid) = some i → IsFinal (sm.sessions i).state)
    (clientIp userAgent : Option CStr) (out : Option Nat) (now : Int) :
    (smValidateSession sm (some sid) clientIp userAgent out now).1 ≠ 0 := by
  unfold smValidateSession
  dsimp only
  split
  · simp
  · next i hfind =>
      have hfinal : (sm.sessions i).state = .terminated ∨ (sm.sessions i).state = .invalidated :=
        h i hfind
      rw [if_pos hfinal]
      simp

theorem smValidateSession_cases (sm : SessionManager) (sid clientIp userAgent : Option CStr)
    (out : Option Nat) (now : Int) :
    (smValidateSession sm sid clientIp userAgent out now).2.2 = sm ∨
      ∃ i s, (smValidateSession sm sid clientIp userAgent out now).2.2 = setSession sm i s ∧
        s.sessionId = (sm.sessions i).sessionId ∧ s.username = (sm.sessions i).username ∧
        ¬IsFinal (sm.sessions i).state := by
  unfold smValidateSession
  split
  · exact .inl rfl
  · split
    · exact .inl rfl
    · next i hfind =>
        dsimp only
        split
        · exact .inl rfl
        · next hlive =>
            split
            · exact .inr ⟨i, _, rfl, rfl, rfl, hlive⟩
            · split
              · exact .inr ⟨i, _, rfl, rfl, rfl, hlive⟩
              · split
                · exact .inl rfl
                · split
                  · exact .inl rfl
                  · exact .inr ⟨i, _, rfl, rfl, rfl, hlive⟩

theorem smExtendSession_cases (sm : SessionManager) (sid : Option CStr)
    (additionalSeconds : UInt32) (now : Int) :
    (smExtendSession sm sid additionalSeconds now).2 = sm ∨
      ∃ i s, (smExtendSession sm sid additionalSeconds now).2 = setSession sm i s ∧
        s.sessionId = (sm.sessions i).sessionId ∧ s.username = (sm.sessions i).username ∧
        ¬IsFinal (sm.sessions i).state := by
  unfold smExtendSession
  split
  · exact .inl rfl
  · split
    · exact .inl rfl
    · next i hfind =>
        dsimp only
        split
        · exact .inl rfl
        · next hlive => exact .inr ⟨i, _, rfl, rfl, rfl, hlive⟩

theorem smTerminateSession_cases (sm : SessionManager) (sid : Option CStr) :
    ((smTerminateSession sm sid).1 ≠ 0 ∧ (smTerminateSession sm sid).2 = sm) ∨
      ∃ name i, sid = some name ∧ smFindSession sm (some name) = some i ∧
        (smTerminateSession sm sid).1 = 0 ∧
        (smTerminateSession sm sid).2.sessions =
          (setSession sm i (withState (sm.sessions i) .terminated)).sessions ∧
        (smTerminateSession sm sid).2.count = sm.count := by
  unfold smTerminateSession
  split
  · exact .inl ⟨by simp, rfl⟩
  · next name =>
      split
      · exact .inl ⟨by simp, rfl⟩
      · next i hfind => exact .inr ⟨name, i, rfl, hfind, rfl, rfl, rfl⟩

def regenerated (old : SessionEntry) (generated : CStr) : SessionEntry :=
  { old with sessionId := generated, rotationGeneration := old.rotationGeneration + 1 }

theorem smRegenerateSession_cases (sm : SessionManager) (old : Option CStr) (out : Option Nat)
    (generated : CStr) :
    ((smRegenerateSession sm old out generated).1 ≠ 0 ∧
        (smRegenerateSession sm old out generated).2.2 = sm) ∨
      ∃ name i, old = some name ∧ smFindSession sm (some name) = some i ∧
        (smRegenerateSession sm old out generated).1 = 0 ∧
        (smRegenerateSession sm old out generated).2.2.sessions =
          Function.update (Function.update sm.sessions sm.count
            (regenerated (sm.sessions i) generated)) i
              (withState (sm.sessions i) .invalidated) ∧
        (smRegenerateSession sm old out generated).2.2.count = sm.count + 1 := by
  unfold smRegenerateSession
  split
  · next name size =>
      split
      · exact .inl ⟨by simp, rfl⟩
      · split
        · exact .inl ⟨by simp, rfl⟩
        · next i hfind =>
            split
            · exact .inl ⟨by simp, rfl⟩
            · exact .inr ⟨name, i, rfl, hfind, rfl, rfl, rfl⟩
  · exact .inl ⟨by simp, rfl⟩

theorem smSetAuthenticated_cases (sm : SessionManager) (sid : Option CStr) (level : Int) :
    (smSetAuthenticated sm sid level).2 = sm ∨
      ∃ i s, (smSetAuthenticated sm sid level).2 = setSession sm i s ∧
        s.sessionId = (sm.sessions i).sessionId ∧ s.username = (sm.sessions i).username ∧
        s.state = (sm.sessions i).state := by
  unfold smSetAuthenticated
  split
  · exact .inl rfl
  · split
    · exact .inl rfl
    · next i hfind => exact .inr ⟨i, _, rfl, rfl, rfl, rfl⟩

/-! ## Runs -/

/-- The single stored session of an id that was found is put into a final state. -/
theorem Consistent.finish {sm : SessionManager} {ledger : Ledger} (h : Consistent sm ledger)
    {name : CStr} {i : Nat} (hfind : smFindSession sm (some name) = some i)
    {state : SessionState} (hstate : IsFinal state) :
    Consistent (Session.setSession sm i (withState (sm.sessions i) state))
      { ledger with revoked := name :: ledger.revoked } := by
  obtain ⟨hi, hname⟩ := smFindSession_eq_some hfind
  have hset : Consistent (Session.setSession sm i (withState (sm.sessions i) state)) ledger :=
    h.setSession rfl rfl fun _ => hstate
  refine hset.revoke [name] (fun sid hsid => ?_) (fun j hj hsid => ?_)
  · rw [List.mem_singleton.mp hsid, ← hname]
    exact h.issued i hi
  · rw [sessions_setSession] at hsid ⊢
    split
    · exact hstate
    · next hji =>
        rw [if_neg hji, List.mem_singleton, ← hname] at hsid
        exact absurd (h.distinct j hj i hi hsid) hji

theorem Consistent.create {sm : SessionManager} {ledger : Ledger} (h : Consistent sm ledger)
    {username clientIp userAgent : Option CStr} {out : Option Nat} {now : Int}
    {generated : CStr} (hfresh : generated ∉ ledger.owners.map (·.1)) :
    Consistent (smCreateSession sm username clientIp userAgent out now generated).2.2
      (record ledger sm (.create username clientIp userAgent out now generated)) := by
  obtain ⟨hcode, heq⟩ | ⟨name, rfl, hcode, hsessions, hcount⟩ :=
    smCreateSession_cases sm username clientIp userAgent out now generated
  · rw [heq,
      record_of_failed (.create username clientIp userAgent out now generated) (by simp) hcode]
    exact h
  · have hsucceeds : (call sm (.create (some name) clientIp userAgent out now generated)).1 = 0 :=
      hcode
    rw [record, if_pos hsucceeds]
    refine h.append _ [name] hsessions hcount hfresh rfl (by simp) ?_ ?_
    · simp [newEntry]
    · exact fun sid hsid => .inl hsid

theorem Consistent.terminate {sm : SessionManager} {ledger : Ledger} (h : Consistent sm ledger)
    (sid : Option CStr) :
    Consistent (smTerminateSession sm sid).2 (record ledger sm (.terminate sid)) := by
  obtain ⟨hcode, heq⟩ | ⟨name, i, rfl, hfind, hcode, hsessions, hcount⟩ :=
    smTerminateSession_cases sm sid
  · rw [heq, record_of_failed (.terminate sid) (by simp) hcode]
    exact h
  · have hsucceeds : (call sm (.terminate (some name))).1 = 0 := hcode
    rw [record, if_pos hsucceeds]
    exact (h.finish hfind (.inl rfl)).congr hsessions hcount

theorem Consistent.regenerate {sm : SessionManager} {ledger : Ledger} (h : Consistent sm ledger)
    {old : Option CStr} {out : Option Nat} {generated : CStr}
    (hfresh : generated ∉ ledger.owners.map (·.1)) :
    Consistent (smRegenerateSession sm old out generated).2.2
      (record ledger sm (.regenerate old out generated)) := by
  obtain ⟨hcode, heq⟩ | ⟨name, i, rfl, hfind, hcode, hsessions, hcount⟩ :=
    smRegenerateSession_cases sm old out generated
  · rw [heq, record_of_failed (.regenerate old out generated) (by simp) hcode]
    exact h
  · obtain ⟨hi, hname⟩ := smFindSession_eq_some hfind
    have hfinish := h.finish hfind (.inr rfl : IsFinal .invalidated)
    have hsucceeds : (call sm (.regenerate (some name) out generated)).1 = 0 := hcode
    rw [record, if_pos hsucceeds]
    refine hfinish.append (regenerated (sm.sessions i) generated) (ledger.ownersOf name)
      ?_ hcount hfresh rfl ?_ ?_ ?_
    · -- the code writes the copy first; the two slots differ
      rw [hsessions, Function.update_comm (by omega)]
      rfl
    · obtain ⟨⟨sid, owner⟩, howner, hsid⟩ := List.mem_map.mp (h.issued i hi)
      have hmem : owner ∈ ledger.ownersOf name := by
        rw [mem_ownersOf, ← hname, ← hsid]
        exact howner
      exact List.ne_nil_of_mem hmem
    · intro owner howner
      exact h.owner i hi owner (hname ▸ mem_ownersOf.mp howner)
    · intro sid hsid
      obtain hnew | hold := List.mem_append.mp hsid
      · split at hnew
        · next hrevoked =>
            -- a copy of a revoked session is in its final state
            refine .inr ⟨List.mem_singleton.mp hnew, ?_⟩
            exact h.isFinal i hi (hname ▸ hrevoked)
        · simp at hnew
      · exact .inl hold

theorem consistent_step (t : Tracked) (op : Op) (h : Consistent t.1 t.2)
    (hop : FreshId t op ∧ AllActive t op) : Consistent (step t op).1 (step t op).2 := by
  obtain ⟨sm, ledger⟩ := t
  obtain ⟨hfresh, hactive⟩ := hop
  cases op with
  | create username clientIp userAgent out now generated => exact h.create hfresh
  | validate sid clientIp userAgent out now =>
      obtain heq | ⟨i, s, heq, hsid, hname, hlive⟩ :=
        smValidateSession_cases sm sid clientIp userAgent out now
      · show Consistent (smValidateSession sm sid clientIp userAgent out now).2.2 ledger
        rwa [heq]
      · show Consistent (smValidateSession sm sid clientIp userAgent out now).2.2 ledger
        rw [heq]
        exact h.setSession hsid hname fun hfinal => absurd hfinal hlive
  | extend sid additionalSeconds now =>
      obtain heq | ⟨i, s, heq, hsid, hname, hlive⟩ :=
        smExtendSession_cases sm sid additionalSeconds now
      · show Consistent (smExtendSession sm sid additionalSeconds now).2 ledger
        rwa [heq]
      · show Consistent (smExtendSession sm sid additionalSeconds now).2 ledger
        rw [heq]
        exact h.setSession hsid hname fun hfinal => absurd hfinal hlive
  | terminate sid => exact h.terminate sid
  | regenerate old out generated => exact h.regenerate hfresh
  | setAuthenticated sid level =>
      obtain heq | ⟨i, s, heq, hsid, hname, hstate⟩ := smSetAuthenticated_cases sm sid level
      · show Consistent (smSetAuthenticated sm sid level).2 ledger
        rwa [heq]
      · show Consistent (smSetAuthenticated sm sid level).2 ledger
        rw [heq]
        exact h.setSession hsid hname (hstate ▸ id)
  | invalidateAllForUser username =>
      cases username with
      | none => exact h
      | some name => exact h.invalidateAll hactive
  | cleanupExpired now => exact h.cleanup now sm.count 0

theorem Consistent.revocationFinal {t : Tracked} (h : Consistent t.1 t.2) :
    RevocationFinal t := by
  intro sid hsid clientIp userAgent out now
  refine smValidateSession_final (fun i hfind => ?_) clientIp userAgent out now
  obtain ⟨hi, hname⟩ := smFindSession_eq_some hfind
  exact h.isFinal i hi (hname ▸ hsid)

/-- In every run that draws fresh ids and whose calls of `sm_invalidate_all_for_user`
each meet only active sessions of the user, revocation is final. -/
theorem revocation_final_of_allActive {sm : SessionManager} (hempty : sm.count = 0)
    {ops : List Op}
    (hops : Always step (fun t op => FreshId t op ∧ AllActive t op) (sm, emptyLedger) ops) :
    RevocationFinal (run step (sm, emptyLedger) ops) :=
  (run_invariant step (I := fun t => Consistent t.1 t.2) consistent_step
    (consistent_of_empty hempty) hops).revocationFinal

/-- Two users log in; one logs out, the other rotates the id and is then locked out. -/
def lockoutRun : List Op :=
  [.create (some (lit "alice")) none none (some 128) 0 (lit "a1"),
    .create (some (lit "bob")) none none (some 128) 5 (lit "b1"),
    .validate (some (lit "a1")) none none none 10,
    .terminate (some (lit "b1")),
    .regenerate (some (lit "a1")) (some 128) (lit "a2"),
    .invalidateAllForUser (some (lit "alice")),
    .regenerate (some (lit "a2")) (some 128) (lit "a3")]

theorem revocation_final_of_allActive_lockout :
    Always step (fun t op => FreshId t op ∧ AllActive t op) (smInit, emptyLedger) lockoutRun ∧
      RevocationFinal (run step (smInit, emptyLedger) lockoutRun) :=
  ⟨by decide, revocation_final_of_allActive rfl (by decide)⟩

def idleRun : List Op :=
  [.create (some (lit "alice")) none none (some 128) 0 (lit "a1"),
    .validate (some (lit "a1")) none none none 1801,
    .invalidateAllForUser (some (lit "alice")),
    .extend (some (lit "a1")) 0 1801]

/-- The idle session is extended and validates again, with fresh ids and a clock that
never goes back. -/
theorem idle_session_survives_invalidation :
    ¬∀ (ops : List Op) (now : Int), Always step FreshId (smInit, emptyLedger) ops →
      (clockReadings ops ++ [now]).Pairwise (· ≤ ·) →
      ∀ sid ∈ (run step (smInit, emptyLedger) ops).2.revoked,
        (smValidateSession (run step (smInit, emptyLedger) ops).1 (some sid) none none none
          now).1 ≠ 0 := by
  intro h
  have hidle := h idleRun 1801 (by decide) (by decide) (lit "a1")
    (by decide)
  exact hidle (by decide)

end MiniBackend.Auth.Proofs.SessionRevocation
