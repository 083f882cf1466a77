import MiniBackend.Auth.Proofs.SessionRevocation

/-!
# What a slot keeps from an earlier session

Creation overwrites every field of a slot but the address and the user agent, and those two
only when they are `NULL`.  Later validations read them when the binding is enforced, so two
managers that differ in nothing but the history of a slot can tell their new sessions apart.
-/

namespace MiniBackend.Auth.Proofs.SessionReuse

open MiniBackend.Lib.CString MiniBackend.Lib.CArray MiniBackend.Lib.Runs
open MiniBackend.Auth.Session MiniBackend.Auth.Proofs.SessionRevocation

/-! ## Later calls -/

inductive Use
  | validate (sessionId clientIp userAgent : Option CStr) (usernameOut : Option Nat) (now : Int)
  | getAttribute (sessionId key : Option CStr) (valueOut : Option Nat)

def Use.sessionId : Use → Option CStr
  | .validate sid _ _ _ _ => sid
  | .getAttribute sid _ _ => sid

def use (sm : SessionManager) : Use → (Int × Option CStr) × SessionManager
  | .validate sid clientIp userAgent out now =>
      let r := smValidateSession sm sid clientIp userAgent out now
      ((r.1, r.2.1), r.2.2)
  | .getAttribute sid key out => (smGetSessionAttribute sm sid key out, sm)

def afterUse (sm : SessionManager) (u : Use) : SessionManager := (use sm u).2

def Reaches (sm : SessionManager) (slot : Nat) (u : Use) : Prop :=
  smFindSession sm u.sessionId = some slot

/-- After any calls, a call that reaches the slot in both managers has the same outcome. -/
def SameBehaviour (slot : Nat) (sm₁ sm₂ : SessionManager) : Prop :=
  ∀ us u, Reaches (run afterUse sm₁ us) slot u → Reaches (run afterUse sm₂ us) slot u →
    (use (run afterUse sm₁ us) u).1 = (use (run afterUse sm₂ us) u).1

/-- The settings that creation and validation read. -/
def SameConfig (sm₁ sm₂ : SessionManager) : Prop :=
  sm₁.defaultIdleTimeout = sm₂.defaultIdleTimeout ∧
    sm₁.defaultAbsoluteTtl = sm₂.defaultAbsoluteTtl ∧
    sm₁.enforceIpBinding = sm₂.enforceIpBinding ∧
    sm₁.enforceUserAgentBinding = sm₂.enforceUserAgentBinding

/-- A used slot has this id. -/
def InUse (sm : SessionManager) (sid : CStr) : Prop :=
  ∃ i < sm.count, (sm.sessions i).sessionId = sid

/-! ## One entry by itself -/

def entryUse (ipOn agentOn : Bool) (s : SessionEntry) : Use → (Int × Option CStr) × SessionEntry
  | .validate _ clientIp userAgent out now =>
      if s.state = .terminated ∨ s.state = .invalidated then ((-3, none), s)
      else if s.expiresAt < now then ((-4, none), withState s .expired)
      else if s.idleTimeoutSeconds.toNat < now - s.lastAccessedAt then
        ((-5, none), withState s .idle)
      else if ipOn ∧ clientIp.isSome ∧ s.clientIp ≠ [] ∧ clientIp ≠ some s.clientIp then
        ((-6, none), s)
      else if agentOn ∧ userAgent.isSome ∧ s.userAgent ≠ [] ∧ userAgent ≠ some s.userAgent then
        ((-7, none), s)
      else
        ((0, out.bind fun size => if 0 < size then some (copyOut s.username size) else none),
          touched s now)
  | .getAttribute _ key out =>
      (match key, out with
        | some key, some size =>
            if size = 0 then (-1, none)
            else
              match s.attributes.find? (·.1 == key) with
              | some attr => (0, some (copyOut attr.2 size))
              | none => (-3, none)
        | _, _ => (-1, none), s)

theorem setSession_self (sm : SessionManager) (i : Nat) : setSession sm i (sm.sessions i) = sm := by
  rw [setSession, Function.update_eq_self]

theorem use_of_reaches {sm : SessionManager} {slot : Nat} {u : Use} (h : Reaches sm slot u) :
    use sm u =
      ((entryUse sm.enforceIpBinding sm.enforceUserAgentBinding (sm.sessions slot) u).1,
        setSession sm slot
          (entryUse sm.enforceIpBinding sm.enforceUserAgentBinding (sm.sessions slot) u).2) := by
  unfold Reaches at h
  cases u with
  | validate sid clientIp userAgent out now =>
      cases sid with
      | none => cases h
      | some sid =>
          rw [Use.sessionId] at h
          simp only [use, smValidateSession, h, entryUse]
          split
          · rw [setSession_self]
          · split
            · rfl
            · split
              · rfl
              · split
                · rw [setSession_self]
                · split
                  · rw [setSession_self]
                  · cases out <;> rfl
  | getAttribute sid key out =>
      cases sid with
      | none => cases h
      | some sid =>
          rw [Use.sessionId] at h
          cases key with
          | none => simp only [use, smGetSessionAttribute, entryUse, setSession_self]
          | some key =>
              cases out with
              | none => simp only [use, smGetSessionAttribute, entryUse, setSession_self]
              | some size =>
                  cases hfind : (sm.sessions slot).attributes.find? (fun x => x.1 == key) with
                  | none =>
                      simp only [use, smGetSessionAttribute, h, entryUse, setSession_self, hfind]
                  | some attr =>
                      simp only [use, smGetSessionAttribute, h, entryUse, setSession_self, hfind]

theorem entryUse_sessionId (ipOn agentOn : Bool) (s : SessionEntry) (u : Use) :
    (entryUse ipOn agentOn s u).2.sessionId = s.sessionId := by
  cases u with
  | validate sid clientIp userAgent out now =>
      unfold entryUse
      dsimp only
      repeat' split
      all_goals rfl
  | getAttribute sid key out => rfl

def Alike (ipOn agentOn : Bool) (s t : SessionEntry) : Prop :=
  ∃ ip agent, t = { s with clientIp := ip, userAgent := agent } ∧
    (ipOn → ip = s.clientIp) ∧ (agentOn → agent = s.userAgent)

theorem entryUse_alike {ipOn agentOn : Bool} {s t : SessionEntry} (h : Alike ipOn agentOn s t)
    (u : Use) :
    (entryUse ipOn agentOn s u).1 = (entryUse ipOn agentOn t u).1 ∧
      Alike ipOn agentOn (entryUse ipOn agentOn s u).2 (entryUse ipOn agentOn t u).2 := by
  obtain ⟨ip, agent, rfl, hip, hagent⟩ := h
  cases u with
  | validate sid clientIp userAgent out now =>
      have hipCheck : (ipOn ∧ clientIp.isSome ∧ ip ≠ [] ∧ clientIp ≠ some ip) ↔
          (ipOn ∧ clientIp.isSome ∧ s.clientIp ≠ [] ∧ clientIp ≠ some s.clientIp) := by
        apply and_congr_right
        intro hon
        rw [hip hon]
      have hagentCheck : (agentOn ∧ userAgent.isSome ∧ agent ≠ [] ∧ userAgent ≠ some agent) ↔
          (agentOn ∧ userAgent.isSome ∧ s.userAgent ≠ [] ∧ userAgent ≠ some s.userAgent) := by
        apply and_congr_right
        intro hon
        rw [hagent hon]
      simp only [entryUse, hipCheck, hagentCheck]
      repeat' split
      all_goals exact ⟨rfl, ip, agent, rfl, hip, hagent⟩
  | getAttribute sid key out => exact ⟨rfl, ip, agent, rfl, hip, hagent⟩

/-! ## The other slots -/

theorem smFindSession_congr {sm sm' : SessionManager} (hcount : sm'.count = sm.count)
    (hids : ∀ i, (sm'.sessions i).sessionId = (sm.sessions i).sessionId) (sid : Option CStr) :
    smFindSession sm' sid = smFindSession sm sid := by
  cases sid with
  | none => rfl
  | some sid => simp only [smFindSession, hcount, hids]

structure Undisturbed (sm sm' : SessionManager) : Prop where
  count : sm'.count = sm.count
  ids : ∀ i, (sm'.sessions i).sessionId = (sm.sessions i).sessionId
  ipBinding : sm'.enforceIpBinding = sm.enforceIpBinding
  agentBinding : sm'.enforceUserAgentBinding = sm.enforceUserAgentBinding

theorem use_cases (sm : SessionManager) (u : Use) :
    (∃ slot, Reaches sm slot u) ∨ (∀ slot, ¬Reaches sm slot u) ∧ afterUse sm u = sm := by
  cases hfind : smFindSession sm u.sessionId with
  | some slot => exact Or.inl ⟨slot, hfind⟩
  | none =>
      refine Or.inr ⟨fun slot h => ?_, ?_⟩
      · rw [Reaches, hfind] at h
        cases h
      · cases u with
        | validate sid clientIp userAgent out now =>
            cases sid with
            | none => rfl
            | some sid =>
                rw [Use.sessionId] at hfind
                simp only [afterUse, use, smValidateSession, hfind]
        | getAttribute sid key out => rfl

theorem undisturbed_afterUse (sm : SessionManager) (u : Use) : Undisturbed sm (afterUse sm u) := by
  rcases use_cases sm u with ⟨slot, hslot⟩ | ⟨-, hsame⟩
  · rw [afterUse, use_of_reaches hslot]
    refine ⟨rfl, fun i => ?_, rfl, rfl⟩
    rw [sessions_setSession]
    split
    · next hi => rw [entryUse_sessionId, hi]
    · rfl
  · rw [hsame]
    exact ⟨rfl, fun _ => rfl, rfl, rfl⟩

theorem Undisturbed.find {sm sm' : SessionManager} (h : Undisturbed sm sm') (sid : Option CStr) :
    smFindSession sm' sid = smFindSession sm sid := smFindSession_congr h.count h.ids sid

theorem smFindSession_run (sm : SessionManager) (us : List Use) (sid : Option CStr) :
    smFindSession (run afterUse sm us) sid = smFindSession sm sid := by
  induction us generalizing sm with
  | nil => rfl
  | cons u us ih => rw [run_cons, ih, (undisturbed_afterUse sm u).find]

theorem sessions_afterUse_of_reaches {sm : SessionManager} {slot : Nat} {u : Use}
    (h : Reaches sm slot u) :
    (afterUse sm u).sessions slot =
      (entryUse sm.enforceIpBinding sm.enforceUserAgentBinding (sm.sessions slot) u).2 := by
  rw [afterUse, use_of_reaches h, sessions_setSession, if_pos rfl]

theorem sessions_afterUse_of_not_reaches {sm : SessionManager} {slot : Nat} {u : Use}
    (h : ¬Reaches sm slot u) : (afterUse sm u).sessions slot = sm.sessions slot := by
  rcases use_cases sm u with ⟨i, hi⟩ | ⟨-, hsame⟩
  · rw [afterUse, use_of_reaches hi, sessions_setSession, if_neg]
    rintro rfl
    exact h hi
  · rw [hsame]

/-! ## Two managers -/

structure Twins (slot : Nat) (sid : CStr) (sm₁ sm₂ : SessionManager) : Prop where
  find₁ : ∀ v, smFindSession sm₁ v = some slot ↔ v = some sid
  find₂ : ∀ v, smFindSession sm₂ v = some slot ↔ v = some sid
  ipBinding : sm₁.enforceIpBinding = sm₂.enforceIpBinding
  agentBinding : sm₁.enforceUserAgentBinding = sm₂.enforceUserAgentBinding
  alike : Alike sm₁.enforceIpBinding sm₁.enforceUserAgentBinding (sm₁.sessions slot)
    (sm₂.sessions slot)

theorem Twins.step {slot : Nat} {sid : CStr} {sm₁ sm₂ : SessionManager}
    (h : Twins slot sid sm₁ sm₂) (u : Use) :
    Twins slot sid (afterUse sm₁ u) (afterUse sm₂ u) := by
  have h₁ := undisturbed_afterUse sm₁ u
  have h₂ := undisturbed_afterUse sm₂ u
  refine ⟨fun v => ?_, fun v => ?_, ?_, ?_, ?_⟩
  · rw [h₁.find, h.find₁]
  · rw [h₂.find, h.find₂]
  · rw [h₁.ipBinding, h₂.ipBinding, h.ipBinding]
  · rw [h₁.agentBinding, h₂.agentBinding, h.agentBinding]
  · rw [h₁.ipBinding, h₁.agentBinding]
    by_cases hsid : u.sessionId = some sid
    · rw [sessions_afterUse_of_reaches ((h.find₁ _).mpr hsid),
        sessions_afterUse_of_reaches ((h.find₂ _).mpr hsid), ← h.ipBinding, ← h.agentBinding]
      exact (entryUse_alike h.alike u).2
    · rw [sessions_afterUse_of_not_reaches fun hr => hsid ((h.find₁ _).mp hr),
        sessions_afterUse_of_not_reaches fun hr => hsid ((h.find₂ _).mp hr)]
      exact h.alike

theorem Twins.sameBehaviour {slot : Nat} {sid : CStr} {sm₁ sm₂ : SessionManager}
    (h : Twins slot sid sm₁ sm₂) : SameBehaviour slot sm₁ sm₂ := by
  intro us u hr₁ hr₂
  have hrun : Twins slot sid (run afterUse sm₁ us) (run afterUse sm₂ us) :=
    run_related afterUse (fun _ _ u h => h.step u) h us
  rw [use_of_reaches hr₁, use_of_reaches hr₂, ← hrun.ipBinding, ← hrun.agentBinding]
  exact (entryUse_alike hrun.alike u).1

/-! ## Creation -/

def withNew (sm : SessionManager) (entry : SessionEntry) : SessionManager :=
  { setSession sm sm.count entry with
    count := sm.count + 1, totalCreated := sm.totalCreated + 1 }

theorem smCreateSession_created {sm : SessionManager} {username clientIp userAgent : Option CStr}
    {out : Option Nat} {now : Int} {generated : CStr}
    (h : (smCreateSession sm username clientIp userAgent out now generated).1 = 0) :
    ∃ name, username = some name ∧
      (smCreateSession sm username clientIp userAgent out now generated).2.2 =
        withNew sm (newEntry sm (sm.sessions sm.count) name clientIp userAgent now generated) := by
  unfold smCreateSession at h ⊢
  split at h
  · split at h
    · cases h
    · split at h
      · cases h
      · next hsize hroom => exact ⟨_, rfl, by rw [if_neg hsize, if_neg hroom, withNew]⟩
  · cases h

theorem sessions_withNew (sm : SessionManager) (entry : SessionEntry) (j : Nat) :
    (withNew sm entry).sessions j = if j = sm.count then entry else sm.sessions j :=
  sessions_setSession sm sm.count entry j

/-- The new slot is found under its id, unless an earlier slot has the same one. -/
theorem smFindSession_withNew (sm : SessionManager) (entry : SessionEntry) (v : Option CStr) :
    smFindSession (withNew sm entry) v = some sm.count ↔
      v = some entry.sessionId ∧ ¬InUse sm entry.sessionId := by
  cases v with
  | none => simp [smFindSession]
  | some v =>
      have hbefore : ∀ j < sm.count, (withNew sm entry).sessions j = sm.sessions j := by
        intro j hj
        rw [sessions_withNew, if_neg (by omega)]
      rw [smFindSession, findIndex_eq_some, sessions_withNew, if_pos rfl]
      constructor
      · rintro ⟨hv, -, hfirst⟩
        have hv' : entry.sessionId = v := by simpa using hv
        refine ⟨by rw [hv'], ?_⟩
        rintro ⟨j, hj, hused⟩
        have hdiff := hfirst j hj
        rw [hbefore j hj, hused, hv'] at hdiff
        simp at hdiff
      · rintro ⟨hv, hfree⟩
        cases hv
        refine ⟨by simp, Nat.lt_succ_self _, fun j hj => ?_⟩
        rw [hbefore j hj, beq_eq_false_iff_ne]
        exact fun hused => hfree ⟨j, hj, hused⟩

theorem sameBehaviour_of_inUse {sm₁ sm₂ : SessionManager} {e₁ e₂ : SessionEntry}
    (hcount : sm₁.count = sm₂.count)
    (h : InUse sm₁ e₁.sessionId ∨ InUse sm₂ e₂.sessionId) :
    SameBehaviour sm₁.count (withNew sm₁ e₁) (withNew sm₂ e₂) := by
  intro us u hr₁ hr₂
  rw [Reaches, smFindSession_run, smFindSession_withNew] at hr₁
  rw [Reaches, smFindSession_run, hcount, smFindSession_withNew] at hr₂
  rcases h with h | h
  · exact absurd h hr₁.2
  · exact absurd h hr₂.2

theorem twins_withNew {sm₁ sm₂ : SessionManager} {e₁ e₂ : SessionEntry}
    (hconfig : SameConfig sm₁ sm₂) (hcount : sm₁.count = sm₂.count)
    (hid : e₁.sessionId = e₂.sessionId) (hfree₁ : ¬InUse sm₁ e₁.sessionId)
    (hfree₂ : ¬InUse sm₂ e₂.sessionId)
    (halike : Alike sm₁.enforceIpBinding sm₁.enforceUserAgentBinding e₁ e₂) :
    Twins sm₁.count e₁.sessionId (withNew sm₁ e₁) (withNew sm₂ e₂) where
  find₁ v := by rw [smFindSession_withNew, and_iff_left hfree₁]
  find₂ v := by rw [hcount, smFindSession_withNew, and_iff_left hfree₂, hid]
  ipBinding := hconfig.2.2.1
  agentBinding := hconfig.2.2.2
  alike := by
    rw [sessions_withNew, if_pos rfl, sessions_withNew, if_pos hcount]
    exact halike

theorem SameBehaviour.first {sm₁ sm₂ : SessionManager} {e₁ e₂ : SessionEntry}
    (hsame : SameBehaviour sm₁.count (withNew sm₁ e₁) (withNew sm₂ e₂))
    (hconfig : SameConfig sm₁ sm₂) (hcount : sm₁.count = sm₂.count)
    (hid : e₁.sessionId = e₂.sessionId) (hfree₁ : ¬InUse sm₁ e₁.sessionId)
    (hfree₂ : ¬InUse sm₂ e₂.sessionId) {u : Use} (hu : u.sessionId = some e₁.sessionId) :
    (entryUse sm₁.enforceIpBinding sm₁.enforceUserAgentBinding e₁ u).1 =
      (entryUse sm₁.enforceIpBinding sm₁.enforceUserAgentBinding e₂ u).1 := by
  have hr₁ : Reaches (withNew sm₁ e₁) sm₁.count u :=
    (smFindSession_withNew sm₁ e₁ _).mpr ⟨hu, hfree₁⟩
  have hr₂ : Reaches (withNew sm₂ e₂) sm₁.count u := by
    rw [Reaches, hcount]
    exact (smFindSession_withNew sm₂ e₂ _).mpr ⟨hid ▸ hu, hfree₂⟩
  have hanswers : (use (withNew sm₁ e₁) u).1 = (use (withNew sm₂ e₂) u).1 := hsame [] u hr₁ hr₂
  rw [use_of_reaches hr₁, use_of_reaches hr₂, sessions_withNew, if_pos rfl,
    sessions_withNew, if_pos hcount] at hanswers
  dsimp only [withNew, setSession] at hanswers
  rw [hanswers, hconfig.2.2.1, hconfig.2.2.2]

theorem smCreateSession_fst_congr {sm₁ sm₂ : SessionManager} (hcount : sm₁.count = sm₂.count)
    (username clientIp userAgent : Option CStr) (out : Option Nat) (now : Int)
    (generated : CStr) :
    (smCreateSession sm₁ username clientIp userAgent out now generated).1 =
      (smCreateSession sm₂ username clientIp userAgent out now generated).1 := by
  unfold smCreateSession
  rw [hcount]
  split
  · split
    · rfl
    · split <;> rfl
  · rfl

section Created

variable {sm₁ sm₂ : SessionManager} {slot₁ slot₂ : SessionEntry}

/-- Strings that accept the same strings, when an empty one accepts all, are the same. -/
theorem eq_of_accepts {a b : CStr} (h : ∀ x, (a = [] ∨ x = a) ↔ (b = [] ∨ x = b)) : a = b := by
  have hempty : a = [] ↔ b = [] := by
    have hnil := h []
    rwa [eq_comm (a := []) (b := a), eq_comm (a := []) (b := b), or_self, or_self] at hnil
  rcases (h a).mp (Or.inr rfl) with hb | hab
  · rw [hempty.mpr hb, hb]
  · exact hab

def JustUsed (s : SessionEntry) (now : Int) : Prop :=
  s.state = .active ∧ s.lastAccessedAt = now ∧ now ≤ s.expiresAt

theorem justUsed_newEntry (sm : SessionManager) (slot : SessionEntry) (name : CStr)
    (clientIp userAgent : Option CStr) (now : Int) (generated : CStr) :
    JustUsed (newEntry sm slot name clientIp userAgent now generated) now := by
  refine ⟨rfl, rfl, ?_⟩
  dsimp only [newEntry]
  omega

theorem entryUse_of_justUsed {s : SessionEntry} {now : Int} (h : JustUsed s now)
    (ipOn agentOn : Bool) (sid ip agent : Option CStr) :
    (entryUse ipOn agentOn s (.validate sid ip agent none now)).1 =
      if ipOn ∧ ip.isSome ∧ s.clientIp ≠ [] ∧ ip ≠ some s.clientIp then (-6, none)
      else if agentOn ∧ agent.isSome ∧ s.userAgent ≠ [] ∧ agent ≠ some s.userAgent then (-7, none)
      else (0, none) := by
  obtain ⟨hstate, haccess, hexpires⟩ := h
  unfold entryUse
  dsimp only
  rw [if_neg (by simp [hstate]), if_neg (by omega), if_neg (by omega)]
  split
  · rfl
  · split <;> rfl

theorem bound_eq_of_answers {a b : CStr} (refusal : Int × Option CStr)
    (hrefusal : refusal ≠ (0, none)) {answer answer' : CStr → Int × Option CStr}
    (ha : ∀ x, answer x = if a ≠ [] ∧ x ≠ a then refusal else (0, none))
    (hb : ∀ x, answer' x = if b ≠ [] ∧ x ≠ b then refusal else (0, none))
    (h : ∀ x, answer x = answer' x) : a = b := by
  have haccepts {c x : CStr} :
      (if c ≠ [] ∧ x ≠ c then refusal else (0, none)) = (0, none) ↔ c = [] ∨ x = c := by
    by_cases hempty : c = []
    · simp [hempty]
    · by_cases hx : x = c
      · simp [hx]
      · simp [hempty, hx, hrefusal]
  apply eq_of_accepts
  intro x
  rw [← haccepts, ← haccepts, ← ha, ← hb, h]

theorem alike_newEntry (hconfig : SameConfig sm₁ sm₂) {clientIp userAgent : Option CStr}
    (hip : clientIp = none → sm₁.enforceIpBinding → slot₁.clientIp = slot₂.clientIp)
    (hagent : userAgent = none → sm₁.enforceUserAgentBinding → slot₁.userAgent = slot₂.userAgent)
    (name : CStr) (now : Int) (generated : CStr) :
    Alike sm₁.enforceIpBinding sm₁.enforceUserAgentBinding
      (newEntry sm₁ slot₁ name clientIp userAgent now generated)
      (newEntry sm₂ slot₂ name clientIp userAgent now generated) := by
  refine ⟨(newEntry sm₂ slot₂ name clientIp userAgent now generated).clientIp,
    (newEntry sm₂ slot₂ name clientIp userAgent now generated).userAgent, ?_, fun hon => ?_,
    fun hon => ?_⟩
  · simp only [newEntry, hconfig.1, hconfig.2.1]
  · cases clientIp with
    | none => exact (hip rfl hon).symm
    | some ip => rfl
  · cases userAgent with
    | none => exact (hagent rfl hon).symm
    | some agent => rfl

end Created

/-- What a new session can show of the sessions that were in its slot before. -/
def SlotsAgree (sm₁ sm₂ : SessionManager) (clientIp userAgent : Option CStr) : Prop :=
  (clientIp = none → sm₁.enforceIpBinding →
      (sm₁.sessions sm₁.count).clientIp = (sm₂.sessions sm₂.count).clientIp) ∧
    (userAgent = none → sm₁.enforceUserAgentBinding →
      (sm₁.sessions sm₁.count).userAgent = (sm₂.sessions sm₂.count).userAgent)

/-- The new sessions of two managers behave alike exactly when their slots agree, or when one of
them is never found. -/
theorem new_sessions_sameBehaviour_iff {sm₁ sm₂ : SessionManager} (hconfig : SameConfig sm₁ sm₂)
    (hcount : sm₁.count = sm₂.count) {username clientIp userAgent : Option CStr}
    {sessionIdOut : Option Nat} {now : Int} {generated : CStr}
    (hcreated :
      (smCreateSession sm₁ username clientIp userAgent sessionIdOut now generated).1 = 0) :
    SameBehaviour sm₁.count
        (smCreateSession sm₁ username clientIp userAgent sessionIdOut now generated).2.2
        (smCreateSession sm₂ username clientIp userAgent sessionIdOut now generated).2.2 ↔
      InUse sm₁ generated ∨ InUse sm₂ generated ∨ SlotsAgree sm₁ sm₂ clientIp userAgent := by
  have hcreated₂ :
      (smCreateSession sm₂ username clientIp userAgent sessionIdOut now generated).1 = 0 := by
    rw [← smCreateSession_fst_congr hcount, hcreated]
  obtain ⟨name, hname, h₁⟩ := smCreateSession_created hcreated
  obtain ⟨name', hname', h₂⟩ := smCreateSession_created hcreated₂
  cases hname.symm.trans hname'
  rw [h₁, h₂]
  have hid : (newEntry sm₁ (sm₁.sessions sm₁.count) name clientIp userAgent now generated).sessionId
      = (newEntry sm₂ (sm₂.sessions sm₂.count) name clientIp userAgent now generated).sessionId :=
    rfl
  constructor
  · intro hsame
    by_cases hused₁ : InUse sm₁ generated
    · exact Or.inl hused₁
    by_cases hused₂ : InUse sm₂ generated
    · exact Or.inr (Or.inl hused₂)
    refine Or.inr (Or.inr ⟨?_, ?_⟩)
    · rintro rfl hon
      have hanswers := fun ip => hsame.first hconfig hcount hid hused₁ hused₂
        (u := .validate (some generated) (some ip) none none now) rfl
      rw [hon] at hanswers
      refine bound_eq_of_answers (-6, none) (by decide) (fun ip => ?_) (fun ip => ?_) hanswers
      · rw [entryUse_of_justUsed (justUsed_newEntry sm₁ _ name none userAgent now generated)]
        simp [newEntry]
      · rw [entryUse_of_justUsed (justUsed_newEntry sm₂ _ name none userAgent now generated)]
        simp [newEntry]
    · rintro rfl hon
      have hanswers := fun agent => hsame.first hconfig hcount hid hused₁ hused₂
        (u := .validate (some generated) none (some agent) none now) rfl
      rw [hon] at hanswers
      refine bound_eq_of_answers (-7, none) (by decide) (fun agent => ?_) (fun agent => ?_) hanswers
      · rw [entryUse_of_justUsed (justUsed_newEntry sm₁ _ name clientIp none now generated)]
        simp [newEntry]
      · rw [entryUse_of_justUsed (justUsed_newEntry sm₂ _ name clientIp none now generated)]
        simp [newEntry]
  · rintro (hused | hused | hagree)
    · exact sameBehaviour_of_inUse hcount (Or.inl hused)
    · exact sameBehaviour_of_inUse hcount (Or.inr hused)
    · by_cases hused₁ : InUse sm₁ generated
      · exact sameBehaviour_of_inUse hcount (Or.inl hused₁)
      by_cases hused₂ : InUse sm₂ generated
      · exact sameBehaviour_of_inUse hcount (Or.inr hused₂)
      have halike := alike_newEntry hconfig hagree.1 hagree.2 name now generated
      exact (twins_withNew hconfig hcount hid hused₁ hused₂ halike).sameBehaviour

/-- Address binding is on, and no session was created yet. -/
def boundManager : SessionManager := { smInit with enforceIpBinding := true }

/-- The same manager after the session of `alice` ended and was cleaned out. -/
def cleanedManager : SessionManager :=
  run (fun sm op => (call sm op).2) boundManager
    [.create (some (lit "alice")) (some (lit "10.0.0.1")) none (some 128) 0 (lit "a1"),
      .terminate (some (lit "a1")), .cleanupExpired 5]

theorem new_sessions_sameBehaviour_iff_bob :
    SameBehaviour cleanedManager.count
        (smCreateSession cleanedManager (some (lit "bob")) none none (some 128) 10
          (lit "b1")).2.2
        (smCreateSession boundManager (some (lit "bob")) none none (some 128) 10
          (lit "b1")).2.2 ↔
      InUse cleanedManager (lit "b1") ∨ InUse boundManager (lit "b1") ∨
        SlotsAgree cleanedManager boundManager none none := by
  have hconfig : SameConfig cleanedManager boundManager := ⟨rfl, rfl, rfl, rfl⟩
  have hcount : cleanedManager.count = boundManager.count := by decide
  have hcreated : (smCreateSession cleanedManager (some (lit "bob")) none none (some 128) 10
      (lit "b1")).1 = 0 := by decide
  exact new_sessions_sameBehaviour_iff hconfig hcount hcreated

/-- The session of `bob` is bound to the address that `alice` had. -/
theorem address_of_earlier_session :
    SameConfig cleanedManager boundManager ∧ cleanedManager.count = boundManager.count ∧
      (smCreateSession cleanedManager (some (lit "bob")) none none (some 128) 10
        (lit "b1")).1 = 0 ∧
      ¬SameBehaviour cleanedManager.count
        (smCreateSession cleanedManager (some (lit "bob")) none none (some 128) 10
          (lit "b1")).2.2
        (smCreateSession boundManager (some (lit "bob")) none none (some 128) 10
          (lit "b1")).2.2 := by
  refine ⟨⟨rfl, rfl, rfl, rfl⟩, by decide, by decide, fun h => ?_⟩
  have hanswer := h [] (.validate (some (lit "b1")) (some (lit "10.0.0.9")) none none 10)
    (by unfold Reaches; decide) (by unfold Reaches; decide)
  exact absurd hanswer (by decide)

end MiniBackend.Auth.Proofs.SessionReuse
