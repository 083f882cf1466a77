import MiniBackend.Lib.CString
import MiniBackend.Lib.CArray
import MiniBackend.Lib.Runs

/-!
# `session_manager.c`

The table is the whole slot array with a count: a slot keeps what an earlier
session left in it until it is overwritten.  String arguments that may be `NULL`
are options, an output buffer is the option of its size, `now` is the reading of
the clock, and the id that `sm_generate_session_id` draws is an argument.
-/

namespace MiniBackend.Auth.Session

open MiniBackend.Lib.CString MiniBackend.Lib.CArray

def smMaxSessions : Nat := 2048
def smMaxUsernameLen : Nat := 128
def smDefaultIdleTimeout : UInt32 := 1800
def smDefaultAbsoluteTtl : UInt32 := 28800
def smMaxIpLen : Nat := 64
def smMaxUserAgentLen : Nat := 256

inductive SessionState
  | active | idle | expired | terminated | invalidated
deriving DecidableEq

/-- `attributes` is the first `attr_count` entries of its array. -/
structure SessionEntry where
  sessionId : CStr
  username : CStr
  clientIp : CStr
  userAgent : CStr
  state : SessionState
  createdAt : Int
  lastAccessedAt : Int
  expiresAt : Int
  idleTimeoutSeconds : UInt32
  absoluteTtlSeconds : UInt32
  isAuthenticated : Bool
  privilegeLevel : Int
  attributes : List (CStr × CStr)
  accessCount : UInt32
  rotationGeneration : Int
deriving DecidableEq

/-- `fixation_policy` is stored and never read. -/
structure SessionManager where
  sessions : Nat → SessionEntry
  count : Nat
  totalCreated : Nat
  totalDestroyed : Nat
  defaultIdleTimeout : UInt32
  defaultAbsoluteTtl : UInt32
  enforceIpBinding : Bool
  enforceUserAgentBinding : Bool

def emptyEntry : SessionEntry where
  sessionId := []
  username := []
  clientIp := []
  userAgent := []
  state := .active
  createdAt := 0
  lastAccessedAt := 0
  expiresAt := 0
  idleTimeoutSeconds := 0
  absoluteTtlSeconds := 0
  isAuthenticated := false
  privilegeLevel := 0
  attributes := []
  accessCount := 0
  rotationGeneration := 0

def smInit : SessionManager where
  sessions := fun _ => emptyEntry
  count := 0
  totalCreated := 0
  totalDestroyed := 0
  defaultIdleTimeout := smDefaultIdleTimeout
  defaultAbsoluteTtl := smDefaultAbsoluteTtl
  enforceIpBinding := false
  enforceUserAgentBinding := false

def setSession (sm : SessionManager) (i : Nat) (s : SessionEntry) : SessionManager :=
  { sm with sessions := Function.update sm.sessions i s }

def withState (s : SessionEntry) (state : SessionState) : SessionEntry := { s with state }

/-- The slot of a new session.  A `NULL` address or user agent leaves the bytes that
the slot held before. -/
def newEntry (sm : SessionManager) (slot : SessionEntry) (username : CStr)
    (clientIp userAgent : Option CStr) (now : Int) (generated : CStr) : SessionEntry where
  sessionId := generated
  username := strncpy username (smMaxUsernameLen - 1)
  clientIp := match clientIp with
    | some ip => strncpy ip (smMaxIpLen - 1)
    | none => slot.clientIp
  userAgent := match userAgent with
    | some ua => strncpy ua (smMaxUserAgentLen - 1)
    | none => slot.userAgent
  state := .active
  createdAt := now
  lastAccessedAt := now
  expiresAt := now + sm.defaultAbsoluteTtl.toNat
  idleTimeoutSeconds := sm.defaultIdleTimeout
  absoluteTtlSeconds := sm.defaultAbsoluteTtl
  isAuthenticated := false
  privilegeLevel := 0
  attributes := []
  accessCount := 0
  rotationGeneration := 1

/-- `strncpy` into an output buffer of the given size, then the terminator. -/
def copyOut (text : CStr) (size : Nat) : CStr := strncpy text (size - 1)

def smCreateSession (sm : SessionManager) (username clientIp userAgent : Option CStr)
    (sessionIdOut : Option Nat) (now : Int) (generated : CStr) :
    Int × Option CStr × SessionManager :=
  match username, sessionIdOut with
  | some username, some sidSize =>
      if sidSize = 0 then (-1, none, sm)
      else if smMaxSessions ≤ sm.count then (-1, none, sm)
      else
        let entry := newEntry sm (sm.sessions sm.count) username clientIp userAgent now generated
        let sm' := setSession sm sm.count entry
        (0, some (copyOut generated sidSize),
          { sm' with count := sm.count + 1, totalCreated := sm.totalCreated + 1 })
  | _, _ => (-1, none, sm)

/-- The index of the first used slot with this id. -/
def smFindSession (sm : SessionManager) (sessionId : Option CStr) : Option Nat :=
  match sessionId with
  | none => none
  | some sid => findIndex (fun i => (sm.sessions i).sessionId == sid) sm.count

/-- The bookkeeping of a successful validation. -/
def touched (s : SessionEntry) (now : Int) : SessionEntry :=
  { s with
    lastAccessedAt := now
    accessCount := s.accessCount + 1
    state := if s.state = .idle then .active else s.state }

def smValidateSession (sm : SessionManager) (sessionId clientIp userAgent : Option CStr)
    (usernameOut : Option Nat) (now : Int) : Int × Option CStr × SessionManager :=
  match sessionId with
  | none => (-1, none, sm)
  | some _ =>
      match smFindSession sm sessionId with
      | none => (-2, none, sm)
      | some i =>
          let s := sm.sessions i
          if s.state = .terminated ∨ s.state = .invalidated then (-3, none, sm)
          else if s.expiresAt < now then
            (-4, none, setSession sm i (withState s .expired))
          else if s.idleTimeoutSeconds.toNat < now - s.lastAccessedAt then
            (-5, none, setSession sm i (withState s .idle))
          else if sm.enforceIpBinding ∧ clientIp.isSome ∧ s.clientIp ≠ [] ∧
              clientIp ≠ some s.clientIp then (-6, none, sm)
          else if sm.enforceUserAgentBinding ∧ userAgent.isSome ∧ s.userAgent ≠ [] ∧
              userAgent ≠ some s.userAgent then (-7, none, sm)
          else
            let out := match usernameOut with
              | some uSize => if 0 < uSize then some (copyOut s.username uSize) else none
              | none => none
            (0, out, setSession sm i (touched s now))

def smExtendSession (sm : SessionManager) (sessionId : Option CStr) (additionalSeconds : UInt32)
    (now : Int) : Int × SessionManager :=
  match sessionId with
  | none => (-1, sm)
  | some _ =>
      match smFindSession sm sessionId with
      | none => (-2, sm)
      | some i =>
          let s := sm.sessions i
          if s.state = .terminated ∨ s.state = .invalidated then (-3, sm)
          else
            (0, setSession sm i
              { s with
                lastAccessedAt := now
                expiresAt := s.expiresAt + additionalSeconds.toNat
                state := if s.state = .idle then .active else s.state })

def smTerminateSession (sm : SessionManager) (sessionId : Option CStr) : Int × SessionManager :=
  match sessionId with
  | none => (-1, sm)
  | some _ =>
      match smFindSession sm sessionId with
      | none => (-2, sm)
      | some i =>
          let sm' := setSession sm i (withState (sm.sessions i) .terminated)
          (0, { sm' with totalDestroyed := sm.totalDestroyed + 1 })

/-- The copy is taken before the old session is invalidated. -/
def smRegenerateSession (sm : SessionManager) (oldSessionId : Option CStr)
    (newSessionIdOut : Option Nat) (generated : CStr) : Int × Option CStr × SessionManager :=
  match oldSessionId, newSessionIdOut with
  | some _, some sidSize =>
      if sidSize = 0 then (-1, none, sm)
      else
        match smFindSession sm oldSessionId with
        | none => (-2, none, sm)
        | some i =>
            if smMaxSessions ≤ sm.count then (-3, none, sm)
            else
              let old := sm.sessions i
              let sm' := setSession sm sm.count
                { old with
                  sessionId := generated
                  rotationGeneration := old.rotationGeneration + 1 }
              let sm'' := setSession sm' i (withState old .invalidated)
              (0, some (copyOut generated sidSize), { sm'' with count := sm.count + 1 })
  | _, _ => (-1, none, sm)

def smGetSessionAttribute (sm : SessionManager) (sessionId key : Option CStr)
    (valueOut : Option Nat) : Int × Option CStr :=
  match sessionId, key, valueOut with
  | some _, some key, some vSize =>
      if vSize = 0 then (-1, none)
      else
        match smFindSession sm sessionId with
        | none => (-2, none)
        | some i =>
            match (sm.sessions i).attributes.find? (·.1 == key) with
            | some attr => (0, some (copyOut attr.2 vSize))
            | none => (-3, none)
  | _, _, _ => (-1, none)

def smSetAuthenticated (sm : SessionManager) (sessionId : Option CStr) (privilegeLevel : Int) :
    Int × SessionManager :=
  match sessionId with
  | none => (-1, sm)
  | some _ =>
      match smFindSession sm sessionId with
      | none => (-2, sm)
      | some i =>
          let s := sm.sessions i
          (0, setSession sm i { s with isAuthenticated := true, privilegeLevel })

/-- One iteration of the loop, with the number of sessions invalidated so far. -/
def invalidateStep (username : CStr) (acc : Int × SessionManager) (i : Nat) :
    Int × SessionManager :=
  let s := acc.2.sessions i
  if s.username = username ∧ s.state = .active then
    let sm' := setSession acc.2 i (withState s .invalidated)
    (acc.1 + 1, { sm' with totalDestroyed := acc.2.totalDestroyed + 1 })
  else acc

def smInvalidateAllForUser (sm : SessionManager) (username : Option CStr) :
    Int × SessionManager :=
  match username with
  | none => (-1, sm)
  | some username => (List.range sm.count).foldl (invalidateStep username) (0, sm)

def shouldRemove (s : SessionEntry) (now : Int) : Bool :=
  s.state = .terminated ∨ s.state = .invalidated ∨ s.state = .expired ∨ s.expiresAt < now ∨
    s.idleTimeoutSeconds.toNat * 2 < now - s.lastAccessedAt

/-- Move the last used slot into slot `i` and forget it. -/
def removeSlot (sm : SessionManager) (i : Nat) : SessionManager :=
  let sm' := if i < sm.count - 1 then setSession sm i (sm.sessions (sm.count - 1)) else sm
  { sm' with count := sm.count - 1, totalDestroyed := sm.totalDestroyed + 1 }

/-- Every iteration shrinks `count - i` by one, so `count` of them are enough. -/
def cleanupLoop (now : Int) : Nat → Nat → SessionManager → SessionManager
  | 0, _, sm => sm
  | fuel + 1, i, sm =>
      if i < sm.count then
        if shouldRemove (sm.sessions i) now then cleanupLoop now fuel i (removeSlot sm i)
        else cleanupLoop now fuel (i + 1) sm
      else sm

def smCleanupExpired (sm : SessionManager) (now : Int) : Int × SessionManager :=
  (0, cleanupLoop now sm.count 0 sm)

/-! ## Runs -/

inductive Op
  | create (username clientIp userAgent : Option CStr) (sessionIdOut : Option Nat) (now : Int)
      (generated : CStr)
  | validate (sessionId clientIp userAgent : Option CStr) (usernameOut : Option Nat) (now : Int)
  | extend (sessionId : Option CStr) (additionalSeconds : UInt32) (now : Int)
  | terminate (sessionId : Option CStr)
  | regenerate (oldSessionId : Option CStr) (newSessionIdOut : Option Nat) (generated : CStr)
  | setAuthenticated (sessionId : Option CStr) (privilegeLevel : Int)
  | invalidateAllForUser (username : Option CStr)
  | cleanupExpired (now : Int)
deriving DecidableEq

/-- The manager after one call, and its return value. -/
def call (sm : SessionManager) : Op → Int × SessionManager
  | .create username clientIp userAgent out now generated =>
      let r := smCreateSession sm username clientIp userAgent out now generated
      (r.1, r.2.2)
  | .validate sid clientIp userAgent out now =>
      let r := smValidateSession sm sid clientIp userAgent out now
      (r.1, r.2.2)
  | .extend sid additionalSeconds now => smExtendSession sm sid additionalSeconds now
  | .terminate sid => smTerminateSession sm sid
  | .regenerate old out generated =>
      let r := smRegenerateSession sm old out generated
      (r.1, r.2.2)
  | .setAuthenticated sid privilegeLevel => smSetAuthenticated sm sid privilegeLevel
  | .invalidateAllForUser username => smInvalidateAllForUser sm username
  | .cleanupExpired now => smCleanupExpired sm now

end MiniBackend.Auth.Session
