import MiniBackend.Lib.CArray
import MiniBackend.Lib.CString

/-!
# `session.c`

A store is the list of its used slots; a `Session *` is the number of a slot.  The counter of
`generate_session_id` is part of the store.  Clock readings and drawn numbers are arguments, and
arguments are not `NULL`.
-/

namespace MiniBackend.WebServer.Sessions

open MiniBackend.Lib.CString MiniBackend.Lib.CArray

def sessionMaxCount : Nat := 1024
def sessionIdLen : Nat := 64
def sessionMaxKeyLen : Nat := 128
def sessionMaxValLen : Nat := 4096
def sessionMaxVars : Nat := 32
def sessionDefaultTtl : Int := 1800

structure SessionVar where
  key : CStr
  value : CStr
deriving DecidableEq

structure Session where
  id : CStr
  vars : List SessionVar
  createdAt : Int
  lastAccess : Int
  expiresAt : Int
  active : Bool
deriving DecidableEq

structure SessionStore where
  sessions : List Session
  defaultTtl : Int
  cookieName : CStr
  cookiePath : CStr
  cookieDomain : CStr
  cookieSecure : Bool
  cookieHttpOnly : Bool
  counter : UInt64
deriving DecidableEq

/-- `snprintf` does not cut an identifier off. -/
def generateSessionId (now rnd counter : UInt64) : CStr :=
  snprintf
    (hexPadded 8 (now &&& 0xffffffff).toNat ++ hexPadded 4 ((now >>> 32) &&& 0xffff).toNat ++
      hexPadded 4 (rnd &&& 0xffff).toNat ++ hexPadded 4 ((rnd >>> 16) &&& 0xffff).toNat ++
      hexWide 12 counter.toNat)
    sessionIdLen

def sessionStoreInit : SessionStore where
  sessions := []
  defaultTtl := sessionDefaultTtl
  cookieName := lit "SESSID"
  cookiePath := lit "/"
  cookieDomain := []
  cookieSecure := false
  cookieHttpOnly := true
  counter := 0

def sessionStoreSetTtl (store : SessionStore) (ttlSeconds : Int) : SessionStore :=
  if ttlSeconds > 0 then { store with defaultTtl := ttlSeconds } else store

def sessionStoreSetCookie (store : SessionStore) (name path domain : Option CStr)
    (secure httpOnly : Bool) : SessionStore :=
  { store with
    cookieName := name.elim store.cookieName fun name => strncpy name 63
    cookiePath := path.elim store.cookiePath fun path => strncpy path 255
    cookieDomain := domain.elim store.cookieDomain fun domain => strncpy domain 255
    cookieSecure := secure
    cookieHttpOnly := httpOnly }

/-! ## Sessions -/

/-- The clock is read for the identifier and again for the session. -/
def sessionCreate (store : SessionStore) (idNow rnd : UInt64) (now : Int) :
    Option Nat × SessionStore :=
  if sessionMaxCount ≤ store.sessions.length then (none, store)
  else
    let counter := store.counter + 1
    let s : Session :=
      ⟨generateSessionId idNow rnd counter, [], now, now, now + store.defaultTtl, true⟩
    (some store.sessions.length,
      { store with sessions := store.sessions ++ [s], counter := counter })

/-- The loop of `session_get`: the slot that is found, and what the loop leaves behind. -/
def getLoop (sessionId : CStr) (now : Int) : List Session → Option Nat × List Session
  | [] => (none, [])
  | s :: rest =>
      if !s.active then
        let (found, rest) := getLoop sessionId now rest
        (found.map (· + 1), s :: rest)
      else if s.expiresAt < now then
        let (found, rest) := getLoop sessionId now rest
        (found.map (· + 1), { s with active := false } :: rest)
      else if s.id == sessionId then (some 0, { s with lastAccess := now } :: rest)
      else
        let (found, rest) := getLoop sessionId now rest
        (found.map (· + 1), s :: rest)

def sessionGet (store : SessionStore) (sessionId : CStr) (now : Int) :
    Option Nat × SessionStore :=
  let (found, sessions) := getLoop sessionId now store.sessions
  (found, { store with sessions := sessions })

def sessionDestroy (store : SessionStore) (sessionId : CStr) (now : Int) : Bool × SessionStore :=
  match sessionGet store sessionId now with
  | (none, store) => (false, store)
  | (some i, store) =>
      (true, { store with
        sessions := store.sessions.modify i fun s => { s with active := false } })

def sessionStoreCleanup (store : SessionStore) (now : Int) : Nat × SessionStore :=
  let (removed, sessions) := sweepLoop (fun s => !s.active || decide (s.expiresAt < now))
    store.sessions.length (0, store.sessions)
  (removed, { store with sessions := sessions })

/-! ## Variables -/

def sessionVarSet (s : Session) (key value : CStr) : Bool × Session :=
  if s.vars.any fun v => v.key == key then
    (true, { s with
      vars := updateFirst (fun v => v.key == key)
        (fun v => { v with value := strncpy value (sessionMaxValLen - 1) }) s.vars })
  else if sessionMaxVars ≤ s.vars.length then (false, s)
  else
    (true, { s with
      vars := s.vars ++
        [⟨strncpy key (sessionMaxKeyLen - 1), strncpy value (sessionMaxValLen - 1)⟩] })

def sessionVarGet (s : Session) (key : CStr) : Option CStr :=
  (s.vars.find? fun v => v.key == key).map SessionVar.value

def sessionVarRemove (s : Session) (key : CStr) : Bool × Session :=
  match s.vars.findIdx? fun v => v.key == key with
  | none => (false, s)
  | some i => (true, { s with vars := swapRemove s.vars i })

def sessionClear (s : Session) : Session := { s with vars := [] }

/-! ## Runs -/

/-- What is done through the pointer that `session_get` returns. -/
inductive Access
  | read
  | varSet (key value : CStr)
  | varGet (key : CStr)
  | varRemove (key : CStr)
  | clear
deriving DecidableEq

inductive Reply
  | session (s : Session)
  | value (value : Option CStr)
  | done (done : Bool)
  | removed (n : Nat)
  | null
deriving DecidableEq

def Access.apply (access : Access) (s : Session) : Reply × Session :=
  match access with
  | .read => (.session s, s)
  | .varSet key value => ((.done (sessionVarSet s key value).1), (sessionVarSet s key value).2)
  | .varGet key => (.value (sessionVarGet s key), s)
  | .varRemove key => (.done (sessionVarRemove s key).1, (sessionVarRemove s key).2)
  | .clear => (.null, sessionClear s)

inductive Call
  | create (idNow rnd : UInt64)
  | access (sessionId : CStr) (access : Access)
  | destroy (sessionId : CStr)
  | cleanup
  | setTtl (ttlSeconds : Int)
  | setCookie (name path domain : Option CStr) (secure httpOnly : Bool)
deriving DecidableEq

/-- A call and the time at which it is made. -/
structure Op where
  now : Int
  call : Call
deriving DecidableEq

/-- A slot is used right after it was found. -/
def accessSlot (access : Access) : Option Nat × SessionStore → Reply × SessionStore
  | (none, store) => (.null, store)
  | (some i, store) =>
      match store.sessions[i]? with
      | none => (.null, store)
      | some s =>
          ((access.apply s).1,
            { store with sessions := store.sessions.modify i fun s => (access.apply s).2 })

def call (store : SessionStore) (op : Op) : Reply × SessionStore :=
  match op.call with
  | .create idNow rnd => accessSlot .read (sessionCreate store idNow rnd op.now)
  | .access sessionId access => accessSlot access (sessionGet store sessionId op.now)
  | .destroy sessionId =>
      let (done, store) := sessionDestroy store sessionId op.now
      (.done done, store)
  | .cleanup =>
      let (removed, store) := sessionStoreCleanup store op.now
      (.removed removed, store)
  | .setTtl ttlSeconds => (.null, sessionStoreSetTtl store ttlSeconds)
  | .setCookie name path domain secure httpOnly =>
      (.null, sessionStoreSetCookie store name path domain secure httpOnly)

/-- One call, with the replies to all calls so far. -/
def step (s : List Reply × SessionStore) (op : Op) : List Reply × SessionStore :=
  (s.1 ++ [(call s.2 op).1], (call s.2 op).2)

end MiniBackend.WebServer.Sessions
