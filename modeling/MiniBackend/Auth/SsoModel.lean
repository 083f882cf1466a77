import MiniBackend.Lib.CArray
import MiniBackend.Lib.CString

/-!
# `sso_model.c`

Four tables of service providers, users, sessions and tickets.  An output buffer is the option
of its size.  The readings of the clock, the ids that `sso_generate_id` draws and the numbers
in the assertions are arguments.
-/

namespace MiniBackend.Auth.Sso

open MiniBackend.Lib.CString MiniBackend.Lib.CArray

def ssoMaxServiceProviders : Nat := 64
def ssoMaxSessions : Nat := 1024
def ssoMaxTickets : Nat := 2048
def ssoMaxUsers : Nat := 512
def ssoMaxUrlLen : Nat := 512
def ssoMaxEntityIdLen : Nat := 256
def ssoMaxCertLen : Nat := 2048
def ssoMaxSamlAssertionLen : Nat := 8192
def ssoMaxSessionIdLen : Nat := 128
def ssoMaxUsernameLen : Nat := 128

inductive SsoProtocol
  | saml2
  | oidc
  | cas

inductive SsoBinding
  | redirect
  | post
  | artifact

structure SsoServiceProvider where
  entityId : CStr
  acsUrl : CStr
  sloUrl : CStr
  certPem : CStr
  protocol : SsoProtocol
  preferredBinding : SsoBinding
  wantAuthnSigned : Bool
  wantAssertionSigned : Bool
  trusted : Bool

/-- `private_key_pem` is never used. -/
structure SsoIdentityProvider where
  entityId : CStr
  ssoUrl : CStr
  sloUrl : CStr
  certPem : CStr
  preferredBinding : SsoBinding

structure SsoTicket where
  ticket : CStr
  username : CStr
  sessionId : CStr
  spEntityId : CStr
  assertionXml : CStr
  createdAt : Int
  expiresAt : Int
  consumed : Bool
  valid : Bool

structure SsoSession where
  sessionId : CStr
  username : CStr
  idpEntityId : CStr
  createdAt : Int
  expiresAt : Int
  lastAccessedAt : Int
  valid : Bool

structure SsoUser where
  username : CStr
  email : CStr
  displayName : CStr
  createdAt : Int

structure SsoModel where
  idp : SsoIdentityProvider
  sps : List SsoServiceProvider
  tickets : List SsoTicket
  sessions : List SsoSession
  users : List SsoUser

def ssoModelInit : SsoModel := ⟨⟨[], [], [], [], .redirect⟩, [], [], [], []⟩

def ssoRegisterSp (model : SsoModel) (entityId acsUrl sloUrl certPem : CStr)
    (protocol : SsoProtocol) (binding : SsoBinding) : Int × SsoModel :=
  if ssoMaxServiceProviders ≤ model.sps.length then (-1, model)
  else if model.sps.any (·.entityId == entityId) then (-2, model)
  else
    (0, { model with sps := model.sps ++
      [⟨strncpy entityId (ssoMaxEntityIdLen - 1), strncpy acsUrl (ssoMaxUrlLen - 1),
        strncpy sloUrl (ssoMaxUrlLen - 1), strncpy certPem (ssoMaxCertLen - 1), protocol, binding,
        true, true, false⟩] })

def ssoEstablishTrust (model : SsoModel) (spEntityId : CStr) : Int × SsoModel :=
  match model.sps.find? (·.entityId == spEntityId) with
  | none => (-1, model)
  | some _ =>
      (0, { model with
        sps := updateFirst (·.entityId == spEntityId) ({ · with trusted := true }) model.sps })

def ssoCreateUser (model : SsoModel) (username email displayName : CStr) (now : Int) :
    Int × SsoModel :=
  if ssoMaxUsers ≤ model.users.length then (-1, model)
  else if model.users.any (·.username == username) then (-2, model)
  else
    (0, { model with users := model.users ++
      [⟨strncpy username (ssoMaxUsernameLen - 1), strncpy email (ssoMaxUsernameLen - 1),
        strncpy displayName (ssoMaxUsernameLen - 1), now⟩] })

def ssoFindUser (model : SsoModel) (username : CStr) : Option SsoUser :=
  model.users.find? (·.username == username)

def ssoIsSpTrusted (model : SsoModel) (spEntityId : CStr) : Bool :=
  (model.sps.find? (·.entityId == spEntityId)).any (·.trusted)

/-- The text of `sso_generate_saml_assertion`. -/
def ssoGenerateSamlAssertion (model : SsoModel) (username spEntityId : CStr) (now : Int)
    (number : UInt32) : CStr :=
  lit "<?xml version=\"1.0\" encoding=\"UTF-8\"?>\n" ++
  lit "<saml:Assertion xmlns:saml=\"urn:oasis:names:tc:SAML:2.0:assertion\" ID=\"_" ++
  hexPadded 8 number.toNat ++ lit "\" IssueInstant=\"" ++ decimalInt now ++
  lit "\" Version=\"2.0\">\n  <saml:Issuer>" ++ model.idp.entityId ++
  lit "</saml:Issuer>\n  <saml:Subject>\n    <saml:NameID>" ++ username ++
  lit "</saml:NameID>\n  </saml:Subject>\n  <saml:Conditions NotBefore=\"" ++ decimalInt now ++
  lit "\" NotOnOrAfter=\"" ++ decimalInt (now + 300) ++
  lit "\">\n    <saml:AudienceRestriction>\n      <saml:Audience>" ++ spEntityId ++
  lit "</saml:Audience>\n    </saml:AudienceRestriction>\n  </saml:Conditions>\n" ++
  lit "  <saml:AuthnStatement AuthnInstant=\"" ++ decimalInt now ++
  lit "\">\n    <saml:AuthnContext>\n      <saml:AuthnContextClassRef>" ++
  lit "urn:oasis:names:tc:SAML:2.0:ac:classes:Password</saml:AuthnContextClassRef>\n" ++
  lit "    </saml:AuthnContext>\n  </saml:AuthnStatement>\n</saml:Assertion>"

/-- What a call draws: an id, its readings of the clock in their order, and the number in the
assertion. -/
structure Draws where
  id : CStr
  created : Int
  expiry : Int
  accessed : Int
  asserted : Int
  number : UInt32

/-- The result, the id and the assertion. -/
def ssoAuthenticateUser (model : SsoModel) (username spEntityId : CStr)
    (sidSize asSize : Option Nat) (draws : Draws) :
    Int × Option CStr × Option CStr × SsoModel :=
  if !ssoIsSpTrusted model spEntityId then (-1, none, none, model)
  else
    match ssoFindUser model username with
    | none => (-2, none, none, model)
    | some _ =>
        if ssoMaxSessions ≤ model.sessions.length then (-3, none, none, model)
        else
          let model := { model with sessions := model.sessions ++
            [⟨draws.id, strncpy username (ssoMaxUsernameLen - 1), model.idp.entityId,
              draws.created, draws.expiry + 3600, draws.accessed, true⟩] }
          (0, outBuffer sidSize draws.id,
            outBuffer asSize
              (ssoGenerateSamlAssertion model username spEntityId draws.asserted draws.number),
            model)

/-- The result and the ticket.  `accessed` is not drawn. -/
def ssoCreateTicket (model : SsoModel) (username spEntityId sessionId : CStr)
    (tSize : Option Nat) (draws : Draws) : Int × Option CStr × SsoModel :=
  if !ssoIsSpTrusted model spEntityId then (-1, none, model)
  else if ssoMaxTickets ≤ model.tickets.length then (-2, none, model)
  else
    let assertion :=
      ssoGenerateSamlAssertion model username spEntityId draws.asserted draws.number
    (0, outBuffer tSize draws.id, { model with tickets := model.tickets ++
      [⟨draws.id, strncpy username (ssoMaxUsernameLen - 1),
        strncpy sessionId (ssoMaxSessionIdLen - 1), strncpy spEntityId (ssoMaxEntityIdLen - 1),
        snprintf assertion ssoMaxSamlAssertionLen, draws.created, draws.expiry + 300, false,
        true⟩] })

/-- The result, the user name and the assertion. -/
def ssoValidateTicket (model : SsoModel) (ticket : CStr) (spEntityId : Option CStr)
    (uSize asSize : Option Nat) (now : Int) : Int × Option CStr × Option CStr × SsoModel :=
  match model.tickets.find? (·.ticket == ticket) with
  | none => (-5, none, none, model)
  | some t =>
      if !t.valid then (-1, none, none, model)
      else if t.consumed then (-2, none, none, model)
      else if t.expiresAt < now then (-3, none, none, model)
      else if spEntityId.any (t.spEntityId != ·) then (-4, none, none, model)
      else
        (0, outBuffer uSize t.username, outBuffer asSize t.assertionXml, { model with
          tickets := updateFirst (·.ticket == ticket) ({ · with consumed := true })
            model.tickets })

/-- The result and the user name.  The clock is read for the expiry and for the last access. -/
def ssoValidateSession (model : SsoModel) (sessionId : CStr) (uSize : Option Nat)
    (now accessed : Int) : Int × Option CStr × SsoModel :=
  match model.sessions.find? (·.sessionId == sessionId) with
  | none => (-3, none, model)
  | some session =>
      if !session.valid then (-1, none, model)
      else if session.expiresAt < now then
        (-2, none, { model with
          sessions := updateFirst (·.sessionId == sessionId) ({ · with valid := false })
            model.sessions })
      else
        (0, outBuffer uSize session.username, { model with
          sessions := updateFirst (·.sessionId == sessionId) ({ · with lastAccessedAt := accessed })
            model.sessions })

def ssoLogout (model : SsoModel) (sessionId : CStr) : Int × SsoModel :=
  match model.sessions.find? (·.sessionId == sessionId) with
  | none => (-1, model)
  | some _ =>
      (0, { model with
        sessions := updateFirst (·.sessionId == sessionId) ({ · with valid := false })
          model.sessions })

end MiniBackend.Auth.Sso
