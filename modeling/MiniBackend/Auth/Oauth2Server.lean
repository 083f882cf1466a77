import MiniBackend.Lib.CArray
import MiniBackend.Lib.CString

/-!
# `oauth2_server.c`

Tables of clients, authorization codes and tokens.  Arguments that may be `NULL` are options, an
output buffer is the option of its size, and what `oauth2_generate_random_hex` draws and the
readings of the clock are arguments.
-/

namespace MiniBackend.Auth.OAuth2

open MiniBackend.Lib.CString MiniBackend.Lib.CArray

def oauth2MaxClients : Nat := 256
def oauth2MaxTokens : Nat := 1024
def oauth2MaxRedirectUri : Nat := 512
def oauth2ClientIdLen : Nat := 64
def oauth2ClientSecretLen : Nat := 128
def oauth2ScopeLen : Nat := 256
def oauth2UsernameLen : Nat := 128
def oauth2AccessTokenTtl : Int := 3600
def oauth2RefreshTokenTtl : Int := 86400
def oauth2AuthCodeTtl : Int := 600

inductive OAuth2TokenType
  | bearer
  | mac

structure OAuth2Client where
  clientId : CStr
  clientSecret : CStr
  redirectUri : CStr
  scope : CStr
  isConfidential : Bool
  createdAt : Int

structure OAuth2AuthCode where
  code : CStr
  clientId : CStr
  redirectUri : CStr
  username : CStr
  scope : CStr
  expiresAt : Int
  used : Bool

structure OAuth2TokenEntry where
  accessToken : CStr
  refreshToken : CStr
  clientId : CStr
  username : CStr
  scope : CStr
  tokenType : OAuth2TokenType
  accessExpiresAt : Int
  refreshExpiresAt : Int
  revoked : Bool

structure OAuth2Server where
  clients : List OAuth2Client
  authCodes : List OAuth2AuthCode
  tokens : List OAuth2TokenEntry

def oauth2ServerInit : OAuth2Server := ⟨[], [], []⟩

def oauth2RegisterClient (srv : OAuth2Server) (clientId clientSecret redirectUri scope : CStr)
    (isConfidential : Bool) (now : Int) : Int × OAuth2Server :=
  if oauth2MaxClients ≤ srv.clients.length then (-1, srv)
  else if srv.clients.any (·.clientId == clientId) then (-2, srv)
  else
    (0, { srv with clients := srv.clients ++
      [⟨strncpy clientId (oauth2ClientIdLen - 1), strncpy clientSecret (oauth2ClientSecretLen - 1),
        strncpy redirectUri (oauth2MaxRedirectUri - 1), strncpy scope (oauth2ScopeLen - 1),
        isConfidential, now⟩] })

def oauth2ValidateClient (srv : OAuth2Server) (clientId clientSecret : CStr) : Bool :=
  match srv.clients.find? (·.clientId == clientId) with
  | none => false
  | some client =>
      if client.isConfidential then client.clientSecret == clientSecret else true

/-- The result and the code. -/
def oauth2CreateAuthCode (srv : OAuth2Server) (clientId redirectUri username scope : CStr)
    (codeSize : Option Nat) (generated : CStr) (now : Int) :
    Int × Option CStr × OAuth2Server :=
  if oauth2MaxTokens ≤ srv.authCodes.length then (-1, none, srv)
  else if !oauth2ValidateClient srv clientId [] then (-2, none, srv)
  else
    (0, outBuffer codeSize generated, { srv with authCodes := srv.authCodes ++
      [⟨generated, strncpy clientId (oauth2ClientIdLen - 1),
        strncpy redirectUri (oauth2MaxRedirectUri - 1), strncpy username (oauth2UsernameLen - 1),
        strncpy scope (oauth2ScopeLen - 1), now + oauth2AuthCodeTtl, false⟩] })

def oauth2FindAuthCode (srv : OAuth2Server) (code : CStr) : Option OAuth2AuthCode :=
  srv.authCodes.find? (·.code == code)

def oauth2FindAccessToken (srv : OAuth2Server) (accessToken : CStr) : Option OAuth2TokenEntry :=
  srv.tokens.find? (·.accessToken == accessToken)

def oauth2FindRefreshToken (srv : OAuth2Server) (refreshToken : CStr) :
    Option OAuth2TokenEntry :=
  srv.tokens.find? (·.refreshToken == refreshToken)

/-- What is drawn for a pair of tokens, with the readings of the clock for their expiries. -/
structure TokenDraws where
  access : CStr
  refresh : CStr
  accessTime : Int
  refreshTime : Int

/-- A field that is given, or the zeroed one. -/
def givenField (text : Option CStr) (size : Nat) : CStr :=
  match text with
  | some text => strncpy text (size - 1)
  | none => []

/-- The result and the two tokens. -/
def oauth2StoreToken (srv : OAuth2Server) (clientId : CStr) (username scope : Option CStr)
    (atSize rtSize : Option Nat) (draws : TokenDraws) :
    Int × Option CStr × Option CStr × OAuth2Server :=
  if oauth2MaxTokens ≤ srv.tokens.length then (-1, none, none, srv)
  else
    (0, outBuffer atSize draws.access, outBuffer rtSize draws.refresh, { srv with
      tokens := srv.tokens ++
        [⟨draws.access, draws.refresh, strncpy clientId (oauth2ClientIdLen - 1),
          givenField username oauth2UsernameLen, givenField scope oauth2ScopeLen, .bearer,
          draws.accessTime + oauth2AccessTokenTtl, draws.refreshTime + oauth2RefreshTokenTtl,
          false⟩] })

def oauth2ExchangeCodeForToken (srv : OAuth2Server) (code clientId clientSecret : CStr)
    (redirectUri : Option CStr) (atSize rtSize : Option Nat) (now : Int) (draws : TokenDraws) :
    Int × Option CStr × Option CStr × OAuth2Server :=
  if !oauth2ValidateClient srv clientId clientSecret then (-1, none, none, srv)
  else
    match oauth2FindAuthCode srv code with
    | none => (-2, none, none, srv)
    | some ac =>
        if ac.used then (-3, none, none, srv)
        else if ac.expiresAt < now then (-4, none, none, srv)
        else if ac.clientId != clientId then (-5, none, none, srv)
        else if redirectUri.any (ac.redirectUri != ·) then (-6, none, none, srv)
        else
          let srv := { srv with
            authCodes := updateFirst (·.code == code) ({ · with used := true }) srv.authCodes }
          oauth2StoreToken srv clientId (some ac.username) (some ac.scope) atSize rtSize draws

/-- The result and the access token. -/
def oauth2ClientCredentialsGrant (srv : OAuth2Server) (clientId clientSecret : CStr)
    (scope : Option CStr) (atSize : Option Nat) (draws : TokenDraws) :
    Int × Option CStr × OAuth2Server :=
  if !oauth2ValidateClient srv clientId clientSecret then (-1, none, srv)
  else
    let (result, accessToken, _, srv) := oauth2StoreToken srv clientId none scope atSize none draws
    (result, accessToken, srv)

/-- A new access token, and a new refresh token where there is a buffer for it. -/
def refreshEntry (rotate : Bool) (draws : TokenDraws) (entry : OAuth2TokenEntry) :
    OAuth2TokenEntry :=
  { entry with
    accessExpiresAt := draws.accessTime + oauth2AccessTokenTtl
    accessToken := draws.access
    refreshToken := if rotate then draws.refresh else entry.refreshToken
    refreshExpiresAt :=
      if rotate then draws.refreshTime + oauth2RefreshTokenTtl else entry.refreshExpiresAt }

/-- `rtSize` is the size of the buffer for the refresh token; a buffer of size 0 is one too. -/
def oauth2RefreshToken (srv : OAuth2Server) (refreshToken clientId clientSecret : CStr)
    (atSize rtSize : Option Nat) (now : Int) (draws : TokenDraws) :
    Int × Option CStr × Option CStr × OAuth2Server :=
  if !oauth2ValidateClient srv clientId clientSecret then (-1, none, none, srv)
  else
    match oauth2FindRefreshToken srv refreshToken with
    | none => (-2, none, none, srv)
    | some entry =>
        if entry.revoked then (-3, none, none, srv)
        else if entry.refreshExpiresAt < now then (-4, none, none, srv)
        else if entry.clientId != clientId then (-5, none, none, srv)
        else
          (0, outBuffer atSize draws.access, outBuffer rtSize draws.refresh, { srv with
            tokens := updateFirst (·.refreshToken == refreshToken)
              (refreshEntry rtSize.isSome draws) srv.tokens })

/-- The result, the client and the scope. -/
def oauth2ValidateAccessToken (srv : OAuth2Server) (accessToken : CStr)
    (ciSize scSize : Option Nat) (now : Int) : Int × Option CStr × Option CStr :=
  match oauth2FindAccessToken srv accessToken with
  | none => (-1, none, none)
  | some entry =>
      if entry.revoked then (-2, none, none)
      else if entry.accessExpiresAt < now then (-3, none, none)
      else (0, outBuffer ciSize entry.clientId, outBuffer scSize entry.scope)

def oauth2RevokeToken (srv : OAuth2Server) (accessToken : CStr) : Int × OAuth2Server :=
  match oauth2FindAccessToken srv accessToken with
  | none => (-1, srv)
  | some _ =>
      (0, { srv with
        tokens := updateFirst (·.accessToken == accessToken) ({ · with revoked := true })
          srv.tokens })

end MiniBackend.Auth.OAuth2
