import MiniBackend.Auth.Oauth2Server
import MiniBackend.Lib.Runs

/-!
# The grants behind the tokens

An entry of the token table is a grant: a refresh writes over its access token, and over its
refresh token when the caller has a buffer for a new one.  The history keeps all tokens that a
grant ever had.
-/

namespace MiniBackend.Auth.Proofs.TokenGrants

open MiniBackend.Auth.OAuth2 MiniBackend.Lib.CString MiniBackend.Lib.CArray
open MiniBackend.Lib.Runs

/-! ## Runs -/

inductive Op
  | register (clientId clientSecret redirectUri scope : CStr) (isConfidential : Bool) (now : Int)
  | createCode (clientId redirectUri username scope : CStr) (codeSize : Option Nat)
      (generated : CStr) (now : Int)
  | exchange (code clientId clientSecret : CStr) (redirectUri : Option CStr)
      (atSize rtSize : Option Nat) (now : Int) (draws : TokenDraws)
  | clientCredentials (clientId clientSecret : CStr) (scope : Option CStr) (atSize : Option Nat)
      (draws : TokenDraws)
  | refresh (refreshToken clientId clientSecret : CStr) (atSize rtSize : Option Nat) (now : Int)
      (draws : TokenDraws)
  | validate (accessToken : CStr) (ciSize scSize : Option Nat) (now : Int)
  | revoke (accessToken : CStr)

structure Registration where
  clientId : CStr
  clientSecret : CStr
  isConfidential : Bool
deriving DecidableEq

structure IssuedCode where
  code : CStr
  clientId : CStr
  scope : CStr
  expiresAt : Int
deriving DecidableEq

structure Grant where
  clientId : CStr
  scope : CStr
  accessTokens : List CStr
  refreshTokens : List CStr
  /-- The expiry of the latest access token. -/
  expiresAt : Int
  revoked : Bool
deriving DecidableEq

def Grant.tokens (grant : Grant) : List CStr := grant.accessTokens ++ grant.refreshTokens

/-- The server with the clients, the codes and the grants so far, the codes that were exchanged,
and everything that was generated. -/
structure History where
  srv : OAuth2Server
  registered : List Registration
  codes : List IssuedCode
  exchanged : List CStr
  grants : List Grant
  generated : List CStr

def start : History := ⟨oauth2ServerInit, [], [], [], [], []⟩

def scopeOf (s : History) (code : CStr) : CStr :=
  match s.codes.find? (·.code == code) with
  | some issue => issue.scope
  | none => []

def newGrant (clientId scope : CStr) (draws : TokenDraws) : Grant :=
  ⟨clientId, scope, [draws.access], [draws.refresh], draws.accessTime + oauth2AccessTokenTtl,
    false⟩

def Grant.extend (rotate : Bool) (draws : TokenDraws) (grant : Grant) : Grant :=
  { grant with
    accessTokens := draws.access :: grant.accessTokens
    refreshTokens :=
      if rotate then draws.refresh :: grant.refreshTokens else grant.refreshTokens
    expiresAt := draws.accessTime + oauth2AccessTokenTtl }

def step (s : History) : Op → History
  | .register clientId clientSecret redirectUri scope isConfidential now =>
      let (result, srv) :=
        oauth2RegisterClient s.srv clientId clientSecret redirectUri scope isConfidential now
      if result = 0 then
        { s with
          srv := srv
          registered := s.registered ++ [⟨clientId, clientSecret, isConfidential⟩] }
      else { s with srv := srv }
  | .createCode clientId redirectUri username scope codeSize generated now =>
      let (result, _, srv) :=
        oauth2CreateAuthCode s.srv clientId redirectUri username scope codeSize generated now
      if result = 0 then
        { s with
          srv := srv
          codes := s.codes ++ [⟨generated, clientId, scope, now + oauth2AuthCodeTtl⟩]
          generated := generated :: s.generated }
      else { s with srv := srv }
  | .exchange code clientId clientSecret redirectUri atSize rtSize now draws =>
      let (result, _, _, srv) := oauth2ExchangeCodeForToken s.srv code clientId clientSecret
        redirectUri atSize rtSize now draws
      if result = 0 then
        { s with
          srv := srv
          exchanged := code :: s.exchanged
          grants := s.grants ++ [newGrant clientId (scopeOf s code) draws]
          generated := draws.access :: draws.refresh :: s.generated }
      else { s with srv := srv }
  | .clientCredentials clientId clientSecret scope atSize draws =>
      let (result, _, srv) :=
        oauth2ClientCredentialsGrant s.srv clientId clientSecret scope atSize draws
      if result = 0 then
        { s with
          srv := srv
          grants := s.grants ++ [newGrant clientId (scope.getD []) draws]
          generated := draws.access :: draws.refresh :: s.generated }
      else { s with srv := srv }
  | .refresh refreshToken clientId clientSecret atSize rtSize now draws =>
      let (result, _, _, srv) :=
        oauth2RefreshToken s.srv refreshToken clientId clientSecret atSize rtSize now draws
      if result = 0 then
        { s with
          srv := srv
          grants := updateFirst (fun grant => decide (refreshToken ∈ grant.refreshTokens))
            (Grant.extend rtSize.isSome draws) s.grants
          generated := draws.access :: draws.refresh :: s.generated }
      else { s with srv := srv }
  | .validate .. => s
  | .revoke accessToken =>
      let (result, srv) := oauth2RevokeToken s.srv accessToken
      if result = 0 then
        { s with
          srv := srv
          grants := updateFirst (fun grant => decide (accessToken ∈ grant.accessTokens))
            ({ · with revoked := true }) s.grants }
      else { s with srv := srv }

structure ExchangeSound (s : History) (code clientId clientSecret : CStr) (now : Int) : Prop where
  issued : ∃ issue ∈ s.codes, issue.code = code ∧ issue.clientId = clientId ∧
    now ≤ issue.expiresAt
  once : code ∉ s.exchanged
  client : ∃ client ∈ s.registered, client.clientId = clientId ∧
    (client.isConfidential = true → client.clientSecret = clientSecret)

/-- An access token that is accepted is the latest one of a grant, whose client and scope are
reported, and no grant that was revoked ever had it. -/
structure AccessSound (s : History) (accessToken : CStr) (ciSize scSize : Option Nat) (now : Int)
    (clientId scope : Option CStr) : Prop where
  latest : ∃ grant ∈ s.grants, grant.accessTokens.head? = some accessToken ∧
    grant.revoked = false ∧ now ≤ grant.expiresAt ∧
    clientId = outBuffer ciSize grant.clientId ∧ scope = outBuffer scSize grant.scope
  alive : ∀ grant ∈ s.grants, accessToken ∈ grant.accessTokens → grant.revoked = false

/-- The call succeeds for the latest access token of a grant and changes nothing for any other
string; a grant that had the token is revoked by it. -/
structure RevokeSound (s : History) (accessToken : CStr) : Prop where
  succeeds_iff : (oauth2RevokeToken s.srv accessToken).1 = 0 ↔
    ∃ grant ∈ s.grants, grant.accessTokens.head? = some accessToken
  refused : (oauth2RevokeToken s.srv accessToken).1 ≠ 0 →
    oauth2RevokeToken s.srv accessToken = (-1, s.srv)
  ended : (oauth2RevokeToken s.srv accessToken).1 = 0 →
    ∀ grant ∈ (step s (.revoke accessToken)).grants, accessToken ∈ grant.accessTokens →
      grant.revoked = true

/-- What is asked of a call. -/
def CallHolds (s : History) : Op → Prop
  | .exchange code clientId clientSecret redirectUri atSize rtSize now draws =>
      (oauth2ExchangeCodeForToken s.srv code clientId clientSecret redirectUri atSize rtSize now
        draws).1 = 0 → ExchangeSound s code clientId clientSecret now
  | .refresh refreshToken clientId clientSecret atSize rtSize now draws =>
      (oauth2RefreshToken s.srv refreshToken clientId clientSecret atSize rtSize now
        draws).1 = 0 →
      ∀ grant ∈ s.grants, refreshToken ∈ grant.refreshTokens → grant.revoked = false
  | .validate accessToken ciSize scSize now =>
      let (result, clientId, scope) :=
        oauth2ValidateAccessToken s.srv accessToken ciSize scSize now
      result = 0 → AccessSound s accessToken ciSize scSize now clientId scope
  | .revoke accessToken => RevokeSound s accessToken
  | .register .. | .createCode .. | .clientCredentials .. => True

def FreshDraws (s : History) (draws : TokenDraws) : Prop :=
  draws.access ∉ s.generated ∧ draws.refresh ∉ s.generated ∧ draws.access ≠ draws.refresh

/-- What is generated is new, and the arguments are within their lengths. -/
def Admissible (s : History) : Op → Prop
  | .register clientId clientSecret _ _ _ _ =>
      clientId.length < oauth2ClientIdLen ∧ clientSecret.length < oauth2ClientSecretLen
  | .createCode _ _ _ scope _ generated _ =>
      generated ∉ s.generated ∧ scope.length < oauth2ScopeLen
  | .exchange _ _ _ _ _ _ _ draws => FreshDraws s draws
  | .clientCredentials _ _ scope _ draws =>
      FreshDraws s draws ∧ ∀ text ∈ scope, text.length < oauth2ScopeLen
  | .refresh _ _ _ _ _ _ draws => FreshDraws s draws
  | .validate .. | .revoke _ => True

/-! ## Clients -/

structure ClientsSound (clients : List OAuth2Client) (registered : List Registration) :
    Prop where
  records : clients.map (fun client =>
    (⟨client.clientId, client.clientSecret, client.isConfidential⟩ : Registration)) = registered
  short : ∀ client ∈ clients, client.clientId.length < oauth2ClientIdLen

theorem ClientsSound.validate {srv : OAuth2Server} {registered : List Registration}
    (h : ClientsSound srv.clients registered) {clientId clientSecret : CStr}
    (hvalid : oauth2ValidateClient srv clientId clientSecret = true) :
    clientId.length < oauth2ClientIdLen ∧ ∃ client ∈ registered, client.clientId = clientId ∧
      (client.isConfidential = true → client.clientSecret = clientSecret) := by
  unfold oauth2ValidateClient at hvalid
  cases hfind : srv.clients.find? (·.clientId == clientId) with
  | none =>
      rw [hfind] at hvalid
      contradiction
  | some client =>
      rw [hfind] at hvalid
      have hmem := List.mem_of_find?_eq_some hfind
      have hid : client.clientId = clientId := by simpa using List.find?_some hfind
      constructor
      · rw [← hid]
        exact h.short client hmem
      · rw [← h.records]
        refine ⟨_, List.mem_map_of_mem hmem, hid, ?_⟩
        intro hconfidential
        dsimp only at hvalid hconfidential
        rw [if_pos hconfidential, beq_iff_eq] at hvalid
        exact hvalid

/-! ## Codes -/

structure CodesSound (authCodes : List OAuth2AuthCode) (codes : List IssuedCode)
    (exchanged generated : List CStr) : Prop where
  records : authCodes.map (fun ac =>
    (⟨ac.code, ac.clientId, ac.scope, ac.expiresAt⟩ : IssuedCode)) = codes
  nodup : (authCodes.map (·.code)).Nodup
  used : ∀ ac ∈ authCodes, ac.code ∈ exchanged → ac.used = true
  short : ∀ ac ∈ authCodes, ac.scope.length < oauth2ScopeLen
  known : ∀ ac ∈ authCodes, ac.code ∈ generated
  redeemed : ∀ code ∈ exchanged, code ∈ generated

section

variable {authCodes : List OAuth2AuthCode} {codes : List IssuedCode}
  {exchanged generated : List CStr}

theorem CodesSound.later (h : CodesSound authCodes codes exchanged generated)
    {generated' : List CStr} (hsub : generated ⊆ generated') :
    CodesSound authCodes codes exchanged generated' where
  records := h.records
  nodup := h.nodup
  used := h.used
  short := h.short
  known ac hac := hsub (h.known ac hac)
  redeemed code hcode := hsub (h.redeemed code hcode)

theorem CodesSound.append (h : CodesSound authCodes codes exchanged generated)
    {ac : OAuth2AuthCode} (hfresh : ac.code ∉ generated)
    (hshort : ac.scope.length < oauth2ScopeLen) :
    CodesSound (authCodes ++ [ac]) (codes ++ [⟨ac.code, ac.clientId, ac.scope, ac.expiresAt⟩])
      exchanged (ac.code :: generated) where
  records := by
    rw [List.map_append, h.records]
    rfl
  nodup := by
    rw [List.map_append, List.nodup_append]
    refine ⟨h.nodup, List.nodup_singleton _, ?_⟩
    intro code hcode code' hcode' heq
    obtain ⟨old, hold, rfl⟩ := List.mem_map.mp hcode
    rw [List.map_singleton, List.mem_singleton] at hcode'
    rw [← hcode', ← heq] at hfresh
    exact hfresh (h.known old hold)
  used other hother hexchanged := by
    rcases List.mem_append.mp hother with hold | hnew
    · exact h.used other hold hexchanged
    · rw [List.mem_singleton.mp hnew] at hexchanged
      exact absurd (h.redeemed _ hexchanged) hfresh
  short other hother := by
    rcases List.mem_append.mp hother with hold | hnew
    · exact h.short other hold
    · rw [List.mem_singleton.mp hnew]
      exact hshort
  known other hother := by
    rcases List.mem_append.mp hother with hold | hnew
    · exact List.mem_cons_of_mem _ (h.known other hold)
    · rw [List.mem_singleton.mp hnew]
      exact List.mem_cons_self
  redeemed code hcode := List.mem_cons_of_mem _ (h.redeemed code hcode)

theorem CodesSound.use (h : CodesSound authCodes codes exchanged generated)
    {ac : OAuth2AuthCode} (hac : ac ∈ authCodes) {exchanged' : List CStr}
    (hexchanged : exchanged' = exchanged ∨ exchanged' = ac.code :: exchanged) :
    CodesSound (updateFirst (·.code == ac.code) ({ · with used := true }) authCodes) codes
      exchanged' generated where
  records := by
    rw [← h.records]
    apply map_updateFirst
    exact fun _ => rfl
  nodup := by
    rw [map_updateFirst]
    · exact h.nodup
    · exact fun _ => rfl
  used other hother hmem := by
    rcases mem_updateFirst_beq h.nodup hother with ⟨hold, hne⟩ | ⟨_, _, _, rfl⟩
    · apply h.used other hold
      rcases hexchanged with heq | heq
      · rw [← heq]
        exact hmem
      · rw [heq] at hmem
        exact (List.mem_cons.mp hmem).resolve_left hne
    · rfl
  short other hother := by
    rcases mem_updateFirst hother with hold | ⟨old, hold, -, rfl⟩
    · exact h.short other hold
    · exact h.short old hold
  known other hother := by
    rcases mem_updateFirst hother with hold | ⟨old, hold, -, rfl⟩
    · exact h.known other hold
    · exact h.known old hold
  redeemed code hcode := by
    rcases hexchanged with heq | heq
    · exact h.redeemed code (heq ▸ hcode)
    · rw [heq] at hcode
      rcases List.mem_cons.mp hcode with hlast | hold
      · rw [hlast]
        exact h.known ac hac
      · exact h.redeemed code hold

end

theorem CodesSound.scopeOf {s : History}
    (h : CodesSound s.srv.authCodes s.codes s.exchanged s.generated) {ac : OAuth2AuthCode}
    (hac : ac ∈ s.srv.authCodes) : scopeOf s ac.code = ac.scope := by
  have hnodup : (s.codes.map (·.code)).Nodup := by
    rw [← h.records, List.map_map]
    exact h.nodup
  have hissue : (⟨ac.code, ac.clientId, ac.scope, ac.expiresAt⟩ : IssuedCode) ∈ s.codes := by
    rw [← h.records]
    exact List.mem_map_of_mem hac
  rw [TokenGrants.scopeOf, (find?_beq_eq_some_iff hnodup).mpr ⟨hissue, rfl⟩]

/-! ## Grants -/

structure Tracks (entry : OAuth2TokenEntry) (grant : Grant) : Prop where
  clientId : entry.clientId = grant.clientId
  scope : entry.scope = grant.scope
  access : grant.accessTokens.head? = some entry.accessToken
  refresh : grant.refreshTokens.head? = some entry.refreshToken
  expiresAt : entry.accessExpiresAt = grant.expiresAt
  revoked : entry.revoked = grant.revoked

structure GrantsSound (entries : List OAuth2TokenEntry) (grants : List Grant)
    (generated : List CStr) : Prop where
  tracks : List.Forall₂ Tracks entries grants
  disjoint : grants.Pairwise fun x y => ∀ token ∈ x.tokens, token ∉ y.tokens
  known : ∀ grant ∈ grants, ∀ token ∈ grant.tokens, token ∈ generated

section

variable {entries : List OAuth2TokenEntry} {grants : List Grant} {generated : List CStr}

theorem GrantsSound.later (h : GrantsSound entries grants generated) {generated' : List CStr}
    (hsub : generated ⊆ generated') : GrantsSound entries grants generated' where
  tracks := h.tracks
  disjoint := h.disjoint
  known grant hgrant token htoken := hsub (h.known grant hgrant token htoken)

theorem GrantsSound.eq_of_mem (h : GrantsSound entries grants generated) {x y : Grant}
    (hx : x ∈ grants) (hy : y ∈ grants) {token : CStr} (htx : token ∈ x.tokens)
    (hty : token ∈ y.tokens) : x = y := by
  have hsymm : Std.Symm fun x y : Grant => ∀ token ∈ x.tokens, token ∉ y.tokens :=
    ⟨fun x y hxy token hmem hmem' => hxy token hmem' hmem⟩
  by_contra hne
  exact h.disjoint.forall hx hy hne token htx hty

theorem GrantsSound.append (h : GrantsSound entries grants generated) {entry : OAuth2TokenEntry}
    {grant : Grant} (htracks : Tracks entry grant)
    (hfresh : ∀ token ∈ grant.tokens, token ∉ generated) {generated' : List CStr}
    (hsub : generated ⊆ generated') (hnew : ∀ token ∈ grant.tokens, token ∈ generated') :
    GrantsSound (entries ++ [entry]) (grants ++ [grant]) generated' where
  tracks := List.rel_append h.tracks (.cons htracks .nil)
  disjoint := by
    rw [List.pairwise_append]
    refine ⟨h.disjoint, List.pairwise_singleton _ _, ?_⟩
    intro old hold new hmem token htoken hnewtoken
    rw [List.mem_singleton.mp hmem] at hnewtoken
    exact hfresh token hnewtoken (h.known old hold token htoken)
  known other hother token htoken := by
    rcases List.mem_append.mp hother with hold | hlast
    · exact hsub (h.known other hold token htoken)
    · rw [List.mem_singleton.mp hlast] at htoken
      exact hnew token htoken

theorem GrantsSound.updateFirst_eq_map (h : GrantsSound entries grants generated)
    {q : Grant → Bool} (g : Grant → Grant)
    (hone : ∀ x ∈ grants, ∀ y ∈ grants, q x = true → q y = true → x = y)
    (hself : ∀ x ∈ grants, q x = true → x.tokens ≠ []) :
    updateFirst q g grants = grants.map fun x => if q x then g x else x := by
  apply Lib.CArray.updateFirst_eq_map
  refine h.disjoint.imp_of_mem ?_
  intro x y hx hy hxy hqx
  by_contra hqy
  rw [Bool.not_eq_false] at hqy
  rw [← hone x hx y hy hqx hqy] at hxy
  obtain ⟨token, rest, htokens⟩ := List.exists_cons_of_ne_nil (hself x hx hqx)
  have hmem : token ∈ x.tokens := by
    rw [htokens]
    exact List.mem_cons_self
  exact hxy token hmem hmem

/-- An update of an entry and its grant that gives the grant new tokens at most. -/
theorem GrantsSound.update (h : GrantsSound entries grants generated)
    {p : OAuth2TokenEntry → Bool} {q : Grant → Bool} {f : OAuth2TokenEntry → OAuth2TokenEntry}
    {g : Grant → Grant} {generated' : List CStr}
    (hpq : ∀ entry ∈ entries, ∀ grant ∈ grants, Tracks entry grant → p entry = q grant)
    (hone : ∀ x ∈ grants, ∀ y ∈ grants, q x = true → q y = true → x = y)
    (hself : ∀ x ∈ grants, q x = true → x.tokens ≠ [])
    (hfg : ∀ entry grant, Tracks entry grant → p entry = true → Tracks (f entry) (g grant))
    (hsub : generated ⊆ generated')
    (hnew : ∀ grant, ∀ token ∈ (g grant).tokens,
      token ∈ grant.tokens ∨ (token ∉ generated ∧ token ∈ generated')) :
    GrantsSound (updateFirst p f entries) (updateFirst q g grants) generated' := by
  have hmap := h.updateFirst_eq_map g hone hself
  -- what a grant has after the update it had before, or it is new
  have htokens : ∀ x ∈ grants, ∀ token ∈ (if q x then g x else x).tokens,
      token ∈ x.tokens ∨ (q x = true ∧ token ∉ generated ∧ token ∈ generated') := by
    intro x hx token htoken
    split at htoken
    · next hqx => exact (hnew x token htoken).imp_right fun hn => ⟨hqx, hn⟩
    · exact Or.inl htoken
  refine ⟨forall₂_updateFirst h.tracks hpq hfg, ?_, ?_⟩
  · rw [hmap, List.pairwise_map]
    refine h.disjoint.imp_of_mem ?_
    intro x y hx hy hxy token htx hty
    rcases htokens x hx token htx with hold | ⟨hqx, hfresh, -⟩
    · rcases htokens y hy token hty with hold' | ⟨-, hfresh', -⟩
      · exact hxy token hold hold'
      · exact hfresh' (h.known x hx token hold)
    · rcases htokens y hy token hty with hold' | ⟨hqy, -, -⟩
      · exact hfresh (h.known y hy token hold')
      · obtain ⟨first, rest, hfirst⟩ := List.exists_cons_of_ne_nil (hself x hx hqx)
        rw [← hone x hx y hy hqx hqy, hfirst] at hxy
        exact hxy first List.mem_cons_self List.mem_cons_self
  · rw [hmap]
    intro grant hgrant token htoken
    obtain ⟨x, hx, rfl⟩ := List.mem_map.mp hgrant
    rcases htokens x hx token htoken with hold | ⟨-, -, hmem⟩
    · exact hsub (h.known x hx token hold)
    · exact hmem

theorem GrantsSound.refresh_iff (h : GrantsSound entries grants generated)
    {found : OAuth2TokenEntry} (hfound : found ∈ entries) {entry : OAuth2TokenEntry}
    {grant : Grant} (hgrant : grant ∈ grants) (htracks : Tracks entry grant) :
    entry.refreshToken = found.refreshToken ↔ found.refreshToken ∈ grant.refreshTokens := by
  obtain ⟨other, hother, hfoundTracks⟩ := exists_of_forall₂ h.tracks hfound
  have hmem := List.mem_of_mem_head? hfoundTracks.refresh
  constructor
  · intro heq
    rw [← heq]
    exact List.mem_of_mem_head? htracks.refresh
  · intro hin
    have hsame : grant = other := h.eq_of_mem hgrant hother (List.mem_append_right _ hin)
      (List.mem_append_right _ hmem)
    have hhead := htracks.refresh
    rw [hsame, hfoundTracks.refresh, Option.some.injEq] at hhead
    exact hhead.symm

theorem GrantsSound.access_iff (h : GrantsSound entries grants generated)
    {found : OAuth2TokenEntry} (hfound : found ∈ entries) {entry : OAuth2TokenEntry}
    {grant : Grant} (hgrant : grant ∈ grants) (htracks : Tracks entry grant) :
    entry.accessToken = found.accessToken ↔ found.accessToken ∈ grant.accessTokens := by
  obtain ⟨other, hother, hfoundTracks⟩ := exists_of_forall₂ h.tracks hfound
  have hmem := List.mem_of_mem_head? hfoundTracks.access
  constructor
  · intro heq
    rw [← heq]
    exact List.mem_of_mem_head? htracks.access
  · intro hin
    have hsame : grant = other := h.eq_of_mem hgrant hother (List.mem_append_left _ hin)
      (List.mem_append_left _ hmem)
    have hhead := htracks.access
    rw [hsame, hfoundTracks.access, Option.some.injEq] at hhead
    exact hhead.symm

theorem Tracks.extend {entry : OAuth2TokenEntry} {grant : Grant} (h : Tracks entry grant)
    (rotate : Bool) (draws : TokenDraws) :
    Tracks (refreshEntry rotate draws entry) (grant.extend rotate draws) where
  clientId := h.clientId
  scope := h.scope
  access := rfl
  refresh := by
    unfold refreshEntry Grant.extend
    cases rotate with
    | true => rfl
    | false => exact h.refresh
  expiresAt := rfl
  revoked := h.revoked

theorem mem_extend {rotate : Bool} {draws : TokenDraws} {grant : Grant} {token : CStr}
    (h : token ∈ (grant.extend rotate draws).tokens) :
    token ∈ grant.tokens ∨ token = draws.access ∨ token = draws.refresh := by
  unfold Grant.extend Grant.tokens at h
  rw [Grant.tokens, List.mem_append]
  cases rotate with
  | true =>
      simp only [if_true, List.mem_append, List.mem_cons] at h
      tauto
  | false =>
      simp only [Bool.false_eq_true, if_false, List.mem_append, List.mem_cons] at h
      tauto

theorem GrantsSound.refresh (h : GrantsSound entries grants generated)
    {found : OAuth2TokenEntry} (hfound : found ∈ entries) (rotate : Bool) {draws : TokenDraws}
    (haccess : draws.access ∉ generated) (hrefresh : draws.refresh ∉ generated) :
    GrantsSound
      (updateFirst (·.refreshToken == found.refreshToken) (refreshEntry rotate draws) entries)
      (updateFirst (fun grant => decide (found.refreshToken ∈ grant.refreshTokens))
        (Grant.extend rotate draws) grants)
      (draws.access :: draws.refresh :: generated) := by
  apply h.update
  · intro entry _ grant hgrant htracks
    rw [Bool.eq_iff_iff, beq_iff_eq, decide_eq_true_iff]
    exact h.refresh_iff hfound hgrant htracks
  · intro x hx y hy hqx hqy
    rw [decide_eq_true_iff] at hqx hqy
    exact h.eq_of_mem hx hy (List.mem_append_right _ hqx) (List.mem_append_right _ hqy)
  · intro x _ hqx
    rw [decide_eq_true_iff] at hqx
    exact List.ne_nil_of_mem (List.mem_append_right _ hqx)
  · exact fun entry grant htracks _ => htracks.extend rotate draws
  · exact fun token htoken => List.mem_cons_of_mem _ (List.mem_cons_of_mem _ htoken)
  · intro grant token htoken
    rcases mem_extend htoken with hold | rfl | rfl
    · exact Or.inl hold
    · exact Or.inr ⟨haccess, List.mem_cons_self⟩
    · exact Or.inr ⟨hrefresh, List.mem_cons_of_mem _ List.mem_cons_self⟩

theorem GrantsSound.revoke (h : GrantsSound entries grants generated)
    {found : OAuth2TokenEntry} (hfound : found ∈ entries) :
    GrantsSound
      (updateFirst (·.accessToken == found.accessToken) ({ · with revoked := true }) entries)
      (updateFirst (fun grant => decide (found.accessToken ∈ grant.accessTokens))
        ({ · with revoked := true }) grants) generated := by
  apply h.update
  · intro entry _ grant hgrant htracks
    rw [Bool.eq_iff_iff, beq_iff_eq, decide_eq_true_iff]
    exact h.access_iff hfound hgrant htracks
  · intro x hx y hy hqx hqy
    rw [decide_eq_true_iff] at hqx hqy
    exact h.eq_of_mem hx hy (List.mem_append_left _ hqx) (List.mem_append_left _ hqy)
  · intro x _ hqx
    rw [decide_eq_true_iff] at hqx
    exact List.ne_nil_of_mem (List.mem_append_left _ hqx)
  · exact fun entry grant htracks _ =>
      ⟨htracks.clientId, htracks.scope, htracks.access, htracks.refresh, htracks.expiresAt, rfl⟩
  · exact fun token htoken => htoken
  · exact fun grant token htoken => Or.inl htoken

end

/-! ## Calls -/

theorem oauth2RegisterClient_cases (srv : OAuth2Server)
    (clientId clientSecret redirectUri scope : CStr) (isConfidential : Bool) (now : Int) :
    let result := oauth2RegisterClient srv clientId clientSecret redirectUri scope
      isConfidential now
    (result.1 ≠ 0 ∧ result.2 = srv) ∨
      (result.1 = 0 ∧ result.2 = { srv with clients := srv.clients ++
        [⟨strncpy clientId (oauth2ClientIdLen - 1),
          strncpy clientSecret (oauth2ClientSecretLen - 1),
          strncpy redirectUri (oauth2MaxRedirectUri - 1), strncpy scope (oauth2ScopeLen - 1),
          isConfidential, now⟩] }) := by
  intro result
  unfold result oauth2RegisterClient
  split
  · exact Or.inl ⟨show (-1 : Int) ≠ 0 by decide, rfl⟩
  · split
    · exact Or.inl ⟨show (-2 : Int) ≠ 0 by decide, rfl⟩
    · exact Or.inr ⟨rfl, rfl⟩

theorem oauth2CreateAuthCode_cases (srv : OAuth2Server)
    (clientId redirectUri username scope : CStr) (codeSize : Option Nat) (generated : CStr)
    (now : Int) :
    let result := oauth2CreateAuthCode srv clientId redirectUri username scope codeSize generated
      now
    (result.1 ≠ 0 ∧ result.2.2 = srv) ∨
      (result.1 = 0 ∧ oauth2ValidateClient srv clientId [] = true ∧
        result.2.2 = { srv with authCodes := srv.authCodes ++
          [⟨generated, strncpy clientId (oauth2ClientIdLen - 1),
            strncpy redirectUri (oauth2MaxRedirectUri - 1),
            strncpy username (oauth2UsernameLen - 1), strncpy scope (oauth2ScopeLen - 1),
            now + oauth2AuthCodeTtl, false⟩] }) := by
  intro result
  unfold result oauth2CreateAuthCode
  split
  · exact Or.inl ⟨show (-1 : Int) ≠ 0 by decide, rfl⟩
  · split
    · exact Or.inl ⟨show (-2 : Int) ≠ 0 by decide, rfl⟩
    · next hvalid => exact Or.inr ⟨rfl, by simpa using hvalid, rfl⟩

structure Stored (entry : OAuth2TokenEntry) (clientId : CStr) (scope : Option CStr)
    (draws : TokenDraws) : Prop where
  access : entry.accessToken = draws.access
  refresh : entry.refreshToken = draws.refresh
  clientId : entry.clientId = strncpy clientId (oauth2ClientIdLen - 1)
  scope : entry.scope = givenField scope oauth2ScopeLen
  expiresAt : entry.accessExpiresAt = draws.accessTime + oauth2AccessTokenTtl
  revoked : entry.revoked = false

theorem oauth2StoreToken_cases (srv : OAuth2Server) (clientId : CStr)
    (username scope : Option CStr) (atSize rtSize : Option Nat) (draws : TokenDraws) :
    let result := oauth2StoreToken srv clientId username scope atSize rtSize draws
    (result.1 ≠ 0 ∧ result.2.2.2 = srv) ∨
      (result.1 = 0 ∧ ∃ entry, Stored entry clientId scope draws ∧
        result.2.2.2 = { srv with tokens := srv.tokens ++ [entry] }) := by
  intro result
  unfold result oauth2StoreToken
  split
  · exact Or.inl ⟨show (-1 : Int) ≠ 0 by decide, rfl⟩
  · exact Or.inr ⟨rfl, _, ⟨rfl, rfl, rfl, rfl, rfl, rfl⟩, rfl⟩

theorem oauth2ExchangeCodeForToken_cases (srv : OAuth2Server) (code clientId clientSecret : CStr)
    (redirectUri : Option CStr) (atSize rtSize : Option Nat) (now : Int) (draws : TokenDraws) :
    let result := oauth2ExchangeCodeForToken srv code clientId clientSecret redirectUri atSize
      rtSize now draws
    (result.1 ≠ 0 ∧ result.2.2.2 = srv) ∨
      ∃ ac, srv.authCodes.find? (·.code == code) = some ac ∧ ac.used = false ∧
        now ≤ ac.expiresAt ∧ ac.clientId = clientId ∧
        oauth2ValidateClient srv clientId clientSecret = true ∧
        result = oauth2StoreToken { srv with
            authCodes := updateFirst (·.code == code) ({ · with used := true }) srv.authCodes }
          clientId (some ac.username) (some ac.scope) atSize rtSize draws := by
  intro result
  unfold result oauth2ExchangeCodeForToken
  split
  · exact Or.inl ⟨show (-1 : Int) ≠ 0 by decide, rfl⟩
  · next hvalid =>
      unfold oauth2FindAuthCode
      cases hfind : srv.authCodes.find? (·.code == code) with
      | none => exact Or.inl ⟨show (-2 : Int) ≠ 0 by decide, rfl⟩
      | some ac =>
          dsimp only
          split
          · exact Or.inl ⟨show (-3 : Int) ≠ 0 by decide, rfl⟩
          · next hfresh =>
              split
              · exact Or.inl ⟨show (-4 : Int) ≠ 0 by decide, rfl⟩
              · next htime =>
                  split
                  · exact Or.inl ⟨show (-5 : Int) ≠ 0 by decide, rfl⟩
                  · next hclient =>
                      split
                      · exact Or.inl ⟨show (-6 : Int) ≠ 0 by decide, rfl⟩
                      · refine Or.inr ⟨ac, rfl, ?_, not_lt.mp htime, ?_, ?_, rfl⟩
                        · simpa using hfresh
                        · simpa using hclient
                        · simpa using hvalid

theorem oauth2ClientCredentialsGrant_cases (srv : OAuth2Server) (clientId clientSecret : CStr)
    (scope : Option CStr) (atSize : Option Nat) (draws : TokenDraws) :
    let result := oauth2ClientCredentialsGrant srv clientId clientSecret scope atSize draws
    let stored := oauth2StoreToken srv clientId none scope atSize none draws
    (result.1 ≠ 0 ∧ result.2.2 = srv) ∨
      (oauth2ValidateClient srv clientId clientSecret = true ∧ result.1 = stored.1 ∧
        result.2.2 = stored.2.2.2) := by
  intro result stored
  unfold result oauth2ClientCredentialsGrant
  split
  · exact Or.inl ⟨show (-1 : Int) ≠ 0 by decide, rfl⟩
  · next hvalid => exact Or.inr ⟨by simpa using hvalid, rfl, rfl⟩

theorem oauth2RefreshToken_cases (srv : OAuth2Server) (refreshToken clientId clientSecret : CStr)
    (atSize rtSize : Option Nat) (now : Int) (draws : TokenDraws) :
    let result := oauth2RefreshToken srv refreshToken clientId clientSecret atSize rtSize now
      draws
    (result.1 ≠ 0 ∧ result.2.2.2 = srv) ∨
      (result.1 = 0 ∧ ∃ entry ∈ srv.tokens, entry.refreshToken = refreshToken ∧
        entry.revoked = false ∧ result.2.2.2 = { srv with
          tokens := updateFirst (·.refreshToken == refreshToken)
            (refreshEntry rtSize.isSome draws) srv.tokens }) := by
  intro result
  unfold result oauth2RefreshToken oauth2FindRefreshToken
  split
  · exact Or.inl ⟨show (-1 : Int) ≠ 0 by decide, rfl⟩
  · cases hfind : srv.tokens.find? (·.refreshToken == refreshToken) with
    | none => exact Or.inl ⟨show (-2 : Int) ≠ 0 by decide, rfl⟩
    | some entry =>
        have hkey : entry.refreshToken = refreshToken := by simpa using List.find?_some hfind
        dsimp only
        split
        · exact Or.inl ⟨show (-3 : Int) ≠ 0 by decide, rfl⟩
        · next halive =>
            split
            · exact Or.inl ⟨show (-4 : Int) ≠ 0 by decide, rfl⟩
            · split
              · exact Or.inl ⟨show (-5 : Int) ≠ 0 by decide, rfl⟩
              · refine Or.inr ⟨rfl, entry, List.mem_of_find?_eq_some hfind, hkey, ?_, rfl⟩
                simpa using halive

/-! ## What the tables say about the history -/

structure Sound (s : History) : Prop where
  clients : ClientsSound s.srv.clients s.registered
  codes : CodesSound s.srv.authCodes s.codes s.exchanged s.generated
  grants : GrantsSound s.srv.tokens s.grants s.generated

theorem givenField_of_lt {scope : Option CStr} {size : Nat}
    (h : ∀ text ∈ scope, text.length < size) : givenField scope size = scope.getD [] := by
  cases scope with
  | none => rfl
  | some text => exact strncpy_of_le (Nat.le_sub_one_of_lt (h text rfl))

theorem GrantsSound.store {entries : List OAuth2TokenEntry} {grants : List Grant}
    {generated : List CStr} (h : GrantsSound entries grants generated) {clientId : CStr}
    (hclient : clientId.length < oauth2ClientIdLen) {scope : Option CStr}
    (hscope : ∀ text ∈ scope, text.length < oauth2ScopeLen) {draws : TokenDraws}
    (haccess : draws.access ∉ generated) (hrefresh : draws.refresh ∉ generated)
    {entry : OAuth2TokenEntry} (hentry : Stored entry clientId scope draws) :
    GrantsSound (entries ++ [entry]) (grants ++ [newGrant clientId (scope.getD []) draws])
      (draws.access :: draws.refresh :: generated) := by
  have htokens : ∀ token ∈ (newGrant clientId (scope.getD []) draws).tokens,
      token = draws.access ∨ token = draws.refresh := by
    intro token htoken
    simpa [newGrant, Grant.tokens] using htoken
  apply h.append
  · refine ⟨?_, ?_, ?_, ?_, hentry.expiresAt, hentry.revoked⟩
    · rw [hentry.clientId]
      exact strncpy_of_le (Nat.le_sub_one_of_lt hclient)
    · rw [hentry.scope]
      exact givenField_of_lt hscope
    · rw [hentry.access]
      rfl
    · rw [hentry.refresh]
      rfl
  · intro token htoken
    rcases htokens token htoken with rfl | rfl
    · exact haccess
    · exact hrefresh
  · exact fun token htoken => List.mem_cons_of_mem _ (List.mem_cons_of_mem _ htoken)
  · intro token htoken
    rcases htokens token htoken with rfl | rfl
    · exact List.mem_cons_self
    · exact List.mem_cons_of_mem _ List.mem_cons_self

theorem Sound.register {s : History} (h : Sound s)
    {clientId clientSecret redirectUri scope : CStr} {isConfidential : Bool} {now : Int}
    (hadm : Admissible s (.register clientId clientSecret redirectUri scope isConfidential now)) :
    Sound (step s (.register clientId clientSecret redirectUri scope isConfidential now)) := by
  obtain ⟨hid, hsecret⟩ := hadm
  unfold step
  dsimp only
  rcases oauth2RegisterClient_cases s.srv clientId clientSecret redirectUri scope isConfidential
    now with ⟨hne, hsrv⟩ | ⟨hzero, hsrv⟩
  · rw [if_neg hne, hsrv]
    exact h
  · rw [if_pos hzero, hsrv, strncpy_of_le (Nat.le_sub_one_of_lt hid),
      strncpy_of_le (Nat.le_sub_one_of_lt hsecret)]
    refine ⟨⟨?_, ?_⟩, h.codes, h.grants⟩
    · dsimp only
      rw [List.map_append, h.clients.records]
      rfl
    · intro client hclient
      rcases List.mem_append.mp hclient with hold | hnew
      · exact h.clients.short client hold
      · rw [List.mem_singleton.mp hnew]
        exact hid

theorem Sound.createCode {s : History} (h : Sound s)
    {clientId redirectUri username scope : CStr} {codeSize : Option Nat} {generated : CStr}
    {now : Int}
    (hadm : Admissible s
      (.createCode clientId redirectUri username scope codeSize generated now)) :
    Sound (step s (.createCode clientId redirectUri username scope codeSize generated now)) := by
  obtain ⟨hfresh, hscope⟩ := hadm
  unfold step
  dsimp only
  rcases oauth2CreateAuthCode_cases s.srv clientId redirectUri username scope codeSize generated
    now with ⟨hne, hsrv⟩ | ⟨hzero, hvalid, hsrv⟩
  · rw [if_neg hne, hsrv]
    exact h
  · have hid := (h.clients.validate hvalid).1
    rw [if_pos hzero, hsrv, strncpy_of_le (Nat.le_sub_one_of_lt hid),
      strncpy_of_le (Nat.le_sub_one_of_lt hscope)]
    exact ⟨h.clients, h.codes.append hfresh hscope,
      h.grants.later fun _ hmem => List.mem_cons_of_mem _ hmem⟩

theorem Sound.exchange {s : History} (h : Sound s) {code clientId clientSecret : CStr}
    {redirectUri : Option CStr} {atSize rtSize : Option Nat} {now : Int} {draws : TokenDraws}
    (hadm : Admissible s
      (.exchange code clientId clientSecret redirectUri atSize rtSize now draws)) :
    Sound (step s
      (.exchange code clientId clientSecret redirectUri atSize rtSize now draws)) := by
  obtain ⟨haccess, hrefresh, -⟩ := hadm
  unfold step
  dsimp only
  rcases oauth2ExchangeCodeForToken_cases s.srv code clientId clientSecret redirectUri atSize
    rtSize now draws with ⟨hne, hsrv⟩ | ⟨ac, hfind, -, -, -, hvalid, hresult⟩
  · rw [if_neg hne, hsrv]
    exact h
  · obtain ⟨hac, hcode⟩ := (find?_beq_eq_some_iff h.codes.nodup).mp hfind
    have hid := (h.clients.validate hvalid).1
    rw [hresult, ← hcode, h.codes.scopeOf hac]
    let srv : OAuth2Server := { s.srv with
      authCodes := updateFirst (·.code == ac.code) ({ · with used := true }) s.srv.authCodes }
    rcases oauth2StoreToken_cases srv clientId (some ac.username) (some ac.scope) atSize rtSize
      draws with ⟨hne, hsrv⟩ | ⟨hzero, entry, hentry, hsrv⟩
    · rw [if_neg hne, hsrv]
      exact ⟨h.clients, h.codes.use hac (Or.inl rfl), h.grants⟩
    · rw [if_pos hzero, hsrv]
      refine ⟨h.clients, ?_, ?_⟩
      · exact (h.codes.use hac (Or.inr rfl)).later
          fun _ hmem => List.mem_cons_of_mem _ (List.mem_cons_of_mem _ hmem)
      · refine h.grants.store hid ?_ haccess hrefresh hentry
        intro text htext
        rw [← Option.some.inj htext]
        exact h.codes.short ac hac

theorem Sound.clientCredentials {s : History} (h : Sound s) {clientId clientSecret : CStr}
    {scope : Option CStr} {atSize : Option Nat} {draws : TokenDraws}
    (hadm : Admissible s (.clientCredentials clientId clientSecret scope atSize draws)) :
    Sound (step s (.clientCredentials clientId clientSecret scope atSize draws)) := by
  obtain ⟨⟨haccess, hrefresh, -⟩, hscope⟩ := hadm
  unfold step
  dsimp only
  rcases oauth2ClientCredentialsGrant_cases s.srv clientId clientSecret scope atSize draws with
    ⟨hne, hsrv⟩ | ⟨hvalid, hresult, hsrv⟩
  · rw [if_neg hne, hsrv]
    exact h
  · have hid := (h.clients.validate hvalid).1
    rw [hresult, hsrv]
    rcases oauth2StoreToken_cases s.srv clientId none scope atSize none draws with
      ⟨hne, hsrv⟩ | ⟨hzero, entry, hentry, hsrv⟩
    · rw [if_neg hne, hsrv]
      exact h
    · rw [if_pos hzero, hsrv]
      exact ⟨h.clients,
        h.codes.later fun _ hmem => List.mem_cons_of_mem _ (List.mem_cons_of_mem _ hmem),
        h.grants.store hid hscope haccess hrefresh hentry⟩

theorem Sound.refresh {s : History} (h : Sound s) {refreshToken clientId clientSecret : CStr}
    {atSize rtSize : Option Nat} {now : Int} {draws : TokenDraws}
    (hadm : Admissible s (.refresh refreshToken clientId clientSecret atSize rtSize now draws)) :
    Sound (step s (.refresh refreshToken clientId clientSecret atSize rtSize now draws)) := by
  obtain ⟨haccess, hrefresh, -⟩ := hadm
  unfold step
  dsimp only
  rcases oauth2RefreshToken_cases s.srv refreshToken clientId clientSecret atSize rtSize now draws
    with ⟨hne, hsrv⟩ | ⟨hzero, entry, hentry, hkey, -, hsrv⟩
  · rw [if_neg hne, hsrv]
    exact h
  · rw [if_pos hzero, hsrv, ← hkey]
    exact ⟨h.clients,
      h.codes.later fun _ hmem => List.mem_cons_of_mem _ (List.mem_cons_of_mem _ hmem),
      h.grants.refresh hentry rtSize.isSome haccess hrefresh⟩

theorem Sound.revoke {s : History} (h : Sound s) (accessToken : CStr) :
    Sound (step s (.revoke accessToken)) := by
  unfold step oauth2RevokeToken oauth2FindAccessToken
  dsimp only
  cases hfind : s.srv.tokens.find? (·.accessToken == accessToken) with
  | none =>
      dsimp only
      rw [if_neg (show (-1 : Int) ≠ 0 by decide)]
      exact h
  | some entry =>
      have hkey : entry.accessToken = accessToken := by simpa using List.find?_some hfind
      dsimp only
      rw [if_pos rfl, ← hkey]
      exact ⟨h.clients, h.codes, h.grants.revoke (List.mem_of_find?_eq_some hfind)⟩

theorem Sound.step {s : History} (h : Sound s) {op : Op} (hadm : Admissible s op) :
    Sound (step s op) := by
  cases op with
  | register clientId clientSecret redirectUri scope isConfidential now => exact h.register hadm
  | createCode clientId redirectUri username scope codeSize generated now =>
      exact h.createCode hadm
  | exchange code clientId clientSecret redirectUri atSize rtSize now draws =>
      exact h.exchange hadm
  | clientCredentials clientId clientSecret scope atSize draws => exact h.clientCredentials hadm
  | refresh refreshToken clientId clientSecret atSize rtSize now draws => exact h.refresh hadm
  | validate accessToken ciSize scSize now => exact h
  | revoke accessToken => exact h.revoke accessToken

theorem sound_start : Sound start where
  clients := ⟨rfl, fun _ hmem => absurd hmem List.not_mem_nil⟩
  codes := by refine ⟨rfl, List.nodup_nil, ?_, ?_, ?_, ?_⟩ <;> simp [start, oauth2ServerInit]
  grants := ⟨.nil, .nil, fun _ hmem => absurd hmem List.not_mem_nil⟩

/-! ## Answers -/

theorem Sound.exchangeSound {s : History} (h : Sound s) {code clientId clientSecret : CStr}
    {redirectUri : Option CStr} {atSize rtSize : Option Nat} {now : Int} {draws : TokenDraws}
    (hzero : (oauth2ExchangeCodeForToken s.srv code clientId clientSecret redirectUri atSize
      rtSize now draws).1 = 0) : ExchangeSound s code clientId clientSecret now := by
  rcases oauth2ExchangeCodeForToken_cases s.srv code clientId clientSecret redirectUri atSize
    rtSize now draws with ⟨hne, -⟩ | ⟨ac, hfind, hfresh, htime, hclient, hvalid, -⟩
  · exact absurd hzero hne
  · obtain ⟨hac, hcode⟩ := (find?_beq_eq_some_iff h.codes.nodup).mp hfind
    constructor
    · refine ⟨⟨ac.code, ac.clientId, ac.scope, ac.expiresAt⟩, ?_, hcode, hclient, htime⟩
      rw [← h.codes.records]
      exact List.mem_map_of_mem hac
    · intro hexchanged
      rw [← hcode] at hexchanged
      rw [h.codes.used ac hac hexchanged] at hfresh
      contradiction
    · exact (h.clients.validate hvalid).2

theorem Sound.refreshAlive {s : History} (h : Sound s)
    {refreshToken clientId clientSecret : CStr} {atSize rtSize : Option Nat} {now : Int}
    {draws : TokenDraws}
    (hzero : (oauth2RefreshToken s.srv refreshToken clientId clientSecret atSize rtSize now
      draws).1 = 0) :
    ∀ grant ∈ s.grants, refreshToken ∈ grant.refreshTokens → grant.revoked = false := by
  intro grant hgrant hmem
  rcases oauth2RefreshToken_cases s.srv refreshToken clientId clientSecret atSize rtSize now draws
    with ⟨hne, -⟩ | ⟨-, entry, hentry, hkey, halive, -⟩
  · exact absurd hzero hne
  · obtain ⟨other, hother, htracks⟩ := exists_of_forall₂ h.grants.tracks hentry
    have hlatest := List.mem_of_mem_head? htracks.refresh
    rw [hkey] at hlatest
    rw [h.grants.eq_of_mem hgrant hother (List.mem_append_right _ hmem)
      (List.mem_append_right _ hlatest), ← htracks.revoked]
    exact halive

theorem Sound.accessSound {s : History} (h : Sound s) {accessToken : CStr}
    {ciSize scSize : Option Nat} {now : Int}
    (hzero : (oauth2ValidateAccessToken s.srv accessToken ciSize scSize now).1 = 0) :
    AccessSound s accessToken ciSize scSize now
      (oauth2ValidateAccessToken s.srv accessToken ciSize scSize now).2.1
      (oauth2ValidateAccessToken s.srv accessToken ciSize scSize now).2.2 := by
  unfold oauth2ValidateAccessToken oauth2FindAccessToken at hzero ⊢
  cases hfind : s.srv.tokens.find? (·.accessToken == accessToken) with
  | none =>
      rw [hfind] at hzero
      contradiction
  | some entry =>
      rw [hfind] at hzero
      have hkey : entry.accessToken = accessToken := by simpa using List.find?_some hfind
      obtain ⟨grant, hgrant, htracks⟩ :=
        exists_of_forall₂ h.grants.tracks (List.mem_of_find?_eq_some hfind)
      have hlatest := htracks.access
      rw [hkey] at hlatest
      dsimp only at hzero ⊢
      split at hzero
      · contradiction
      · next halive =>
          split at hzero
          · contradiction
          · next htime =>
              have hrevoked : grant.revoked = false := by
                rw [← htracks.revoked]
                simpa using halive
              rw [if_neg halive, if_neg htime]
              constructor
              · refine ⟨grant, hgrant, hlatest, hrevoked, ?_, ?_, ?_⟩
                · rw [← htracks.expiresAt]
                  exact not_lt.mp htime
                · rw [htracks.clientId]
                · rw [htracks.scope]
              · intro other hother hmem
                rw [h.grants.eq_of_mem hother hgrant (List.mem_append_left _ hmem)
                  (List.mem_append_left _ (List.mem_of_mem_head? hlatest))]
                exact hrevoked

theorem GrantsSound.revoked_of_mem {entries : List OAuth2TokenEntry} {grants : List Grant}
    {generated : List CStr} (h : GrantsSound entries grants generated) {accessToken : CStr}
    {grant : Grant}
    (hgrant : grant ∈ updateFirst (fun grant => decide (accessToken ∈ grant.accessTokens))
      ({ · with revoked := true }) grants)
    (hmem : accessToken ∈ grant.accessTokens) : grant.revoked = true := by
  rw [h.updateFirst_eq_map, List.mem_map] at hgrant
  · obtain ⟨old, -, rfl⟩ := hgrant
    split at hmem
    next hhad => rw [if_pos hhad]
    next hhad => exact absurd (decide_eq_true hmem) hhad
  · intro x hx y hy hqx hqy
    rw [decide_eq_true_iff] at hqx hqy
    exact h.eq_of_mem hx hy (List.mem_append_left _ hqx) (List.mem_append_left _ hqy)
  · intro x _ hqx
    rw [decide_eq_true_iff] at hqx
    exact List.ne_nil_of_mem (List.mem_append_left _ hqx)

theorem Sound.exists_latest_iff {s : History} (h : Sound s) (accessToken : CStr) :
    (∃ entry ∈ s.srv.tokens, entry.accessToken = accessToken) ↔
      ∃ grant ∈ s.grants, grant.accessTokens.head? = some accessToken := by
  constructor
  · rintro ⟨entry, hentry, rfl⟩
    obtain ⟨grant, hgrant, htracks⟩ := exists_of_forall₂ h.grants.tracks hentry
    exact ⟨grant, hgrant, htracks.access⟩
  · rintro ⟨grant, hgrant, hlatest⟩
    obtain ⟨entry, hentry, htracks⟩ := exists_of_forall₂ h.grants.tracks.flip hgrant
    rw [htracks.access, Option.some.injEq] at hlatest
    exact ⟨entry, hentry, hlatest⟩

theorem Sound.revokeSound {s : History} (h : Sound s) (accessToken : CStr) :
    RevokeSound s accessToken := by
  have hiff := h.exists_latest_iff accessToken
  cases hfind : s.srv.tokens.find? (·.accessToken == accessToken) with
  | none =>
      have hresult : oauth2RevokeToken s.srv accessToken = (-1, s.srv) := by
        rw [oauth2RevokeToken, oauth2FindAccessToken, hfind]
      have hzero : ¬ (oauth2RevokeToken s.srv accessToken).1 = 0 := by
        rw [hresult]
        exact show (-1 : Int) ≠ 0 by decide
      have hnone : ¬ ∃ entry ∈ s.srv.tokens, entry.accessToken = accessToken := by
        simpa using hfind
      exact ⟨iff_of_false hzero (mt hiff.mpr hnone), fun _ => hresult,
        fun hok => absurd hok hzero⟩
  | some entry =>
      have hresult : (oauth2RevokeToken s.srv accessToken).1 = 0 := by
        rw [oauth2RevokeToken, oauth2FindAccessToken, hfind]
      have hkey : entry.accessToken = accessToken := by simpa using List.find?_some hfind
      refine ⟨iff_of_true hresult (hiff.mp ⟨entry, List.mem_of_find?_eq_some hfind, hkey⟩),
        fun hne => absurd hresult hne, ?_⟩
      intro _ grant hgrant hmem
      rw [TokenGrants.step] at hgrant
      simp only [hresult, if_true] at hgrant
      exact h.grants.revoked_of_mem hgrant hmem

theorem Sound.callHolds {s : History} (h : Sound s) (op : Op) : CallHolds s op := by
  cases op with
  | exchange code clientId clientSecret redirectUri atSize rtSize now draws =>
      exact h.exchangeSound
  | refresh refreshToken clientId clientSecret atSize rtSize now draws => exact h.refreshAlive
  | validate accessToken ciSize scSize now => exact h.accessSound
  | revoke accessToken => exact h.revokeSound accessToken
  | _ => trivial

/-! ## Whole runs -/

/-- In a run of any calls with new codes and tokens, every answer is sound. -/
theorem calls_hold {ops : List Op} (hadm : Always step Admissible start ops) :
    Always step CallHolds start ops :=
  always_of_invariant (I := Sound) step (fun _ _ hs hp => hs.step hp)
    (fun _ op hs _ => hs.callHolds op) sound_start hadm

instance decidableAdmissible (s : History) (op : Op) : Decidable (Admissible s op) :=
  match op with
  | .register .. => inferInstanceAs (Decidable (_ ∧ _))
  | .createCode .. => inferInstanceAs (Decidable (_ ∧ _))
  | .exchange .. => inferInstanceAs (Decidable (_ ∧ _ ∧ _))
  | .clientCredentials _ _ scope _ _ =>
      inferInstanceAs (Decidable ((_ ∧ _ ∧ _) ∧ ∀ text ∈ scope, _))
  | .refresh .. => inferInstanceAs (Decidable (_ ∧ _ ∧ _))
  | .validate .. | .revoke _ => .isTrue trivial

/-- A public client exchanges its code, refreshes its tokens and gives them up. -/
def codeFlow : List Op :=
  [.register (lit "web") [] (lit "https://web/cb") (lit "read") false 1000,
    .createCode (lit "web") (lit "https://web/cb") (lit "ann") (lit "read") (some 64) (lit "c1")
      1001,
    .exchange (lit "c1") (lit "web") [] none (some 128) (some 128) 1002
      ⟨lit "a1", lit "r1", 1002, 1002⟩,
    .validate (lit "a1") (some 64) (some 256) 1003,
    .refresh (lit "r1") (lit "web") [] (some 128) none 1004 ⟨lit "a2", lit "r2", 1004, 1004⟩,
    .validate (lit "a2") (some 64) (some 256) 1005, .revoke (lit "a2"),
    .validate (lit "a2") (some 64) (some 256) 1006,
    .refresh (lit "r1") (lit "web") [] (some 128) none 1007 ⟨lit "a3", lit "r3", 1007, 1007⟩]

theorem calls_hold_codeFlow : Always step CallHolds start codeFlow := calls_hold (by decide)

/-- The refresh gives the grant of `a1` and `r1` two new tokens. -/
def rotated : List Op :=
  [.register (lit "web") [] (lit "https://web/cb") (lit "read") false 1000,
    .createCode (lit "web") (lit "https://web/cb") (lit "ann") (lit "read") (some 64) (lit "c1")
      1001,
    .exchange (lit "c1") (lit "web") [] none (some 128) (some 128) 1002
      ⟨lit "a1", lit "r1", 1002, 1002⟩,
    .refresh (lit "r1") (lit "web") [] (some 128) (some 128) 1003
      ⟨lit "a2", lit "r2", 1003, 1003⟩]

/-- The first access token of a grant can no longer be revoked after a refresh, and the grant's
refresh token is accepted as before. -/
theorem rotated_token_is_not_revoked :
    Always step Admissible start rotated ∧
    (∃ grant ∈ (run step start rotated).grants,
      lit "a1" ∈ grant.accessTokens ∧ lit "r2" ∈ grant.refreshTokens) ∧
    (oauth2RevokeToken (run step start rotated).srv (lit "a1")).1 = -1 ∧
    (oauth2RefreshToken (run step start (rotated ++ [.revoke (lit "a1")])).srv (lit "r2")
      (lit "web") [] (some 128) none 1004 ⟨lit "a3", lit "r3", 1004, 1004⟩).1 = 0 := by
  decide

/-!
# The authorization code flow

A code is created after a check of the client with an empty secret, which a confidential client
does not pass.  An exchange marks the code as used before it stores the token, and a full table of
tokens leaves the mark behind.
-/

section CodeFlow

open MiniBackend.Lib.CString MiniBackend.Lib.CArray MiniBackend.Auth.OAuth2

/-- What is found under the id is public, or has no secret. -/
def NeedsNoSecret (srv : OAuth2Server) (clientId : CStr) : Prop :=
  ∀ client, srv.clients.find? (·.clientId == clientId) = some client →
    client.isConfidential = true → client.clientSecret = []

/-- The exchange passes all checks of the client and the code. -/
def Redeemable (srv : OAuth2Server) (code clientId clientSecret : CStr)
    (redirectUri : Option CStr) (now : Int) : Prop :=
  oauth2ValidateClient srv clientId clientSecret = true ∧
    ∃ ac, oauth2FindAuthCode srv code = some ac ∧ ac.used = false ∧ now ≤ ac.expiresAt ∧
      ac.clientId = clientId ∧ ∀ uri, redirectUri = some uri → ac.redirectUri = uri

def TokensFull (srv : OAuth2Server) : Prop := oauth2MaxTokens ≤ srv.tokens.length

/-! ## Creation -/

theorem validateClient_empty_iff {srv : OAuth2Server} {client : OAuth2Client}
    (hclient : client ∈ srv.clients) :
    oauth2ValidateClient srv client.clientId [] = true ↔ NeedsNoSecret srv client.clientId := by
  unfold oauth2ValidateClient NeedsNoSecret
  cases hfind : srv.clients.find? (·.clientId == client.clientId) with
  | none =>
      have hnot := List.find?_eq_none.mp hfind client hclient
      exact absurd (beq_self_eq_true client.clientId) hnot
  | some found =>
      dsimp only
      constructor
      · intro hvalid other hother hconfidential
        rw [Option.some_inj] at hother
        subst hother
        rw [if_pos hconfidential, beq_iff_eq] at hvalid
        exact hvalid
      · intro hsecret
        split
        · rename_i hconfidential
          rw [beq_iff_eq]
          exact hsecret found rfl hconfidential
        · rfl

theorem createAuthCode_eq_zero_iff {srv : OAuth2Server} {client : OAuth2Client}
    (hclient : client ∈ srv.clients) (hslot : srv.authCodes.length < oauth2MaxTokens)
    (redirectUri username scope : CStr) (codeSize : Option Nat) (generated : CStr) (now : Int) :
    (oauth2CreateAuthCode srv client.clientId redirectUri username scope codeSize generated
      now).1 = 0 ↔ NeedsNoSecret srv client.clientId := by
  rw [← validateClient_empty_iff hclient, oauth2CreateAuthCode, if_neg (Nat.not_le.mpr hslot)]
  cases oauth2ValidateClient srv client.clientId [] with
  | true => exact iff_of_true rfl rfl
  | false => exact iff_of_false (by decide : (-2 : Int) ≠ 0) (by decide)

/-! ## Exchange -/

theorem updateFirst_used_ne {srv : OAuth2Server} {code : CStr} {ac : OAuth2AuthCode}
    (hfind : oauth2FindAuthCode srv code = some ac) (hfresh : ac.used = false) :
    updateFirst (·.code == code) ({ · with used := true }) srv.authCodes ≠ srv.authCodes := by
  intro hsame
  have hkept : ∀ ac : OAuth2AuthCode, (ac.code == code) = true →
      (({ ac with used := true } : OAuth2AuthCode).code == code) = true := fun _ h => h
  have hafter := find?_updateFirst hkept srv.authCodes
  rw [hsame] at hafter
  change oauth2FindAuthCode srv code = (oauth2FindAuthCode srv code).map _ at hafter
  rw [hfind, Option.map_some, Option.some_inj] at hafter
  have hused := congrArg OAuth2AuthCode.used hafter
  rw [hfresh] at hused
  cases hused

/-- An exchange is refused with the server as it was, or goes on to store the token. -/
theorem exchange_cases (srv : OAuth2Server) (code clientId clientSecret : CStr)
    (redirectUri : Option CStr) (atSize rtSize : Option Nat) (now : Int) (draws : TokenDraws) :
    let exchanged := oauth2ExchangeCodeForToken srv code clientId clientSecret redirectUri atSize
      rtSize now draws
    (¬Redeemable srv code clientId clientSecret redirectUri now ∧ exchanged.1 ≠ 0 ∧
        exchanged.2.2.2 = srv) ∨
      ∃ ac, oauth2FindAuthCode srv code = some ac ∧ ac.used = false ∧
        Redeemable srv code clientId clientSecret redirectUri now ∧
        exchanged = oauth2StoreToken { srv with
          authCodes := updateFirst (·.code == code) ({ · with used := true }) srv.authCodes }
          clientId (some ac.username) (some ac.scope) atSize rtSize draws := by
  have hrefused {p : Prop} {result : Int} (hp : ¬p) (hresult : result ≠ 0) :
      ¬p ∧ result ≠ 0 ∧ srv = srv := ⟨hp, hresult, rfl⟩
  unfold Redeemable oauth2ExchangeCodeForToken
  dsimp only
  split
  · rename_i hinvalid
    rw [Bool.not_eq_true'] at hinvalid
    left
    apply hrefused _ (by decide : (-1 : Int) ≠ 0)
    rw [hinvalid]
    exact fun h => absurd h.1 (by decide)
  · rename_i hvalid
    rw [Bool.not_eq_true', Bool.not_eq_false] at hvalid
    cases hfind : oauth2FindAuthCode srv code with
    | none =>
        left
        apply hrefused _ (by decide : (-2 : Int) ≠ 0)
        rintro ⟨-, ac, hac, -⟩
        cases hac
    | some ac =>
        have hunique {q : OAuth2AuthCode → Prop} (hq : ¬q ac) :
            ¬(oauth2ValidateClient srv clientId clientSecret = true ∧
              ∃ other, some ac = some other ∧ q other) := by
          rintro ⟨-, other, hother, hother'⟩
          rw [Option.some_inj] at hother
          exact hq (hother ▸ hother')
        dsimp only
        split
        · rename_i hused
          left
          apply hrefused _ (by decide : (-3 : Int) ≠ 0)
          apply hunique
          rw [hused]
          exact fun h => absurd h.1 (by decide)
        rename_i hfresh
        rw [Bool.not_eq_true] at hfresh
        split
        · rename_i hexpired
          left
          apply hrefused _ (by decide : (-4 : Int) ≠ 0)
          exact hunique fun h => absurd h.2.1 (by omega)
        rename_i hlive
        split
        · rename_i hother
          left
          apply hrefused _ (by decide : (-5 : Int) ≠ 0)
          exact hunique fun h => absurd h.2.2.1 (by simpa using hother)
        rename_i hclient
        split
        · rename_i hredirect
          left
          apply hrefused _ (by decide : (-6 : Int) ≠ 0)
          apply hunique
          rintro ⟨-, -, -, huri⟩
          obtain ⟨uri, huri', hne⟩ := Option.any_eq_true _ _ |>.mp hredirect
          exact absurd (huri uri huri') (by simpa using hne)
        rename_i hredirect
        right
        refine ⟨ac, rfl, hfresh, ⟨hvalid, ac, rfl, hfresh, by omega, by simpa using hclient, ?_⟩,
          rfl⟩
        intro uri huri
        rw [huri] at hredirect
        simpa using hredirect

/-- A failed exchange changes nothing unless the code was good and the tokens were full. -/
theorem exchange_harmless_iff (srv : OAuth2Server) (code clientId clientSecret : CStr)
    (redirectUri : Option CStr) (atSize rtSize : Option Nat) (now : Int) (draws : TokenDraws) :
    ((oauth2ExchangeCodeForToken srv code clientId clientSecret redirectUri atSize rtSize now
        draws).1 ≠ 0 →
      (oauth2ExchangeCodeForToken srv code clientId clientSecret redirectUri atSize rtSize now
        draws).2.2.2 = srv) ↔
      ¬(Redeemable srv code clientId clientSecret redirectUri now ∧ TokensFull srv) := by
  rcases exchange_cases srv code clientId clientSecret redirectUri atSize rtSize now draws with
    ⟨hnot, -, hsame⟩ | ⟨ac, hfind, hfresh, hgood, hstore⟩
  · exact iff_of_true (fun _ => hsame) fun h => hnot h.1
  · rw [hstore, oauth2StoreToken]
    by_cases hfull : oauth2MaxTokens ≤ srv.tokens.length
    · rw [if_pos hfull]
      apply iff_of_false
      · intro hharmless
        have hcodes := congrArg OAuth2Server.authCodes (hharmless (by decide : (-1 : Int) ≠ 0))
        exact updateFirst_used_ne hfind hfresh hcodes
      · exact fun h => h ⟨hgood, hfull⟩
    · rw [if_neg hfull]
      exact iff_of_true (fun h => absurd rfl h) fun h => hfull h.2

/-! ## The flow -/

/-- A registered client gets a code if it needs no secret, and a failed exchange is harmless if it
did not come to the full table of tokens. -/
theorem code_flow_iff {srv : OAuth2Server} {client : OAuth2Client} (hclient : client ∈ srv.clients)
    (hslot : srv.authCodes.length < oauth2MaxTokens) (redirectUri username scope : CStr)
    (codeSize : Option Nat) (generated : CStr) (now : Int) :
    ((oauth2CreateAuthCode srv client.clientId redirectUri username scope codeSize generated
        now).1 = 0 ↔ NeedsNoSecret srv client.clientId) ∧
      ∀ (code clientId clientSecret : CStr) (redirectUri : Option CStr)
        (atSize rtSize : Option Nat) (now : Int) (draws : TokenDraws),
        ((oauth2ExchangeCodeForToken srv code clientId clientSecret redirectUri atSize rtSize now
            draws).1 ≠ 0 →
          (oauth2ExchangeCodeForToken srv code clientId clientSecret redirectUri atSize rtSize now
            draws).2.2.2 = srv) ↔
          ¬(Redeemable srv code clientId clientSecret redirectUri now ∧ TokensFull srv) :=
  ⟨createAuthCode_eq_zero_iff hclient hslot redirectUri username scope codeSize generated now,
    exchange_harmless_iff srv⟩

/-- A server with one confidential client. -/
def webappServer : OAuth2Server :=
  (oauth2RegisterClient oauth2ServerInit (lit "webapp-client") (lit "secret123")
    (lit "https://app.example.com/callback") (lit "read write") true 0).2

def webappClient : OAuth2Client :=
  ⟨lit "webapp-client", lit "secret123", lit "https://app.example.com/callback",
    lit "read write", true, 0⟩

theorem code_flow_iff_webapp :
    ((oauth2CreateAuthCode webappServer webappClient.clientId webappClient.redirectUri
        (lit "alice") (lit "read") none (lit "c0de") 0).1 = 0 ↔
          NeedsNoSecret webappServer webappClient.clientId) ∧
      ∀ (code clientId clientSecret : CStr) (redirectUri : Option CStr)
        (atSize rtSize : Option Nat) (now : Int) (draws : TokenDraws),
        ((oauth2ExchangeCodeForToken webappServer code clientId clientSecret redirectUri atSize
            rtSize now draws).1 ≠ 0 →
          (oauth2ExchangeCodeForToken webappServer code clientId clientSecret redirectUri atSize
            rtSize now draws).2.2.2 = webappServer) ↔
          ¬(Redeemable webappServer code clientId clientSecret redirectUri now ∧
            TokensFull webappServer) :=
  code_flow_iff List.mem_cons_self (by decide) webappClient.redirectUri (lit "alice")
    (lit "read") none (lit "c0de") 0

/-- The confidential client gets no code. -/
theorem no_code_for_confidential_client :
    webappClient ∈ webappServer.clients ∧ webappServer.authCodes.length < oauth2MaxTokens ∧
      (oauth2CreateAuthCode webappServer webappClient.clientId webappClient.redirectUri
        (lit "alice") (lit "read") none (lit "c0de") 0).1 = -2 :=
  ⟨List.mem_cons_self, by decide, by decide⟩

end CodeFlow

end MiniBackend.Auth.Proofs.TokenGrants
