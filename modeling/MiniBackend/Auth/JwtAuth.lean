import MiniBackend.Lib.Base64

/-!
# `jwt_auth.c`

The JSON web token engine.  OpenSSL's `HMAC` over SHA-256 is a parameter: an
arbitrary function of key and data with a 32-byte result.  A function that can
fail returns its error code in `Except`; `code` is the C return value.  Local
buffers that a failed decoding leaves uninitialised read as `junk`.
-/

namespace MiniBackend.Auth.JwtAuth

open MiniBackend.Lib.CString MiniBackend.Lib.Base64

def jwtMaxHeaderLen : Nat := 256
def jwtMaxPayloadLen : Nat := 2048
def jwtMaxTokenLen : Nat := 4096
def jwtMaxSecretLen : Nat := 512
def jwtMaxIssLen : Nat := 128
def jwtMaxSubLen : Nat := 128
def jwtMaxAudLen : Nat := 256

inductive JwtAlgorithm
  | none | hs256 | hs384 | hs512 | rs256 | rs384 | rs512
deriving DecidableEq

structure JwtClaims where
  iss : CStr
  sub : CStr
  aud : CStr
  exp : Int
  iat : Int
  nbf : Int
  jti : CStr
  scope : CStr
deriving DecidableEq

/-- `secret` is the first `secret_len` bytes of the field. -/
structure JwtSigningKey where
  secret : List UInt8
  algorithm : JwtAlgorithm

/-- `HMAC(EVP_sha256(), key, key_len, data, data_len, ...)`. -/
abbrev Hmac := List UInt8 → List UInt8 → { digest : List UInt8 // digest.length = 32 }

structure JwtEngine where
  key : JwtSigningKey
  signFunc : Option (List UInt8 → JwtSigningKey → List UInt8)
  verifyFunc : Option (List UInt8 → JwtSigningKey → List UInt8 → Nat → Int)

/-- The C return value of a function that reports failures by a code. -/
def code {α : Type} : Except Int α → Int
  | .ok _ => 0
  | .error rc => rc

/-! ## Base64url -/

def b64Url : List UInt8 :=
  lit "ABCDEFGHIJKLMNOPQRSTUVWXYZabcdefghijklmnopqrstuvwxyz0123456789-_"

def jwtBase64urlEncode (src : List UInt8) : CStr :=
  let dst := encodeGroups b64Url src
  let pad := (3 - src.length % 3) % 3
  dst.take (dst.length - pad)

/-- `decode_table`: the position in the alphabet, or `-1`. -/
def decodeTable : UInt8 → Int := lookup b64Url fun _ => -1

def badQuad (q : Quad) : Bool := q.v0 < 0 || q.v1 < 0 || q.v2 < 0 || q.v3 < 0

def jwtBase64urlDecode (src : CStr) (cap : Nat) : Decoded :=
  decodeInto badQuad cap ((4 - src.length % 4) % 4) (quads decodeTable 0 src)

/-- What the buffers of `jwt_decode` hold before they are written. -/
structure StackJunk where
  payloadJson : Nat → UInt8
  providedSig : Nat → UInt8

/-! ## Signing -/

def jwtHs256Sign (hmac : Hmac) (data : List UInt8) (key : JwtSigningKey) : List UInt8 :=
  hmac key.secret data

def jwtHs256Verify (hmac : Hmac) (data : List UInt8) (key : JwtSigningKey)
    (sig : List UInt8) (sigLen : Nat) : Int :=
  let computed := (hmac key.secret data).val
  if computed.length ≠ sigLen then 0
  else if computed = sig.take sigLen then 1 else 0

def jwtRs256SignSim (hmac : Hmac) (data : List UInt8) (key : JwtSigningKey) : List UInt8 :=
  hmac key.secret data

def jwtRs256VerifySim (hmac : Hmac) (data : List UInt8) (key : JwtSigningKey)
    (sig : List UInt8) (sigLen : Nat) : Int :=
  let computed := (hmac key.secret data).val
  if computed.length ≠ sigLen then 0
  else if computed = sig.take sigLen then 1 else 0

def jwtAlgName : JwtAlgorithm → CStr
  | .none => lit "none"
  | .hs256 => lit "HS256"
  | .hs384 => lit "HS384"
  | .hs512 => lit "HS512"
  | .rs256 => lit "RS256"
  | .rs384 => lit "RS384"
  | .rs512 => lit "RS512"

/-- A missing or overlong secret leaves the zeroed key of length 0. -/
def jwtEngineInit (hmac : Hmac) (alg : JwtAlgorithm) (secret : Option (List UInt8)) :
    JwtEngine :=
  let stored := match secret with
    | some bytes => if bytes.length ≤ jwtMaxSecretLen then bytes else []
    | none => []
  let key := { secret := stored, algorithm := alg }
  match alg with
  | .hs256 | .hs384 | .hs512 =>
      { key, signFunc := some (jwtHs256Sign hmac), verifyFunc := some (jwtHs256Verify hmac) }
  | .rs256 | .rs384 | .rs512 =>
      { key, signFunc := some (jwtRs256SignSim hmac),
        verifyFunc := some (jwtRs256VerifySim hmac) }
  | .none => { key, signFunc := none, verifyFunc := none }

/-! ## Encoding -/

/-- `json_escape_str` from output position `j` on. -/
def jsonEscapeStr (dstSize : Nat) : CStr → Nat → CStr
  | [], _ => []
  | b :: rest, j =>
      if j + 2 < dstSize then
        if b = 34 ∨ b = 92 then 92 :: b :: jsonEscapeStr dstSize rest (j + 2)
        else b :: jsonEscapeStr dstSize rest (j + 1)
      else []

def buildClaimsJson (claims : JwtClaims) : CStr :=
  lit "\x7b\"iss\":\"" ++ jsonEscapeStr (jwtMaxIssLen * 2) claims.iss 0 ++
    lit "\",\"sub\":\"" ++ jsonEscapeStr (jwtMaxSubLen * 2) claims.sub 0 ++
    lit "\",\"aud\":\"" ++ jsonEscapeStr (jwtMaxAudLen * 2) claims.aud 0 ++
    lit "\",\"exp\":" ++ decimalInt claims.exp ++
    lit ",\"iat\":" ++ decimalInt claims.iat ++
    lit ",\"nbf\":" ++ decimalInt claims.nbf ++
    lit ",\"jti\":\"" ++ jsonEscapeStr 128 claims.jti 0 ++
    lit "\",\"scope\":\"" ++ jsonEscapeStr 512 claims.scope 0 ++ lit "\"\x7d"

def jwtEncode (eng : JwtEngine) (claims : JwtClaims) (tokenSize : Nat) : Except Int CStr :=
  let headerJson := lit "\x7b\"alg\":\"" ++ jwtAlgName eng.key.algorithm ++
    lit "\",\"typ\":\"JWT\"\x7d"
  let headerB64 := jwtBase64urlEncode (snprintf headerJson jwtMaxHeaderLen)
  let payloadB64 := jwtBase64urlEncode (snprintf (buildClaimsJson claims) jwtMaxPayloadLen)
  let signingInput := snprintf (headerB64 ++ lit "." ++ payloadB64) jwtMaxTokenLen
  let sig := match eng.signFunc with
    | some sign => sign signingInput eng.key
    | none => []
  let sigB64 := jwtBase64urlEncode sig
  .ok (snprintf (headerB64 ++ lit "." ++ payloadB64 ++ lit "." ++ sigB64) tokenSize)

/-- The indices that the loop of `jwt_base64url_encode` writes for `left` bytes, and `j` behind
it. -/
def encodeLoopWrites (left j : Nat) : List Nat × Nat :=
  if left = 0 then ([], j)
  else
    let (writes, j') := encodeLoopWrites (left - 3) (j + 4)
    (j :: (j + 1) :: (j + 2) :: (j + 3) :: writes, j')
termination_by left

/-- All indices that `jwt_base64url_encode` writes, the terminator last. -/
def jwtBase64urlWrites (srcLen : Nat) : List Nat :=
  let (writes, j) := encodeLoopWrites srcLen 0
  let pad := (3 - srcLen % 3) % 3
  writes ++ [sizeSub j pad]

def jsonEscapeWrites (dstSize : Nat) (src : CStr) : List Nat :=
  List.range ((jsonEscapeStr dstSize src 0).length + 1)

def jwtEncodeSig (eng : JwtEngine) (claims : JwtClaims) : List UInt8 :=
  let headerJson := lit "\x7b\"alg\":\"" ++ jwtAlgName eng.key.algorithm ++
    lit "\",\"typ\":\"JWT\"\x7d"
  let headerB64 := jwtBase64urlEncode (snprintf headerJson jwtMaxHeaderLen)
  let payloadB64 := jwtBase64urlEncode (snprintf (buildClaimsJson claims) jwtMaxPayloadLen)
  let signingInput := snprintf (headerB64 ++ lit "." ++ payloadB64) jwtMaxTokenLen
  match eng.signFunc with
  | some sign => sign signingInput eng.key
  | none => []

/-- What `jwt_encode` writes into `header_b64`, `payload_b64` and `sig_b64`. -/
def jwtEncodeWrites (eng : JwtEngine) (claims : JwtClaims) : List Nat × List Nat × List Nat :=
  let hdrLen := (lit "\x7b\"alg\":\"" ++ jwtAlgName eng.key.algorithm ++
    lit "\",\"typ\":\"JWT\"\x7d").length
  let plLen := (buildClaimsJson claims).length
  (jwtBase64urlWrites hdrLen, jwtBase64urlWrites plLen,
    jwtBase64urlWrites (jwtEncodeSig eng claims).length)

/-! ## Decoding -/

def parseJsonInt (json : CStr) (key : String) : Option Int :=
  let search := snprintf (lit "\"" ++ lit key ++ lit "\":") 128
  (strstr json search).map fun p => atoll (p.drop search.length)

def parseJsonStr (json : CStr) (key : String) (valSize : Nat) : Option CStr :=
  let search := snprintf (lit "\"" ++ lit key ++ lit "\":\"") 128
  (strstr json search).bind fun p =>
    let start := p.drop search.length
    (strchr start 34).map fun rest => (start.take (start.length - rest.length)).take (valSize - 1)

/-- The claims found in a payload; a field that is absent keeps its zero value. -/
def parseClaims (payloadJson : CStr) : JwtClaims where
  iss := (parseJsonStr payloadJson "iss" jwtMaxIssLen).getD []
  sub := (parseJsonStr payloadJson "sub" jwtMaxSubLen).getD []
  aud := (parseJsonStr payloadJson "aud" jwtMaxAudLen).getD []
  exp := (parseJsonInt payloadJson "exp").getD 0
  iat := (parseJsonInt payloadJson "iat").getD 0
  nbf := (parseJsonInt payloadJson "nbf").getD 0
  jti := (parseJsonStr payloadJson "jti" 64).getD []
  scope := (parseJsonStr payloadJson "scope" 256).getD []

def isDot (b : UInt8) : Bool := b = 46

/-- The signature branch: taken only when there is a third segment. -/
def signatureAccepted (eng : JwtEngine) (signingInput : CStr) (signatureB64 : Option CStr)
    (junk : StackJunk) : Bool :=
  match eng.verifyFunc, signatureB64 with
  | some verify, some sig =>
      let provided := jwtBase64urlDecode sig 128
      verify signingInput eng.key (bufferBytes provided.written junk.providedSig provided.len)
        provided.len ≠ 0
  | _, _ => true

/-- The return values of the header and payload decodings are ignored. -/
def jwtDecode (eng : JwtEngine) (token : CStr) (junk : StackJunk) : Except Int JwtClaims :=
  if jwtMaxTokenLen ≤ token.length then .error (-1)
  else
    let tokenCopy := strncpy token (jwtMaxTokenLen - 1)
    let (header, save₁) := strtok isDot tokenCopy
    let (payload, save₂) := strtok isDot save₁
    let (signature, _) := strtok isDot save₂
    match header, payload with
    | some headerB64, some payloadB64 =>
        let payloadJson := jwtBase64urlDecode payloadB64 jwtMaxPayloadLen
        let signingInput := snprintf (headerB64 ++ lit "." ++ payloadB64) jwtMaxTokenLen
        if signatureAccepted eng signingInput signature junk then
          .ok (parseClaims (ofBuffer
            (bufferBytes payloadJson.written junk.payloadJson payloadJson.len)))
        else .error (-3)
    | _, _ => .error (-2)

/-! ## Validation -/

end MiniBackend.Auth.JwtAuth
