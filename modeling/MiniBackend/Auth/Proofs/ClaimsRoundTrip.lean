import MiniBackend.Auth.JwtAuth
import MiniBackend.Auth.Proofs.JwtAuthenticity
import MiniBackend.Lib.FlatObject

/-!
# Base64url

The encoder leaves out the characters of the bytes that it filled up with, and the decoder fills
up with zeros what is missing of the last group and takes as many bytes off the length.
-/

namespace MiniBackend.Auth.Proofs.ClaimsRoundTrip

section Base64url

open MiniBackend.Lib.CString MiniBackend.Lib.Base64 MiniBackend.Auth.JwtAuth

/-! ## The alphabet -/

theorem b64Url_nodup : b64Url.Nodup := by decide +kernel

theorem b64Url_length : b64Url.length = 64 := by decide

/-! ## The round trip -/

theorem jwtBase64urlEncode_length (src : List UInt8) :
    (jwtBase64urlEncode src).length = 4 * ((src.length + 2) / 3) - (3 - src.length % 3) % 3 :=
  length_encodeUnpadded b64Url src

theorem decodeAll_encode (src : List UInt8) :
    decodeAll badQuad (quads decodeTable 0 (jwtBase64urlEncode src)) = some (zeroFilled src) := by
  have hquads : quads decodeTable 0 (jwtBase64urlEncode src) = groupQuads (zeroFilled src) :=
    quads_encodeUnpadded b64Url_nodup b64Url_length _ src
  have hgood : (groupQuads (zeroFilled src)).any badQuad = false := by
    apply any_groupQuads
    intro q h0 h1 h2 h3
    simp only [badQuad, Bool.or_eq_false_iff, decide_eq_false_iff_not]
    omega
  have hfull : (zeroFilled src).length % 3 = 0 := by
    rw [length_zeroFilled]
    omega
  rw [hquads, decodeAll, hgood, flatMap_bytes_groupQuads hfull]
  rfl

/-- The zeros that the encoder filled up with are the ones the length leaves out. -/
theorem take_zeroFilled (src : List UInt8) :
    (zeroFilled src).length - (4 - (jwtBase64urlEncode src).length % 4) % 4 = src.length ∧
      (zeroFilled src).take src.length = src := by
  constructor
  · rw [length_zeroFilled, jwtBase64urlEncode_length]
    omega
  · exact List.take_left

/-- The capacity counts the bytes of full groups, also those behind the length. -/
theorem jwtBase64urlDecode_encode {src : List UInt8} {cap : Nat}
    (hcap : 3 * ((src.length + 2) / 3) ≤ cap) :
    jwtBase64urlDecode (jwtBase64urlEncode src) cap =
      { rc := 0, written := zeroFilled src, len := src.length } := by
  have hroom : (zeroFilled src).length ≤ cap := by rwa [length_zeroFilled]
  rw [jwtBase64urlDecode, decodeInto_of_decodeAll _ _ (decodeAll_encode src),
    List.take_of_length_le hroom, Nat.min_eq_right hroom, sizeSub_of_le, (take_zeroFilled src).1]
  rw [length_zeroFilled, jwtBase64urlEncode_length]
  omega

/-! ## Strings with other characters -/

theorem decodeTable_of_not_mem {c : UInt8} (hc : c ∉ b64Url) : decodeTable c = -1 := by
  rw [decodeTable, lookup, List.idxOf?_eq_none_iff.mpr hc]

theorem decodeAll_of_not_mem {src : CStr} {c : UInt8} (hsrc : c ∈ src) (hc : c ∉ b64Url) :
    decodeAll badQuad (quads decodeTable 0 src) = none := by
  have hbad : (quads decodeTable 0 src).any badQuad = true := by
    obtain ⟨q, hq, hlook⟩ := exists_mem_quads decodeTable 0 hsrc
    rw [decodeTable_of_not_mem hc] at hlook
    rw [List.any_eq_true]
    refine ⟨q, hq, ?_⟩
    simp only [badQuad, Bool.or_eq_true, decide_eq_true_eq]
    omega
  rw [decodeAll, hbad]
  rfl

/-- What was encoded comes back for all lengths, the text has no padding and no other characters
than the alphabet, and with any other character there is no decoding. -/
theorem base64url_roundTrip :
    (∀ (src : List UInt8) (cap : Nat), 3 * ((src.length + 2) / 3) ≤ cap →
        (jwtBase64urlDecode (jwtBase64urlEncode src) cap).rc = 0 ∧
          (jwtBase64urlDecode (jwtBase64urlEncode src) cap).len = src.length ∧
          (jwtBase64urlDecode (jwtBase64urlEncode src) cap).written.take src.length = src) ∧
      (∀ src : List UInt8, (jwtBase64urlEncode src).length = (4 * src.length + 2) / 3 ∧
        ∀ c ∈ jwtBase64urlEncode src, c ∈ b64Url) ∧
      b64Url.length = 64 ∧
      ∀ (src : CStr) (cap : Nat), (∃ c ∈ src, c ∉ b64Url) →
        (jwtBase64urlDecode src cap).rc = -1 := by
  refine ⟨?_, ?_, b64Url_length, ?_⟩
  · intro src cap hcap
    rw [jwtBase64urlDecode_encode hcap]
    exact ⟨rfl, rfl, (take_zeroFilled src).2⟩
  · intro src
    constructor
    · rw [jwtBase64urlEncode_length]
      omega
    · intro c hc
      exact mem_encodeUnpadded b64Url_length hc
  · intro src cap ⟨c, hsrc, hc⟩
    exact (decodeInto_of_decodeAll_none cap _ (decodeAll_of_not_mem hsrc hc)).1

end Base64url

/-!
# What comes back out of a token

`jwt_encode` writes a backslash in front of every quote and backslash of a claim.
`jwt_decode` finds the claims by their keys, and no content of one field is ever
taken for another; but it reads each string up to the next quote and leaves the
backslashes in.  A string comes back as it was when it has neither character, or
when backslashes are all it ends in and its array is full, so that the bytes that
escaping added are cut off again.
-/

open MiniBackend.Lib.CString MiniBackend.Lib.Base64 MiniBackend.Lib.FlatObject
open MiniBackend.Auth.JwtAuth
open MiniBackend.Auth.Proofs.JwtAuthenticity

def Terminated (size : Nat) (s : CStr) : Prop := s.length < size ∧ 0 ∉ s

instance (size : Nat) (s : CStr) : Decidable (Terminated size s) :=
  inferInstanceAs (Decidable (_ ∧ _))

def IsInt64 (z : Int) : Prop := -2 ^ 63 ≤ z ∧ z < 2 ^ 63

instance (z : Int) : Decidable (IsInt64 z) := inferInstanceAs (Decidable (_ ∧ _))

/-- A `JwtClaims` whose strings end inside their arrays. -/
structure WellFormed (claims : JwtClaims) : Prop where
  iss : Terminated jwtMaxIssLen claims.iss
  sub : Terminated jwtMaxSubLen claims.sub
  aud : Terminated jwtMaxAudLen claims.aud
  exp : IsInt64 claims.exp
  iat : IsInt64 claims.iat
  nbf : IsInt64 claims.nbf
  jti : Terminated 64 claims.jti
  scope : Terminated 256 claims.scope

def headerText (alg : JwtAlgorithm) : CStr :=
  jwtBase64urlEncode (lit "\x7b\"alg\":\"" ++ jwtAlgName alg ++ lit "\",\"typ\":\"JWT\"\x7d")

def payloadText (claims : JwtClaims) : CStr := jwtBase64urlEncode (buildClaimsJson claims)

/-- The token, before it is cut to the size of the output buffer. -/
def tokenText (hmac : Hmac) (secret : List UInt8) (alg : JwtAlgorithm) (claims : JwtClaims) :
    CStr :=
  headerText alg ++ lit "." ++ payloadText claims ++ lit "." ++
    jwtBase64urlEncode (hmac secret (headerText alg ++ lit "." ++ payloadText claims))

/-- The token is decoded to the claims it was made from. -/
def RoundTrips (eng : JwtEngine) (claims : JwtClaims) (tokenSize : Nat) (junk : StackJunk) :
    Prop :=
  ∃ token, jwtEncode eng claims tokenSize = .ok token ∧ jwtDecode eng token junk = .ok claims

/-- The strings that survive: nothing in them was escaped, or only the backslashes at
the end of a full array. -/
def Recovered (size : Nat) (s : CStr) : Prop :=
  34 ∉ s ∧ (92 ∉ s ∨
    s.length = size - 1 ∧ ∃ a k, s = a ++ List.replicate k 92 ∧ 92 ∉ a)

/-! ## The payload as a flat object -/

theorem jsonEscapeStr_eq {dstSize : Nat} {s : CStr} {j : Nat}
    (hroom : j + 2 * s.length < dstSize) : jsonEscapeStr dstSize s j = escape s := by
  induction s generalizing j with
  | nil => rfl
  | cons b s ih =>
      rw [List.length_cons] at hroom
      rw [jsonEscapeStr, if_pos (by omega)]
      by_cases hb : b = 34 ∨ b = 92
      · rw [if_pos hb, escape_cons_special hb, ih (by omega)]
      · rw [if_neg hb, escape_cons_plain hb, ih (by omega)]

theorem not_mem_decimalInt {c : UInt8} (hminus : c ≠ 45) (hdigit : isDigit c = false)
    (z : Int) : c ∉ decimalInt z := by
  intro h
  rcases isDigit_of_mem_decimalInt h with h | h
  · exact hminus h
  · rw [hdigit] at h
    contradiction

def number (z : Int) : Value :=
  .bare ⟨decimalInt z, not_mem_decimalInt (by decide) (by decide) z⟩

def claimsMembers (claims : JwtClaims) : List Member :=
  [⟨⟨lit "iss", by decide⟩, .quoted claims.iss⟩, ⟨⟨lit "sub", by decide⟩, .quoted claims.sub⟩,
    ⟨⟨lit "aud", by decide⟩, .quoted claims.aud⟩, ⟨⟨lit "exp", by decide⟩, number claims.exp⟩,
    ⟨⟨lit "iat", by decide⟩, number claims.iat⟩, ⟨⟨lit "nbf", by decide⟩, number claims.nbf⟩,
    ⟨⟨lit "jti", by decide⟩, .quoted claims.jti⟩,
    ⟨⟨lit "scope", by decide⟩, .quoted claims.scope⟩]

theorem buildClaimsJson_eq {claims : JwtClaims} (hclaims : WellFormed claims) :
    buildClaimsJson claims = 123 :: bodyText (claimsMembers claims) := by
  have hescape {size : Nat} {s : CStr} (hs : Terminated size s) :
      jsonEscapeStr (size * 2) s 0 = escape s := by
    have hlength := hs.1
    exact jsonEscapeStr_eq (by omega)
  have hjti : jsonEscapeStr 128 claims.jti 0 = escape claims.jti := hescape hclaims.jti
  have hscope : jsonEscapeStr 512 claims.scope 0 = escape claims.scope := hescape hclaims.scope
  unfold buildClaimsJson
  simp only [hescape hclaims.iss, hescape hclaims.sub, hescape hclaims.aud, hjti, hscope]
  simp only [claimsMembers, bodyText, number, Value.text, List.append_assoc, List.cons_append,
    List.nil_append]
  rfl

/-! ## Reading the payload -/

def readBack (size : Nat) (s : CStr) : CStr := (cutAtQuote (escape s)).take (size - 1)

theorem readBack_eq_iff {size : Nat} {s : CStr} (hs : Terminated size s) :
    readBack size s = s ↔ Recovered size s :=
  take_cutAtQuote_escape_eq_iff (Nat.le_sub_one_of_lt hs.1)

theorem snprintf_keyPattern {name : String} (hname : (lit name).length < 120) {tail : CStr}
    (htail : tail.length ≤ 1) :
    snprintf (keyPattern (lit name) tail) 128 = keyPattern (lit name) tail := by
  apply snprintf_of_lt
  rw [keyPattern, List.length_cons, List.length_append, List.length_cons, List.length_cons]
  omega

section Parse

variable {ms : List Member} {name : String} (hplain : PlainKey (lit name))
include hplain

theorem strstr_object {m : Member} (hm : ms.find? (fun m => m.key.val = lit name) = some m)
    {tail rest : CStr} (hvalue : m.value.text = tail ++ rest) :
    ∃ p, strstr (123 :: bodyText ms) (keyPattern (lit name) tail) = some p ∧
      ∃ after, p.drop (keyPattern (lit name) tail).length =
        rest ++ closing after :: bodyText after := by
  have hbrace : strstr (123 :: bodyText ms) (keyPattern (lit name) tail) =
      strstr (bodyText ms) (keyPattern (lit name) tail) :=
    strstr_cons_of_ne (by decide) _ _
  rw [hbrace]
  exact strstr_bodyText hplain hm hvalue

variable (hname : (lit name).length < 120)
include hname

theorem parseJsonStr_eq {key : { key : CStr // PlainKey key }} {content : CStr}
    (hm : ms.find? (fun m => m.key.val = lit name) = some ⟨key, .quoted content⟩)
    (valSize : Nat) :
    parseJsonStr (123 :: bodyText ms) name valSize = some (readBack valSize content) := by
  have hsearch : snprintf (lit "\"" ++ lit name ++ lit "\":\"") 128 =
      keyPattern (lit name) [34] := snprintf_keyPattern hname (Nat.le_refl 1)
  have hvalue : (Value.quoted content).text = [34] ++ (escape content ++ [34]) := rfl
  obtain ⟨p, hfound, after, hdrop⟩ := strstr_object hplain hm hvalue
  rw [List.append_assoc, List.singleton_append] at hdrop
  obtain ⟨r, hr, hcut⟩ := take_strchr_eq_cutAtQuote (escape content)
    (closing after :: bodyText after)
  rw [parseJsonStr, hsearch, hfound, Option.bind_some, hdrop]
  dsimp only
  rw [hr, Option.map_some, hcut]
  rfl

theorem parseJsonInt_eq {key : { key : CStr // PlainKey key }} {z : Int} (hz : IsInt64 z)
    (hm : ms.find? (fun m => m.key.val = lit name) = some ⟨key, number z⟩) :
    parseJsonInt (123 :: bodyText ms) name = some z := by
  have hsearch : snprintf (lit "\"" ++ lit name ++ lit "\":") 128 =
      keyPattern (lit name) [] := snprintf_keyPattern hname (Nat.zero_le 1)
  have hvalue : (number z).text = [] ++ decimalInt z := rfl
  obtain ⟨p, hfound, after, hdrop⟩ := strstr_object hplain hm hvalue
  have hstop : ∀ b ∈ (closing after :: bodyText after).head?, isDigit b = false := by
    intro b hb
    rw [List.head?_cons, Option.mem_some_iff] at hb
    rcases closing_eq after with hc | hc
    · rw [← hb, hc]; decide
    · rw [← hb, hc]; decide
  rw [parseJsonInt, hsearch, hfound, Option.map_some, hdrop,
    atoll_decimalInt_append hz.1 hz.2 hstop]

end Parse

theorem parseClaims_buildClaimsJson {claims : JwtClaims} (hclaims : WellFormed claims) :
    parseClaims (buildClaimsJson claims) =
      { claims with
        iss := readBack jwtMaxIssLen claims.iss
        sub := readBack jwtMaxSubLen claims.sub
        aud := readBack jwtMaxAudLen claims.aud
        jti := readBack 64 claims.jti
        scope := readBack 256 claims.scope } := by
  have hiss : parseJsonStr (123 :: bodyText (claimsMembers claims)) "iss" jwtMaxIssLen =
      some (readBack jwtMaxIssLen claims.iss) :=
    parseJsonStr_eq (by decide) (by decide) rfl jwtMaxIssLen
  have hsub : parseJsonStr (123 :: bodyText (claimsMembers claims)) "sub" jwtMaxSubLen =
      some (readBack jwtMaxSubLen claims.sub) :=
    parseJsonStr_eq (by decide) (by decide) rfl jwtMaxSubLen
  have haud : parseJsonStr (123 :: bodyText (claimsMembers claims)) "aud" jwtMaxAudLen =
      some (readBack jwtMaxAudLen claims.aud) :=
    parseJsonStr_eq (by decide) (by decide) rfl jwtMaxAudLen
  have hexp : parseJsonInt (123 :: bodyText (claimsMembers claims)) "exp" = some claims.exp :=
    parseJsonInt_eq (by decide) (by decide) hclaims.exp rfl
  have hiat : parseJsonInt (123 :: bodyText (claimsMembers claims)) "iat" = some claims.iat :=
    parseJsonInt_eq (by decide) (by decide) hclaims.iat rfl
  have hnbf : parseJsonInt (123 :: bodyText (claimsMembers claims)) "nbf" = some claims.nbf :=
    parseJsonInt_eq (by decide) (by decide) hclaims.nbf rfl
  have hjti : parseJsonStr (123 :: bodyText (claimsMembers claims)) "jti" 64 =
      some (readBack 64 claims.jti) :=
    parseJsonStr_eq (by decide) (by decide) rfl 64
  have hscope : parseJsonStr (123 :: bodyText (claimsMembers claims)) "scope" 256 =
      some (readBack 256 claims.scope) :=
    parseJsonStr_eq (by decide) (by decide) rfl 256
  rw [buildClaimsJson_eq hclaims]
  simp only [parseClaims, hiss, hsub, haud, hexp, hiat, hnbf, hjti, hscope, Option.getD_some]

/-! ## Segments -/

theorem isDot_of_mem_encode {src : List UInt8} {b : UInt8} (hb : b ∈ jwtBase64urlEncode src) :
    isDot b = false := by
  have hall : b64Url.all fun b => !isDot b := by decide
  have hmem : b ∈ b64Url := mem_encodeUnpadded b64Url_length hb
  simpa using List.all_eq_true.mp hall b hmem

theorem base64urlBytes_encode (src : List UInt8) :
    base64urlBytes (jwtBase64urlEncode src) = some src := by
  obtain ⟨hlength, htake⟩ := take_zeroFilled src
  rw [base64urlBytes, decodeAll_encode, Option.map_some, hlength, htake]

theorem payloadBytes_encode {src : List UInt8} (hfits : src.length ≤ 2046) (junk : StackJunk) :
    payloadBytes (jwtBase64urlEncode src) junk = src := by
  obtain ⟨hlength, htake⟩ := take_zeroFilled src
  have hcap : 3 * ((src.length + 2) / 3) ≤ jwtMaxPayloadLen := by
    rw [jwtMaxPayloadLen]
    omega
  have hdecode := jwtBase64urlDecode_encode hcap
  have hle : src.length ≤ (zeroFilled src).length := by
    rw [length_zeroFilled]
    omega
  rw [payloadBytes, hdecode, bufferBytes_of_le _ hle, htake]

/-! ## The token -/

theorem jwtEngineInit_signFunc (hmac : Hmac) {alg : JwtAlgorithm} (halg : alg ≠ .none)
    (secret : Option (List UInt8)) :
    ∃ sign, (jwtEngineInit hmac alg secret).signFunc = some sign ∧
      ∀ data key, sign data key = hmac key.secret data := by
  cases alg with
  | none => exact absurd rfl halg
  | hs256 | hs384 | hs512 => exact ⟨jwtHs256Sign hmac, rfl, fun _ _ => rfl⟩
  | rs256 | rs384 | rs512 => exact ⟨jwtRs256SignSim hmac, rfl, fun _ _ => rfl⟩

theorem jwtEngineInit_algorithm (hmac : Hmac) (alg : JwtAlgorithm)
    (secret : Option (List UInt8)) : (jwtEngineInit hmac alg secret).key.algorithm = alg := by
  cases alg <;> rfl

theorem length_headerText {alg : JwtAlgorithm} (halg : alg ≠ .none) :
    (headerText alg).length = 36 := by
  have hname : (jwtAlgName alg).length = 5 := by
    cases alg with
    | none => exact absurd rfl halg
    | hs256 | hs384 | hs512 | rs256 | rs384 | rs512 => rfl
  rw [headerText, jwtBase64urlEncode_length, List.length_append, List.length_append, hname]
  rfl

theorem length_buildClaimsJson_le {claims : JwtClaims}
    (hpayload : (payloadText claims).length < jwtMaxPayloadLen) :
    (buildClaimsJson claims).length ≤ 1535 := by
  rw [payloadText, jwtBase64urlEncode_length, jwtMaxPayloadLen] at hpayload
  omega

theorem ofBuffer_buildClaimsJson {claims : JwtClaims} (hclaims : WellFormed claims) :
    ofBuffer (buildClaimsJson claims) = buildClaimsJson claims := by
  have hquoted {size : Nat} {s : CStr} (hs : Terminated size s) : 0 ∉ (Value.quoted s).text :=
    Value.not_mem_text_quoted (by decide) (by decide) hs.2
  have hnumber (z : Int) : 0 ∉ (number z).text := not_mem_decimalInt (by decide) (by decide) z
  have hmembers : ∀ m ∈ claimsMembers claims, 0 ∉ m.key.val ∧ 0 ∉ m.value.text := by
    simp only [claimsMembers, List.forall_mem_cons]
    exact ⟨⟨by decide, hquoted hclaims.iss⟩, ⟨by decide, hquoted hclaims.sub⟩,
      ⟨by decide, hquoted hclaims.aud⟩, ⟨by decide, hnumber _⟩, ⟨by decide, hnumber _⟩,
      ⟨by decide, hnumber _⟩, ⟨by decide, hquoted hclaims.jti⟩,
      ⟨by decide, hquoted hclaims.scope⟩, by simp⟩
  have hbody : 0 ∉ bodyText (claimsMembers claims) := not_mem_bodyText (by decide) hmembers
  rw [buildClaimsJson_eq hclaims]
  apply ofBuffer_of_ne
  intro b hb hzero
  subst hzero
  rcases List.mem_cons.mp hb with hb | hb
  · contradiction
  · exact hbody hb

theorem jwtBase64urlEncode_ne_nil {src : List UInt8} (hne : src ≠ []) :
    jwtBase64urlEncode src ≠ [] := by
  have hpos := List.length_pos_iff.mpr hne
  apply List.length_pos_iff.mp
  rw [jwtBase64urlEncode_length]
  omega

theorem buildClaimsJson_ne_nil (claims : JwtClaims) : buildClaimsJson claims ≠ [] := by
  have hlast : lit "\"\x7d" ≠ [] := by decide
  exact List.append_ne_nil_of_right_ne_nil _ hlast

theorem segments_tokenText (hmac : Hmac) (key : List UInt8) (alg : JwtAlgorithm)
    (claims : JwtClaims) :
    segments (tokenText hmac key alg claims) =
      [headerText alg, payloadText claims,
        jwtBase64urlEncode (hmac key (headerText alg ++ lit "." ++ payloadText claims))] := by
  have hheader : headerText alg ≠ [] := jwtBase64urlEncode_ne_nil (by simp [lit])
  have hpayload : payloadText claims ≠ [] :=
    jwtBase64urlEncode_ne_nil (buildClaimsJson_ne_nil claims)
  have hdigest := (hmac key (headerText alg ++ lit "." ++ payloadText claims)).property
  have hsig : jwtBase64urlEncode (hmac key (headerText alg ++ lit "." ++ payloadText claims)) ≠
      [] := by
    apply jwtBase64urlEncode_ne_nil
    apply List.length_pos_iff.mp
    omega
  have hdots : tokenText hmac key alg claims = headerText alg ++ 46 :: (payloadText claims ++
      46 :: jwtBase64urlEncode
        (hmac key (headerText alg ++ lit "." ++ payloadText claims))) := by
    have hdot : lit "." = [46] := rfl
    simp only [tokenText, hdot, List.append_assoc, List.cons_append, List.nil_append]
  have hheaderFree : ∀ b ∈ headerText alg, isDot b = false := fun _ => isDot_of_mem_encode
  have hpayloadFree : ∀ b ∈ payloadText claims, isDot b = false := fun _ => isDot_of_mem_encode
  rw [segments, hdots, pieces_append hheaderFree hheader rfl,
    pieces_append hpayloadFree hpayload rfl, pieces_single (fun _ => isDot_of_mem_encode) hsig]

section Token

variable (hmac : Hmac) {alg : JwtAlgorithm} (halg : alg ≠ .none)
  (secret : Option (List UInt8)) {claims : JwtClaims}
  (hpayload : (payloadText claims).length < jwtMaxPayloadLen)
include halg hpayload

theorem length_tokenText_lt (key : List UInt8) :
    (tokenText hmac key alg claims).length < jwtMaxTokenLen := by
  have hheader := length_headerText halg
  have hsig := (hmac key (headerText alg ++ lit "." ++ payloadText claims)).property
  have hdot : (lit ".").length = 1 := rfl
  rw [jwtMaxPayloadLen] at hpayload
  rw [tokenText]
  simp only [List.length_append, jwtBase64urlEncode_length (Subtype.val _), hsig, hheader, hdot]
  rw [jwtMaxTokenLen]
  omega

theorem jwtEncode_eq {tokenSize : Nat}
    (htoken : (tokenText hmac (jwtEngineInit hmac alg secret).key.secret alg claims).length <
      tokenSize) :
    jwtEncode (jwtEngineInit hmac alg secret) claims tokenSize =
      .ok (tokenText hmac (jwtEngineInit hmac alg secret).key.secret alg claims) := by
  obtain ⟨sign, hfunc, hsign⟩ := jwtEngineInit_signFunc hmac halg secret
  have hjson := length_buildClaimsJson_le hpayload
  have hpayloadFits : snprintf (buildClaimsJson claims) jwtMaxPayloadLen =
      buildClaimsJson claims := snprintf_of_lt (by rw [jwtMaxPayloadLen]; omega)
  have hheaderFits : snprintf (lit "\x7b\"alg\":\"" ++ jwtAlgName alg ++
      lit "\",\"typ\":\"JWT\"\x7d") jwtMaxHeaderLen =
        lit "\x7b\"alg\":\"" ++ jwtAlgName alg ++ lit "\",\"typ\":\"JWT\"\x7d" := by
    cases alg <;> rfl
  have hinputFits : snprintf (headerText alg ++ lit "." ++ payloadText claims) jwtMaxTokenLen =
      headerText alg ++ lit "." ++ payloadText claims := by
    apply snprintf_of_lt
    rw [List.length_append, List.length_append, length_headerText halg]
    rw [jwtMaxPayloadLen] at hpayload
    change 36 + 1 + _ < 4096
    omega
  rw [jwtEncode]
  simp only [jwtEngineInit_algorithm, hheaderFits, hpayloadFits, hfunc]
  rw [← headerText, ← payloadText, hinputFits, hsign, ← tokenText, snprintf_of_lt htoken]

/-- The token is accepted, and the claims are read out of the payload as it was written. -/
theorem jwtDecode_tokenText (hclaims : WellFormed claims) (junk : StackJunk) :
    jwtDecode (jwtEngineInit hmac alg secret)
        (tokenText hmac (jwtEngineInit hmac alg secret).key.secret alg claims) junk =
      .ok (parseClaims (buildClaimsJson claims)) := by
  have hjson := length_buildClaimsJson_le hpayload
  have hsig := signatureAccepted_iff hmac halg secret
    (headerText alg ++ lit "." ++ payloadText claims)
    (jwtBase64urlEncode (hmac (jwtEngineInit hmac alg secret).key.secret
      (headerText alg ++ lit "." ++ payloadText claims))) junk
  have haccepted := hsig.mpr (base64urlBytes_encode _)
  rw [jwtDecode_of_segments _ junk (length_tokenText_lt hmac halg hpayload _)
    (segments_tokenText hmac _ alg claims), List.head?_cons, if_pos haccepted, payloadText,
    payloadBytes_encode (by omega), ofBuffer_buildClaimsJson hclaims]

end Token

/-! ## Round trips -/

theorem roundTrips_iff_readBack (hmac : Hmac) {alg : JwtAlgorithm} (halg : alg ≠ .none)
    (secret : Option (List UInt8)) {claims : JwtClaims} (hclaims : WellFormed claims)
    (hpayload : (payloadText claims).length < jwtMaxPayloadLen) {tokenSize : Nat}
    (htoken : (tokenText hmac (jwtEngineInit hmac alg secret).key.secret alg claims).length <
      tokenSize) (junk : StackJunk) :
    RoundTrips (jwtEngineInit hmac alg secret) claims tokenSize junk ↔
      readBack jwtMaxIssLen claims.iss = claims.iss ∧
      readBack jwtMaxSubLen claims.sub = claims.sub ∧
      readBack jwtMaxAudLen claims.aud = claims.aud ∧
      readBack 64 claims.jti = claims.jti ∧ readBack 256 claims.scope = claims.scope := by
  have hencode := jwtEncode_eq hmac halg secret hpayload htoken
  have hdecode := jwtDecode_tokenText hmac halg secret hpayload hclaims junk
  rw [parseClaims_buildClaimsJson hclaims] at hdecode
  constructor
  · rintro ⟨token, htext, hclaimsBack⟩
    rw [hencode, Except.ok.injEq] at htext
    rw [← htext, hdecode, Except.ok.injEq] at hclaimsBack
    have hfields := JwtClaims.mk.inj hclaimsBack
    exact ⟨hfields.1, hfields.2.1, hfields.2.2.1, hfields.2.2.2.2.2.2.1,
      hfields.2.2.2.2.2.2.2⟩
  · rintro ⟨hiss, hsub, haud, hjti, hscope⟩
    refine ⟨_, hencode, ?_⟩
    rw [hdecode, hiss, hsub, haud, hjti, hscope]

/-- Exactly which claims survive encoding and decoding. -/
theorem claims_roundTrip_iff (hmac : Hmac) {alg : JwtAlgorithm} (halg : alg ≠ .none)
    (secret : Option (List UInt8)) {claims : JwtClaims} (hclaims : WellFormed claims)
    (hpayload : (payloadText claims).length < jwtMaxPayloadLen) {tokenSize : Nat}
    (htoken : (tokenText hmac (jwtEngineInit hmac alg secret).key.secret alg claims).length <
      tokenSize) (junk : StackJunk) :
    RoundTrips (jwtEngineInit hmac alg secret) claims tokenSize junk ↔
      Recovered jwtMaxIssLen claims.iss ∧ Recovered jwtMaxSubLen claims.sub ∧
      Recovered jwtMaxAudLen claims.aud ∧ Recovered 64 claims.jti ∧
      Recovered 256 claims.scope := by
  rw [roundTrips_iff_readBack hmac halg secret hclaims hpayload htoken junk,
    readBack_eq_iff hclaims.iss, readBack_eq_iff hclaims.sub, readBack_eq_iff hclaims.aud,
    readBack_eq_iff hclaims.jti, readBack_eq_iff hclaims.scope]

def aliceClaims : JwtClaims :=
  { iss := lit "auth", sub := lit "alice", aud := lit "api", exp := 3600, iat := 0, nbf := 0,
    jti := lit "1", scope := lit "read" }

/-- The HMAC-SHA256 of the header and the claims of `aliceClaims` under the key `secret`. -/
def aliceHmac : Hmac := fun _ _ =>
  ⟨[222, 47, 101, 66, 239, 150, 60, 76, 99, 72, 145, 3, 153, 156, 171, 254, 11, 187, 182, 101,
    26, 229, 127, 106, 240, 98, 23, 226, 78, 164, 86, 196], rfl⟩

theorem aliceClaims_wellFormed : WellFormed aliceClaims :=
  ⟨by decide, by decide, by decide, by decide, by decide, by decide, by decide, by decide⟩

theorem length_payloadText_alice : (payloadText aliceClaims).length < jwtMaxPayloadLen := by
  rw [payloadText, jwtBase64urlEncode_length]
  decide

theorem claims_roundTrip_iff_alice :
    RoundTrips (jwtEngineInit aliceHmac .hs256 (some (lit "secret"))) aliceClaims jwtMaxTokenLen
        ⟨fun _ => 0, fun _ => 0⟩ ↔
      Recovered jwtMaxIssLen (lit "auth") ∧ Recovered jwtMaxSubLen (lit "alice") ∧
      Recovered jwtMaxAudLen (lit "api") ∧ Recovered 64 (lit "1") ∧
      Recovered 256 (lit "read") :=
  claims_roundTrip_iff aliceHmac (by decide) _ aliceClaims_wellFormed length_payloadText_alice
    (length_tokenText_lt aliceHmac (by decide) length_payloadText_alice _) _

def quotedClaims : JwtClaims := { aliceClaims with sub := lit "o\"neil" }

/-- The HMAC-SHA256 of the header and the claims of `quotedClaims` under the key `secret`. -/
def quotedHmac : Hmac := fun _ _ =>
  ⟨[118, 21, 35, 216, 114, 226, 13, 48, 104, 231, 105, 47, 192, 253, 219, 7, 82, 177, 95, 22,
    185, 69, 158, 224, 72, 13, 135, 71, 203, 143, 216, 14], rfl⟩

theorem quotedClaims_wellFormed : WellFormed quotedClaims :=
  { aliceClaims_wellFormed with sub := by decide }

theorem length_payloadText_quoted : (payloadText quotedClaims).length < jwtMaxPayloadLen := by
  rw [payloadText, jwtBase64urlEncode_length]
  decide

/-- The subject `o"neil` comes back as `o\`. -/
theorem quoted_subject_cut :
    WellFormed quotedClaims ∧ (payloadText quotedClaims).length < jwtMaxPayloadLen ∧
      ¬RoundTrips (jwtEngineInit quotedHmac .hs256 (some (lit "secret"))) quotedClaims
        jwtMaxTokenLen ⟨fun _ => 0, fun _ => 0⟩ := by
  refine ⟨quotedClaims_wellFormed, length_payloadText_quoted, ?_⟩
  rw [roundTrips_iff_readBack quotedHmac (by decide) _ quotedClaims_wellFormed
    length_payloadText_quoted (length_tokenText_lt quotedHmac (by decide)
      length_payloadText_quoted _)]
  rintro ⟨-, hsub, -⟩
  have hread : readBack jwtMaxSubLen quotedClaims.sub = lit "o\\" := by decide
  rw [hread] at hsub
  exact absurd hsub (by decide)

end MiniBackend.Auth.Proofs.ClaimsRoundTrip
