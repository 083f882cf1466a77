import MiniBackend.Auth.Proofs.ClaimsRoundTrip

/-!
# What the encoder writes

The size of the destination is a parameter that `jwt_base64url_encode` ignores.  A payload grows
by a third, so the array that holds it as JSON is too small for its encoding from 1536 bytes on,
and claims with enough quotes in them are that long.
-/

namespace MiniBackend.Auth.Proofs.EncodeBounds

open MiniBackend.Lib.CString MiniBackend.Lib.FlatObject
open MiniBackend.Auth.JwtAuth MiniBackend.Auth.Proofs.ClaimsRoundTrip

/-! ## Indices -/

theorem encodeLoopWrites_end (left j : Nat) :
    (encodeLoopWrites left j).2 = j + 4 * ((left + 2) / 3) := by
  induction left, j using encodeLoopWrites.induct with
  | case1 j =>
      rw [encodeLoopWrites, if_pos rfl]
      omega
  | case2 left j hleft writes j' hrest ih =>
      rw [hrest] at ih
      rw [encodeLoopWrites, if_neg hleft, hrest]
      dsimp only at ih ⊢
      omega

theorem mem_encodeLoopWrites {left j i : Nat} :
    i ∈ (encodeLoopWrites left j).1 ↔ j ≤ i ∧ i < j + 4 * ((left + 2) / 3) := by
  induction left, j using encodeLoopWrites.induct with
  | case1 j =>
      rw [encodeLoopWrites, if_pos rfl]
      simp only [List.not_mem_nil, false_iff]
      omega
  | case2 left j hleft writes j' hrest ih =>
      rw [hrest] at ih
      rw [encodeLoopWrites, if_neg hleft, hrest]
      simp only [List.mem_cons, ih]
      omega

/-- An array of `4 * m` characters is large enough for less than `3 * m` bytes. -/
theorem base64urlWrites_lt_iff {n m : Nat} :
    (∀ i ∈ jwtBase64urlWrites n, i < 4 * m) ↔ n < 3 * m := by
  have hpad : (3 - n % 3) % 3 ≤ 4 * ((n + 2) / 3) := by omega
  have hwrites : ∀ i, i ∈ jwtBase64urlWrites n ↔
      i < 4 * ((n + 2) / 3) ∨ i = 4 * ((n + 2) / 3) - (3 - n % 3) % 3 := by
    intro i
    simp only [jwtBase64urlWrites, encodeLoopWrites_end, List.mem_append, mem_encodeLoopWrites,
      List.mem_singleton, Nat.zero_add, sizeSub_of_le hpad, Nat.zero_le, true_and]
  simp only [hwrites]
  constructor
  · intro h
    have hend := h _ (Or.inr rfl)
    by_cases hzero : n = 0
    · omega
    · have hlast := h (4 * ((n + 2) / 3) - 1) (Or.inl (by omega))
      omega
  · rintro hn i (hi | rfl) <;> omega

/-! ## Lengths -/

theorem jsonEscapeStr_length {dstSize : Nat} (s : CStr) {j : Nat} (hj : j < dstSize) :
    j + (jsonEscapeStr dstSize s j).length < dstSize := by
  induction s generalizing j with
  | nil => exact hj
  | cons b s ih =>
      rw [jsonEscapeStr]
      split
      · split
        · have hrest := ih (j := j + 2) (by omega)
          rw [List.length_cons, List.length_cons]
          omega
        · have hrest := ih (j := j + 1) (by omega)
          rw [List.length_cons]
          omega
      · exact hj

theorem jsonEscapeWrites_lt {dstSize : Nat} (hsize : 0 < dstSize) (s : CStr) {i : Nat}
    (hi : i ∈ jsonEscapeWrites dstSize s) : i < dstSize := by
  have hlength := jsonEscapeStr_length s hsize
  rw [jsonEscapeWrites, List.mem_range] at hi
  omega

def escapedLength (s : CStr) : Nat := s.length + s.countP fun b => b = 34 ∨ b = 92

/-- The length of the claims as JSON. -/
def payloadLength (claims : JwtClaims) : Nat :=
  69 + escapedLength claims.iss + escapedLength claims.sub + escapedLength claims.aud +
    escapedLength claims.jti + escapedLength claims.scope +
    (decimalInt claims.exp).length + (decimalInt claims.iat).length +
    (decimalInt claims.nbf).length

theorem length_escape (s : CStr) : (escape s).length = escapedLength s := by
  induction s with
  | nil => rfl
  | cons b s ih =>
      unfold escapedLength at ih ⊢
      by_cases hb : b = 34 ∨ b = 92
      · rw [escape_cons_special hb, List.countP_cons_of_pos (by simpa using hb)]
        simp only [List.length_cons, ih]
        omega
      · rw [escape_cons_plain hb, List.countP_cons_of_neg (by simpa using hb)]
        simp only [List.length_cons, ih]
        omega

theorem escapedLength_le {size : Nat} {s : CStr} (hs : Terminated size s) :
    escapedLength s ≤ 2 * (size - 1) := by
  have hcount := List.countP_le_length (p := fun b : UInt8 => b = 34 ∨ b = 92) (l := s)
  have hlength := hs.1
  unfold escapedLength
  omega

theorem length_buildClaimsJson {claims : JwtClaims} (hclaims : WellFormed claims) :
    (buildClaimsJson claims).length = payloadLength claims := by
  have hescape {size : Nat} {s : CStr} (hs : Terminated size s) :
      (jsonEscapeStr (size * 2) s 0).length = escapedLength s := by
    have hlength := hs.1
    rw [jsonEscapeStr_eq (by omega), length_escape]
  have hjti : (jsonEscapeStr 128 claims.jti 0).length = escapedLength claims.jti :=
    hescape hclaims.jti
  have hscope : (jsonEscapeStr 512 claims.scope 0).length = escapedLength claims.scope :=
    hescape hclaims.scope
  have htexts : (lit "\x7b\"iss\":\"").length + (lit "\",\"sub\":\"").length +
      (lit "\",\"aud\":\"").length + (lit "\",\"exp\":").length + (lit ",\"iat\":").length +
      (lit ",\"nbf\":").length + (lit ",\"jti\":\"").length + (lit "\",\"scope\":\"").length +
      (lit "\"\x7d").length = 69 := by decide
  unfold buildClaimsJson payloadLength
  simp only [List.length_append, hescape hclaims.iss, hescape hclaims.sub, hescape hclaims.aud,
    hjti, hscope]
  omega

theorem decimalInt_length_le {z : Int} (hz : IsInt64 z) : (decimalInt z).length ≤ 20 := by
  have hbound := hz
  unfold IsInt64 at hbound
  exact length_decimalInt_le (k := 19) (by omega) (by omega)

theorem payloadLength_le {claims : JwtClaims} (hclaims : WellFormed claims) :
    payloadLength claims ≤ 1783 := by
  have hiss := escapedLength_le hclaims.iss
  have hsub := escapedLength_le hclaims.sub
  have haud := escapedLength_le hclaims.aud
  have hjti := escapedLength_le hclaims.jti
  have hscope := escapedLength_le hclaims.scope
  have hexp := decimalInt_length_le hclaims.exp
  have hiat := decimalInt_length_le hclaims.iat
  have hnbf := decimalInt_length_le hclaims.nbf
  unfold jwtMaxIssLen at hiss
  unfold jwtMaxSubLen at hsub
  unfold jwtMaxAudLen at haud
  unfold payloadLength
  omega

/-! ## The bounds -/

/-- Everything that `jwt_encode` writes lies in the array it is written to, and the payload is
read up to its terminator at most. -/
structure StaysInside (eng : JwtEngine) (claims : JwtClaims) : Prop where
  header : ∀ i ∈ (jwtEncodeWrites eng claims).1, i < jwtMaxHeaderLen
  payload : ∀ i ∈ (jwtEncodeWrites eng claims).2.1, i < jwtMaxPayloadLen
  signature : ∀ i ∈ (jwtEncodeWrites eng claims).2.2, i < 256
  read : (buildClaimsJson claims).length ≤
    (snprintf (buildClaimsJson claims) jwtMaxPayloadLen).length + 1
  escIss : ∀ i ∈ jsonEscapeWrites (jwtMaxIssLen * 2) claims.iss, i < jwtMaxIssLen * 2
  escSub : ∀ i ∈ jsonEscapeWrites (jwtMaxSubLen * 2) claims.sub, i < jwtMaxSubLen * 2
  escAud : ∀ i ∈ jsonEscapeWrites (jwtMaxAudLen * 2) claims.aud, i < jwtMaxAudLen * 2
  escJti : ∀ i ∈ jsonEscapeWrites 128 claims.jti, i < 128
  escScope : ∀ i ∈ jsonEscapeWrites 512 claims.scope, i < 512

theorem header_lt (alg : JwtAlgorithm) :
    (lit "\x7b\"alg\":\"" ++ jwtAlgName alg ++ lit "\",\"typ\":\"JWT\"\x7d").length < 192 := by
  cases alg <;> decide

theorem staysInside_iff (eng : JwtEngine) {claims : JwtClaims} (hclaims : WellFormed claims) :
    StaysInside eng claims ↔
      payloadLength claims ≤ 1535 ∧ (jwtEncodeSig eng claims).length ≤ 191 := by
  have hlength := length_buildClaimsJson hclaims
  have hbound := payloadLength_le hclaims
  have hpayload : (∀ i ∈ (jwtEncodeWrites eng claims).2.1, i < jwtMaxPayloadLen) ↔
      payloadLength claims < 3 * 512 := by
    rw [← hlength]
    exact base64urlWrites_lt_iff (m := 512)
  have hsig : (∀ i ∈ (jwtEncodeWrites eng claims).2.2, i < 256) ↔
      (jwtEncodeSig eng claims).length < 3 * 64 :=
    base64urlWrites_lt_iff (m := 64)
  constructor
  · intro h
    have hpl := hpayload.mp h.payload
    have hsl := hsig.mp h.signature
    omega
  · rintro ⟨hpl, hsl⟩
    refine ⟨(base64urlWrites_lt_iff (m := 64)).mpr (header_lt eng.key.algorithm),
      hpayload.mpr (by omega), hsig.mpr (by omega), ?_, ?_, ?_, ?_, ?_, ?_⟩
    · rw [snprintf_of_lt (by unfold jwtMaxPayloadLen; omega)]
      omega
    all_goals exact fun i => jsonEscapeWrites_lt (by decide) _

theorem staysInside_iff_alice :
    StaysInside (jwtEngineInit aliceHmac .hs256 (some (lit "secret"))) aliceClaims ↔
      payloadLength aliceClaims ≤ 1535 ∧
      (jwtEncodeSig (jwtEngineInit aliceHmac .hs256 (some (lit "secret"))) aliceClaims).length ≤
        191 :=
  staysInside_iff _ aliceClaims_wellFormed

def longClaims : JwtClaims :=
  { iss := List.replicate 127 34, sub := List.replicate 127 34, aud := List.replicate 255 34,
    exp := 3600, iat := 0, nbf := 0, jti := [], scope := List.replicate 255 34 }

theorem longClaims_wellFormed : WellFormed longClaims :=
  ⟨by decide +kernel, by decide +kernel, by decide +kernel, by decide, by decide, by decide,
    by decide, by decide +kernel⟩

/-- 1603 bytes of JSON become 2138 characters. -/
theorem long_claims_overrun :
    WellFormed longClaims ∧ ¬StaysInside (jwtEngineInit aliceHmac .none none) longClaims := by
  refine ⟨longClaims_wellFormed, fun h => ?_⟩
  have hlength : (buildClaimsJson longClaims).length = 1603 := by
    rw [length_buildClaimsJson longClaims_wellFormed]
    decide +kernel
  have hfits := (base64urlWrites_lt_iff (m := 512)).mp h.payload
  omega

end MiniBackend.Auth.Proofs.EncodeBounds
