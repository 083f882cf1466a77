import MiniBackend.Auth.JwtAuth

/-!
# Which tokens the JWT engine accepts

A token is authentic when its third segment decodes to the HMAC of the first
two.  The engine checks exactly that for every token that has a third segment;
a token of exactly two segments never reaches the comparison and is accepted.

Segments are the non-empty pieces between dots, as the tokenizer sees them.
-/

namespace MiniBackend.Auth.Proofs.JwtAuthenticity

open MiniBackend.Lib.CString MiniBackend.Lib.Base64 MiniBackend.Auth.JwtAuth

/-- The non-empty pieces of a token between dots. -/
def segments (token : CStr) : List CStr := pieces isDot token

def base64urlBytes (segment : CStr) : Option (List UInt8) :=
  (decodeAll badQuad (quads decodeTable 0 segment)).map fun out =>
    out.take (out.length - (4 - segment.length % 4) % 4)

theorem jwtEngineInit_verifyFunc (hmac : Hmac) {alg : JwtAlgorithm} (halg : alg ≠ .none)
    (secret : Option (List UInt8)) :
    ∃ verify, (jwtEngineInit hmac alg secret).verifyFunc = some verify ∧
      ∀ data key sig sigLen, verify data key sig sigLen ≠ 0 ↔
        sigLen = 32 ∧ (hmac key.secret data).val = sig.take sigLen := by
  have hverify : ∀ data key sig sigLen, jwtHs256Verify hmac data key sig sigLen ≠ 0 ↔
      sigLen = 32 ∧ (hmac key.secret data).val = sig.take sigLen := by
    intro data key sig sigLen
    have hlen := (hmac key.secret data).property
    simp only [jwtHs256Verify, hlen]
    split
    · rename_i h
      simp [Ne.symm h]
    · rename_i h
      have h32 : sigLen = 32 := by omega
      split <;> simp_all
  cases alg with
  | none => exact absurd rfl halg
  | hs256 | hs384 | hs512 => exact ⟨jwtHs256Verify hmac, rfl, hverify⟩
  | rs256 | rs384 | rs512 => exact ⟨jwtRs256VerifySim hmac, rfl, hverify⟩

theorem decode_eq_digest_iff (segment : CStr) (junk : Nat → UInt8) (digest : List UInt8)
    (hdigest : digest.length = 32) :
    ((jwtBase64urlDecode segment 128).len = 32 ∧
      digest = (bufferBytes (jwtBase64urlDecode segment 128).written junk
        (jwtBase64urlDecode segment 128).len).take (jwtBase64urlDecode segment 128).len) ↔
      base64urlBytes segment = some digest := by
  unfold base64urlBytes
  cases hall : decodeAll badQuad (quads decodeTable 0 segment) with
  | none =>
      -- a rejected group leaves the length at the capacity, which is not 32
      have hlen : (jwtBase64urlDecode segment 128).len = 128 :=
        (decodeInto_of_decodeAll_none 128 _ hall).2
      simp [hlen]
  | some out =>
      have hdecode := decodeInto_of_decodeAll 128 ((4 - segment.length % 4) % 4) hall
      have hout : out.length = 3 * ((segment.length + 3) / 4) := by
        unfold decodeAll at hall
        split at hall
        · cases hall
        · rw [← Option.some.inj hall, length_flatMap_bytes, length_quads]
      have hlen : (jwtBase64urlDecode segment 128).len =
          min 128 out.length - (4 - segment.length % 4) % 4 := by
        rw [jwtBase64urlDecode, hdecode]
        exact sizeSub_of_le (by omega)
      have hwritten : (jwtBase64urlDecode segment 128).written = out.take 128 := by
        rw [jwtBase64urlDecode, hdecode]
      rw [hlen, hwritten, Option.map_some, Option.some.injEq]
      by_cases hshort : out.length ≤ 128
      · rw [Nat.min_eq_right hshort, List.take_of_length_le hshort,
          bufferBytes_of_le _ (Nat.sub_le _ _), List.take_take, Nat.min_self]
        constructor
        · rintro ⟨-, h⟩
          exact h.symm
        · intro h
          refine ⟨?_, h.symm⟩
          rw [← hdigest, ← h, List.length_take]
          omega
      · constructor
        · rintro ⟨h, -⟩
          omega
        · intro h
          rw [← h, List.length_take] at hdigest
          omega

@[simp] theorem signatureAccepted_none (eng : JwtEngine) (input : CStr) (junk : StackJunk) :
    signatureAccepted eng input none junk = true := by
  unfold signatureAccepted
  cases eng.verifyFunc <;> rfl

theorem signatureAccepted_iff (hmac : Hmac) {alg : JwtAlgorithm} (halg : alg ≠ .none)
    (secret : Option (List UInt8)) (input signature : CStr) (junk : StackJunk) :
    signatureAccepted (jwtEngineInit hmac alg secret) input (some signature) junk = true ↔
      base64urlBytes signature =
        some (hmac (jwtEngineInit hmac alg secret).key.secret input).val := by
  obtain ⟨verify, hfunc, hverify⟩ := jwtEngineInit_verifyFunc hmac halg secret
  simp only [signatureAccepted, hfunc, ne_eq, decide_eq_true_eq]
  rw [← ne_eq, hverify]
  exact decode_eq_digest_iff signature junk.providedSig _
    (hmac (jwtEngineInit hmac alg secret).key.secret input).property

/-! ## `jwt_decode` in terms of segments -/

def payloadBytes (payload : CStr) (junk : StackJunk) : List UInt8 :=
  bufferBytes (jwtBase64urlDecode payload jwtMaxPayloadLen).written junk.payloadJson
    (jwtBase64urlDecode payload jwtMaxPayloadLen).len

theorem jwtDecode_of_segments (eng : JwtEngine) {token header payload : CStr} {rest : List CStr}
    (junk : StackJunk) (hshort : token.length < jwtMaxTokenLen)
    (hseg : segments token = header :: payload :: rest) :
    jwtDecode eng token junk =
      if signatureAccepted eng (header ++ lit "." ++ payload) rest.head? junk then
        .ok (parseClaims (ofBuffer (payloadBytes payload junk)))
      else .error (-3) := by
  have hcopy : strncpy token (jwtMaxTokenLen - 1) = token := strncpy_of_le (by omega)
  have hheader := strtok_fst isDot token
  have hpayload := strtok_snd isDot token
  have hsignature := strtok_thd isDot token
  have hfits : (header ++ lit "." ++ payload).length < jwtMaxTokenLen := by
    have := length_add_length_lt_of_pieces hseg
    have hdot : (lit ".").length = 1 := rfl
    simp only [List.length_append, hdot]
    omega
  have hthird : (header :: payload :: rest)[2]? = rest.head? := by
    simp [List.head?_eq_getElem?]
  rw [segments] at hseg
  rw [jwtDecode, if_neg (by omega), hcopy]
  simp only [hheader, hpayload, hsignature, hseg, List.getElem?_cons_zero,
    List.getElem?_cons_succ, hthird, snprintf_of_lt hfits]
  rfl

end MiniBackend.Auth.Proofs.JwtAuthenticity
