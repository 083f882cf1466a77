import MiniBackend.Auth.CryptoUtils

/-!
# The stored form of a password hash

`crypto_base64_decode` reads the missing characters of an incomplete last group
as `-1`, whose conversion to an unsigned word sets every bit of the group.  A
byte string therefore survives encoding and decoding exactly when it has no
incomplete group, or when the bytes of that group are all `0xFF` and the output
buffer has room for the whole group.

Salt and hash have 32 bytes, two more than full groups, and are decoded into
buffers of 32 bytes: their stored form always reads back one byte short.
-/

namespace MiniBackend.Auth.Proofs.PasswordStorage

open MiniBackend.Lib.CString MiniBackend.Lib.Base64 MiniBackend.Auth.CryptoUtils

/-- Encoding `b` into a buffer of `dstSize` and decoding into one of `cap` bytes
gives `b` back. -/
def RoundTrips (b : List UInt8) (dstSize cap : Nat) : Prop :=
  ∃ text, cryptoBase64Encode b dstSize = .ok text ∧
    (cryptoBase64Decode text cap).rc = 0 ∧
    (cryptoBase64Decode text cap).len = b.length ∧
    (cryptoBase64Decode text cap).written.take (cryptoBase64Decode text cap).len = b

/-- The record parsed from the stored form is the one that was written, and the
password verifies against it. -/
def SurvivesStorage (pbkdf2 : Pbkdf2Hmac) (config : CryptoKdfConfig) (password : CStr)
    (ph : CryptoPasswordHash) (saltJunk hashJunk : Nat → UInt8) : Prop :=
  ∃ parsed, cryptoParseMcf ph.storageString saltJunk hashJunk = .ok parsed ∧
    parsed.iterations = ph.iterations ∧
    parsed.salt = ph.salt ∧ parsed.saltLen = ph.saltLen ∧
    parsed.hash = ph.hash ∧ parsed.hashLen = ph.hashLen ∧
    cryptoVerifyPassword pbkdf2 config password parsed = 1

/-! ## The alphabet -/

theorem b64Std_nodup : b64Std.Nodup := by decide +kernel

theorem b64Std_length : b64Std.length = 64 := by decide

theorem ne_of_mem_b64Std {x : UInt8} (hx : x ∈ b64Std) : x ≠ 61 ∧ x ≠ 36 := by
  have hall : b64Std.all fun x => x ≠ 61 ∧ x ≠ 36 := by decide
  exact of_decide_eq_true (List.all_eq_true.mp hall x hx)

theorem dec_nonneg {x : UInt8} (hx : x ∈ b64Std) : 0 ≤ dec x := by
  have hall : b64Std.all fun x => 0 ≤ dec x := by decide +kernel
  exact of_decide_eq_true (List.all_eq_true.mp hall x hx)

/-! ## What the encoder writes -/

def tailBody : List UInt8 → List UInt8
  | [a] => (encodeGroup b64Std a 0 0).take 2
  | [a, b] => (encodeGroup b64Std a b 0).take 3
  | _ => []

def padCount (tail : List UInt8) : Nat := (3 - tail.length) % 3

def bodyText (full tail : List UInt8) : CStr := encodeGroups b64Std full ++ tailBody tail

theorem mem_bodyText {full tail : List UInt8} {x : UInt8} (hx : x ∈ bodyText full tail) :
    x ∈ b64Std := by
  rcases List.mem_append.mp hx with hx | hx
  · exact mem_encodeGroups b64Std_length hx
  · unfold tailBody at hx
    split at hx
    · exact mem_encodeGroup b64Std_length (List.mem_of_mem_take hx)
    · exact mem_encodeGroup b64Std_length (List.mem_of_mem_take hx)
    · simp at hx

theorem base64EncodeLoop_eq {dstSize : Nat} {src : List UInt8} {j : Nat}
    (hroom : j + 4 * ((src.length + 2) / 3) < dstSize) :
    base64EncodeLoop dstSize src j = some (encodeGroups b64Std src) := by
  fun_induction base64EncodeLoop dstSize src j with
  | case1 => rfl
  | case2 j a h | case4 j a b h => simp at hroom; omega
  | case3 | case5 => rfl
  | case6 a b c rest j h => simp at hroom; omega
  | case7 a b c rest j h ih =>
      simp only [List.length_cons] at hroom
      rw [ih (by omega)]
      rfl

theorem take_append_encodeGroup (xs : List UInt8) (a b c : UInt8) {k : Nat} (hk : k ≤ 4) :
    (xs ++ encodeGroup b64Std a b c).take ((xs ++ encodeGroup b64Std a b c).length - k) =
      xs ++ (encodeGroup b64Std a b c).take (4 - k) := by
  rw [List.length_append, length_encodeGroup, List.take_append,
    List.take_of_length_le (by omega)]
  congr 2
  omega

theorem cryptoBase64Encode_eq {full tail : List UInt8} (hfull : full.length % 3 = 0)
    (htail : tail.length < 3) {dstSize : Nat} (hfour : 4 ≤ dstSize)
    (hroom : 4 * (((full ++ tail).length + 2) / 3) < dstSize) :
    cryptoBase64Encode (full ++ tail) dstSize =
      .ok (bodyText full tail ++ List.replicate (padCount tail) 61) := by
  have hloop : base64EncodeLoop dstSize (full ++ tail) 0 =
      some (encodeGroups b64Std full ++ encodeGroups b64Std tail) := by
    rw [base64EncodeLoop_eq (by omega), encodeGroups_append _ hfull]
  rw [cryptoBase64Encode, if_neg (by omega), hloop]
  rcases tail with _ | ⟨a, _ | ⟨b, _ | ⟨c, rest⟩⟩⟩
  · simp [bodyText, tailBody, padCount, encodeGroups, hfull]
  · have hone : (full ++ [a]).length % 3 = 1 := by
      rw [List.length_append, List.length_singleton]
      omega
    dsimp only
    rw [if_pos ⟨hone, by simp [encodeGroups]⟩, encodeGroups,
      take_append_encodeGroup _ _ _ _ (by omega)]
    rfl
  · have htwo : (full ++ [a, b]).length % 3 = 2 := by
      rw [List.length_append, List.length_cons, List.length_singleton]
      omega
    dsimp only
    rw [if_neg (by omega), if_pos ⟨htwo, by simp [encodeGroups]⟩, encodeGroups,
      take_append_encodeGroup _ _ _ _ (by omega)]
    rfl
  · simp only [List.length_cons] at htail
    omega

/-! ## What the decoder reads back -/

theorem rdropWhile_padding {body : CStr} (hbody : ∀ x ∈ body, x ≠ 61) (k : Nat) :
    (body ++ List.replicate k 61).rdropWhile (· = 61) = body := by
  induction k with
  | zero =>
      rw [List.replicate_zero, List.append_nil, List.rdropWhile_eq_self_iff]
      intro hne
      simpa using hbody _ (List.getLast_mem hne)
  | succ k ih =>
      rw [List.replicate_succ', ← List.append_assoc, List.rdropWhile_concat_pos _ _ _ (by simp),
        ih]

def readTail (tail : List UInt8) : List UInt8 :=
  if tail = [] then [] else [255, 255, 255]

theorem quads_two {c0 c1 : UInt8} (h0 : c0 ∈ b64Std) (h1 : c1 ∈ b64Std) :
    (quads dec (-1) [c0, c1]).any badQuad = false ∧
      (quads dec (-1) [c0, c1]).flatMap Quad.bytes = [255, 255, 255] := by
  have hv0 := dec_nonneg h0
  have hv1 := dec_nonneg h1
  refine ⟨?_, ?_⟩
  · simp [quads, badQuad, Int.not_lt.mpr hv0, Int.not_lt.mpr hv1]
  · rw [quads, List.flatMap_singleton, bytes_of_minus_one]

theorem quads_three {c0 c1 c2 : UInt8} (h0 : c0 ∈ b64Std) (h1 : c1 ∈ b64Std)
    (h2 : c2 ∈ b64Std) :
    (quads dec (-1) [c0, c1, c2]).any badQuad = false ∧
      (quads dec (-1) [c0, c1, c2]).flatMap Quad.bytes = [255, 255, 255] := by
  have hv0 := dec_nonneg h0
  have hv1 := dec_nonneg h1
  have hv2 : ¬dec c2 < -1 := by
    have := dec_nonneg h2
    omega
  refine ⟨?_, ?_⟩
  · simp [quads, badQuad, Int.not_lt.mpr hv0, Int.not_lt.mpr hv1, hv2]
  · rw [quads, List.flatMap_singleton, bytes_of_minus_one]

theorem quads_tailBody {tail : List UInt8} (htail : tail.length < 3) :
    (quads dec (-1) (tailBody tail)).any badQuad = false ∧
      (quads dec (-1) (tailBody tail)).flatMap Quad.bytes = readTail tail := by
  have hmem (a b c : UInt8) : ∀ x ∈ encodeGroup b64Std a b c, x ∈ b64Std :=
    fun _ hx => mem_encodeGroup b64Std_length hx
  rcases tail with _ | ⟨a, _ | ⟨b, _ | ⟨c, rest⟩⟩⟩
  · exact ⟨rfl, rfl⟩
  · have h := hmem a 0 0
    simp only [encodeGroup, List.map_cons, List.map_nil, List.forall_mem_cons] at h
    exact quads_two h.1 h.2.1
  · have h := hmem a b 0
    simp only [encodeGroup, List.map_cons, List.map_nil, List.forall_mem_cons] at h
    exact quads_three h.1 h.2.1 h.2.2.1
  · simp only [List.length_cons] at htail
    omega

theorem not_badQuad_groupQuads (full : List UInt8) :
    (groupQuads full).any badQuad = false := by
  apply any_groupQuads
  intro q h0 h1 h2 h3
  simp only [badQuad, Bool.or_eq_false_iff, decide_eq_false_iff_not]
  omega

/-- The decoder's view of an encoded byte string: the full groups are right, the
incomplete one reads as ones. -/
theorem cryptoBase64Decode_eq {full tail : List UInt8} (hfull : full.length % 3 = 0)
    (htail : tail.length < 3) (cap : Nat) :
    cryptoBase64Decode (bodyText full tail ++ List.replicate (padCount tail) 61) cap =
      { rc := 0, written := (full ++ readTail tail).take cap,
        len := sizeSub (min cap (full ++ readTail tail).length) (padCount tail) } := by
  have hbody : (bodyText full tail ++ List.replicate (padCount tail) 61).rdropWhile (· = 61) =
      bodyText full tail :=
    rdropWhile_padding (fun x hx => (ne_of_mem_b64Std (mem_bodyText hx)).1) _
  have hquads : quads dec (-1) (bodyText full tail) =
      groupQuads full ++ quads dec (-1) (tailBody tail) :=
    quads_encodeGroups_append b64Std_nodup b64Std_length _ _ hfull _
  obtain ⟨hok, hbytes⟩ := quads_tailBody htail
  have hall : decodeAll badQuad (quads dec (-1) (bodyText full tail)) =
      some (full ++ readTail tail) := by
    rw [decodeAll, hquads, List.any_append, not_badQuad_groupQuads, hok, List.flatMap_append,
      flatMap_bytes_groupQuads hfull, hbytes]
    rfl
  simp only [cryptoBase64Decode, hbody, List.length_append, List.length_replicate,
    Nat.add_sub_cancel_left]
  rw [decodeInto_of_decodeAll cap _ hall, List.length_append]

/-! ## Round trips -/

/-- The part of a byte string behind its full groups. -/
def lastBytes (b : List UInt8) : List UInt8 := b.drop (3 * (b.length / 3))

theorem length_readTail {tail : List UInt8} (hne : tail ≠ []) :
    (readTail tail).length = 3 := by
  rw [readTail, if_neg hne]
  rfl

/-- What the decoder reports for an incomplete group is one or two bytes short
unless the whole group fits. -/
theorem decodedLen_eq_iff {full tail : List UInt8} (hpos : 0 < tail.length)
    (htail : tail.length < 3) {cap : Nat} (hcap : full.length + tail.length ≤ cap) :
    sizeSub (min cap (full ++ readTail tail).length) (padCount tail) =
      full.length + tail.length ↔ full.length + 3 ≤ cap := by
  rw [List.length_append, length_readTail (List.length_pos_iff.mp hpos), padCount, sizeSub]
  split <;> omega

theorem take_readTail {full tail : List UInt8} (htail : tail.length < 3) {cap : Nat}
    (hcap : full.length + 3 ≤ cap) (hpos : 0 < tail.length) :
    ((full ++ readTail tail).take cap).take (full.length + tail.length) =
      full ++ List.replicate tail.length 255 := by
  have hne : tail ≠ [] := List.length_pos_iff.mp hpos
  have hones : readTail tail = List.replicate 3 255 := by
    rw [readTail, if_neg hne]
    rfl
  have hlen : (full ++ readTail tail).length ≤ cap := by
    rw [List.length_append, length_readTail hne]
    exact hcap
  rw [List.take_of_length_le hlen, List.take_length_add_append, hones, List.take_replicate,
    Nat.min_eq_left (by omega)]

theorem roundTrips_append_iff {full tail : List UInt8} (hfull : full.length % 3 = 0)
    (htail : tail.length < 3) {dstSize cap : Nat} (hfour : 4 ≤ dstSize)
    (hroom : 4 * (((full ++ tail).length + 2) / 3) < dstSize)
    (hcap : (full ++ tail).length ≤ cap) :
    RoundTrips (full ++ tail) dstSize cap ↔
      tail = [] ∨ full.length + 3 ≤ cap ∧ tail = List.replicate tail.length 255 := by
  have hencode := cryptoBase64Encode_eq hfull htail hfour hroom
  have hdecode := cryptoBase64Decode_eq hfull htail cap
  rw [List.length_append] at hcap
  have hiff : RoundTrips (full ++ tail) dstSize cap ↔
      sizeSub (min cap (full ++ readTail tail).length) (padCount tail) =
          full.length + tail.length ∧
        ((full ++ readTail tail).take cap).take (full.length + tail.length) = full ++ tail := by
    unfold RoundTrips
    rw [List.length_append]
    constructor
    · rintro ⟨text, htext, -, hlen, hbytes⟩
      rw [hencode, Except.ok.injEq] at htext
      subst htext
      rw [hdecode] at hlen hbytes
      exact ⟨hlen, by rw [hlen] at hbytes; exact hbytes⟩
    · rintro ⟨hlen, hbytes⟩
      exact ⟨_, hencode, by rw [hdecode], by rw [hdecode]; exact hlen,
        by rw [hdecode]; simp only [hlen]; exact hbytes⟩
  rw [hiff]
  by_cases hnil : tail = []
  · subst hnil
    have hread : full ++ readTail [] = full := by rw [readTail, if_pos rfl, List.append_nil]
    rw [List.length_nil, Nat.add_zero] at hcap
    rw [hread, List.append_nil, List.length_nil, Nat.add_zero, Nat.min_eq_right hcap,
      List.take_of_length_le hcap, List.take_length]
    exact iff_of_true ⟨sizeSub_of_le (Nat.zero_le _), rfl⟩ (.inl rfl)
  · have hpos : 0 < tail.length := List.length_pos_iff.mpr hnil
    rw [decodedLen_eq_iff hpos htail hcap]
    constructor
    · rintro ⟨hfit, hbytes⟩
      rw [take_readTail htail hfit hpos, List.append_cancel_left_eq] at hbytes
      exact .inr ⟨hfit, hbytes.symm⟩
    · rintro (h | ⟨hfit, hones⟩)
      · exact absurd h hnil
      · refine ⟨hfit, ?_⟩
        rw [take_readTail htail hfit hpos, ← hones]

theorem roundTrips_iff {b : List UInt8} {dstSize cap : Nat}
    (hroom : 4 * ((b.length + 2) / 3) < dstSize) (hcap : b.length ≤ cap) :
    RoundTrips b dstSize cap ↔ 4 ≤ dstSize ∧
      (b.length % 3 = 0 ∨ 3 * ((b.length + 2) / 3) ≤ cap ∧
        lastBytes b = List.replicate (b.length % 3) 255) := by
  by_cases hfour : 4 ≤ dstSize
  · have hsplit : b.take (3 * (b.length / 3)) ++ lastBytes b = b := List.take_append_drop _ _
    have hfull : (b.take (3 * (b.length / 3))).length = 3 * (b.length / 3) := by
      rw [List.length_take]
      omega
    have htail : (lastBytes b).length = b.length % 3 := by
      rw [lastBytes, List.length_drop]
      omega
    have hthird : (b.take (3 * (b.length / 3))).length % 3 = 0 := by omega
    have hlast : (lastBytes b).length < 3 := by omega
    rw [← hsplit] at hroom hcap
    have h := roundTrips_append_iff hthird hlast hfour hroom hcap
    rw [hsplit, htail, hfull, ← List.length_eq_zero_iff, htail] at h
    rw [h]
    constructor
    · rintro (hz | ⟨hfit, hones⟩)
      · exact ⟨hfour, .inl hz⟩
      · exact ⟨hfour, .inr ⟨by omega, hones⟩⟩
    · rintro ⟨-, hz | ⟨hfit, hones⟩⟩
      · exact .inl hz
      · by_cases hz : b.length % 3 = 0
        · exact .inl hz
        · exact .inr ⟨by omega, hones⟩
  · refine iff_of_false ?_ (fun h => hfour h.1)
    rintro ⟨text, htext, -⟩
    rw [cryptoBase64Encode, if_pos (by omega)] at htext
    cases htext

/-! ## The modular crypt format -/

def fieldText (bytes : List UInt8) : CStr :=
  bodyText (bytes.take 30) (bytes.drop 30) ++ List.replicate (padCount (bytes.drop 30)) 61

theorem encodedField_eq {bytes : List UInt8} (hlen : bytes.length = 32) :
    encodedField bytes = fieldText bytes := by
  have hsplit : bytes.take 30 ++ bytes.drop 30 = bytes := List.take_append_drop _ _
  have hthird : (bytes.take 30).length % 3 = 0 := by simp [hlen]
  have hlast : (bytes.drop 30).length < 3 := by simp [hlen]
  have hroom : 4 * (((bytes.take 30 ++ bytes.drop 30).length + 2) / 3) < cryptoMaxB64Len := by
    rw [hsplit, hlen]
    decide
  have hencode := cryptoBase64Encode_eq hthird hlast (by decide) hroom
  rw [hsplit] at hencode
  rw [encodedField, hencode, fieldText]

theorem fieldText_ne_nil {bytes : List UInt8} (hlen : bytes.length = 32) :
    fieldText bytes ≠ [] := by
  intro h
  have hbody : (bodyText (bytes.take 30) (bytes.drop 30)).length = 0 := by
    rw [fieldText, List.append_eq_nil_iff] at h
    rw [h.1, List.length_nil]
  rw [bodyText, List.length_append, length_encodeGroups, List.length_take, hlen] at hbody
  omega

theorem not_isDollar_of_mem_fieldText {bytes : List UInt8} {x : UInt8}
    (hx : x ∈ fieldText bytes) : isDollar x = false := by
  rcases List.mem_append.mp hx with hx | hx
  · simpa [isDollar] using (ne_of_mem_b64Std (mem_bodyText hx)).2
  · rw [List.eq_of_mem_replicate hx]
    decide

theorem length_fieldText {bytes : List UInt8} (hlen : bytes.length = 32) :
    (fieldText bytes).length = 44 := by
  have htail : (bytes.drop 30).length = 2 := by simp [hlen]
  obtain ⟨a, b, hab⟩ := List.length_eq_two.mp htail
  rw [fieldText, bodyText, List.length_append, List.length_append, length_encodeGroups,
    List.length_take, hlen, hab]
  rfl

theorem not_isDollar_of_isDigit {x : UInt8} (hx : isDigit x = true) : isDollar x = false := by
  have hne : x ≠ 36 := by
    rintro rfl
    exact absurd hx (by decide)
  simpa [isDollar] using hne

theorem pieces_storageText {salt hash : List UInt8} (hsalt : salt.length = 32)
    (hhash : hash.length = 32) (iterations : UInt32) :
    pieces isDollar ((storageText iterations salt hash).drop 1) =
      [lit "pbkdf2-sha256", decimal iterations.toNat, fieldText salt, fieldText hash] := by
  have htext : (storageText iterations salt hash).drop 1 =
      lit "pbkdf2-sha256" ++ 36 :: (decimal iterations.toNat ++ 36 :: (fieldText salt ++
        36 :: fieldText hash)) := by
    rw [storageText, encodedField_eq hsalt, encodedField_eq hhash]
    have hhead : lit "$pbkdf2-sha256$" = 36 :: (lit "pbkdf2-sha256" ++ [36]) := by decide
    have hdollar : lit "$" = [36] := by decide
    simp only [hhead, hdollar, List.append_assoc, List.cons_append, List.drop_succ_cons,
      List.drop_zero, List.nil_append]
  rw [htext, pieces_append (by decide +kernel) (by decide) (by decide),
    pieces_append (fun x hx => not_isDollar_of_isDigit (isDigit_of_mem_decimal hx))
      (decimal_ne_nil _) (by decide),
    pieces_append (fun x hx => not_isDollar_of_mem_fieldText hx) (fieldText_ne_nil hsalt)
      (by decide),
    pieces_single (fun x hx => not_isDollar_of_mem_fieldText hx) (fieldText_ne_nil hhash)]

theorem length_storageText_lt {salt hash : List UInt8} (hsalt : salt.length = 32)
    (hhash : hash.length = 32) (iterations : UInt32) :
    (storageText iterations salt hash).length < 1151 := by
  have hdigits : (decimal iterations.toNat).length ≤ 10 :=
    length_decimal_le (by omega) (by have := iterations.toNat_lt; omega)
  have hhead : (lit "$pbkdf2-sha256$").length = 15 := by decide
  have hdollar : (lit "$").length = 1 := by decide
  rw [storageText, encodedField_eq hsalt, encodedField_eq hhash]
  simp only [List.length_append, length_fieldText hsalt, length_fieldText hhash, hhead, hdollar]
  omega

theorem parseField_fieldText {bytes : List UInt8} (hlen : bytes.length = 32)
    (junk : Nat → UInt8) :
    parseField (fieldText bytes) 32 junk = .ok (bytes.take 30 ++ [255, 0], 31) := by
  have htail : (bytes.drop 30).length = 2 := by simp [hlen]
  have hne : bytes.drop 30 ≠ [] := List.length_pos_iff.mp (by omega)
  have hfull : (bytes.take 30).length = 30 := by simp [hlen]
  have hread : readTail (bytes.drop 30) = [255, 255, 255] := by rw [readTail, if_neg hne]
  have hthird : (bytes.take 30).length % 3 = 0 := by omega
  have hlast : (bytes.drop 30).length < 3 := by omega
  have hdecode := cryptoBase64Decode_eq hthird hlast 32
  have hwritten : (bytes.take 30 ++ [255, 255, 255]).take 32 = bytes.take 30 ++ [255, 255] := by
    rw [show 32 = (bytes.take 30).length + 2 by omega, List.take_length_add_append]
    rfl
  rw [hread, hwritten, List.length_append, hfull, padCount, htail] at hdecode
  have hcopy : bufferBytes (bytes.take 30 ++ [255, 255]) junk 31 = bytes.take 30 ++ [255] := by
    rw [bufferBytes_of_le _ (by simp [hfull]), show 31 = (bytes.take 30).length + 1 by omega,
      List.take_length_add_append]
    rfl
  have hlen31 :
      sizeSub (min 32 (30 + ([255, 255, 255] : List UInt8).length)) ((3 - 2) % 3) = 31 := by
    decide
  rw [hlen31] at hdecode
  rw [parseField, fieldText, padCount, htail, hdecode]
  simp [copyField, hcopy, hfull]

theorem cryptoParseMcf_storageText {salt hash : List UInt8} (hsalt : salt.length = 32)
    (hhash : hash.length = 32) {iterations : UInt32} (hiter : 10 ≤ iterations)
    (saltJunk hashJunk : Nat → UInt8) :
    cryptoParseMcf (storageText iterations salt hash) saltJunk hashJunk = .ok {
      storageString := storageText iterations salt hash
      algo := .sha256
      iterations := iterations
      salt := salt.take 30 ++ [255, 0]
      saltLen := 31
      hash := hash.take 30 ++ [255, 0]
      hashLen := 31 } := by
  have hshort := length_storageText_lt hsalt hhash iterations
  have hcopy : strncpy (storageText iterations salt hash) (cryptoMaxB64Len * 2 + 128 - 1) =
      storageText iterations salt hash := strncpy_of_le (by simp only [cryptoMaxB64Len]; omega)
  have hprint : snprintf (storageText iterations salt hash) (cryptoMaxB64Len * 2 + 128) =
      storageText iterations salt hash := snprintf_of_lt (by simp only [cryptoMaxB64Len]; omega)
  have hhead : (storageText iterations salt hash).head? = some 36 := by
    simp [storageText, show lit "$pbkdf2-sha256$" = 36 :: (lit "pbkdf2-sha256" ++ [36]) by decide]
  have hparse : UInt32.ofNat (strtoul (decimal iterations.toNat)) = iterations := by
    rw [strtoul_decimal (by have := iterations.toNat_lt; omega), UInt32.ofNat_toNat]
  have hnotlt : ¬iterations < 10 := by
    rw [UInt32.not_lt]
    exact hiter
  have h₁ := strtok_fst isDollar ((storageText iterations salt hash).drop 1)
  have h₂ := strtok_snd isDollar ((storageText iterations salt hash).drop 1)
  have h₃ := strtok_thd isDollar ((storageText iterations salt hash).drop 1)
  have h₄ := strtok_fourth isDollar ((storageText iterations salt hash).drop 1)
  rw [pieces_storageText hsalt hhash iterations] at h₁ h₂ h₃ h₄
  rw [cryptoParseMcf, if_neg (by simp [hhead]), hcopy]
  simp only [h₁, h₂, h₃, h₄, List.getElem?_cons_zero, List.getElem?_cons_succ, hparse, hnotlt,
    ne_eq, not_true_eq_false, if_false, cryptoSaltLen, cryptoHashLen,
    parseField_fieldText hsalt, parseField_fieldText hhash, hprint]

/-! ## Storage -/

theorem length_fallbackSalt (n : Nat) (seed : UInt32) : (fallbackSalt n seed).length = n := by
  induction n generalizing seed with
  | zero => rfl
  | succ n ih => simp [fallbackSalt, ih]

theorem length_generatedSalt (rand : RandBytes) (clock : UInt32) :
    (cryptoGenerateSalt rand clock cryptoSaltLen).2.length = 32 := by
  rw [cryptoGenerateSalt, if_neg (by decide)]
  cases hrand : rand (if cryptoSaltLen < cryptoSaltLen then cryptoSaltLen else cryptoSaltLen) with
  | none => simp only [hrand, length_fallbackSalt]; rfl
  | some bytes => simp only [hrand]; exact bytes.property

theorem length_of_cryptoPbkdf2 {pbkdf2 : Pbkdf2Hmac} {password salt : List UInt8}
    {iterations : UInt32} {n : Nat} {key : List UInt8}
    (h : cryptoPbkdf2 pbkdf2 password salt iterations n = .ok key) : key.length = n := by
  unfold cryptoPbkdf2 at h
  split at h
  · cases h
  · split at h
    · cases h
    · split at h
      · rename_i k _
        rw [← Except.ok.inj h]
        exact k.property
      · cases h

theorem cryptoHashPassword_ok {pbkdf2 : Pbkdf2Hmac} {rand : RandBytes} {clock : UInt32}
    {config : CryptoKdfConfig} {password : CStr} {ph : CryptoPasswordHash}
    (h : cryptoHashPassword pbkdf2 rand clock config password = .ok ph) :
    ph.salt.length = 32 ∧ ph.hash.length = 32 ∧ ph.saltLen = 32 ∧
      ph.storageString = storageText config.iterations ph.salt ph.hash := by
  unfold cryptoHashPassword at h
  split at h
  · cases h
  · dsimp only at h
    cases hkey : cryptoPbkdf2 pbkdf2 (password ++ config.pepper)
        (cryptoGenerateSalt rand clock cryptoSaltLen).2 config.iterations cryptoHashLen with
    | error rc => rw [hkey] at h; cases h
    | ok derived =>
        rw [hkey, Except.ok.injEq] at h
        subst h
        have hsalt := length_generatedSalt rand clock
        have hderived : derived.length = 32 := length_of_cryptoPbkdf2 hkey
        have hshort := length_storageText_lt hsalt hderived config.iterations
        exact ⟨hsalt, hderived, rfl, snprintf_of_lt (by simp only [cryptoMaxB64Len]; omega)⟩

/-- Whatever record `crypto_hash_password` writes, its stored form does not read
back: the lengths come back as 31. -/
theorem not_survivesStorage {pbkdf2 : Pbkdf2Hmac} {rand : RandBytes} {clock : UInt32}
    {config : CryptoKdfConfig} {password : CStr} {ph : CryptoPasswordHash}
    (hiter : 10 ≤ config.iterations)
    (hhash : cryptoHashPassword pbkdf2 rand clock config password = .ok ph)
    (saltJunk hashJunk : Nat → UInt8) :
    ¬SurvivesStorage pbkdf2 config password ph saltJunk hashJunk := by
  rintro ⟨parsed, hparsed, -, -, hsaltLen, -⟩
  obtain ⟨hsalt, hkey, hlen, htext⟩ := cryptoHashPassword_ok hhash
  rw [htext, cryptoParseMcf_storageText hsalt hkey hiter, Except.ok.injEq] at hparsed
  rw [hlen, ← hparsed] at hsaltLen
  have hcontra : (31 : Nat) = 32 := hsaltLen
  omega

/-- Byte strings survive base64 exactly when they have no incomplete group, or
one of `0xFF` bytes with room to spare; the stored form of a password never does. -/
theorem storage_survival_iff (b : List UInt8) (dstSize cap : Nat) (pbkdf2 : Pbkdf2Hmac)
    (rand : RandBytes) (clock : UInt32) (config : CryptoKdfConfig) (password : CStr)
    (ph : CryptoPasswordHash) (saltJunk hashJunk : Nat → UInt8) :
    (4 * ((b.length + 2) / 3) < dstSize → b.length ≤ cap →
      (RoundTrips b dstSize cap ↔ 4 ≤ dstSize ∧
        (b.length % 3 = 0 ∨ 3 * ((b.length + 2) / 3) ≤ cap ∧
          lastBytes b = List.replicate (b.length % 3) 255))) ∧
    (10 ≤ config.iterations →
      cryptoHashPassword pbkdf2 rand clock config password = .ok ph →
      ¬SurvivesStorage pbkdf2 config password ph saltJunk hashJunk) := by
  constructor
  · intro hroom hcap
    exact roundTrips_iff hroom hcap
  · intro hiter hhash
    exact not_survivesStorage hiter hhash saltJunk hashJunk

/-- `PBKDF2-HMAC-SHA256` of `pw` under the salt `0, 1, ..., 31` with ten rounds. -/
def samplePbkdf2 : Pbkdf2Hmac := fun _ _ _ n =>
  if h : n = 32 then
    some ⟨[192, 153, 224, 177, 6, 95, 196, 203, 219, 100, 111, 44, 25, 34, 123, 122, 208, 147,
      83, 242, 57, 188, 4, 92, 66, 7, 109, 10, 38, 114, 108, 124], h ▸ rfl⟩
  else none

def sampleRand : RandBytes := fun n => some ⟨(List.range n).map UInt8.ofNat, by simp⟩

def sampleConfig : CryptoKdfConfig := ⟨[], Nat.zero_le _, 10, .sha256⟩

theorem storage_survival_iff_sample :
    ∃ ph, cryptoHashPassword samplePbkdf2 sampleRand 0 sampleConfig (lit "pw") = .ok ph ∧
      (RoundTrips [77, 97, 110] 5 3 ↔ 4 ≤ 5 ∧ (([77, 97, 110] : List UInt8).length % 3 = 0 ∨
        3 * ((([77, 97, 110] : List UInt8).length + 2) / 3) ≤ 3 ∧
          lastBytes [77, 97, 110] =
            List.replicate (([77, 97, 110] : List UInt8).length % 3) 255)) ∧
      ¬SurvivesStorage samplePbkdf2 sampleConfig (lit "pw") ph (fun _ => 0) (fun _ => 0) := by
  refine ⟨_, rfl, ?_⟩
  obtain ⟨hbytes, hrecord⟩ := storage_survival_iff [77, 97, 110] 5 3 samplePbkdf2 sampleRand 0
    sampleConfig (lit "pw") _ (fun _ => 0) (fun _ => 0)
  exact ⟨hbytes (by decide) (by decide), hrecord (by decide) rfl⟩

/-- One byte comes back as `0xFF` however large the buffers are, and the stored
form of a password does not parse to the record that was written. -/
theorem storage_loses_bytes :
    ¬RoundTrips [77] 512 512 ∧
      ∃ ph, cryptoHashPassword samplePbkdf2 sampleRand 0 sampleConfig (lit "pw") = .ok ph ∧
        ¬SurvivesStorage samplePbkdf2 sampleConfig (lit "pw") ph (fun _ => 0) (fun _ => 0) := by
  refine ⟨?_, _, rfl, not_survivesStorage (by decide) rfl _ _⟩
  rw [roundTrips_iff (by decide) (by decide)]
  decide

end MiniBackend.Auth.Proofs.PasswordStorage
