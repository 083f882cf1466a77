import MiniBackend.Lib.Base64
import Mathlib.Data.List.DropRight

/-!
# `crypto_utils.c`

Password hashing and its stored form.  OpenSSL's `RAND_bytes` and
`PKCS5_PBKDF2_HMAC` are parameters that may fail; the hash of a password is a
function of its inputs.  Pointer arguments are taken to be non-null.
-/

namespace MiniBackend.Auth.CryptoUtils

open MiniBackend.Lib.CString MiniBackend.Lib.Base64

def cryptoSaltLen : Nat := 32
def cryptoHashLen : Nat := 32
def cryptoPepperLen : Nat := 32
def cryptoMaxPasswordLen : Nat := 256
def cryptoMaxB64Len : Nat := 512
inductive CryptoHashAlgo
  | sha256 | sha384 | sha512
deriving DecidableEq

/-- `pepper` is the first `pepper_len` bytes of its field.  The `salt` and
`salt_len` fields are never read. -/
structure CryptoKdfConfig where
  pepper : List UInt8
  pepper_le : pepper.length ≤ cryptoPepperLen
  iterations : UInt32
  hashAlgo : CryptoHashAlgo

/-- `salt` and `hash` are the whole fixed-size fields; `saltLen` and `hashLen` say
how much of them counts. -/
structure CryptoPasswordHash where
  storageString : CStr
  algo : CryptoHashAlgo
  iterations : UInt32
  salt : List UInt8
  hash : List UInt8
  saltLen : Nat
  hashLen : Nat
deriving DecidableEq

abbrev RandBytes := (n : Nat) → Option { bytes : List UInt8 // bytes.length = n }

/-- `PKCS5_PBKDF2_HMAC` with SHA-256: password, salt, iterations, key length. -/
abbrev Pbkdf2Hmac :=
  List UInt8 → List UInt8 → UInt32 → (n : Nat) → Option { key : List UInt8 // key.length = n }

def cryptoConstTimeCompare (a b : List UInt8) (len : Nat) : Int :=
  let diff := (List.range len).foldl (fun diff i => diff ||| (a.getD i 0 ^^^ b.getD i 0)) 0
  if diff = (0 : UInt8) then 1 else 0

/-- The linear congruential fallback that `crypto_generate_salt` fills the salt
with when `RAND_bytes` fails. -/
def fallbackSalt : Nat → UInt32 → List UInt8
  | 0, _ => []
  | n + 1, seed =>
      let seed := seed * 1103515245 + 12345
      (seed >>> 16).toUInt8 :: fallbackSalt n seed

def cryptoGenerateSalt (rand : RandBytes) (clock : UInt32) (saltLen : Nat) :
    Int × List UInt8 :=
  if saltLen = 0 then (-1, [])
  else
    let saltLen := if cryptoSaltLen < saltLen then cryptoSaltLen else saltLen
    match rand saltLen with
    | some bytes => (0, bytes)
    | none => (-1, fallbackSalt saltLen clock)

def cryptoPbkdf2 (pbkdf2 : Pbkdf2Hmac) (password salt : List UInt8) (iterations : UInt32)
    (dkLen : Nat) : Except Int (List UInt8) :=
  if dkLen = 0 then .error (-1)
  else if iterations < 1 ∨ password.length = 0 then .error (-1)
  else match pbkdf2 password salt iterations dkLen with
    | some key => .ok key
    | none => .error (-1)

/-! ## Base64 -/

def b64Std : List UInt8 :=
  lit "ABCDEFGHIJKLMNOPQRSTUVWXYZabcdefghijklmnopqrstuvwxyz0123456789+/"

def base64EncodeLoop (dstSize : Nat) : List UInt8 → Nat → Option (List UInt8)
  | [], _ => some []
  | [a], j => if dstSize ≤ j + 4 then none else some (encodeGroup b64Std a 0 0)
  | [a, b], j => if dstSize ≤ j + 4 then none else some (encodeGroup b64Std a b 0)
  | a :: b :: c :: rest, j =>
      if dstSize ≤ j + 4 then none
      else (base64EncodeLoop dstSize rest (j + 4)).map (encodeGroup b64Std a b c ++ ·)

def cryptoBase64Encode (src : List UInt8) (dstSize : Nat) : Except Int CStr :=
  if dstSize < 4 then .error (-1)
  else match base64EncodeLoop dstSize src 0 with
    | none => .error (-1)
    | some dst =>
        let j := dst.length
        if src.length % 3 = 1 ∧ 2 ≤ j then .ok (dst.take (j - 2) ++ lit "==")
        else if src.length % 3 = 2 ∧ 1 ≤ j then .ok (dst.take (j - 1) ++ lit "=")
        else .ok dst

/-- `dec`: the position in the alphabet, `-2` for `=`, `-1` for anything else. -/
def dec : UInt8 → Int := lookup b64Std fun c => if c = 61 then -2 else -1

def badQuad (q : Quad) : Bool := q.v0 < 0 || q.v1 < 0 || q.v2 < -1 || q.v3 < -1

/-- Missing characters of the last group count as `-1`; the stripped `=` are the
padding. -/
def cryptoBase64Decode (src : CStr) (cap : Nat) : Decoded :=
  let body := src.rdropWhile (· = 61)
  decodeInto badQuad cap (src.length - body.length) (quads dec (-1) body)

/-! ## Passwords -/

/-- The base64 texts of salt and hash always fit their 512-byte buffers, so the
ignored return values of the encoder are 0. -/
def encodedField (bytes : List UInt8) : CStr :=
  match cryptoBase64Encode bytes cryptoMaxB64Len with
  | .ok text => text
  | .error _ => []

def storageText (iterations : UInt32) (salt hash : List UInt8) : CStr :=
  lit "$pbkdf2-sha256$" ++ decimal iterations.toNat ++ lit "$" ++ encodedField salt ++
    lit "$" ++ encodedField hash

def cryptoHashPassword (pbkdf2 : Pbkdf2Hmac) (rand : RandBytes) (clock : UInt32)
    (config : CryptoKdfConfig) (password : CStr) : Except Int CryptoPasswordHash :=
  if password.length = 0 ∨ cryptoMaxPasswordLen < password.length then .error (-1)
  else
    let salt := (cryptoGenerateSalt rand clock cryptoSaltLen).2
    let combined := password ++ config.pepper
    match cryptoPbkdf2 pbkdf2 combined salt config.iterations cryptoHashLen with
    | .error _ => .error (-1)
    | .ok derived => .ok {
        storageString := snprintf (storageText config.iterations salt derived)
          (cryptoMaxB64Len * 2 + 128)
        algo := config.hashAlgo
        iterations := config.iterations
        salt := salt
        saltLen := cryptoSaltLen
        hash := derived
        hashLen := cryptoHashLen }

def cryptoVerifyPassword (pbkdf2 : Pbkdf2Hmac) (config : CryptoKdfConfig) (password : CStr)
    (ph : CryptoPasswordHash) : Int :=
  if password.length = 0 ∨ cryptoMaxPasswordLen < password.length then -1
  else
    let combined := password ++ config.pepper
    match cryptoPbkdf2 pbkdf2 combined (ph.salt.take ph.saltLen) ph.iterations
      cryptoHashLen with
    | .error _ => -1
    | .ok derived => cryptoConstTimeCompare derived ph.hash ph.hashLen

def isDollar (b : UInt8) : Bool := b = 36

/-- `memcpy(field, raw, len)` into a zeroed field of `size` bytes. -/
def copyField (raw : List UInt8) (size : Nat) : List UInt8 :=
  raw ++ List.replicate (size - raw.length) 0

/-- One base64 field of the stored form: the array it is copied into, and the
clamped length.  `junk` is what the raw buffer held before. -/
def parseField (text : CStr) (size : Nat) (junk : Nat → UInt8) :
    Except Int (List UInt8 × Nat) :=
  let raw := cryptoBase64Decode text size
  if raw.rc ≠ 0 then .error (-1)
  else
    let len := if size < raw.len then size else raw.len
    .ok (copyField (bufferBytes raw.written junk len) size, len)

def cryptoParseMcf (mcfString : CStr) (saltJunk hashJunk : Nat → UInt8) :
    Except Int CryptoPasswordHash :=
  if mcfString.head? ≠ some 36 then .error (-1)
  else
    let work := strncpy mcfString (cryptoMaxB64Len * 2 + 128 - 1)
    let (algoSec, save₁) := strtok isDollar (work.drop 1)
    let (iterStr, save₂) := strtok isDollar save₁
    let (saltB64, save₃) := strtok isDollar save₂
    let (hashB64, _) := strtok isDollar save₃
    match algoSec, iterStr, saltB64, hashB64 with
    | some algoSec, some iterStr, some saltB64, some hashB64 =>
        if algoSec ≠ lit "pbkdf2-sha256" then .error (-1)
        else
          let iterations := UInt32.ofNat (strtoul iterStr)
          if iterations < 10 then .error (-1)
          else match parseField saltB64 cryptoSaltLen saltJunk with
            | .error rc => .error rc
            | .ok (salt, saltLen) =>
                match parseField hashB64 cryptoHashLen hashJunk with
                | .error rc => .error rc
                | .ok (hash, hashLen) => .ok {
                    storageString := snprintf mcfString (cryptoMaxB64Len * 2 + 128)
                    algo := .sha256
                    iterations, salt, saltLen, hash, hashLen }
    | _, _, _, _ => .error (-1)

end MiniBackend.Auth.CryptoUtils
