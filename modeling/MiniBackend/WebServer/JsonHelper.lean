import MiniBackend.Lib.Binary64
import MiniBackend.Lib.CArray

/-!
# `json_helper.c`

The tokenizer, the recursive descent parser and the serializer.  The input is the part of
the text that is not read yet, so a position is a suffix.  Allocations succeed, and a
string value has a text.  `%.17g`, the format of numbers that are not small integers, is
a parameter.
-/

namespace MiniBackend.WebServer.Json

open MiniBackend.Lib.Binary64 MiniBackend.Lib.CArray MiniBackend.Lib.CString

def jsonMaxDepth : Nat := 32
def jsonMaxStringLen : Nat := 8192
def jsonMaxNumberLen : Nat := 64

inductive JsonValue
  | null
  | bool (value : Bool)
  | number (value : Double)
  | string (value : CStr)
  | array (items : List JsonValue)
  | object (members : List (CStr × JsonValue))

/-- The bytes of a string token are those before the terminator in `text`; they may
include a zero byte. -/
inductive JsonToken
  | lbrace
  | rbrace
  | lbracket
  | rbracket
  | comma
  | colon
  | string (text : List UInt8)
  | number (value : Double)
  | true
  | false
  | null
  | eof
deriving DecidableEq

/-! ## The tokenizer -/

def quote : UInt8 := 34
def backslash : UInt8 := 92
def comma : UInt8 := 44
def colon : UInt8 := 58

def isBlank (b : UInt8) : Bool := b == 32 || b == 9 || b == 13 || b == 10

/-- The character that an escape stands for, `\u` apart. -/
def escaped (esc : UInt8) : Option UInt8 :=
  if esc = 34 then some 34
  else if esc = 92 then some 92
  else if esc = 47 then some 47
  else if esc = 98 then some 8
  else if esc = 102 then some 12
  else if esc = 110 then some 10
  else if esc = 114 then some 13
  else if esc = 116 then some 9
  else none

def hexValue (b : UInt8) : Option Nat :=
  let h := toLower b
  if 48 ≤ h ∧ h ≤ 57 then some (h.toNat - 48)
  else if 97 ≤ h ∧ h ≤ 102 then some (h.toNat - 97 + 10)
  else none

/-- The code point of four hexadecimal digits. -/
def codePoint (h₁ h₂ h₃ h₄ : UInt8) : Option Nat := do
  let d₁ ← hexValue h₁
  let d₂ ← hexValue h₂
  let d₃ ← hexValue h₃
  let d₄ ← hexValue h₄
  return ((d₁ * 16 + d₂) * 16 + d₃) * 16 + d₄

def utf8 (cp : Nat) : List UInt8 :=
  if cp < 128 then [UInt8.ofNat cp]
  else if cp < 2048 then [UInt8.ofNat (192 + cp / 64), UInt8.ofNat (128 + cp % 64)]
  else [UInt8.ofNat (224 + cp / 4096), UInt8.ofNat (128 + cp / 64 % 64),
    UInt8.ofNat (128 + cp % 64)]

/-- The text of a string token from behind its opening quote, when `out` bytes are
stored already, and the input behind the closing quote. -/
def parseStringToken : Nat → CStr → Option (List UInt8 × CStr)
  | _, [] => none
  | out, c :: rest =>
      if jsonMaxStringLen - 1 ≤ out then none
      else if c = quote then some ([], rest)
      else if c = backslash then
        match rest with
        | [] => none
        | esc :: rest =>
            match escaped esc with
            | some b => (parseStringToken (out + 1) rest).map fun (text, end') => (b :: text, end')
            | none =>
                if esc = 117 then
                  match rest with
                  | h₁ :: h₂ :: h₃ :: h₄ :: rest =>
                      match codePoint h₁ h₂ h₃ h₄ with
                      | some cp =>
                          (parseStringToken (out + (utf8 cp).length) rest).map
                            fun (text, end') => (utf8 cp ++ text, end')
                      | none => none
                  | _ => none
                else none
      else if c < 32 then none
      else (parseStringToken (out + 1) rest).map fun (text, end') => (c :: text, end')

/-- What the loop of `parse_string_token` stores to `tok->text`, each byte with its index, also
when the token is refused later. -/
def textWrites : Nat → CStr → List (UInt8 × Nat)
  | _, [] => []
  | out, c :: rest =>
      if jsonMaxStringLen - 1 ≤ out then []
      else if c = quote then [(0, out)]
      else if c = backslash then
        match rest with
        | [] => []
        | esc :: rest =>
            match escaped esc with
            | some b => (b, out) :: textWrites (out + 1) rest
            | none =>
                if esc = 117 then
                  match rest with
                  | h₁ :: h₂ :: h₃ :: h₄ :: rest =>
                      match codePoint h₁ h₂ h₃ h₄ with
                      | some cp =>
                          (utf8 cp).zipIdx out ++ textWrites (out + (utf8 cp).length) rest
                      | none => []
                  | _ => []
                else []
      else if c < 32 then []
      else (c, out) :: textWrites (out + 1) rest

/-- The stores of a call at `input`; without an opening quote there are none. -/
def parseStringTokenWrites (input : CStr) : List (UInt8 × Nat) :=
  match input with
  | [] => []
  | c :: rest => if c = quote then textWrites 0 rest else []

/-- At least one digit, and all that follow it. -/
def digitsEnd (s : CStr) : Option CStr :=
  match s with
  | [] => none
  | d :: rest => if isDigit d then some (rest.dropWhile isDigit) else none

def dropSign (s : CStr) : CStr :=
  match s with
  | [] => []
  | c :: rest => if c = 45 then rest else c :: rest

def integerEnd (s : CStr) : Option CStr :=
  match s with
  | [] => none
  | d :: rest => if d = 48 then some rest else digitsEnd (d :: rest)

def fractionEnd (s : CStr) : Option CStr :=
  match s with
  | [] => some []
  | c :: rest => if c = 46 then digitsEnd rest else some (c :: rest)

def exponentEnd (s : CStr) : Option CStr :=
  match s with
  | [] => some []
  | e :: rest =>
      if e = 101 ∨ e = 69 then
        match rest with
        | [] => none
        | c :: digits => if c = 43 ∨ c = 45 then digitsEnd digits else digitsEnd (c :: digits)
      else some (e :: rest)

def numberEnd (s : CStr) : Option CStr :=
  ((integerEnd (dropSign s)).bind fractionEnd).bind exponentEnd

def parseNumberToken (s : CStr) : Option (JsonToken × CStr) :=
  (numberEnd s).bind fun rest =>
    let text := s.take (s.length - rest.length)
    if jsonMaxNumberLen ≤ text.length then none else some (.number (strtod text), rest)

def isAlnum (b : UInt8) : Bool := isDigit b || (97 ≤ toLower b && toLower b ≤ 122)

def matchKeyword (s kw : CStr) (tok : JsonToken) : Option (JsonToken × CStr) :=
  if kw.isPrefixOf s then
    match s.drop kw.length with
    | [] => some (tok, [])
    | next :: rest => if isAlnum next || next == 95 then none else some (tok, next :: rest)
  else none

/-- A token and the input behind it; `none` when the text cannot be read. -/
def jsonTokenizerNext (input : CStr) : Option (JsonToken × CStr) :=
  match input.dropWhile isBlank with
  | [] => some (.eof, [])
  | c :: rest =>
      if c = 123 then some (.lbrace, rest)
      else if c = 125 then some (.rbrace, rest)
      else if c = 91 then some (.lbracket, rest)
      else if c = 93 then some (.rbracket, rest)
      else if c = comma then some (.comma, rest)
      else if c = colon then some (.colon, rest)
      else if c = quote then
        (parseStringToken 0 rest).map fun (text, end') => (.string text, end')
      else if c = 116 then matchKeyword (c :: rest) (lit "true") .true
      else if c = 102 then matchKeyword (c :: rest) (lit "false") .false
      else if c = 110 then matchKeyword (c :: rest) (lit "null") .null
      else if c = 45 ∨ isDigit c then parseNumberToken (c :: rest)
      else none

/-! ## The parser -/

/-- `current` is `none` when there is no current token, because the tokenizer failed. -/
structure JsonParser where
  current : Option JsonToken
  rest : CStr

def parserAdvance (p : JsonParser) : JsonParser :=
  match jsonTokenizerNext p.rest with
  | some (tok, rest) => ⟨some tok, rest⟩
  | none => ⟨none, p.rest⟩

/-- What a call comes to.  `badFree`: `json_value_free` was called for an entry of an array or
object, which is no block of its own, and anything can happen from there on. -/
inductive Outcome (α : Type)
  | value (a : α)
  | null
  | badFree

instance {α : Type} : (o : Outcome α) → Decidable (o = .null)
  | .null => .isTrue rfl
  | .value _ | .badFree => .isFalse nofun

/-- Whether `json_value_free` frees only whole blocks: it calls itself for each entry. -/
def jsonValueFree : JsonValue → Bool
  | .array items => items.isEmpty
  | .object members => members.isEmpty
  | _ => true

/-- `json_value_free(val); return NULL;` -/
def freeAndFail {α : Type} (val : JsonValue) : Outcome α :=
  if jsonValueFree val then .null else .badFree

/-- `none` when the key is there: its value, an entry of the object, is freed. -/
def jsonObjectSet (members : List (CStr × JsonValue)) (key : CStr) (val : JsonValue) :
    Option (List (CStr × JsonValue)) :=
  if members.any fun m => m.1 == key then none else some (members ++ [(key, val)])

/- `parseItems` and `parseMembers` are the loops of `parse_array` and `parse_object`.  Every
call takes one of `fuel`; `jsonParse` gives more than can be used up. -/
mutual

def parseValue (fuel : Nat) (depth : Nat) (p : JsonParser) : Outcome (JsonValue × JsonParser) :=
  match fuel with
  | 0 => .null
  | fuel + 1 =>
      match p.current with
      | some .lbrace =>
          let p := parserAdvance p
          if jsonMaxDepth < depth then .null
          else if p.current = some .rbrace then .value (.object [], parserAdvance p)
          else parseMembers fuel depth [] p
      | some .lbracket =>
          let p := parserAdvance p
          if jsonMaxDepth < depth then .null
          else if p.current = some .rbracket then .value (.array [], parserAdvance p)
          else parseItems fuel depth [] p
      | some (.string text) => .value (.string (ofBuffer text), parserAdvance p)
      | some (.number value) => .value (.number value, parserAdvance p)
      | some .true => .value (.bool true, parserAdvance p)
      | some .false => .value (.bool false, parserAdvance p)
      | some .null => .value (.null, parserAdvance p)
      | _ => .null

def parseItems (fuel : Nat) (depth : Nat) (items : List JsonValue) (p : JsonParser) :
    Outcome (JsonValue × JsonParser) :=
  match fuel with
  | 0 => .null
  | fuel + 1 =>
      match parseValue fuel (depth + 1) p with
      | .badFree => .badFree
      | .null => freeAndFail (.array items)
      | .value (val, p) =>
          let items := items ++ [val]
          match p.current with
          | some .rbracket => .value (.array items, parserAdvance p)
          | some .comma => parseItems fuel depth items (parserAdvance p)
          | _ => freeAndFail (.array items)

def parseMembers (fuel : Nat) (depth : Nat) (members : List (CStr × JsonValue)) (p : JsonParser) :
    Outcome (JsonValue × JsonParser) :=
  match fuel with
  | 0 => .null
  | fuel + 1 =>
      match p.current with
      | some (.string text) =>
          let p := parserAdvance p
          if p.current = some .colon then
            match parseValue fuel (depth + 1) (parserAdvance p) with
            | .badFree => .badFree
            | .null => freeAndFail (.object members)
            | .value (val, p) =>
                match jsonObjectSet members (ofBuffer text) val with
                | none => .badFree
                | some members =>
                    match p.current with
                    | some .rbrace => .value (.object members, parserAdvance p)
                    | some .comma => parseMembers fuel depth members (parserAdvance p)
                    | _ => freeAndFail (.object members)
          else freeAndFail (.object members)
      | _ => freeAndFail (.object members)

end

def jsonParse (jsonStr : CStr) : Outcome JsonValue :=
  let p := parserAdvance ⟨none, jsonStr⟩
  match p.current with
  | none => .null
  | some .eof => .null
  | some _ =>
      match parseValue (2 * jsonStr.length + 3) 0 p with
      | .value (root, _) => .value root
      | .null => .null
      | .badFree => .badFree

/-! ## The serializer -/

/-- The memory from `buf` on, and `*pos`. -/
structure Output where
  mem : Nat → UInt8
  pos : Nat

/-- `*pos += snprintf(buf + *pos, buf_sz - *pos, ...)` of a formatted text shorter than
`INT_MAX`. -/
def print (bufSz : Nat) (text : CStr) (out : Output) : Output where
  mem := fun i =>
    let size := sizeSub bufSz out.pos
    let written := text.take (size - 1)
    if i < out.pos then out.mem i
    else if i < out.pos + written.length then written.getD (i - out.pos) 0
    else if i = out.pos + written.length ∧ 0 < size then 0
    else out.mem i
  pos := out.pos + text.length

def putByte (b : UInt8) (out : Output) : Output where
  mem := Function.update out.mem out.pos b
  pos := out.pos + 1

def hexDigit (n : Nat) : UInt8 := if n < 10 then UInt8.ofNat (48 + n) else UInt8.ofNat (87 + n)

def unicodeEscape (b : UInt8) : CStr :=
  [backslash, 117, 48, 48, hexDigit (b.toNat / 16), hexDigit (b.toNat % 16)]

def serializeByte (bufSz : Nat) (b : UInt8) (out : Output) : Output :=
  if b = quote then print bufSz [backslash, quote] out
  else if b = backslash then print bufSz [backslash, backslash] out
  else if b = 8 then print bufSz [backslash, 98] out
  else if b = 12 then print bufSz [backslash, 102] out
  else if b = 10 then print bufSz [backslash, 110] out
  else if b = 13 then print bufSz [backslash, 114] out
  else if b = 9 then print bufSz [backslash, 116] out
  else if b < 32 then print bufSz (unicodeEscape b) out
  else putByte b out

/-- The loop over the bytes of a string, while `*pos < buf_sz - 2`. -/
def serializeBytes (bufSz : Nat) : CStr → Output → Output
  | [], out => out
  | b :: s, out =>
      if out.pos < sizeSub bufSz 2 then serializeBytes bufSz s (serializeByte bufSz b out) else out

def formatInteger (negative : Bool) (magnitude : ℚ) : CStr :=
  (if negative then [45] else []) ++ decimal magnitude.num.natAbs

variable (formatG17 : Double → CStr)

/-- `floor(n) == n && fabs(n) < 1e15` chooses the format. -/
def numberText (value : Double) : CStr :=
  match value.magnitude with
  | some q => if q.den = 1 ∧ q < 10 ^ 15 then formatInteger value.negative q else formatG17 value
  | none => formatG17 value

/- `serializeItems` and `serializeMembers` are the loops over the entries, with a comma before
each but the first. -/
mutual

def jsonSerializeInternal (bufSz : Nat) (val : JsonValue) (out : Output) : Output :=
  if bufSz ≤ out.pos then out
  else
    match val with
    | .null => print bufSz (lit "null") out
    | .bool value => print bufSz (if value then lit "true" else lit "false") out
    | .number value => print bufSz (numberText formatG17 value) out
    | .string s => print bufSz [quote] (serializeBytes bufSz s (print bufSz [quote] out))
    | .array items =>
        print bufSz [93] (serializeItems bufSz true items (print bufSz [91] out))
    | .object members =>
        print bufSz [125] (serializeMembers bufSz true members (print bufSz [123] out))

def serializeItems (bufSz : Nat) (first : Bool) (items : List JsonValue) (out : Output) : Output :=
  match items with
  | [] => out
  | val :: items =>
      let out := if first then out else print bufSz [comma] out
      serializeItems bufSz false items (jsonSerializeInternal bufSz val out)

def serializeMembers (bufSz : Nat) (first : Bool) (members : List (CStr × JsonValue))
    (out : Output) : Output :=
  match members with
  | [] => out
  | (key, val) :: members =>
      let out := if first then out else print bufSz [comma] out
      let out := print bufSz ([quote] ++ key ++ [quote, colon]) out
      serializeMembers bufSz false members (jsonSerializeInternal bufSz val out)

end

/-- The buffer after `json_serialize`; `mem` is what is in memory before the call. -/
def jsonSerialize (val : JsonValue) (mem : Nat → UInt8) (bufSz : Nat) : Output :=
  if bufSz = 0 then ⟨mem, 0⟩
  else
    let out := jsonSerializeInternal formatG17 bufSz val ⟨mem, 0⟩
    if out.pos < bufSz then { out with mem := Function.update out.mem out.pos 0 } else out

def jsonSerializeResult (out : Output) : Int := Int.bmod out.pos (2 ^ 32)

/-- The string that starts at `buf`, as far as it lies in the buffer. -/
def bufferText (mem : Nat → UInt8) (bufSz : Nat) : CStr := ofBuffer ((List.range bufSz).map mem)

end MiniBackend.WebServer.Json
