import MiniBackend.Lib.CString
import MiniBackend.Lib.FlatObject
import MiniBackend.Lib.TextBuffer

/-!
# `serializer.c`

Fields of the types `int`, `int64_t`, `bool` and string; the other types and the recording of
nesting are left out, and so are `ser_strip_whitespace` and the getters.  An object is what its
bytes read as at an offset, for each of the types; fields do not overlap.
-/

namespace MiniBackend.Framework.Ser

open MiniBackend.Lib MiniBackend.Lib.CString MiniBackend.Lib.FlatObject

def serMaxFields : Nat := 64
def serMaxName : Nat := 64

inductive SerFieldType
  | int
  | int64
  | string
  | bool
deriving DecidableEq

structure SerField where
  name : CStr
  jsonName : CStr
  type : SerFieldType
  offset : Nat
  ignore : Bool
deriving DecidableEq

/-- `field_count` is the length of the list. -/
structure Serializer where
  fields : List SerField
deriving DecidableEq

structure SerObject where
  ints : Nat → Int32
  int64s : Nat → Int64
  bools : Nat → Bool
  strings : Nat → CStr

def zeroed : SerObject where
  ints := fun _ => 0
  int64s := fun _ => 0
  bools := fun _ => false
  strings := fun _ => []

/-! ## Registration -/

def serInit : Serializer := ⟨[]⟩

def serAddField (s : Serializer) (name : CStr) (offset : Nat) (jsonName : Option CStr)
    (type : SerFieldType) : Serializer :=
  if serMaxFields ≤ s.fields.length then s
  else
    ⟨s.fields ++ [{ name := strncpy name (serMaxName - 1)
                    jsonName := strncpy (jsonName.getD name) (serMaxName - 1)
                    type := type
                    offset := offset
                    ignore := false }]⟩

def serAddInt (s : Serializer) (name : CStr) (offset : Nat) (jsonName : Option CStr) : Serializer :=
  serAddField s name offset jsonName .int

def serAddInt64 (s : Serializer) (name : CStr) (offset : Nat) (jsonName : Option CStr) :
    Serializer :=
  serAddField s name offset jsonName .int64

def serAddString (s : Serializer) (name : CStr) (offset : Nat) (jsonName : Option CStr) :
    Serializer :=
  serAddField s name offset jsonName .string

def serAddBool (s : Serializer) (name : CStr) (offset : Nat) (jsonName : Option CStr) :
    Serializer :=
  serAddField s name offset jsonName .bool

/-! ## Writing -/

def escapeByte (b : UInt8) : CStr :=
  if b = 34 then [92, 34]
  else if b = 92 then [92, 92]
  else if b = 10 then [92, 110]
  else if b = 13 then [92, 114]
  else if b = 9 then [92, 116]
  else [b]

/-- The loop of `ser_escape_json` from position `pos` of the buffer on. -/
def serEscapeJson (maxLen : Nat) : CStr → Nat → CStr
  | [], _ => []
  | b :: src, pos =>
      if pos < maxLen - 2 then
        escapeByte b ++ serEscapeJson maxLen src (pos + (escapeByte b).length)
      else []

def serWriteValue (f : SerField) (obj : SerObject) (maxLen : Nat) : CStr :=
  match f.type with
  | .int => snprintf (decimalInt (obj.ints f.offset).toInt) maxLen
  | .int64 => snprintf (decimalInt (obj.int64s f.offset).toInt) maxLen
  | .string => snprintf (34 :: (serEscapeJson 2048 (obj.strings f.offset) 0 ++ [34])) maxLen
  | .bool => snprintf (if obj.bools f.offset then lit "true" else lit "false") maxLen

/-- The loop of `ser_to_json` over the fields. -/
def toJsonLoop (obj : SerObject) (maxLen : Nat) :
    List SerField → Bool → TextBuffer → Option TextBuffer
  | [], _, out => some out
  | f :: fields, first, out =>
      if f.ignore then toJsonLoop obj maxLen fields first out
      else
        let out := if first then out else out.print maxLen [44]
        let value := serWriteValue f obj 1024
        match out.printAll maxLen (34 :: (f.jsonName ++ 34 :: 58 :: value)) with
        | none => none
        | some out => toJsonLoop obj maxLen fields false out

def serToJson (s : Serializer) (obj : SerObject) (maxLen : Nat) : Option CStr :=
  let out := TextBuffer.empty.print maxLen [123]
  ((toJsonLoop obj maxLen s.fields true out).bind fun out => out.printAll maxLen [125]).map
    TextBuffer.text

/-! ## Reading -/

/-- From behind the opening quote of a string: the bytes up to behind its closing one. -/
def quotedLength : CStr → Nat
  | [] => 0
  | 34 :: _ => 1
  | 92 :: _ :: p => 2 + quotedLength p
  | _ :: p => 1 + quotedLength p

/-- From behind an opening bracket: the bytes up to behind the one that closes it. -/
def bracketedLength (opening closing : UInt8) : Nat → CStr → Nat
  | 0, _ => 0
  | _, [] => 0
  | depth + 1, b :: p =>
      if b = opening then 1 + bracketedLength opening closing (depth + 2) p
      else if b = closing then 1 + bracketedLength opening closing depth p
      else 1 + bracketedLength opening closing (depth + 1) p

/-- `value_end - value_start` for the text from `value_start` on. -/
def valueLength (p : CStr) : Nat :=
  match p with
  | [] => 0
  | b :: rest =>
      if b = 34 then 1 + quotedLength rest
      else if b = 123 then 1 + bracketedLength 123 125 1 rest
      else if b = 91 then 1 + bracketedLength 91 93 1 rest
      else (p.takeWhile fun b => b ≠ 44 ∧ b ≠ 125 ∧ b ≠ 93).length

def serFindJsonValue (json key : CStr) : Option CStr :=
  match strstr json (snprintf (34 :: (key ++ [34])) 128) with
  | none => none
  | some p => some ((p.drop (key.length + 2)).dropWhile fun b => b = 32 ∨ b = 58)

/-- The copy of a value in a buffer of `size` bytes. -/
def copyValue (value : CStr) (size : Nat) : CStr := value.take (min (valueLength value) (size - 1))

/-- What the `switch` stores, for the text from `value_start` on. -/
def storeValue (f : SerField) (value : CStr) (obj : SerObject) : SerObject :=
  match f.type with
  | .int =>
      { obj with
        ints := Function.update obj.ints f.offset (Int32.ofInt (atoi (copyValue value 32))) }
  | .int64 => { obj with int64s := Function.update obj.int64s f.offset 0 }
  | .string =>
      let start := if value.head? = some 34 then value.tail else value
      { obj with strings := Function.update obj.strings f.offset ((cutAtQuote start).take 254) }
  | .bool =>
      { obj with bools := Function.update obj.bools f.offset (copyValue value 8 == lit "true") }

def readField (json : CStr) (obj : SerObject) (f : SerField) : SerObject :=
  if f.ignore then obj
  else
    match serFindJsonValue json f.jsonName with
    | none => obj
    | some value => storeValue f value obj

def serFromJson (s : Serializer) (obj : SerObject) (json : CStr) : SerObject :=
  s.fields.foldl (readField json) obj

end MiniBackend.Framework.Ser
