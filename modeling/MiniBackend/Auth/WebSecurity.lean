import MiniBackend.Lib.CString

/-!
# `web_security.c`: encoders for output

The encoders are one loop: while there is input and `slack` bytes more than the next index fit
into the buffer, the next byte is replaced and written.  The result is the text in the buffer, whose
bytes and terminator are written one behind the other.
-/

namespace MiniBackend.Auth.WebSecurity

open MiniBackend.Lib.CString

def encodeLoop (expand : UInt8 → CStr) (slack size : Nat) : CStr → Nat → CStr
  | [], _ => []
  | b :: src, di =>
      if di + slack < size then
        expand b ++ encodeLoop expand slack size src (di + (expand b).length)
      else []

/-- The indices that are written. -/
def writeIndices (out : CStr) : List Nat := List.range (out.length + 1)

def htmlEntity (b : UInt8) : CStr :=
  if b = 38 then lit "&amp;"
  else if b = 60 then lit "&lt;"
  else if b = 62 then lit "&gt;"
  else if b = 34 then lit "&quot;"
  else if b = 39 then lit "&#x27;"
  else if b = 47 then lit "&#x2F;"
  else [b]

def wsHtmlEntityEncode (src : CStr) (dstSize : Nat) : Option CStr :=
  if dstSize = 0 then none else some (encodeLoop htmlEntity 8 dstSize src 0)

/-- What the decoder looks for, in this order. -/
def entities : List (CStr × UInt8) :=
  [(lit "&amp;", 38), (lit "&lt;", 60), (lit "&gt;", 62), (lit "&quot;", 34), (lit "&#x27;", 39),
    (lit "&#x2F;", 47)]

/-- The loop of the decoder, with the number of bytes that still fit. -/
def htmlDecodeLoop : Nat → CStr → CStr
  | 0, _ => []
  | _ + 1, [] => []
  | n + 1, b :: src =>
      match entities.find? fun entity => strncmpEq (b :: src) entity.1 entity.1.length with
      | some (text, c) => c :: htmlDecodeLoop n ((b :: src).drop text.length)
      | none => b :: htmlDecodeLoop n src

def wsHtmlEntityDecode (src : CStr) (dstSize : Nat) : Option CStr :=
  if dstSize = 0 then none else some (htmlDecodeLoop (dstSize - 1) src)

def isUnreserved (c : UInt8) : Bool :=
  (65 ≤ c && c ≤ 90) || (97 ≤ c && c ≤ 122) || (48 ≤ c && c ≤ 57) || c = 45 || c = 95 || c = 46 ||
    c = 126

def hexUpper (digit : UInt8) : UInt8 := if digit < 10 then 48 + digit else 55 + digit

def urlEscape (c : UInt8) : CStr :=
  if isUnreserved c then [c]
  else if c = 32 then [43]
  else [37, hexUpper (c >>> 4), hexUpper (c &&& 15)]

def wsUrlEncode (src : CStr) (dstSize : Nat) : Option CStr :=
  if dstSize = 0 then none else some (encodeLoop urlEscape 4 dstSize src 0)

def urlDecodeLoop : Nat → CStr → CStr
  | 0, _ => []
  | _ + 1, [] => []
  | n + 1, b :: src =>
      if b = 37 ∧ 2 ≤ src.length then
        UInt8.ofInt (strtolHex (src.take 2)) :: urlDecodeLoop n (src.drop 2)
      else if b = 43 then 32 :: urlDecodeLoop n src
      else b :: urlDecodeLoop n src

def wsUrlDecode (src : CStr) (dstSize : Nat) : Option CStr :=
  if dstSize = 0 then none else some (urlDecodeLoop (dstSize - 1) src)

inductive WsXssMode
  | html
  | htmlAttr
  | javascript
  | url
  | css

def jsEscape (b : UInt8) : CStr :=
  if b = 92 then [92, 92]
  else if b = 34 then [92, 34]
  else if b = 39 then [92, 39]
  else if b = 10 then [92, 110]
  else if b = 13 then [92, 114]
  else if b = 9 then [92, 116]
  else if b = 47 then [92, 47]
  else if b = 60 then lit "\\x3C"
  else if b = 62 then lit "\\x3E"
  else [b]

def cssEscape (b : UInt8) : CStr :=
  if b = 92 ∨ b = 34 ∨ b = 39 ∨ b = 40 ∨ b = 41 ∨ b = 60 then [92, b] else [b]

def wsXssSanitize (input : CStr) (mode : WsXssMode) (outputSize : Nat) : Option CStr :=
  if outputSize = 0 then none
  else
    match mode with
    | .html | .htmlAttr => wsHtmlEntityEncode input outputSize
    | .javascript => some (encodeLoop jsEscape 3 outputSize input 0)
    | .url => wsUrlEncode input outputSize
    | .css => some (encodeLoop cssEscape 3 outputSize input 0)

end MiniBackend.Auth.WebSecurity
