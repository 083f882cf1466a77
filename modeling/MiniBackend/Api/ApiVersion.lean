import MiniBackend.Lib.CString

/-!
# `api_version.c`: versions and ranges of versions

The components are the values of `int` fields, and their sums and differences wrap around.
-/

namespace MiniBackend.Api.ApiVersion

open MiniBackend.Lib.CString

def avMaxVersionLen : Nat := 16

def labelSize : Nat := 32

/-- What an `int` makes of a number. -/
def int32 (z : Int) : Int := (z + 2 ^ 31) % 2 ^ 32 - 2 ^ 31

structure AvVersion where
  version : CStr
  major : Int
  minor : Int
  patch : Int
  isPrerelease : Bool
  prereleaseLabel : CStr

/-- A number behind a dot, and what comes behind it. -/
def dotNumber (p : CStr) : Int × CStr :=
  if p.head? = some 46 then (atoi p.tail, p.tail.dropWhile isDigit) else (0, p)

def avVersionParse (str : CStr) : AvVersion :=
  let p := if str.head? = some 118 ∨ str.head? = some 86 then str.tail else str
  let major := atoi p
  let (minor, p) := dotNumber (p.dropWhile isDigit)
  let (patch, p) := dotNumber p
  let isPrerelease := decide (p.head? = some 45)
  let label := if isPrerelease then p.tail.takeWhile fun b => b ≠ 43 && b ≠ 46 else []
  { version := strncpy str (avMaxVersionLen - 1), major, minor, patch, isPrerelease,
    prereleaseLabel := label.take (labelSize - 1) }

def avVersionCompare (a b : AvVersion) : Int :=
  if a.major ≠ b.major then int32 (a.major - b.major)
  else if a.minor ≠ b.minor then int32 (a.minor - b.minor)
  else if a.patch ≠ b.patch then int32 (a.patch - b.patch)
  else if a.isPrerelease && !b.isPrerelease then -1
  else if !a.isPrerelease && b.isPrerelease then 1
  else strcmp a.prereleaseLabel b.prereleaseLabel

inductive AvRangeType
  | caret
  | tilde
  | gte
  | eq

/-- `upper` is absent without `has_upper`. -/
structure AvVersionRange where
  type : AvRangeType
  lower : AvVersion
  upper : Option AvVersion

/-- The end of a caret range: the next increase of the first component that is not zero. -/
def caretUpper (lower : AvVersion) : AvVersion :=
  if lower.major > 0 then
    { lower with major := int32 (lower.major + 1), minor := 0, patch := 0, isPrerelease := false }
  else if lower.minor > 0 then { lower with minor := int32 (lower.minor + 1), patch := 0 }
  else { lower with patch := int32 (lower.patch + 1) }

def tildeUpper (lower : AvVersion) : AvVersion :=
  { lower with minor := int32 (lower.minor + 1), patch := 0, isPrerelease := false }

def skip (c : UInt8) (p : CStr) : CStr := if p.head? = some c then p.tail else p

def avRangeParse (str : CStr) : AvVersionRange :=
  let p := str.dropWhile fun b => b = 32 || b = 118 || b = 86
  if p.head? = some 94 then
    let lower := avVersionParse p.tail
    ⟨.caret, lower, some (caretUpper lower)⟩
  else if p.head? = some 126 then
    let lower := avVersionParse p.tail
    ⟨.tilde, lower, some (tildeUpper lower)⟩
  else if p.head? = some 62 then ⟨.gte, avVersionParse (skip 61 p.tail), none⟩
  else
    let lower := avVersionParse (skip 61 p)
    ⟨.eq, lower, some lower⟩

def avRangeSatisfies (range : AvVersionRange) (version : AvVersion) : Bool :=
  if avVersionCompare version range.lower < 0 then false
  else range.upper.all fun upper => avVersionCompare version upper < 0

end MiniBackend.Api.ApiVersion
