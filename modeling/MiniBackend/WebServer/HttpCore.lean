import MiniBackend.Lib.CString

/-!
# `http_core.c`

Requests and responses with their headers.  A body is the list of its bytes; a `NULL`
body is empty.
-/

namespace MiniBackend.WebServer.Http

open MiniBackend.Lib.CString

inductive HttpMethod
  | get
  | post
  | put
  | delete
  | head
  | options
  | patch
  | unknown
deriving DecidableEq

def httpStatusOk : Int := 200
def httpStatusPartialContent : Int := 206
def httpStatusNotModified : Int := 304
def httpStatusBadRequest : Int := 400
def httpStatusUnauthorized : Int := 401
def httpStatusForbidden : Int := 403
def httpStatusNotFound : Int := 404
def httpStatusRangeNotSatisfiable : Int := 416

def httpMaxHeaders : Nat := 64
def httpMaxHeaderName : Nat := 128
def httpMaxHeaderValue : Nat := 4096
def httpMaxPath : Nat := 2048

structure HttpHeader where
  name : CStr
  value : CStr
deriving DecidableEq

structure HttpRequest where
  method : HttpMethod
  path : CStr
  queryString : CStr
  headers : List HttpHeader
  body : List UInt8
deriving DecidableEq

structure HttpResponse where
  statusCode : Int
  headers : List HttpHeader
  body : List UInt8
deriving DecidableEq

def httpRequestInit : HttpRequest := ⟨.unknown, [], [], [], []⟩

/-! ## Requests -/

/-- `g_method_strings` without the last entry. -/
def methodStrings : List (CStr × HttpMethod) :=
  [(lit "GET", .get), (lit "POST", .post), (lit "PUT", .put), (lit "DELETE", .delete),
    (lit "HEAD", .head), (lit "OPTIONS", .options), (lit "PATCH", .patch)]

def httpMethodFromStr (str : CStr) : HttpMethod :=
  match methodStrings.find? fun entry => entry.1 == str with
  | some entry => entry.2
  | none => .unknown

/-- The value of a hexadecimal digit. -/
def hexDigit (b : UInt8) : Option UInt8 :=
  if 48 ≤ b ∧ b ≤ 57 then some (b - 48)
  else if 65 ≤ b ∧ b ≤ 70 then some (b - 55)
  else if 97 ≤ b ∧ b ≤ 102 then some (b - 87)
  else none

/-- The loop of `http_url_decode`, with room for some more bytes. -/
def decodeLoop : Nat → CStr → List UInt8
  | 0, _ => []
  | _, [] => []
  | room + 1, 37 :: a :: b :: src =>
      match hexDigit a, hexDigit b with
      | some hi, some lo => (hi * 16 + lo) :: decodeLoop room src
      | _, _ => 37 :: decodeLoop room (a :: b :: src)
  | room + 1, c :: src => (if c = 43 then 32 else c) :: decodeLoop room src

/-- The string that is read from `dst` afterwards. -/
def httpUrlDecode (src : CStr) (dstSize : Nat) : CStr := ofBuffer (decodeLoop (dstSize - 1) src)

/-- `none` is `false`.  The third field of the line, the version, is not used. -/
def httpParseRequestLine (line : CStr) (req : HttpRequest) : Option HttpRequest :=
  match scanField 31 line with
  | none => none
  | some (methodStr, rest) =>
      match scanField (httpMaxPath - 1) rest with
      | none => none
      | some (pathRaw, _) =>
          let queryString :=
            match strchr pathRaw 63 with
            | some qmark => strncpy qmark.tail (httpMaxPath - 1)
            | none => req.queryString
          some { req with
            method := httpMethodFromStr methodStr
            path := httpUrlDecode (pathRaw.takeWhile (· ≠ 63)) httpMaxPath
            queryString := queryString }

/-- `val` without the bytes that are trimmed at its end. -/
def trimEnd (val : CStr) : CStr :=
  (val.reverse.dropWhile fun b => b = 13 || b = 10 || b = 32).reverse

def httpParseHeader (line : CStr) (req : HttpRequest) : Bool × HttpRequest :=
  if httpMaxHeaders ≤ req.headers.length then (false, req)
  else
    match strchr line 58 with
    | none => (false, req)
    | some colon =>
        let name := strncpy (line.takeWhile (· ≠ 58)) (httpMaxHeaderName - 1)
        let val := trimEnd (colon.tail.dropWhile fun b => b = 32 || b = 9)
        (true, { req with
          headers := req.headers ++ [⟨name, strncpy val (httpMaxHeaderValue - 1)⟩] })

/-- The value of the first header with the name, whatever its case; `none` is `NULL`. -/
def httpRequestGetHeader (req : HttpRequest) (name : CStr) : Option CStr :=
  (req.headers.find? fun header => strcasecmpEq header.name name).map HttpHeader.value

/-! ## Responses -/

def httpResponseInit : HttpResponse := ⟨httpStatusOk, [], []⟩

def httpResponseSetStatus (res : HttpResponse) (code : Int) : HttpResponse :=
  { res with statusCode := code }

def httpResponseAddHeader (res : HttpResponse) (name value : CStr) : HttpResponse :=
  if httpMaxHeaders ≤ res.headers.length then res
  else
    { res with
      headers := res.headers ++
        [⟨strncpy name (httpMaxHeaderName - 1), strncpy value (httpMaxHeaderValue - 1)⟩] }

def httpResponseSetBody (res : HttpResponse) (body : List UInt8) : HttpResponse :=
  { res with body }

def httpResponseSetBodyStr (res : HttpResponse) (body : CStr) : HttpResponse :=
  { res with body }

end MiniBackend.WebServer.Http
