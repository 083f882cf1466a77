import MiniBackend.Lib.Calendar
import MiniBackend.WebServer.HttpCore

/-!
# `static_serve.c`

Files served from a directory.  The files do not change while a request is served, and
allocations succeed.
-/

namespace MiniBackend.WebServer.StaticServe

open MiniBackend.Lib.CString
open MiniBackend.Lib.Calendar
open MiniBackend.WebServer.Http

def staticMaxRootPath : Nat := 1024
def staticDefaultIndex : CStr := lit "index.html"

structure MimeEntry where
  extension : CStr
  mimeType : CStr

structure StaticConfig where
  rootDir : CStr
  mimeTable : List MimeEntry
  enableCaching : Bool
  enableRange : Bool
  directoryListing : Bool
  indexFile : CStr

structure FileCacheInfo where
  etag : CStr
  lastModified : CStr
  fileSize : Nat
  mtime : Int

/-! ## The files -/

/-- What `stat` returns. -/
structure FileStat where
  isDir : Bool
  size : Nat
  mtime : Int
deriving DecidableEq

/-- The files by their paths.  `contents` is what can be read from a file that can be opened. -/
structure FileSystem where
  stat : CStr → Option FileStat
  contents : CStr → Option (List UInt8)
  size_lt : ∀ path, ∀ st ∈ stat path, st.size < 2 ^ 63
  length_contents : ∀ path, ∀ st ∈ stat path, ∀ bytes ∈ contents path,
    st.isDir = false → bytes.length = st.size

/-! ## Configuration -/

def staticConfigInit (rootDir : CStr) : StaticConfig where
  rootDir := strncpy rootDir (staticMaxRootPath - 1)
  mimeTable := []
  enableCaching := true
  enableRange := true
  directoryListing := false
  indexFile := staticDefaultIndex

def staticGetMimeType (cfg : StaticConfig) (path : CStr) : CStr :=
  match strrchr path 46 with
  | none => lit "application/octet-stream"
  | some dot =>
      match cfg.mimeTable.find? fun entry => strcasecmpEq dot entry.extension with
      | some entry => entry.mimeType
      | none => lit "application/octet-stream"

/-! ## Paths -/

def isSlash (b : UInt8) : Bool := b = 47 || b = 92

/-- The loop that cuts slashes and backslashes off the end. -/
def trimSlashes (out : CStr) : CStr := (out.reverse.dropWhile isSlash).reverse

def buildFullPath (cfg : StaticConfig) (urlPath : CStr) (outSz : Nat) : Option CStr :=
  let text := cfg.rootDir ++ urlPath
  if outSz ≤ text.length then none
  else if trimSlashes text = [] then some (strncpy cfg.indexFile (outSz - 1))
  else some (trimSlashes text)

def fpathSize : Nat := staticMaxRootPath + 256

/-- What a path leads to. -/
inductive Target
  | notFound
  | forbidden
  | file (path : CStr) (st : FileStat)
deriving DecidableEq

/-- The file at `fpath`, which is its index file where it is a directory.  The last byte of
`fpath` is zero. -/
def findTarget (fs : FileSystem) (cfg : StaticConfig) (fpath : CStr) : Target :=
  match fs.stat fpath with
  | none => .notFound
  | some st =>
      if st.isDir then
        let ipath := snprintf (fpath ++ lit "/" ++ cfg.indexFile) (staticMaxRootPath + 512)
        match fs.stat ipath with
        | none => .forbidden
        | some st => .file (strncpy ipath (fpathSize - 1)) st
      else .file fpath st

/-! ## Conditional requests -/

def gmtime (t : Int) : Tm := localtime t

def weekdayNames : List CStr :=
  [lit "Sun", lit "Mon", lit "Tue", lit "Wed", lit "Thu", lit "Fri", lit "Sat"]

def monthNames : List CStr :=
  [lit "Jan", lit "Feb", lit "Mar", lit "Apr", lit "May", lit "Jun", lit "Jul", lit "Aug",
    lit "Sep", lit "Oct", lit "Nov", lit "Dec"]

def weekdayName (tm : Tm) : CStr := weekdayNames.getD tm.wday.toNat []

def monthName (tm : Tm) : CStr := monthNames.getD tm.mon.toNat []

def yearText (tm : Tm) : CStr := decimalInt (tm.year + 1900)

/-- `%d`, `%H`, `%M` and `%S`. -/
def twoDigits (n : Int) : CStr :=
  [UInt8.ofNat (48 + n.toNat / 10), UInt8.ofNat (48 + n.toNat % 10)]

/-- `strftime` of `"%a, %d %b %Y %H:%M:%S GMT"`. -/
def httpDate (tm : Tm) : CStr :=
  weekdayName tm ++ lit ", " ++ twoDigits tm.mday ++ lit " " ++ monthName tm ++ lit " " ++
    yearText tm ++ lit " " ++ twoDigits tm.hour ++ lit ":" ++ twoDigits tm.min ++ lit ":" ++
    twoDigits tm.sec ++ lit " GMT"

def staticBuildEtag (mtime : Int) (size : Nat) (bufSz : Nat) : CStr :=
  snprintf (lit "\"" ++ hexadecimal (mtime % 2 ^ 64).toNat ++ lit "-" ++
    hexadecimal (size % 2 ^ 64) ++ lit "\"") bufSz

/-- The `info` of `static_serve_file`. -/
def fileCacheInfo (st : FileStat) : FileCacheInfo where
  etag := staticBuildEtag st.mtime st.size 64
  lastModified := httpDate (gmtime st.mtime)
  fileSize := st.size
  mtime := st.mtime

def staticBuildCacheHeaders (info : FileCacheInfo) (res : HttpResponse) : HttpResponse :=
  let res := httpResponseAddHeader res (lit "ETag") info.etag
  let res := httpResponseAddHeader res (lit "Last-Modified") info.lastModified
  httpResponseAddHeader res (lit "Cache-Control") (lit "public, max-age=3600")

def staticCheckNotModified (req : HttpRequest) (info : FileCacheInfo) : Bool :=
  if (httpRequestGetHeader req (lit "If-Modified-Since")).any fun ims =>
      0 ≤ strcmp ims info.lastModified then true
  else (httpRequestGetHeader req (lit "If-None-Match")).any fun inm =>
    strcmp inm info.etag = 0

/-! ## Ranges -/

/-- `sscanf` of `"bytes=%lld-%lld"` when it assigns a number, and the second one if it does. -/
def scanRange (rangeHdr : CStr) : Option (Int × Option Int) :=
  if (lit "bytes=").isPrefixOf rangeHdr then
    (scanLld (rangeHdr.drop 6)).map fun (rstart, rest) =>
      match rest with
      | 45 :: rest => (rstart, (scanLld rest).map Prod.fst)
      | _ => (rstart, none)
  else none

def staticServeRange (fs : FileSystem) (path : CStr) (res : HttpResponse)
    (rangeStart rangeEnd : Int) : Bool × HttpResponse :=
  match fs.stat path with
  | none => (false, res)
  | some st =>
      let rangeStart := if rangeStart < 0 then 0 else rangeStart
      let rangeEnd := if (st.size : Int) ≤ rangeEnd then (st.size : Int) - 1 else rangeEnd
      if rangeEnd < rangeStart then
        (true, httpResponseSetStatus res httpStatusRangeNotSatisfiable)
      else
        match fs.contents path with
        | none => (false, res)
        | some bytes =>
            let chunkSize := rangeEnd - rangeStart + 1
            let chunk := (bytes.drop rangeStart.toNat).take chunkSize.toNat
            let rangeVal := snprintf (lit "bytes " ++ decimalInt rangeStart ++ lit "-" ++
              decimalInt rangeEnd ++ lit "/" ++ decimalInt st.size) 128
            let res := httpResponseSetStatus res httpStatusPartialContent
            let res := httpResponseAddHeader res (lit "Content-Range") rangeVal
            (true, httpResponseSetBody res chunk)

/-! ## Serving -/

/-- From the `Range` header on. -/
def serveContents (fs : FileSystem) (cfg : StaticConfig) (fpath : CStr) (st : FileStat)
    (req : HttpRequest) (res : HttpResponse) : Bool × HttpResponse :=
  match (httpRequestGetHeader req (lit "Range")).filter (fun _ => cfg.enableRange) >>=
      scanRange with
  | some (rstart, rend) =>
      let rend := rend.getD (-1)
      let rend := if rend < 0 then (st.size : Int) - 1 else rend
      staticServeRange fs fpath res rstart rend
  | none =>
      match fs.contents fpath with
      | none => (false, res)
      | some bytes =>
          (true, httpResponseSetBody (httpResponseSetStatus res httpStatusOk) bytes)

/-- The headers that are added before anything is checked. -/
def addFileHeaders (cfg : StaticConfig) (fpath : CStr) (st : FileStat) (res : HttpResponse) :
    HttpResponse :=
  let res := httpResponseAddHeader res (lit "Content-Type") (staticGetMimeType cfg fpath)
  let res := httpResponseAddHeader res (lit "Accept-Ranges") (lit "bytes")
  if cfg.enableCaching then staticBuildCacheHeaders (fileCacheInfo st) res else res

def staticServeFile (fs : FileSystem) (cfg : StaticConfig) (urlPath : CStr) (req : HttpRequest)
    (res : HttpResponse) : Bool × HttpResponse :=
  match buildFullPath cfg urlPath fpathSize with
  | none => (false, res)
  | some fpath =>
      match findTarget fs cfg fpath with
      | .notFound =>
          (true, httpResponseSetBodyStr (httpResponseSetStatus res httpStatusNotFound)
            (lit "404 Not Found"))
      | .forbidden =>
          (true, httpResponseSetBodyStr (httpResponseSetStatus res httpStatusForbidden)
            (lit "403 Forbidden"))
      | .file fpath st =>
          let res := addFileHeaders cfg fpath st res
          if cfg.enableCaching && staticCheckNotModified req (fileCacheInfo st) then
            (true, httpResponseSetStatus res httpStatusNotModified)
          else serveContents fs cfg fpath st req res

end MiniBackend.WebServer.StaticServe
