import MiniBackend.WebServer.StaticServe

/-!
# Byte ranges

What `sscanf` reads from a `Range` header of one of the three forms, which bytes are served
then, and which ones the header asks for.  A suffix range is read as a range that starts at a
negative number.
-/

namespace MiniBackend.WebServer.Proofs.ByteRanges

open MiniBackend.Lib.CString
open MiniBackend.WebServer.Http
open MiniBackend.WebServer.StaticServe

/-! ## Range headers -/

abbrev Digits := { s : CStr // s ≠ [] ∧ ∀ b ∈ s, isDigit b = true }

def value (s : Digits) : Nat := digitsPrefix s.1

inductive RangeSpec
  | fromTo (a b : Digits)
  | fromOn (a : Digits)
  | suffix (k : Digits)

def rangeText : RangeSpec → CStr
  | .fromTo a b => lit "bytes=" ++ (a.1 ++ 45 :: b.1)
  | .fromOn a => lit "bytes=" ++ (a.1 ++ [45])
  | .suffix k => lit "bytes=" ++ 45 :: k.1

/-- The first and the last byte that a range selects of a file of `n` bytes. -/
def selected (n : Nat) : RangeSpec → Option (Nat × Nat)
  | .fromTo a b =>
      if value a < n ∧ value a ≤ value b then some (value a, min (value b) (n - 1)) else none
  | .fromOn a => if value a < n then some (value a, n - 1) else none
  | .suffix k => if 0 < n ∧ 0 < value k then some (n - min (value k) n, n - 1) else none

def served (n : Nat) : RangeSpec → Option (Nat × Nat)
  | .suffix _ => if 0 < n then some (0, n - 1) else none
  | spec => selected n spec

/-! ## Reading the header -/

theorem takeWhile_digits (s : Digits) {rest : CStr}
    (hrest : ∀ b ∈ rest.head?, isDigit b = false) :
    (s.1 ++ rest).dropWhile isDigit = rest := by
  rw [List.dropWhile_append_of_pos s.2.2]
  cases rest with
  | nil => rfl
  | cons b rest => exact List.dropWhile_cons_of_neg (by simp [hrest b rfl])

theorem exists_cons (s : Digits) : ∃ b tail, s.1 = b :: tail ∧ isDigit b = true := by
  obtain ⟨b, tail, heq⟩ := List.exists_cons_of_ne_nil s.2.1
  exact ⟨b, tail, heq, s.2.2 b (heq ▸ List.mem_cons_self)⟩

theorem scanLld_digits (s : Digits) {rest : CStr}
    (hrest : ∀ b ∈ rest.head?, isDigit b = false) :
    scanLld (s.1 ++ rest) = some (min (2 ^ 63 - 1) (value s : Int), rest) := by
  have hvalue : atoll (s.1 ++ rest) = min (2 ^ 63 - 1) (value s : Int) := by
    rw [atoll, scanInt_digits_append s.2.1 s.2.2 hrest]
    change max (-2 ^ 63) (min (2 ^ 63 - 1) (value s : Int)) = _
    omega
  have hdrop := takeWhile_digits s hrest
  obtain ⟨b, tail, heq, hb⟩ := exists_cons s
  have hsign : ¬(some b = some (45 : UInt8) ∨ some b = some 43) := by
    rintro (h | h)
    all_goals
      rw [Option.some.inj h] at hb
      exact absurd hb (by decide)
  rw [heq, List.cons_append] at hvalue hdrop ⊢
  unfold scanLld
  rw [List.dropWhile_cons_of_neg (by simp [not_isSpace_of_isDigit hb])]
  simp only [List.head?_cons, hsign, if_false, Option.any_some, hb, if_true, hvalue, hdrop]

theorem scanLld_minus (s : Digits) {rest : CStr}
    (hrest : ∀ b ∈ rest.head?, isDigit b = false) :
    scanLld (45 :: (s.1 ++ rest)) = some (max (-2 ^ 63) (-(value s : Int)), rest) := by
  have hvalue : atoll (45 :: (s.1 ++ rest)) = max (-2 ^ 63) (-(value s : Int)) := by
    rw [atoll, scanInt_minus_append s.2.2 hrest]
    change max (-2 ^ 63) (min (2 ^ 63 - 1) (-(value s : Int))) = _
    omega
  have hdrop := takeWhile_digits s hrest
  obtain ⟨b, tail, heq, hb⟩ := exists_cons s
  rw [heq, List.cons_append] at hvalue hdrop ⊢
  unfold scanLld
  rw [List.dropWhile_cons_of_neg (by decide)]
  simp only [List.head?_cons, true_or, if_true, List.tail_cons, Option.any_some, hb, hvalue,
    hdrop]

def scanned : RangeSpec → Int × Option Int
  | .fromTo a b => (min (2 ^ 63 - 1) (value a : Int), some (min (2 ^ 63 - 1) (value b : Int)))
  | .fromOn a => (min (2 ^ 63 - 1) (value a : Int), none)
  | .suffix k => (max (-2 ^ 63) (-(value k : Int)), none)

theorem scanRange_append (text : CStr) :
    scanRange (lit "bytes=" ++ text) = (scanLld text).map fun (rstart, rest) =>
      match rest with
      | 45 :: rest => (rstart, (scanLld rest).map Prod.fst)
      | _ => (rstart, none) := by
  have hpre : (lit "bytes=").isPrefixOf (lit "bytes=" ++ text) = true :=
    List.isPrefixOf_iff_prefix.mpr (List.prefix_append (lit "bytes=") text)
  rw [scanRange, if_pos hpre]
  rfl

theorem scanRange_rangeText (spec : RangeSpec) :
    scanRange (rangeText spec) = some (scanned spec) := by
  have hdash : ∀ rest : CStr, ∀ b ∈ (45 :: rest).head?, isDigit b = false := by
    intro rest b hb
    rw [← Option.mem_some.mp hb]
    decide
  cases spec with
  | fromTo a b =>
      have hb := scanLld_digits b (by simp : ∀ c ∈ ([] : CStr).head?, isDigit c = false)
      rw [List.append_nil] at hb
      rw [rangeText, scanRange_append, scanLld_digits a (hdash b.1), Option.map_some]
      simp only [hb, Option.map_some]
      rfl
  | fromOn a =>
      rw [rangeText, scanRange_append, scanLld_digits a (hdash []), Option.map_some]
      rfl
  | suffix k =>
      have hk := scanLld_minus k (by simp : ∀ c ∈ ([] : CStr).head?, isDigit c = false)
      rw [List.append_nil] at hk
      rw [rangeText, scanRange_append, hk, Option.map_some]
      rfl

/-! ## Serving a range -/

def contentRange (a b n : Nat) : CStr :=
  lit "bytes " ++ decimal a ++ lit "-" ++ decimal b ++ lit "/" ++ decimal n

def rangeResponse (res : HttpResponse) (bytes : List UInt8) : Option (Nat × Nat) → HttpResponse
  | none => httpResponseSetStatus res httpStatusRangeNotSatisfiable
  | some (a, b) =>
      httpResponseSetBody
        (httpResponseAddHeader (httpResponseSetStatus res httpStatusPartialContent)
          (lit "Content-Range") (contentRange a b bytes.length))
        ((bytes.drop a).take (b + 1 - a))

def clampedStart (rstart : Int) : Int := if rstart < 0 then 0 else rstart

def clampedEnd (n : Nat) (rend : Option Int) : Int :=
  let rend := if rend.getD (-1) < 0 then (n : Int) - 1 else rend.getD (-1)
  if (n : Int) ≤ rend then (n : Int) - 1 else rend

theorem clamped_scanned (spec : RangeSpec) {n : Nat} (hn : n < 2 ^ 63) :
    (served n spec = none ∧ clampedEnd n (scanned spec).2 < clampedStart (scanned spec).1) ∨
      ∃ a b, served n spec = some (a, b) ∧ a ≤ b ∧ b < n ∧
        clampedStart (scanned spec).1 = a ∧ clampedEnd n (scanned spec).2 = b := by
  cases spec with
  | fromTo x y =>
      dsimp only [served, selected, scanned, clampedStart, clampedEnd, Option.getD_some]
      by_cases hsel : value x < n ∧ value x ≤ value y
      · rw [if_pos hsel]
        right
        refine ⟨value x, min (value y) (n - 1), rfl, ?_⟩
        split_ifs
        all_goals omega
      · rw [if_neg hsel]
        left
        refine ⟨rfl, ?_⟩
        split_ifs
        all_goals omega
  | fromOn x =>
      dsimp only [served, selected, scanned, clampedStart, clampedEnd, Option.getD_none]
      by_cases hsel : value x < n
      · rw [if_pos hsel]
        right
        refine ⟨value x, n - 1, rfl, ?_⟩
        split_ifs
        all_goals omega
      · rw [if_neg hsel]
        left
        refine ⟨rfl, ?_⟩
        split_ifs
        all_goals omega
  | suffix k =>
      dsimp only [served, scanned, clampedStart, clampedEnd, Option.getD_none]
      by_cases hsel : 0 < n
      · rw [if_pos hsel]
        right
        refine ⟨0, n - 1, rfl, ?_⟩
        split_ifs
        all_goals omega
      · rw [if_neg hsel]
        left
        refine ⟨rfl, ?_⟩
        split_ifs
        all_goals omega

theorem decimalInt_natCast (n : Nat) : decimalInt n = decimal n := by
  rw [decimalInt, if_neg (by omega), Int.natAbs_natCast]

theorem length_contentRange {a b n : Nat} (hab : a ≤ b) (hbn : b < n) (hn : n < 2 ^ 63) :
    (contentRange a b n).length < 128 := by
  have hdecimal : ∀ m < 2 ^ 63, (decimal m).length ≤ 19 := by
    intro m hm
    exact length_decimal_le (by decide) (by omega)
  have ha := hdecimal a (by omega)
  have hb := hdecimal b (by omega)
  have hlength := hdecimal n hn
  have hunit : (lit "bytes ").length = 6 := by decide
  have hdash : (lit "-").length = 1 := by decide
  have hslash : (lit "/").length = 1 := by decide
  simp only [contentRange, List.length_append]
  omega

theorem staticServeRange_scanned {fs : FileSystem} {path : CStr} {st : FileStat}
    {bytes : List UInt8} (hstat : fs.stat path = some st) (hbytes : fs.contents path = some bytes)
    (hregular : st.isDir = false) (spec : RangeSpec) (res : HttpResponse) :
    staticServeRange fs path res (scanned spec).1
        (if (scanned spec).2.getD (-1) < 0 then (st.size : Int) - 1
          else (scanned spec).2.getD (-1)) =
      (true, rangeResponse res bytes (served bytes.length spec)) := by
  have hsize : bytes.length = st.size := fs.length_contents path st hstat bytes hbytes hregular
  have hn : st.size < 2 ^ 63 := fs.size_lt path st hstat
  rw [hsize]
  simp only [staticServeRange, hstat, hbytes]
  change (if clampedEnd st.size (scanned spec).2 < clampedStart (scanned spec).1 then _
    else _) = _
  obtain ⟨hnone, hlt⟩ | ⟨a, b, hsome, hab, hbn, hstart, hend⟩ := clamped_scanned spec hn
  · rw [if_pos hlt, hnone]
    rfl
  · have hchunk : (clampedEnd st.size (scanned spec).2 - clampedStart (scanned spec).1 +
        1).toNat = b + 1 - a := by omega
    have htext : lit "bytes " ++ decimalInt a ++ lit "-" ++ decimalInt b ++ lit "/" ++
        decimalInt st.size = contentRange a b bytes.length := by
      rw [decimalInt_natCast, decimalInt_natCast, decimalInt_natCast, contentRange, hsize]
    have hlength : (contentRange a b bytes.length).length < 128 :=
      length_contentRange hab (by omega) (by omega)
    rw [if_neg (by omega), hsome]
    change (true, httpResponseSetBody (httpResponseAddHeader _ _ (snprintf (lit "bytes " ++
      decimalInt (clampedStart (scanned spec).1) ++ lit "-" ++
      decimalInt (clampedEnd st.size (scanned spec).2) ++ lit "/" ++ decimalInt st.size) 128))
      ((bytes.drop (clampedStart (scanned spec).1).toNat).take (clampedEnd st.size
      (scanned spec).2 - clampedStart (scanned spec).1 + 1).toNat)) = _
    rw [hchunk, hstart, hend, htext, snprintf_of_lt hlength, Int.toNat_natCast]
    rfl

/-! ## Headers -/

def fileHeaders (cfg : StaticConfig) (fpath : CStr) (st : FileStat) : List (CStr × CStr) :=
  [(lit "Content-Type", staticGetMimeType cfg fpath), (lit "Accept-Ranges", lit "bytes")] ++
    if cfg.enableCaching then
      [(lit "ETag", (fileCacheInfo st).etag),
        (lit "Last-Modified", (fileCacheInfo st).lastModified),
        (lit "Cache-Control", lit "public, max-age=3600")]
    else []

def addHeaders (res : HttpResponse) (headers : List (CStr × CStr)) : HttpResponse :=
  headers.foldl (fun res h => httpResponseAddHeader res h.1 h.2) res

def stored (h : CStr × CStr) : HttpHeader :=
  ⟨strncpy h.1 (httpMaxHeaderName - 1), strncpy h.2 (httpMaxHeaderValue - 1)⟩

theorem addFileHeaders_eq (cfg : StaticConfig) (fpath : CStr) (st : FileStat)
    (res : HttpResponse) :
    addFileHeaders cfg fpath st res = addHeaders res (fileHeaders cfg fpath st) := by
  unfold addFileHeaders fileHeaders addHeaders
  rw [List.foldl_append]
  cases cfg.enableCaching with
  | true => simp only [if_true, List.foldl_cons, List.foldl_nil, staticBuildCacheHeaders]
  | false => simp only [Bool.false_eq_true, if_false, List.foldl_cons, List.foldl_nil]

theorem headers_addHeaders (headers : List (CStr × CStr)) (res : HttpResponse) :
    (addHeaders res headers).headers =
      res.headers ++ (headers.take (httpMaxHeaders - res.headers.length)).map stored := by
  induction headers generalizing res with
  | nil => simp [addHeaders]
  | cons h headers ih =>
      change (addHeaders (httpResponseAddHeader res h.1 h.2) headers).headers = _
      rw [ih]
      by_cases hfull : httpMaxHeaders ≤ res.headers.length
      · have hzero : httpMaxHeaders - res.headers.length = 0 := Nat.sub_eq_zero_of_le hfull
        rw [httpResponseAddHeader, if_pos hfull, hzero, List.take_zero, List.take_zero]
      · have hroom : httpMaxHeaders - res.headers.length =
            httpMaxHeaders - (res.headers.length + 1) + 1 := by omega
        rw [httpResponseAddHeader, if_neg hfull, hroom, List.take_succ_cons, List.map_cons]
        simp only [List.length_append, List.length_singleton, List.append_assoc]
        rfl

/-- The headers of a partial response: those of the file, and `Content-Range` behind them. -/
theorem headers_rangeResponse (cfg : StaticConfig) (fpath : CStr) (st : FileStat)
    (res : HttpResponse) (bytes : List UInt8) (a b : Nat) :
    (rangeResponse (addFileHeaders cfg fpath st res) bytes (some (a, b))).headers =
      res.headers ++ ((fileHeaders cfg fpath st ++
        [(lit "Content-Range", contentRange a b bytes.length)]).take
          (httpMaxHeaders - res.headers.length)).map stored := by
  rw [← headers_addHeaders, addFileHeaders_eq, addHeaders, addHeaders, List.foldl_append]
  generalize (fileHeaders cfg fpath st).foldl _ res = withFile
  change (httpResponseAddHeader (httpResponseSetStatus withFile _) _ _).headers =
    (httpResponseAddHeader withFile _ _).headers
  unfold httpResponseAddHeader httpResponseSetStatus
  dsimp only
  split
  all_goals rfl

theorem name_fileHeaders {cfg : StaticConfig} {fpath : CStr} {st : FileStat} {h : CStr × CStr}
    (hmem : h ∈ fileHeaders cfg fpath st) : (stored h).name ≠ lit "Content-Range" := by
  have hname : h.1 ∈ [lit "Content-Type", lit "Accept-Ranges", lit "ETag", lit "Last-Modified",
      lit "Cache-Control"] := by
    unfold fileHeaders at hmem
    cases hcaching : cfg.enableCaching
    all_goals
      rw [hcaching] at hmem
      simp only [Bool.false_eq_true, if_false, if_true, List.append_nil, List.cons_append,
        List.nil_append, List.mem_cons, List.not_mem_nil, or_false] at hmem ⊢
    · rcases hmem with rfl | rfl
      all_goals simp
    · rcases hmem with rfl | rfl | rfl | rfl | rfl
      all_goals simp
  have hall : ∀ name ∈ [lit "Content-Type", lit "Accept-Ranges", lit "ETag",
      lit "Last-Modified", lit "Cache-Control"],
      strncpy name (httpMaxHeaderName - 1) ≠ lit "Content-Range" := by
    decide
  exact hall h.1 hname

theorem ends_with_content_range_iff (cfg : StaticConfig) (fpath : CStr) (st : FileStat)
    (res : HttpResponse) {bytes : List UInt8} {a b : Nat} (hab : a ≤ b)
    (hbn : b < bytes.length) (hn : bytes.length < 2 ^ 63) :
    (∃ others, (rangeResponse (addFileHeaders cfg fpath st res) bytes (some (a, b))).headers =
        res.headers ++ others ++ [⟨lit "Content-Range", contentRange a b bytes.length⟩]) ↔
      res.headers.length + (fileHeaders cfg fpath st).length < httpMaxHeaders := by
  have hlength : (contentRange a b bytes.length).length < 128 := length_contentRange hab hbn hn
  have hstored : stored (lit "Content-Range", contentRange a b bytes.length) =
      ⟨lit "Content-Range", contentRange a b bytes.length⟩ := by
    have hname : (lit "Content-Range").length ≤ httpMaxHeaderName - 1 := by decide
    have hvalue : (contentRange a b bytes.length).length ≤ httpMaxHeaderValue - 1 :=
      Nat.le_trans (Nat.le_of_lt hlength) (by decide)
    rw [stored, strncpy_of_le hname, strncpy_of_le hvalue]
  rw [headers_rangeResponse]
  constructor
  · rintro ⟨others, heq⟩
    by_contra hfull
    -- without room only headers of the file are added, which have other names
    rw [List.append_assoc, List.append_cancel_left_eq,
      List.take_append_of_le_length (by omega)] at heq
    have hmem : (⟨lit "Content-Range", contentRange a b bytes.length⟩ : HttpHeader) ∈
        ((fileHeaders cfg fpath st).take (httpMaxHeaders - res.headers.length)).map stored := by
      rw [heq]
      exact List.mem_append_right others (List.mem_singleton.mpr rfl)
    obtain ⟨h, hh, hname⟩ := List.mem_map.mp hmem
    apply name_fileHeaders (List.mem_of_mem_take hh)
    rw [hname]
  · intro hroom
    refine ⟨(fileHeaders cfg fpath st).map stored, ?_⟩
    rw [List.take_of_length_le, List.map_append, List.map_singleton, hstored, List.append_assoc]
    rw [List.length_append, List.length_singleton]
    omega

/-! ## Range requests -/

/-- The request has the range as its `Range` header, and what its path leads to is a regular
file with these bytes, which it does not turn out to have already. -/
structure RangeRequest (fs : FileSystem) (cfg : StaticConfig) (urlPath : CStr)
    (req : HttpRequest) (spec : RangeSpec) (path : CStr) (st : FileStat)
    (bytes : List UInt8) : Prop where
  enabled : cfg.enableRange = true
  header : httpRequestGetHeader req (lit "Range") = some (rangeText spec)
  target : ∃ fpath, buildFullPath cfg urlPath fpathSize = some fpath ∧
    findTarget fs cfg fpath = .file path st
  stat : fs.stat path = some st
  regular : st.isDir = false
  readable : fs.contents path = some bytes
  modified : cfg.enableCaching = true → staticCheckNotModified req (fileCacheInfo st) = false

theorem staticServeFile_range {fs : FileSystem} {cfg : StaticConfig} {urlPath : CStr}
    {req : HttpRequest} {spec : RangeSpec} {path : CStr} {st : FileStat} {bytes : List UInt8}
    (h : RangeRequest fs cfg urlPath req spec path st bytes) (res : HttpResponse) :
    staticServeFile fs cfg urlPath req res =
      (true, rangeResponse (addFileHeaders cfg path st res) bytes
        (served bytes.length spec)) := by
  obtain ⟨fpath, hbuild, htarget⟩ := h.target
  have hmodified : (cfg.enableCaching && staticCheckNotModified req (fileCacheInfo st)) =
      false := by
    cases hcaching : cfg.enableCaching
    · rfl
    · rw [h.modified hcaching]
      rfl
  simp only [staticServeFile, hbuild, htarget, hmodified, Bool.false_eq_true, if_false]
  rw [← staticServeRange_scanned h.stat h.readable h.regular spec]
  unfold serveContents
  have hscan : (Option.filter (fun _ => true) (some (rangeText spec)) >>= scanRange) =
      some (scanned spec) := scanRange_rangeText spec
  rw [h.header, h.enabled, hscan]

/-- What a range request asks for: exactly the bytes that the range selects, with a matching
`Content-Range`, and 416 exactly if it selects none. -/
structure AnswersRange (spec : RangeSpec) (bytes : List UInt8) (headers : List HttpHeader)
    (out : Bool × HttpResponse) : Prop where
  returned : out.1 = true
  partialContent : ∀ a b, selected bytes.length spec = some (a, b) →
    out.2.statusCode = httpStatusPartialContent ∧
      out.2.body = (bytes.drop a).take (b + 1 - a) ∧
      ∃ others, out.2.headers =
        headers ++ others ++ [⟨lit "Content-Range", contentRange a b bytes.length⟩]
  notSatisfiable : out.2.statusCode = httpStatusRangeNotSatisfiable ↔
    selected bytes.length spec = none

/-- A suffix range is at least as long as the file. -/
def coversSuffix (n : Nat) : RangeSpec → Prop
  | .suffix k => n ≤ value k
  | _ => True

/-- How many headers are added before `Content-Range`. -/
def headersBefore (cfg : StaticConfig) : Nat := if cfg.enableCaching then 5 else 2

theorem length_fileHeaders (cfg : StaticConfig) (fpath : CStr) (st : FileStat) :
    (fileHeaders cfg fpath st).length = headersBefore cfg := by
  unfold fileHeaders headersBefore
  cases cfg.enableCaching
  all_goals rfl

/-- What is selected is also what is served, unless the end of a longer file is asked for. -/
theorem served_eq_selected {n : Nat} {spec : RangeSpec} (h : coversSuffix n spec) :
    served n spec = selected n spec := by
  cases spec with
  | fromTo a b => rfl
  | fromOn a => rfl
  | suffix k =>
      change n ≤ value k at h
      by_cases hn : 0 < n
      · have hfirst : n - min (value k) n = 0 := by omega
        rw [served, selected, if_pos hn, if_pos ⟨hn, by omega⟩, hfirst]
      · rw [served, selected, if_neg hn, if_neg (fun hsel => hn hsel.1)]

theorem selected_bounds {n a b : Nat} {spec : RangeSpec} (h : selected n spec = some (a, b)) :
    a ≤ b ∧ b < n := by
  cases spec with
  | fromTo x y =>
      rw [selected] at h
      split at h
      · cases h
        omega
      · cases h
  | fromOn x =>
      rw [selected] at h
      split at h
      · cases h
        omega
      · cases h
  | suffix k =>
      rw [selected] at h
      split at h
      · cases h
        omega
      · cases h

theorem statusCode_rangeResponse (res : HttpResponse) (bytes : List UInt8) (a b : Nat) :
    (rangeResponse res bytes (some (a, b))).statusCode = httpStatusPartialContent := by
  dsimp only [rangeResponse, httpResponseSetBody, httpResponseAddHeader, httpResponseSetStatus]
  split
  all_goals rfl

theorem coversSuffix_of_answers {spec : RangeSpec} {bytes : List UInt8}
    {headers : List HttpHeader} {res : HttpResponse}
    (h : AnswersRange spec bytes headers
      (true, rangeResponse res bytes (served bytes.length spec))) :
    coversSuffix bytes.length spec := by
  cases spec with
  | fromTo a b => trivial
  | fromOn a => trivial
  | suffix k =>
      change bytes.length ≤ value k
      by_contra hlong
      have hserved : served bytes.length (.suffix k) = some (0, bytes.length - 1) := by
        rw [served, if_pos (by omega)]
      by_cases hk : 0 < value k
      · have hselected : selected bytes.length (.suffix k) =
            some (bytes.length - min (value k) bytes.length, bytes.length - 1) := by
          rw [selected, if_pos ⟨by omega, hk⟩]
        obtain ⟨-, hbody, -⟩ := h.partialContent _ _ hselected
        have hlength := congrArg List.length hbody
        rw [hserved] at hlength
        simp only [rangeResponse, httpResponseSetBody, List.length_take, List.length_drop]
          at hlength
        omega
      · have hselected : selected bytes.length (.suffix k) = none := by
          rw [selected, if_neg (fun hsel => hk hsel.2)]
        have hstatus := h.notSatisfiable.mpr hselected
        rw [hserved] at hstatus
        change (rangeResponse res bytes _).statusCode = _ at hstatus
        rw [statusCode_rangeResponse] at hstatus
        exact absurd hstatus (by decide)

/-- A range request is answered as the range says exactly if a suffix range covers the file,
and `Content-Range` has room in the response where bytes are selected. -/
theorem answers_range_iff {fs : FileSystem} {cfg : StaticConfig} {urlPath : CStr}
    {req : HttpRequest} {spec : RangeSpec} {path : CStr} {st : FileStat} {bytes : List UInt8}
    (h : RangeRequest fs cfg urlPath req spec path st bytes) (res : HttpResponse) :
    AnswersRange spec bytes res.headers (staticServeFile fs cfg urlPath req res) ↔
      coversSuffix bytes.length spec ∧ (selected bytes.length spec ≠ none →
        res.headers.length + headersBefore cfg < httpMaxHeaders) := by
  have hn : bytes.length < 2 ^ 63 := by
    rw [fs.length_contents path st h.stat bytes h.readable h.regular]
    exact fs.size_lt path st h.stat
  rw [staticServeFile_range h]
  constructor
  · intro hanswers
    have hcovers := coversSuffix_of_answers hanswers
    refine ⟨hcovers, ?_⟩
    intro hsome
    obtain ⟨⟨a, b⟩, hselected⟩ := Option.ne_none_iff_exists'.mp hsome
    have hbounds := selected_bounds hselected
    obtain ⟨-, -, hheaders⟩ := hanswers.partialContent a b hselected
    rw [served_eq_selected hcovers, hselected] at hheaders
    rw [← length_fileHeaders cfg path st]
    exact (ends_with_content_range_iff cfg path st res hbounds.1 hbounds.2 hn).mp hheaders
  · rintro ⟨hcovers, hroom⟩
    rw [served_eq_selected hcovers]
    cases hselected : selected bytes.length spec with
    | none =>
        refine ⟨rfl, ?_, ?_⟩
        · intro a b hsome
          rw [hselected] at hsome
          cases hsome
        · exact iff_of_true rfl hselected
    | some ab =>
        obtain ⟨a, b⟩ := ab
        have hbounds := selected_bounds hselected
        have hfits := hroom (by rw [hselected]; exact Option.some_ne_none _)
        rw [← length_fileHeaders cfg path st] at hfits
        refine ⟨rfl, ?_, ?_⟩
        · intro a' b' hsome
          rw [hselected] at hsome
          cases hsome
          exact ⟨statusCode_rangeResponse _ bytes a b, rfl,
            (ends_with_content_range_iff cfg path st res hbounds.1 hbounds.2 hn).mpr hfits⟩
        · change (rangeResponse _ bytes _).statusCode = _ ↔ _
          rw [statusCode_rangeResponse, hselected]
          exact iff_of_false (by decide) (Option.some_ne_none _)

/-! ## A file of five bytes -/

def fiveBytes : List UInt8 := [10, 11, 12, 13, 14]

/-- The only file is `/w/a`. -/
def fiveByteFiles : FileSystem where
  stat := fun path => if path = lit "/w/a" then some ⟨false, 5, 0⟩ else none
  contents := fun path => if path = lit "/w/a" then some fiveBytes else none
  size_lt := by
    intro path st hst
    split at hst
    · cases hst
      decide
    · cases hst
  length_contents := by
    intro path st hst bytes hbytes hregular
    split at hst
    · rename_i hpath
      rw [if_pos hpath] at hbytes
      cases hst
      cases hbytes
      rfl
    · cases hst

def rangeRequest (spec : RangeSpec) : HttpRequest :=
  { httpRequestInit with
    method := .get
    path := lit "/a"
    headers := [⟨lit "Range", rangeText spec⟩] }

/-- `bytes=-2`. -/
def lastTwo : RangeSpec := .suffix ⟨lit "2", by decide +kernel⟩

theorem rangeRequest_lastTwo :
    RangeRequest fiveByteFiles (staticConfigInit (lit "/w")) (lit "/a") (rangeRequest lastTwo)
      lastTwo (lit "/w/a") ⟨false, 5, 0⟩ fiveBytes where
  enabled := rfl
  header := by decide
  target := ⟨lit "/w/a", by decide⟩
  stat := by decide
  regular := rfl
  readable := by decide
  modified := by
    intro _
    decide

theorem answers_range_iff_lastTwo :
    AnswersRange lastTwo fiveBytes httpResponseInit.headers
        (staticServeFile fiveByteFiles (staticConfigInit (lit "/w")) (lit "/a")
          (rangeRequest lastTwo) httpResponseInit) ↔
      coversSuffix fiveBytes.length lastTwo ∧ (selected fiveBytes.length lastTwo ≠ none →
        httpResponseInit.headers.length + headersBefore (staticConfigInit (lit "/w")) <
          httpMaxHeaders) :=
  answers_range_iff rangeRequest_lastTwo httpResponseInit

/-- The last two bytes are asked for, and all five are served. -/
theorem suffix_serves_whole_file :
    RangeRequest fiveByteFiles (staticConfigInit (lit "/w")) (lit "/a") (rangeRequest lastTwo)
        lastTwo (lit "/w/a") ⟨false, 5, 0⟩ fiveBytes ∧
      ¬AnswersRange lastTwo fiveBytes httpResponseInit.headers
        (staticServeFile fiveByteFiles (staticConfigInit (lit "/w")) (lit "/a")
          (rangeRequest lastTwo) httpResponseInit) := by
  refine ⟨rangeRequest_lastTwo, ?_⟩
  intro h
  obtain ⟨-, hbody, -⟩ := h.partialContent 3 4 (by decide)
  exact absurd hbody (by decide)

end MiniBackend.WebServer.Proofs.ByteRanges
