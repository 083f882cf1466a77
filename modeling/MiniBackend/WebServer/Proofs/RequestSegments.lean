import MiniBackend.WebServer.EventLoop

/-!
# Requests in segments

The event loop parses the whole buffer after each `recv`.  Until the blank line after the
headers has arrived nothing happens; from then on every `recv` appends the headers once more
and submits another work item.
-/

namespace MiniBackend.WebServer.Proofs.RequestSegments

open MiniBackend.Lib.CString
open MiniBackend.WebServer.Http MiniBackend.WebServer.Server MiniBackend.WebServer.Events

/-- The bytes of one `recv` and the time of its arrival. -/
structure Segment where
  bytes : List UInt8
  time : Int

def allBytes (segments : List Segment) : List UInt8 := (segments.map Segment.bytes).flatten

/-- The requests in the work items that are submitted for the segments of one connection. -/
def submissions (conn : BufferedConnection) : List Segment → List HttpRequest
  | [] => []
  | segment :: segments =>
      match receive conn segment.bytes segment.time with
      | (.submit, conn) => conn.request :: submissions conn segments
      | (.wait, conn) => submissions conn segments
      | (.reject, _) => []
      | (.disconnect, _) => []

/-- The blank line after the headers is among the bytes. -/
def headerComplete (bytes : List UInt8) : Bool :=
  (strstr (ofBuffer bytes) (crlf ++ crlf)).isSome

def firstLine (bytes : List UInt8) : CStr :=
  match strstr (ofBuffer bytes) crlf with
  | some lineEnd => requestLine (ofBuffer bytes) lineEnd
  | none => []

/-- A request that the parser accepts in one segment. -/
structure Acceptable (bytes : List UInt8) : Prop where
  complete : headerComplete bytes = true
  line : (httpParseRequestLine (firstLine bytes) httpRequestInit).isSome

def headersLength (bytes : List UInt8) : Nat :=
  match strstr (ofBuffer bytes) (crlf ++ crlf) with
  | some headerEnd => (ofBuffer bytes).length - headerEnd.length + 4
  | none => 0

def FullBody (bytes : List UInt8) (req : HttpRequest) : Prop :=
  ∀ value, httpRequestGetHeader req (lit "Content-Length") = some value →
    atoll value + headersLength bytes = bytes.length → req.body = bytes.drop (headersLength bytes)

/-- One work item, with the same request as for a single segment and with the whole body. -/
def SubmittedOnce (conn : BufferedConnection) (segments : List Segment) : Prop :=
  ∃ req, submissions conn segments = [req] ∧
    (∀ time, submissions conn [⟨allBytes segments, time⟩] = [req]) ∧
    FullBody (allBytes segments) req

/-! ## One parse -/

def parsedRequest (buf : List UInt8) (req : HttpRequest) : Option HttpRequest :=
  match strstr (ofBuffer buf) (crlf ++ crlf), strstr (ofBuffer buf) crlf with
  | some headerEnd, some lineEnd =>
      match httpParseRequestLine (requestLine (ofBuffer buf) lineEnd) req with
      | none => none
      | some req =>
          some (parseBody buf ((ofBuffer buf).length - headerEnd.length + 4)
            (parseHeaders headerEnd (ofBuffer buf).length (lineEnd.drop 2) req))
  | _, _ => none

theorem parseHttpRequest_incomplete {conn : BufferedConnection}
    (h : headerComplete conn.recvBuf = false) : parseHttpRequest conn = (-1, conn) := by
  have hnone : strstr (ofBuffer conn.recvBuf) (crlf ++ crlf) = none := by
    simpa [headerComplete] using h
  simp only [parseHttpRequest, hnone]

theorem parseHttpRequest_parsed {conn : BufferedConnection} {req : HttpRequest}
    (h : parsedRequest conn.recvBuf conn.request = some req) :
    parseHttpRequest conn = (0, { conn with
      request := req
      keepAlive := conn.keepAlive && !asksToClose req }) := by
  unfold parsedRequest at h
  unfold parseHttpRequest
  split at h
  · rename_i headerEnd lineEnd hheader hline
    cases hreq : httpParseRequestLine (requestLine (ofBuffer conn.recvBuf) lineEnd)
        conn.request with
    | none =>
        rw [hreq] at h
        contradiction
    | some req' =>
        simp only [hreq, Option.some.injEq] at h
        simp only [hheader, hline, hreq, h]
  · contradiction

theorem httpParseRequestLine_isSome (line : CStr) (req req' : HttpRequest) :
    (httpParseRequestLine line req).isSome = (httpParseRequestLine line req').isSome := by
  unfold httpParseRequestLine
  split
  · rfl
  · split
    · rfl
    · rfl

theorem Acceptable.parsed {bytes : List UInt8} (h : Acceptable bytes) (req : HttpRequest) :
    ∃ req', parsedRequest bytes req = some req' := by
  obtain ⟨headerEnd, hheader⟩ := Option.isSome_iff_exists.mp h.complete
  obtain ⟨lineEnd, hline⟩ := Option.isSome_iff_exists.mp (strstr_isSome_left h.complete)
  have hfirst := h.line
  rw [firstLine, hline, httpParseRequestLine_isSome _ _ req] at hfirst
  obtain ⟨req', hreq⟩ := Option.isSome_iff_exists.mp hfirst
  rw [parsedRequest, hheader, hline]
  simp only
  rw [hreq]
  exact ⟨_, rfl⟩

/-! ## More bytes -/

theorem headerComplete_append {bytes : List UInt8} (h : headerComplete bytes = true)
    (more : List UInt8) : headerComplete (bytes ++ more) = true := by
  obtain ⟨headerEnd, hheader⟩ := Option.isSome_iff_exists.mp h
  obtain ⟨rest, hrest⟩ := ofBuffer_append bytes more
  rw [headerComplete, hrest, strstr_append hheader rest]
  rfl

theorem firstLine_append {bytes : List UInt8} (h : headerComplete bytes = true)
    (more : List UInt8) : firstLine (bytes ++ more) = firstLine bytes := by
  obtain ⟨lineEnd, hline⟩ := Option.isSome_iff_exists.mp (strstr_isSome_left h)
  obtain ⟨rest, hrest⟩ := ofBuffer_append bytes more
  have hle : lineEnd.length ≤ (ofBuffer bytes).length := strstr_length_le hline
  rw [firstLine, firstLine, hrest, strstr_append hline rest, hline]
  simp only [requestLine, List.length_append]
  rw [List.take_append_of_le_length (by omega)]
  congr 1
  omega

theorem Acceptable.of_append {bytes more : List UInt8} (h : Acceptable (bytes ++ more))
    (hcomplete : headerComplete bytes = true) : Acceptable bytes where
  complete := hcomplete
  line := by
    rw [← firstLine_append hcomplete more]
    exact h.line

/-! ## One `recv` -/

variable {conn : BufferedConnection} {bytes : List UInt8}

def stored (conn : BufferedConnection) (bytes : List UInt8) (now : Int) : BufferedConnection :=
  { conn with
    recvBuf := conn.recvBuf ++ bytes
    recvLen := (conn.recvBuf ++ bytes).length
    lastActivity := now }

def Fits (conn : BufferedConnection) (bytes : List UInt8) : Prop :=
  (conn.recvBuf ++ bytes).length < serverRecvBufSize

theorem Fits.left {more : List UInt8} (h : Fits conn (bytes ++ more)) : Fits conn bytes := by
  have hle : (conn.recvBuf ++ bytes).length ≤ (conn.recvBuf ++ (bytes ++ more)).length := by
    simp only [List.length_append]
    omega
  exact Nat.lt_of_le_of_lt hle h

theorem receive_eq (hne : bytes ≠ []) (hfits : Fits conn bytes) (now : Int) :
    receive conn bytes now =
      match parseHttpRequest (stored conn bytes now) with
      | (0, conn) => (.submit, conn)
      | (-2, conn) => (.reject, conn)
      | (_, conn) => (.wait, conn) := by
  have htake : bytes.take (recvRoom conn) = bytes := by
    apply List.take_of_length_le
    rw [Fits, List.length_append] at hfits
    rw [recvRoom]
    omega
  rw [receive, htake]
  simp only [if_neg hne]
  rfl

theorem receive_incomplete (hne : bytes ≠ []) (hfits : Fits conn bytes) (now : Int)
    (h : headerComplete (conn.recvBuf ++ bytes) = false) :
    receive conn bytes now = (.wait, stored conn bytes now) := by
  rw [receive_eq hne hfits, parseHttpRequest_incomplete h]
  rfl

theorem receive_parsed (hne : bytes ≠ []) (hfits : Fits conn bytes) (now : Int)
    {req : HttpRequest} (h : parsedRequest (conn.recvBuf ++ bytes) conn.request = some req) :
    receive conn bytes now = (.submit, { stored conn bytes now with
      request := req
      keepAlive := conn.keepAlive && !asksToClose req }) := by
  rw [receive_eq hne hfits, parseHttpRequest_parsed h]
  rfl

theorem submissions_single (hne : bytes ≠ []) (hfits : Fits conn bytes) (now : Int)
    {req : HttpRequest} (h : parsedRequest (conn.recvBuf ++ bytes) conn.request = some req) :
    submissions conn [⟨bytes, now⟩] = [req] := by
  simp only [submissions, receive_parsed hne hfits now h]

/-! ## Several segments -/

theorem allBytes_cons (segment : Segment) (segments : List Segment) :
    allBytes (segment :: segments) = segment.bytes ++ allBytes segments := List.flatten_cons

def completions (buf : List UInt8) : List Segment → Nat
  | [] => 0
  | segment :: segments =>
      (if headerComplete (buf ++ segment.bytes) then 1 else 0) +
        completions (buf ++ segment.bytes) segments

theorem length_submissions (segments : List Segment) :
    ∀ conn : BufferedConnection, (∀ segment ∈ segments, segment.bytes ≠ []) →
      Fits conn (allBytes segments) → Acceptable (conn.recvBuf ++ allBytes segments) →
      (submissions conn segments).length = completions conn.recvBuf segments := by
  induction segments with
  | nil =>
      intro conn _ _ _
      rfl
  | cons segment segments ih =>
      intro conn hne hfits haccept
      have hsegment : segment.bytes ≠ [] := hne segment List.mem_cons_self
      have hrest : ∀ s ∈ segments, s.bytes ≠ [] := fun s hs =>
        hne s (List.mem_cons_of_mem segment hs)
      rw [allBytes_cons] at hfits haccept
      have hfits' : Fits conn segment.bytes := hfits.left
      rw [Fits, ← List.append_assoc] at hfits
      rw [← List.append_assoc] at haccept
      rw [completions]
      cases hcomplete : headerComplete (conn.recvBuf ++ segment.bytes) with
      | false =>
          have hrec := receive_incomplete hsegment hfits' segment.time hcomplete
          simp only [submissions, hrec]
          rw [ih (stored conn segment.bytes segment.time) hrest hfits haccept]
          simp [stored]
      | true =>
          obtain ⟨req, hreq⟩ := (haccept.of_append hcomplete).parsed conn.request
          have hrec := receive_parsed hsegment hfits' segment.time hreq
          have hcount := ih { stored conn segment.bytes segment.time with
            request := req
            keepAlive := conn.keepAlive && !asksToClose req } hrest hfits haccept
          simp only [submissions, hrec, List.length_cons, hcount]
          simp [stored, Nat.add_comm]

theorem completions_of_complete {buf : List UInt8} (h : headerComplete buf = true)
    (segments : List Segment) : completions buf segments = segments.length := by
  induction segments generalizing buf with
  | nil => rfl
  | cons segment segments ih =>
      have hmore := headerComplete_append h segment.bytes
      rw [completions, hmore, ih hmore, List.length_cons, Nat.add_comm]
      rfl

/-- Exactly one completion means that it is the last segment that completes the headers. -/
theorem completions_eq_one_iff (segments : List Segment) :
    ∀ buf, headerComplete buf = false → headerComplete (buf ++ allBytes segments) = true →
      (completions buf segments = 1 ↔
        headerComplete (buf ++ allBytes segments.dropLast) = false) := by
  induction segments with
  | nil =>
      intro buf hbuf hall
      rw [allBytes, List.map_nil, List.flatten_nil, List.append_nil, hbuf] at hall
      contradiction
  | cons segment segments ih =>
      intro buf hbuf hall
      rw [allBytes_cons, ← List.append_assoc] at hall
      rw [completions]
      cases hcomplete : headerComplete (buf ++ segment.bytes) with
      | false =>
          cases segments with
          | nil =>
              rw [allBytes, List.map_nil, List.flatten_nil, List.append_nil, hcomplete] at hall
              contradiction
          | cons next rest =>
              have hih := ih (buf ++ segment.bytes) hcomplete hall
              rw [List.dropLast_cons_of_ne_nil (List.cons_ne_nil next rest), allBytes_cons,
                ← List.append_assoc, ← hih]
              simp
      | true =>
          rw [completions_of_complete hcomplete]
          cases segments with
          | nil => simpa [allBytes] using hbuf
          | cons next rest =>
              rw [List.dropLast_cons_of_ne_nil (List.cons_ne_nil next rest), allBytes_cons,
                ← List.append_assoc, headerComplete_append hcomplete]
              simp

theorem submissions_of_last (segments : List Segment) :
    ∀ conn : BufferedConnection, (∀ segment ∈ segments, segment.bytes ≠ []) →
      Fits conn (allBytes segments) →
      headerComplete (conn.recvBuf ++ allBytes segments.dropLast) = false →
      ∀ req, parsedRequest (conn.recvBuf ++ allBytes segments) conn.request = some req →
        segments ≠ [] → submissions conn segments = [req] := by
  induction segments with
  | nil =>
      intro conn _ _ _ req _ hnil
      contradiction
  | cons segment segments ih =>
      intro conn hne hfits hlast req hreq _
      have hsegment : segment.bytes ≠ [] := hne segment List.mem_cons_self
      cases segments with
      | nil =>
          rw [allBytes_cons] at hfits hreq
          simp only [allBytes, List.map_nil, List.flatten_nil, List.append_nil] at hfits hreq
          exact submissions_single hsegment hfits segment.time hreq
      | cons next rest =>
          rw [List.dropLast_cons_of_ne_nil (List.cons_ne_nil next rest), allBytes_cons,
            ← List.append_assoc] at hlast
          rw [allBytes_cons] at hfits hreq
          have hfits' : Fits conn segment.bytes := hfits.left
          rw [Fits, ← List.append_assoc] at hfits
          rw [← List.append_assoc] at hreq
          have hcomplete : headerComplete (conn.recvBuf ++ segment.bytes) = false := by
            by_contra htrue
            rw [Bool.not_eq_false] at htrue
            rw [headerComplete_append htrue] at hlast
            contradiction
          have hrec := receive_incomplete hsegment hfits' segment.time hcomplete
          simp only [submissions, hrec]
          exact ih (stored conn segment.bytes segment.time)
            (fun s hs => hne s (List.mem_cons_of_mem segment hs)) hfits hlast req hreq
            (List.cons_ne_nil next rest)

/-! ## The body -/

theorem parseHeaders_body (headerEnd : CStr) (rounds : Nat) (pos : CStr) (req : HttpRequest) :
    (parseHeaders headerEnd rounds pos req).body = req.body := by
  induction rounds generalizing pos req with
  | zero => rfl
  | succ rounds ih =>
      have hheader : ∀ line, (httpParseHeader line req).2.body = req.body := by
        intro line
        unfold httpParseHeader
        split
        · rfl
        · split <;> rfl
      rw [parseHeaders]
      split
      · split
        · rfl
        · rw [ih, hheader]
      · rfl

theorem httpParseRequestLine_body {line : CStr} {req req' : HttpRequest}
    (h : httpParseRequestLine line req = some req') : req'.body = req.body := by
  unfold httpParseRequestLine at h
  split at h
  · contradiction
  · split at h
    · contradiction
    · cases h
      rfl

theorem parseBody_header (buf : List UInt8) (headersLen : Nat) (req : HttpRequest)
    (name : CStr) :
    httpRequestGetHeader (parseBody buf headersLen req) name = httpRequestGetHeader req name := by
  unfold parseBody
  split
  · rfl
  · simp only
    split <;> rfl

theorem parseBody_full {buf : List UInt8} {headersLen : Nat} {req : HttpRequest} {value : CStr}
    (hvalue : httpRequestGetHeader req (lit "Content-Length") = some value)
    (hlength : atoll value + headersLen = buf.length) (hbody : req.body = []) :
    (parseBody buf headersLen req).body = buf.drop headersLen := by
  unfold parseBody
  simp only [hvalue]
  by_cases hpos : 0 < atoll value
  · have hle : headersLen + (atoll value).toNat ≤ buf.length := by omega
    rw [if_pos ⟨hpos, hle⟩]
    apply List.take_of_length_le
    rw [List.length_drop]
    omega
  · rw [if_neg (fun h => hpos h.1), hbody]
    symm
    apply List.drop_of_length_le
    omega

theorem parsedRequest_fullBody {buf : List UInt8} {req : HttpRequest}
    (h : parsedRequest buf httpRequestInit = some req) : FullBody buf req := by
  intro value hvalue hlength
  unfold parsedRequest at h
  split at h
  · rename_i headerEnd lineEnd hheader hline
    have hlen : headersLength buf = (ofBuffer buf).length - headerEnd.length + 4 := by
      rw [headersLength, hheader]
    split at h
    · contradiction
    · rename_i req' hreq
      cases h
      rw [parseBody_header] at hvalue
      rw [hlen] at hlength ⊢
      apply parseBody_full hvalue hlength
      rw [parseHeaders_body, httpParseRequestLine_body hreq]
      rfl
  · contradiction

/-! ## Segmentation -/

/-- A request is submitted once, and as if it had arrived in one segment, exactly when no
segment but the last completes its headers. -/
theorem submittedOnce_iff {conn : BufferedConnection} (hbuf : conn.recvBuf = [])
    (hrequest : conn.request = httpRequestInit) {segments : List Segment}
    (hne : ∀ segment ∈ segments, segment.bytes ≠ [])
    (haccept : Acceptable (allBytes segments))
    (hfits : (allBytes segments).length < serverRecvBufSize) :
    SubmittedOnce conn segments ↔ headerComplete (allBytes segments.dropLast) = false := by
  have hstart : headerComplete [] = false := by decide
  have hbytes : conn.recvBuf ++ allBytes segments = allBytes segments := by
    rw [hbuf, List.nil_append]
  have hfits' : Fits conn (allBytes segments) := by
    rw [Fits, hbytes]
    exact hfits
  constructor
  · intro honce
    obtain ⟨req, hreq, _⟩ := honce
    have hcount := length_submissions segments conn hne hfits' (hbytes.symm ▸ haccept)
    rw [hreq, hbuf] at hcount
    have hiff := completions_eq_one_iff segments [] hstart haccept.complete
    exact hiff.mp hcount.symm
  · intro hlast
    obtain ⟨req, hreq⟩ := haccept.parsed httpRequestInit
    have hall : allBytes segments ≠ [] := by
      intro hnil
      have hcomplete := haccept.complete
      rw [hnil, hstart] at hcomplete
      contradiction
    have hsegments : segments ≠ [] := by
      intro hnil
      subst hnil
      exact hall rfl
    refine ⟨req, ?_, ?_, parsedRequest_fullBody hreq⟩
    · apply submissions_of_last segments conn hne hfits' _ req _ hsegments
      · rw [hbuf]
        exact hlast
      · rw [hbytes, hrequest]
        exact hreq
    · intro time
      apply submissions_single hall hfits' time
      rw [hbytes, hrequest]
      exact hreq

/-- A connection as `server_add_connection` leaves it. -/
def freshConnection : BufferedConnection where
  fd := 4
  lastActivity := 0
  recvLen := 0
  request := httpRequestInit
  response := httpResponseInit
  keepAlive := true
  closed := false
  recvBuf := []

/-- `POST / HTTP/1.1` with one header for a body of one byte, without the body. -/
def postHead : List UInt8 :=
  lit "POST / HTTP/1.1" ++ crlf ++ lit "Content-Length: 1" ++ crlf ++ crlf

/-- The head in two segments, the second one with the body. -/
theorem submittedOnce_split_head :
    SubmittedOnce freshConnection [⟨postHead.take 20, 0⟩, ⟨postHead.drop 20 ++ lit "x", 1⟩] := by
  have haccept : Acceptable (allBytes
      [⟨postHead.take 20, 0⟩, ⟨postHead.drop 20 ++ lit "x", 1⟩]) := by
    constructor
    · decide +kernel
    · decide +kernel
  have hne : ∀ segment ∈ [(⟨postHead.take 20, 0⟩ : Segment), ⟨postHead.drop 20 ++ lit "x", 1⟩],
      segment.bytes ≠ [] := by
    intro segment hsegment
    rcases List.mem_pair.mp hsegment with rfl | rfl
    · decide
    · decide
  have hfits : (allBytes [⟨postHead.take 20, 0⟩, ⟨postHead.drop 20 ++ lit "x", 1⟩]).length <
      serverRecvBufSize := by decide
  apply (submittedOnce_iff rfl rfl hne haccept hfits).mpr
  decide +kernel

/-- With the body in a segment of its own there are two work items, the first without it. -/
theorem submitted_twice_split_body :
    Acceptable (allBytes [⟨postHead, 0⟩, ⟨lit "x", 1⟩]) ∧
      submissions freshConnection [⟨postHead, 0⟩, ⟨lit "x", 1⟩] =
          [⟨.post, lit "/", [], [⟨lit "Content-Length", lit "1"⟩], []⟩,
            ⟨.post, lit "/", [],
              [⟨lit "Content-Length", lit "1"⟩, ⟨lit "Content-Length", lit "1"⟩], lit "x"⟩] ∧
      ¬ SubmittedOnce freshConnection [⟨postHead, 0⟩, ⟨lit "x", 1⟩] := by
  have htwice : submissions freshConnection [⟨postHead, 0⟩, ⟨lit "x", 1⟩] =
      [⟨.post, lit "/", [], [⟨lit "Content-Length", lit "1"⟩], []⟩,
        ⟨.post, lit "/", [],
          [⟨lit "Content-Length", lit "1"⟩, ⟨lit "Content-Length", lit "1"⟩], lit "x"⟩] := by
    decide +kernel
  refine ⟨⟨by decide +kernel, by decide +kernel⟩, htwice, ?_⟩
  intro honce
  obtain ⟨req, hreq, _⟩ := honce
  rw [htwice] at hreq
  exact absurd (List.cons.inj hreq).2 (List.cons_ne_nil _ _)

end MiniBackend.WebServer.Proofs.RequestSegments
