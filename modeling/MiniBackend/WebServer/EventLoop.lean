import MiniBackend.WebServer.Server
import Mathlib.Logic.Function.Basic

/-!
# `server.c`: the event loop and the workers

First what the event loop does with the bytes that it receives on one connection: `recv_buf`
is the list of its bytes up to `recv_len`, which a NUL follows.  Then the connections array
with the steps of the event loop and of the workers on it.
-/

namespace MiniBackend.WebServer.Events

open MiniBackend.Lib.CString
open MiniBackend.WebServer.Http MiniBackend.WebServer.Routing MiniBackend.WebServer.Middleware
open MiniBackend.WebServer.Server

def serverRecvBufSize : Nat := 65536

/-- A connection with its receive buffer; `recv_len` is the length of `recvBuf`. -/
structure BufferedConnection extends Connection where
  recvBuf : List UInt8
deriving DecidableEq

def crlf : CStr := [13, 10]

/-- The loop of `parse_http_request` over the header lines, with a bound on its rounds.  The
position is what is left of the data from it on. -/
def parseHeaders (headerEnd : CStr) : Nat → CStr → HttpRequest → HttpRequest
  | 0, _, req => req
  | rounds + 1, pos, req =>
      if headerEnd.length < pos.length ∧ pos.head? ≠ some 13 then
        match strstr pos crlf with
        | none => req
        | some hdrEnd =>
            let line := pos.take (pos.length - hdrEnd.length)
            parseHeaders headerEnd rounds (hdrEnd.drop 2) (httpParseHeader line req).2
      else req

def requestLine (data lineEnd : CStr) : CStr := data.take (data.length - lineEnd.length)

def parseBody (buf : List UInt8) (headersLen : Nat) (req : HttpRequest) : HttpRequest :=
  match httpRequestGetHeader req (lit "Content-Length") with
  | none => req
  | some clStr =>
      let bodyLen := atoll clStr
      if 0 < bodyLen ∧ headersLen + bodyLen.toNat ≤ buf.length then
        { req with body := (buf.drop headersLen).take bodyLen.toNat }
      else req

def asksToClose (req : HttpRequest) : Bool :=
  match httpRequestGetHeader req (lit "Connection") with
  | none => false
  | some value => strcasecmpEq value (lit "close")

/-- Each round of the loop over the headers consumes a line end, so there are at most as many
as bytes. -/
def parseHttpRequest (conn : BufferedConnection) : Int × BufferedConnection :=
  let data := ofBuffer conn.recvBuf
  match strstr data (crlf ++ crlf), strstr data crlf with
  | some headerEnd, some lineEnd =>
      match httpParseRequestLine (requestLine data lineEnd) conn.request with
      | none => (-2, conn)
      | some req =>
          let req := parseHeaders headerEnd data.length (lineEnd.drop 2) req
          let headersLen := data.length - headerEnd.length + 4
          let req := parseBody conn.recvBuf headersLen req
          (0, { conn with
            request := req
            keepAlive := conn.keepAlive && !asksToClose req })
  | _, _ => (-1, conn)

/-- What the event loop goes on to do after `recv`. -/
inductive Received
  | disconnect
  | wait
  | submit
  | reject
deriving DecidableEq

def recvRoom (conn : BufferedConnection) : Nat := serverRecvBufSize - conn.recvBuf.length - 1

/-- The bytes are those that wait in the socket; none at all stand for an error or the end of
the stream.  `recv` stores as many as there is room for. -/
def receive (conn : BufferedConnection) (bytes : List UInt8) (now : Int) :
    Received × BufferedConnection :=
  let stored := bytes.take (recvRoom conn)
  if stored = [] then (.disconnect, conn)
  else
    let recvBuf := conn.recvBuf ++ stored
    let conn := { conn with recvBuf := recvBuf, recvLen := recvBuf.length, lastActivity := now }
    match parseHttpRequest conn with
    | (0, conn) => (.submit, conn)
    | (-2, conn) => (.reject, conn)
    | (_, conn) => (.wait, conn)

/-! ## The connections array -/

abbrev Client := Nat

/-- `conn` of a work item is the address of a slot; the router and the chain are those of the
server.  The senders of the bytes that were parsed are not part of the program. -/
structure Item where
  slot : Nat
  senders : List Client
deriving DecidableEq

inductive WorkerPhase
  | ready
  | dequeued (item : Item)
  | processed (item : Item)
deriving DecidableEq

/-- A response that was sent for an item, and the client that got it. -/
structure Sent where
  item : Item
  receiver : Client
  response : HttpResponse
deriving DecidableEq

/-- `slots` is the memory of the array, also behind `connCount`.  `descriptors` are the open
sockets of the process.  For each slot `peer` is the client that it was filled for, and
`senders` those whose bytes are in its buffer; neither is part of the program. -/
structure Server (ω : Type) where
  slots : Nat → BufferedConnection
  connCount : Nat
  connCapacity : Nat
  keepaliveTimeout : Int
  router : Option Router
  middleware : MiddlewareChain ω
  queue : List Item
  workers : List WorkerPhase
  descriptors : Int → Option Client
  peer : Nat → Client
  senders : Nat → List Client
  sent : List Sent
  world : ω

variable {ω : Type}

def newConnection (clientFd : Int) (now : Int) : BufferedConnection where
  fd := clientFd
  lastActivity := now
  recvLen := 0
  request := httpRequestInit
  response := httpResponseInit
  keepAlive := true
  closed := false
  recvBuf := []

def setSlot (srv : Server ω) (i : Nat) (conn : BufferedConnection) : Server ω :=
  { srv with slots := Function.update srv.slots i conn }

def closeSocket (srv : Server ω) (fd : Int) : Server ω :=
  { srv with descriptors := Function.update srv.descriptors fd none }

def serverAddConnection (srv : Server ω) (clientFd : Int) (client : Client) (now : Int) :
    Server ω :=
  { srv with
    slots := Function.update srv.slots srv.connCount (newConnection clientFd now)
    connCount := srv.connCount + 1
    peer := Function.update srv.peer srv.connCount client
    senders := Function.update srv.senders srv.connCount [] }

def releaseSlot (srv : Server ω) (i : Nat) : Server ω :=
  let conn := srv.slots i
  let srv := if 0 ≤ conn.fd then closeSocket srv conn.fd else srv
  setSlot srv i { conn with
    fd := if 0 ≤ conn.fd then -1 else conn.fd
    request := { conn.request with body := [] }
    response := { conn.response with body := [] } }

def moveLast (srv : Server ω) (i : Nat) : Server ω :=
  let last := srv.connCount - 1
  { srv with
    slots := Function.update srv.slots i (srv.slots last)
    peer := Function.update srv.peer i (srv.peer last)
    senders := Function.update srv.senders i (srv.senders last) }

def serverRemoveConnection (srv : Server ω) (i : Nat) : Server ω :=
  if srv.connCount ≤ i then srv
  else
    let srv := releaseSlot srv i
    let srv := if i < srv.connCount - 1 then moveLast srv i else srv
    { srv with connCount := srv.connCount - 1 }

def isIdle (srv : Server ω) (i : Nat) (now : Int) : Bool :=
  let conn := srv.slots i
  decide (i < srv.connCount) && decide (0 ≤ conn.fd) && !conn.closed &&
    decide (srv.keepaliveTimeout < now - conn.lastActivity)

def reap (srv : Server ω) (i : Nat) (now : Int) : Server ω :=
  if isIdle srv i now then serverRemoveConnection srv i else srv

def serverReapIdleConnections (srv : Server ω) (now : Int) : Server ω :=
  (List.range srv.connCount).reverse.foldl (fun srv i => reap srv i now) srv

/-! ## Steps of the event loop -/

/-- `accept` returns a descriptor that is not open.  Without room for the connection it is
answered with 503 and closed. -/
def acceptConnection (srv : Server ω) (clientFd : Int) (client : Client) (now : Int) :
    Server ω :=
  if clientFd < 0 ∨ (srv.descriptors clientFd).isSome then srv
  else if srv.connCount < srv.connCapacity then
    serverAddConnection
      { srv with descriptors := Function.update srv.descriptors clientFd (some client) }
      clientFd client now
  else srv

/-- The client whose bytes a `recv` for slot `i` returns, if the event loop looks at the slot. -/
def readable (srv : Server ω) (i : Nat) : Option Client :=
  if srv.connCount ≤ i ∨ (srv.slots i).fd < 0 ∨ (srv.slots i).closed then none
  else srv.descriptors (srv.slots i).fd

/-- What the event loop does for slot `i` when bytes of a client have arrived for it.  The
submission waits while the queue is full; the step is taken when there is room. -/
def receiveStep (srv : Server ω) (i : Nat) (bytes : List UInt8) (now : Int) : Server ω :=
  match readable srv i with
  | none => srv
  | some client =>
      let senders := srv.senders i ++ [client]
      match receive (srv.slots i) bytes now with
      | (.disconnect, _) => serverRemoveConnection srv i
      | (.wait, conn) =>
          { setSlot srv i conn with senders := Function.update srv.senders i senders }
      | (.submit, conn) =>
          if poolMaxQueueSize ≤ srv.queue.length then srv
          else
            { setSlot srv i conn with
              senders := Function.update srv.senders i senders
              queue := srv.queue ++ [⟨i, senders⟩] }
      | (.reject, conn) =>
          -- The answer 400 goes to `conn->fd` at once.
          let response := httpResponseSetBodyStr
            (httpResponseSetStatus conn.response httpStatusBadRequest) (lit "400 Bad Request")
          serverRemoveConnection (setSlot srv i { conn with response := response }) i

/-! ## Steps of a worker -/

def setPhase (srv : Server ω) (w : Nat) (phase : WorkerPhase) : Server ω :=
  { srv with workers := srv.workers.set w phase }

def dequeueStep (srv : Server ω) (w : Nat) : Server ω :=
  match srv.workers[w]?, srv.queue with
  | some .ready, item :: queue => setPhase { srv with queue := queue } w (.dequeued item)
  | _, _ => srv

def processStep (call : UInt64 → HandlerFn ω) (srv : Server ω) (w : Nat) : Server ω :=
  match srv.workers[w]? with
  | some (.dequeued item) =>
      let conn := srv.slots item.slot
      if conn.fd < 0 ∨ conn.closed then setPhase srv w .ready
      else
        let (ok, x) := runMiddleware (some srv.middleware)
          (startExchange conn.toConnection srv.world)
        let dispatched := runRouter call ok srv.router x
        let conn := { conn with request := x.request, response := dispatched.response }
        setPhase { setSlot srv item.slot conn with world := dispatched.world } w (.processed item)
  | _ => srv

def sendTo (srv : Server ω) (item : Item) : Server ω :=
  let conn := srv.slots item.slot
  match srv.descriptors conn.fd with
  | none => srv
  | some client => { srv with sent := srv.sent ++ [⟨item, client, conn.response⟩] }

def finishSlot (srv : Server ω) (i : Nat) (now : Int) : Server ω :=
  let conn := srv.slots i
  let finished := finishConnection conn.toConnection now
  if conn.keepAlive then
    { setSlot srv i { toConnection := finished, recvBuf := [] } with
      senders := Function.update srv.senders i [] }
  else setSlot (closeSocket srv conn.fd) i { toConnection := finished, recvBuf := conn.recvBuf }

def sendStep (srv : Server ω) (w : Nat) (now : Int) : Server ω :=
  match srv.workers[w]? with
  | some (.processed item) =>
      setPhase (finishSlot (sendTo srv item) item.slot now) w .ready
  | _ => srv

/-! ## Runs -/

inductive Event
  | accept (clientFd : Int) (client : Client) (now : Int)
  | receive (i : Nat) (bytes : List UInt8) (now : Int)
  | reap (i : Nat) (now : Int)
  | dequeue (w : Nat)
  | process (w : Nat)
  | send (w : Nat) (now : Int)
deriving DecidableEq

def step (call : UInt64 → HandlerFn ω) (srv : Server ω) : Event → Server ω
  | .accept clientFd client now => acceptConnection srv clientFd client now
  | .receive i bytes now => receiveStep srv i bytes now
  | .reap i now => reap srv i now
  | .dequeue w => dequeueStep srv w
  | .process w => processStep call srv w
  | .send w now => sendStep srv w now

def serverStart (connCapacity : Nat) (keepaliveTimeout : Int) (router : Option Router)
    (middleware : MiddlewareChain ω) (numWorkers : Nat) (world : ω) : Server ω where
  slots := fun _ => ⟨⟨0, 0, 0, ⟨.get, [], [], [], []⟩, ⟨0, [], []⟩, false, false⟩, []⟩
  connCount := 0
  connCapacity := connCapacity
  keepaliveTimeout := keepaliveTimeout
  router := router
  middleware := middleware
  queue := []
  workers := List.replicate numWorkers .ready
  descriptors := fun _ => none
  peer := fun _ => 0
  senders := fun _ => []
  sent := []
  world := world

end MiniBackend.WebServer.Events
