import MiniBackend.Lib.CircularQueue
import MiniBackend.WebServer.Middleware
import MiniBackend.WebServer.Router

/-!
# `server.c`: the thread pool

A ring of work items with its producers and workers.  A step is one critical section, from
`pthread_mutex_lock` to the next wait or unlock.  A thread that waits on a condition may run
its section again at any time: it is woken by a signal, by the broadcast of
`thread_pool_destroy`, or for no reason at all.  Memory can be allocated and threads can be
created.
-/

namespace MiniBackend.WebServer.Server

section Workers

open MiniBackend.Lib.CircularQueue

def poolMaxQueueSize : Nat := 512

/-- `queue` holds the array with `queue_front`, `queue_rear` and `queue_size`. -/
structure ThreadPool (α : Type) where
  queue : RingBuffer α
  queueCapacity : Nat
  workerCount : Nat
  running : Bool

variable {α : Type}

def threadPoolCreate (zero : α) (numWorkers : Int) : Option (ThreadPool α) :=
  if numWorkers < 1 ∨ 64 < numWorkers then none
  else
    some {
      queue := RingBuffer.empty zero
      queueCapacity := poolMaxQueueSize
      workerCount := numWorkers.toNat
      running := true }

/-! ## Critical sections -/

inductive Taken (α : Type)
  | wait
  | stop
  | took (item : α)

def takeSection (pool : ThreadPool α) : Taken α × ThreadPool α :=
  if pool.queue.count = 0 ∧ pool.running then (.wait, pool)
  else if pool.queue.count = 0 ∧ ¬ pool.running then (.stop, pool)
  else (.took pool.queue.front, { pool with queue := pool.queue.pop pool.queueCapacity })

/-- `returned` carries the result of `thread_pool_submit`. -/
inductive Submitted
  | wait
  | returned (result : Bool)

def submitSection (pool : ThreadPool α) (item : α) : Submitted × ThreadPool α :=
  if pool.queueCapacity ≤ pool.queue.count ∧ pool.running then (.wait, pool)
  else if ¬ pool.running then (.returned false, pool)
  else (.returned true, { pool with queue := pool.queue.push pool.queueCapacity item })

/-- The section of `thread_pool_destroy`.  What is left of it waits for the workers to exit. -/
def destroySection (pool : ThreadPool α) : ThreadPool α :=
  { pool with running := false }

/-! ## Threads -/

inductive WorkerPhase (α : Type)
  | ready
  | waiting
  | processing (item : α)
  | exited

inductive ProducerPhase (α : Type)
  | idle
  | waiting (item : α)

/-- What happened, oldest first: a submission that returned, an item that was taken, the
write of 0 to `running`. -/
inductive Entry (α : Type)
  | submitted (producer : Nat) (item : α) (result : Bool)
  | taken (worker : Nat) (item : α)
  | stopped

structure System (α : Type) where
  pool : ThreadPool α
  workers : List (WorkerPhase α)
  producers : List (ProducerPhase α)
  log : List (Entry α)

def start (pool : ThreadPool α) (producers : Nat) : System α where
  pool := pool
  workers := List.replicate pool.workerCount .ready
  producers := List.replicate producers .idle
  log := []

def workerStep (s : System α) (w : Nat) : System α :=
  match takeSection s.pool with
  | (.wait, pool) => { s with pool := pool, workers := s.workers.set w .waiting }
  | (.stop, pool) => { s with pool := pool, workers := s.workers.set w .exited }
  | (.took item, pool) =>
      { s with
        pool := pool
        workers := s.workers.set w (.processing item)
        log := s.log ++ [.taken w item] }

def producerStep (s : System α) (p : Nat) (item : α) : System α :=
  match submitSection s.pool item with
  | (.wait, pool) => { s with pool := pool, producers := s.producers.set p (.waiting item) }
  | (.returned result, pool) =>
      { s with
        pool := pool
        producers := s.producers.set p .idle
        log := s.log ++ [.submitted p item result] }

/-- `submit` begins a call of `thread_pool_submit`, `resume` goes on with one that waits. -/
inductive Event (α : Type)
  | submit (p : Nat) (item : α)
  | resume (p : Nat)
  | worker (w : Nat)
  | destroy

def step (s : System α) : Event α → System α
  | .submit p item =>
      match s.producers[p]? with
      | some .idle => producerStep s p item
      | _ => s
  | .resume p =>
      match s.producers[p]? with
      | some (.waiting item) => producerStep s p item
      | _ => s
  | .worker w =>
      match s.workers[w]? with
      | some .ready => workerStep s w
      | some .waiting => workerStep s w
      | some (.processing _) => { s with workers := s.workers.set w .ready }
      | _ => s
  | .destroy => { s with pool := destroySection s.pool, log := s.log ++ [.stopped] }

end Workers

/-!
# `server.c`: one work item

What a worker does with an item it took from the queue.  The response that is serialised
and sent is recorded instead of its bytes.
-/

open MiniBackend.Lib.CString
open MiniBackend.WebServer.Http MiniBackend.WebServer.Routing MiniBackend.WebServer.Middleware

structure Connection where
  fd : Int
  lastActivity : Int
  recvLen : Nat
  request : HttpRequest
  response : HttpResponse
  keepAlive : Bool
  closed : Bool
deriving DecidableEq

structure WorkItem (ω : Type) where
  conn : Option Connection
  router : Option Router
  middleware : Option (MiddlewareChain ω)

/-- The connection after the item, what was sent on which socket, and the handler that was
invoked. -/
structure Outcome (ω : Type) where
  conn : Option Connection
  sent : Option (Int × HttpResponse)
  invoked : Option (UInt64 × List RouteParam)
  world : ω

variable {ω : Type}

def liveConnection (item : WorkItem ω) : Option Connection :=
  item.conn.filter fun conn => decide (0 ≤ conn.fd) && !conn.closed

def startExchange (conn : Connection) (world : ω) : Exchange ω :=
  ⟨conn.request, conn.response, ⟨0, 0, []⟩, world⟩

def runMiddleware (middleware : Option (MiddlewareChain ω)) (x : Exchange ω) :
    Bool × Exchange ω :=
  match middleware with
  | none => (true, x)
  | some chain => if 0 < chain.entries.length then middlewareChainExecute chain x else (true, x)

/-- The call of `router_dispatch`, if the chain allows it and there is a router. -/
def runRouter (call : UInt64 → HandlerFn ω) (ok : Bool) (router : Option Router)
    (x : Exchange ω) : Dispatched ω :=
  match router with
  | none => ⟨false, none, x.response, x.world⟩
  | some router =>
      if ok then
        routerDispatch call router x.request.method x.request.path x.request x.response x.world
      else ⟨false, none, x.response, x.world⟩

/-- A connection that is kept alive starts over; the others are closed. -/
def finishConnection (conn : Connection) (now : Int) : Connection :=
  if conn.keepAlive then
    { conn with
      request := httpRequestInit
      response := httpResponseInit
      recvLen := 0
      lastActivity := now }
  else { conn with fd := -1, closed := true }

def processItem (call : UInt64 → HandlerFn ω) (item : WorkItem ω) (world : ω) (now : Int) :
    Outcome ω :=
  match liveConnection item with
  | none => ⟨item.conn, none, none, world⟩
  | some conn =>
      let (ok, x) := runMiddleware item.middleware (startExchange conn world)
      let dispatched := runRouter call ok item.router x
      let conn := { conn with request := x.request, response := dispatched.response }
      { conn := some (finishConnection conn now)
        sent := some (conn.fd, dispatched.response)
        invoked := dispatched.invoked
        world := dispatched.world }

end MiniBackend.WebServer.Server
