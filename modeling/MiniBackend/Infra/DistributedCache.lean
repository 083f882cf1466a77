import MiniBackend.Infra.BloomFilter
import MiniBackend.Lib.CString
import MiniBackend.Lib.LinkedHeap

/-!
# `distributed_cache.c`

Entries live in a heap, and the recency list and the hash chains share their `next` links as
they do in the code.  A call has no result when it uses a freed entry, divides by zero or
never returns.  Memory can be allocated, the functions of the client do not call the cache,
and arguments are not `NULL`.
-/

namespace MiniBackend.Infra.Cache

open MiniBackend.Lib.CString MiniBackend.Lib.LinkedHeap

def dcDefaultTtlSec : Int := 300
def dcMaxVvNodes : Nat := 32

/-- The fields of `dc_entry_t` apart from its links `next` and `prev`. -/
structure DcEntry where
  key : CStr
  value : List UInt8
  ttlSeconds : Int
  createdAt : Int
  lastAccess : Int
  accessCount : Int
  stale : Bool
deriving DecidableEq

inductive DcEvictionPolicy
  | none
  | lru
  | lfu
  | ttl
deriving DecidableEq

inductive DcWriteStrategy
  | through
  | behind
  | around
deriving DecidableEq

/-- A function of the client is only known to be given or not. -/
structure DcCacheConfig where
  maxEntries : Nat
  maxMemoryBytes : UInt64
  evictionPolicy : DcEvictionPolicy
  stampedeProtection : Bool
  writeStrategy : DcWriteStrategy
  backendRead : Bool
  backendWrite : Bool
  onEvict : Bool
deriving DecidableEq

/-- A call of `on_evict` or `backend_write`. -/
inductive Callback
  | onEvict (key : CStr) (value : List UInt8)
  | backendWrite (key : CStr) (value : List UInt8)
deriving DecidableEq

structure DcCache extends DcCacheConfig where
  heap : Heap DcEntry
  /-- Every entry allocated so far has a smaller number. -/
  fresh : Nat
  buckets : Nat → Link
  bucketCount : Nat
  entryCount : Nat
  memoryUsed : UInt64
  lruHead : Link
  lruTail : Link
  hitCount : Nat
  missCount : Nat
  callbacks : List Callback

def dcHash (key : CStr) : UInt32 := key.foldl (fun h b => (h <<< 5) + h + b.toUInt32) 5381

def dcCacheCreate (config : DcCacheConfig) : DcCache where
  toDcCacheConfig := config
  heap := fun _ => none
  fresh := 0
  buckets := fun _ => none
  bucketCount :=
    let count := if config.maxEntries > 0 then config.maxEntries / 4 else 256
    if count < 16 then 16 else count
  entryCount := 0
  memoryUsed := 0
  lruHead := none
  lruTail := none
  hitCount := 0
  missCount := 0
  callbacks := []

def bucketIndex (cache : DcCache) (key : CStr) : Option Nat :=
  if cache.bucketCount % 2 ^ 32 = 0 then none
  else some ((dcHash key).toNat % (cache.bucketCount % 2 ^ 32))

def footprint (key : CStr) (value : List UInt8) : UInt64 :=
  UInt64.ofNat value.length + UInt64.ofNat key.length + 1

/-- A walk that visits more entries than were ever allocated goes round in a circle. -/
def walk (cache : DcCache) (wanted : Nat → DcEntry → Bool) (idx : Nat) :
    Option (Option (Link × Nat)) :=
  search cache.heap wanted cache.fresh none (cache.buckets idx)

/-! ## Links -/

def dcFindEntry (cache : DcCache) (key : CStr) : Option (Option Nat) := do
  let idx ← bucketIndex cache key
  let found ← walk cache (fun _ e => e.key == key) idx
  some (found.map Prod.snd)

def dcLruTouch (cache : DcCache) (p : Nat) : Option DcCache :=
  if cache.lruHead = some p then some cache
  else do
    let heap ← unlink cache.heap p
    let e ← heap p
    let lruTail := if cache.lruTail = some p then e.prev else cache.lruTail
    let heap ← linkFront heap p cache.lruHead
    some { cache with
      heap := heap
      lruHead := some p
      lruTail := if lruTail = none then some p else lruTail }

def setChain (cache : DcCache) (idx : Nat) (prev x : Link) : Option DcCache :=
  match prev with
  | none => some { cache with buckets := Function.update cache.buckets idx x }
  | some _ => do
      let heap ← setNext cache.heap prev x
      some { cache with heap := heap }

def notifyEvict (cache : DcCache) (e : DcEntry) : DcCache :=
  if cache.onEvict then { cache with callbacks := cache.callbacks ++ [.onEvict e.key e.value] }
  else cache

/-- The hash chain that led to an entry skips it.  `chained` says whether one did, and the
entry before it. -/
def leaveChain (cache : DcCache) (idx : Nat) (chained : Option Link) (x : Link) :
    Option DcCache :=
  match chained with
  | none => some cache
  | some prev => setChain cache idx prev x

def removeEntry (cache : DcCache) (idx p : Nat) (chained : Option Link) : Option DcCache := do
  let e ← cache.heap p
  let cache ← leaveChain (notifyEvict cache e.data) idx chained e.next
  let heap ← unlink cache.heap p
  let e ← heap p
  some { cache with
    heap := Function.update heap p none
    lruHead := if cache.lruHead = some p then e.next else cache.lruHead
    lruTail := if cache.lruTail = some p then e.prev else cache.lruTail
    memoryUsed := cache.memoryUsed - footprint e.data.key e.data.value
    entryCount := cache.entryCount - 1 }

/-! ## Eviction -/

def dcEvictLru (cache : DcCache) : Option DcCache :=
  match cache.lruTail with
  | none => some cache
  | some p => do
      let e ← cache.heap p
      let idx ← bucketIndex cache e.data.key
      let found ← walk cache (fun q _ => q == p) idx
      removeEntry cache idx p (found.map Prod.fst)

/-- The chain of one bucket, read by the inner loop of `dc_evict_lfu`. -/
def leastUsed (heap : Heap DcEntry) : Nat → Option Int → Link → Option (Option Int)
  | _, best, none => some best
  | 0, _, some _ => none
  | fuel + 1, best, some p =>
      match heap p with
      | none => none
      | some e =>
          let count := e.data.accessCount
          let best := if best.all (count < ·) then some count else best
          leastUsed heap fuel best e.next

/-- The best count is only used to see whether there is an entry at all. -/
def dcEvictLfu (cache : DcCache) : Option DcCache := do
  let best ← (List.range cache.bucketCount).foldlM
    (fun best i => leastUsed cache.heap cache.fresh best (cache.buckets i)) none
  match best with
  | none => some cache
  | some _ => dcEvictLru cache

def expired (e : DcEntry) (now : Int) : Bool :=
  decide (e.ttlSeconds > 0) && decide (now - e.createdAt > e.ttlSeconds)

def evictChain (now : Int) (idx : Nat) : Nat → DcCache → Link → Link → Option DcCache
  | _, cache, _, none => some cache
  | 0, _, _, some _ => none
  | fuel + 1, cache, prev, some p => do
      let e ← cache.heap p
      if expired e.data now then
        let cache ← removeEntry cache idx p (some prev)
        evictChain now idx fuel cache prev e.next
      else evictChain now idx fuel cache (some p) e.next

/-- Without a removal the inner loop visits no entry twice unless it never ends. -/
def dcEvictTtl (cache : DcCache) (now : Int) : Option DcCache :=
  (List.range cache.bucketCount).foldlM
    (fun cache idx =>
      evictChain now idx ((cache.fresh + 1) ^ 2) cache none (cache.buckets idx)) cache

def dcEvictOne (cache : DcCache) (now : Int) : Option DcCache :=
  match cache.evictionPolicy with
  | .lru => dcEvictLru cache
  | .lfu => dcEvictLfu cache
  | .ttl => dcEvictTtl cache now
  | .none => dcEvictLru cache

/-- `while (full) dc_evict_one(cache);` with the answer of `time` in each round.  The rest of
the answers is left for the next loop; a loop that needs more does not return. -/
def evictWhile (full : DcCache → Bool) : List Int → DcCache → Option (DcCache × List Int)
  | times, cache =>
      if full cache then
        match times with
        | [] => none
        | now :: times => do
            let cache ← dcEvictOne cache now
            evictWhile full times cache
      else some (cache, times)

/-! ## Operations -/

/-- What `time(NULL)` answers during one `dc_cache_put`: when the entry is written, and in
the rounds of the two eviction loops. -/
structure Clock where
  now : Int
  rounds : List Int
deriving DecidableEq

def writeThrough (cache : DcCache) (key : CStr) (value : List UInt8) : DcCache :=
  if cache.writeStrategy = .through ∧ cache.backendWrite then
    { cache with callbacks := cache.callbacks ++ [.backendWrite key value] }
  else cache

def overwriteEntry (cache : DcCache) (p : Nat) (value : List UInt8) (ttlSeconds now : Int) :
    Option DcCache := do
  let e ← cache.heap p
  let heap ← modifyNode cache.heap p fun e => { e with data := { e.data with
    value := value
    ttlSeconds := ttlSeconds
    createdAt := now
    accessCount := e.data.accessCount + 1 } }
  dcLruTouch { cache with
    heap := heap
    memoryUsed := cache.memoryUsed - UInt64.ofNat e.data.value.length +
      UInt64.ofNat value.length } p

def insertEntry (cache : DcCache) (key : CStr) (value : List UInt8) (ttlSeconds now : Int) :
    Option DcCache := do
  let idx ← bucketIndex cache key
  let e : DcEntry := ⟨key, value, ttlSeconds, now, now, 1, false⟩
  let p := cache.fresh
  dcLruTouch { cache with
    heap := Function.update cache.heap p (some ⟨e, cache.buckets idx, none⟩)
    fresh := p + 1
    buckets := Function.update cache.buckets idx (some p)
    entryCount := cache.entryCount + 1
    memoryUsed := cache.memoryUsed + footprint key value } p

def makeRoom (cache : DcCache) (key : CStr) (value : List UInt8) (rounds : List Int) :
    Option DcCache := do
  let (cache, rounds) ← evictWhile
    (fun cache => decide (cache.maxEntries > 0) && decide (cache.entryCount ≥ cache.maxEntries))
    rounds cache
  let (cache, _) ← evictWhile
    (fun cache => decide (cache.maxMemoryBytes > 0) &&
      decide (cache.memoryUsed + footprint key value > cache.maxMemoryBytes))
    rounds cache
  some cache

def dcCachePut (cache : DcCache) (key : CStr) (value : List UInt8) (ttlSeconds : Int)
    (clock : Clock) : Option DcCache := do
  let exist ← dcFindEntry cache key
  match exist with
  | some p => do
      let cache ← overwriteEntry cache p value ttlSeconds clock.now
      some (writeThrough cache key value)
  | none => do
      let cache ← makeRoom cache key value clock.rounds
      let cache ← insertEntry cache key value ttlSeconds clock.now
      some (writeThrough cache key value)

/-- What `backend_read` yields when it is called, and the clock of the put that follows. -/
structure Answer where
  value : Option (List UInt8)
  clock : Clock
deriving DecidableEq

/-- What a `dc_cache_get` learns from outside: the time, whether the random draw asks for an
early recomputation, and the answers to the early and the regular read. -/
structure Reply where
  now : Int
  recompute : Bool
  early : Answer
  regular : Answer
deriving DecidableEq

def readBackend (cache : DcCache) (key : CStr) (answer : Answer) :
    Option (DcCache × Option (List UInt8)) :=
  if cache.backendRead then
    match answer.value with
    | none => some (cache, none)
    | some value => do
        let cache ← dcCachePut cache key value dcDefaultTtlSec answer.clock
        some (cache, some value)
  else some (cache, none)

/-- The early recomputation of a stale entry under stampede protection. -/
def recomputeEarly (cache : DcCache) (key : CStr) (reply : Reply) : Option DcCache :=
  if cache.stampedeProtection && reply.recompute then do
    let (cache, _) ← readBackend cache key reply.early
    some cache
  else some cache

def hit (cache : DcCache) (p : Nat) (now : Int) : Option (DcCache × Option (List UInt8)) := do
  let heap ← modifyNode cache.heap p fun e => { e with data := { e.data with
    lastAccess := now
    accessCount := e.data.accessCount + 1 } }
  let cache ← dcLruTouch { cache with heap := heap, hitCount := cache.hitCount + 1 } p
  let e ← cache.heap p
  some (cache, some e.data.value)

/-- The value that a `dc_cache_get` hands out, or `none` when it returns -1. -/
def dcCacheGet (cache : DcCache) (key : CStr) (reply : Reply) :
    Option (DcCache × Option (List UInt8)) := do
  let found ← dcFindEntry cache key
  match found with
  | none => readBackend { cache with missCount := cache.missCount + 1 } key reply.regular
  | some p => do
      let e ← cache.heap p
      if e.data.stale || expired e.data reply.now then
        let cache ← recomputeEarly cache key reply
        readBackend cache key reply.regular
      else hit cache p reply.now

/-- The filter is asked about keys that are not in the cache, if there is a filter. -/
def dcCacheGetWithBloom (cache : DcCache) (key : CStr) (bloom : Option Bloom.BfBloomFilter)
    (reply : Reply) : Option (DcCache × Option (List UInt8)) := do
  let e ← dcFindEntry cache key
  match e with
  | some _ => dcCacheGet cache key reply
  | none => do
      let possible ← bloom.elim (some 1) fun bloom => Bloom.bfContainsString bloom key
      if possible = 0 then some ({ cache with missCount := cache.missCount + 1 }, none)
      else dcCacheGet cache key reply

def populateLoop : Nat → Bloom.BfBloomFilter → List CStr → Option (Nat × Bloom.BfBloomFilter)
  | count, bloom, [] => some (count, bloom)
  | count, bloom, key :: keys => do
      let (result, bloom) ← Bloom.bfAddString bloom key
      populateLoop (if result = 0 then count + 1 else count) bloom keys

def dcCachePopulateBloom (bloom : Bloom.BfBloomFilter) (keys : List CStr) :
    Option (Nat × Bloom.BfBloomFilter) :=
  populateLoop 0 bloom keys

def dcCacheDelete (cache : DcCache) (key : CStr) : Option (DcCache × Bool) := do
  let idx ← bucketIndex cache key
  let found ← walk cache (fun _ e => e.key == key) idx
  match found with
  | none => some (cache, false)
  | some (prev, p) => do
      let cache ← removeEntry cache idx p (some prev)
      some (cache, true)

/-! ## Upkeep -/

inductive DcInvalidateMode
  | delete
  | update
  | version
deriving DecidableEq

/-- The entry of a key is overwritten where it is.  Whether 0 is returned: the key was found. -/
def changeEntry (cache : DcCache) (key : CStr) (f : DcEntry → DcEntry) :
    Option (DcCache × Bool) := do
  let found ← dcFindEntry cache key
  match found with
  | none => some (cache, false)
  | some p => do
      let heap ← modifyNode cache.heap p fun e => { e with data := f e.data }
      some ({ cache with heap := heap }, true)

def dcCacheExpire (cache : DcCache) (key : CStr) (ttlSeconds now : Int) :
    Option (DcCache × Bool) :=
  changeEntry cache key fun e => { e with ttlSeconds := ttlSeconds, createdAt := now }

def dcCacheInvalidate (cache : DcCache) (key : CStr) (mode : DcInvalidateMode) (now : Int) :
    Option (DcCache × Bool) :=
  match mode with
  | .delete => dcCacheDelete cache key
  | .update => changeEntry cache key fun e => { e with createdAt := now, stale := false }
  | .version => dcCacheDelete cache key

def dcCacheSetLease (cache : DcCache) (key : CStr) (leaseDurationMs now : Int) :
    Option (DcCache × Bool) :=
  changeEntry cache key fun e => { e with lastAccess := now * 1000 + leaseDurationMs }

def flushChain : Nat → Heap DcEntry → Link → Option (Heap DcEntry)
  | _, heap, none => some heap
  | 0, _, some _ => none
  | fuel + 1, heap, some p => do
      let e ← heap p
      flushChain fuel (Function.update heap p none) e.next

def dcCacheFlush (cache : DcCache) : Option DcCache := do
  let heap ← (List.range cache.bucketCount).foldlM
    (fun heap i => flushChain cache.fresh heap (cache.buckets i)) cache.heap
  some { cache with
    heap := heap
    buckets := fun _ => none
    entryCount := 0
    memoryUsed := 0
    lruHead := none
    lruTail := none
    hitCount := 0
    missCount := 0 }

def dcCacheCompact (cache : DcCache) (now : Int) : Option DcCache := dcEvictTtl cache now

/-! ## Version vectors -/

structure DcVersionVector where
  counters : Vector Int dcMaxVvNodes
  nodeCount : Int
deriving DecidableEq

def component (a : DcVersionVector) (i : Nat) : Int :=
  if (i : Int) < a.nodeCount then a.counters[i]?.getD 0 else 0

def dcVvCompare (a b : DcVersionVector) : Int :=
  let n := if a.nodeCount > b.nodeCount then a.nodeCount else b.nodeCount
  let rounds := (List.range dcMaxVvNodes).filter fun i : Nat => decide ((i : Int) < n)
  let aGeB := rounds.all fun i => !decide (component a i < component b i)
  let bGeA := rounds.all fun i => !decide (component b i < component a i)
  if aGeB && bGeA then 0
  else if aGeB then 1
  else if bGeA then -1
  else 2

/-- The counters behind the new size keep the values that `result` had. -/
def dcVvMerge (result a b : DcVersionVector) : DcVersionVector :=
  let n := if a.nodeCount > b.nodeCount then a.nodeCount else b.nodeCount
  let n := if n > dcMaxVvNodes then (dcMaxVvNodes : Int) else n
  { nodeCount := n
    counters := Vector.ofFn fun i =>
      if (i.val : Int) < n then
        if component a i > component b i then component a i else component b i
      else result.counters[i] }

def existingVv (e : DcEntry) : DcVersionVector where
  counters := Vector.ofFn fun i => if i.val = 0 then e.accessCount else 0
  nodeCount := 1

/-- The merged vector of concurrent writes is computed and dropped, and `node_id` is unused.
The function returns 0 whenever it returns. -/
def dcCachePutWithVersion (cache : DcCache) (key : CStr) (value : List UInt8)
    (ttlSeconds : Int) (vv : Option DcVersionVector) (clock : Clock) : Option DcCache := do
  let exist ← dcFindEntry cache key
  match exist with
  | none => dcCachePut cache key value ttlSeconds clock
  | some p => do
      let e ← cache.heap p
      let skip := vv.any fun vv =>
        decide (vv.nodeCount > 0) && dcVvCompare vv (existingVv e.data) == -1
      if skip then some cache else dcCachePut cache key value ttlSeconds clock

/-! ## Runs -/

inductive Op
  | put (key : CStr) (value : List UInt8) (ttlSeconds : Int) (clock : Clock)
  | putWithVersion (key : CStr) (value : List UInt8) (ttlSeconds : Int)
      (vv : Option DcVersionVector) (clock : Clock)
  | get (key : CStr) (reply : Reply)
  | delete (key : CStr)
deriving DecidableEq

inductive Result
  | stored
  | got (value : Option (List UInt8))
  | deleted (done : Bool)
deriving DecidableEq

def step (cache : DcCache) : Op → Option (DcCache × Result)
  | .put key value ttlSeconds clock => do
      let cache ← dcCachePut cache key value ttlSeconds clock
      some (cache, .stored)
  | .putWithVersion key value ttlSeconds vv clock => do
      let cache ← dcCachePutWithVersion cache key value ttlSeconds vv clock
      some (cache, .stored)
  | .get key reply => do
      let (cache, value) ← dcCacheGet cache key reply
      some (cache, .got value)
  | .delete key => do
      let (cache, done) ← dcCacheDelete cache key
      some (cache, .deleted done)

def runAll : DcCache → List Op → Option (DcCache × List Result)
  | cache, [] => some (cache, [])
  | cache, op :: ops => do
      let (cache, result) ← step cache op
      let (cache, results) ← runAll cache ops
      some (cache, result :: results)

/-- Every call that changes a cache.  Batches and warming up are several of them. -/
inductive Call
  | op (op : Op)
  | expire (key : CStr) (ttlSeconds now : Int)
  | invalidate (key : CStr) (mode : DcInvalidateMode) (now : Int)
  | setLease (key : CStr) (leaseDurationMs now : Int)
  | compact (now : Int)
  | flush
deriving DecidableEq

def callStep (cache : DcCache) : Call → Option DcCache
  | .op op => (step cache op).map Prod.fst
  | .expire key ttlSeconds now => (dcCacheExpire cache key ttlSeconds now).map Prod.fst
  | .invalidate key mode now => (dcCacheInvalidate cache key mode now).map Prod.fst
  | .setLease key leaseDurationMs now =>
      (dcCacheSetLease cache key leaseDurationMs now).map Prod.fst
  | .compact now => dcCacheCompact cache now
  | .flush => dcCacheFlush cache

end MiniBackend.Infra.Cache
