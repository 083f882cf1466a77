import MiniBackend.Lib.CString
import MiniBackend.Lib.LinkPath
import Mathlib.Data.Rat.Defs

/-!
# `cache.c`

Entries live in a heap, on a doubly linked list in the order of their use and on the hash
chains.  A call has no result when it reads or writes a freed entry or walks in a circle.
Memory can be allocated and arguments are not `NULL`.  The age that `entry_expired` computes
from `created_at` and the clock is an argument of the call.
-/

namespace MiniBackend.Framework.Cache

open MiniBackend.Lib.CString MiniBackend.Lib.LinkPath

def cacheMaxKeyLen : Nat := 128
def cacheMaxValueLen : Nat := 1024
def cacheHashSize : Nat := 256

structure Timespec where
  tvSec : Int
  tvNsec : Int
deriving DecidableEq

/-- The fields of an entry apart from its links. -/
structure CacheRecord where
  key : CStr
  value : CStr
  valueLen : Int
  createdAt : Timespec
  ttlSec : Int
deriving DecidableEq

structure CacheEntry extends CacheRecord where
  prev : Link
  next : Link
  hashNext : Link
deriving DecidableEq

structure LRUCache where
  heap : Nat → Option CacheEntry
  /-- Every entry allocated so far has a smaller number. -/
  fresh : Nat
  head : Link
  tail : Link
  hash : Nat → Link
  capacity : Int
  size : Int
  hits : Int
  misses : Int
  evictions : Int
  defaultTtl : Int

def hashDjb2 (str : CStr) : UInt64 :=
  str.foldl (fun hash c => ((hash <<< 5) + hash) + c.toUInt64) 5381

def hashSlot (key : CStr) : Nat := (hashDjb2 key).toNat % cacheHashSize

def entryExpired (entry : CacheRecord) (age : Timespec → ℚ) : Bool :=
  decide (0 < entry.ttlSec) && decide ((entry.ttlSec : ℚ) ≤ age entry.createdAt)

/-! ## The recency list -/

def modifyEntry (cache : LRUCache) (p : Nat) (f : CacheEntry → CacheEntry) : Option LRUCache := do
  let entry ← cache.heap p
  some { cache with heap := Function.update cache.heap p (some (f entry)) }

/-- `if (p) p->next = x; else cache->head = x;` -/
def setNextOrHead (cache : LRUCache) (p x : Link) : Option LRUCache :=
  match p with
  | some p => modifyEntry cache p fun entry => { entry with next := x }
  | none => some { cache with head := x }

/-- `if (p) p->prev = x; else cache->tail = x;` -/
def setPrevOrTail (cache : LRUCache) (p x : Link) : Option LRUCache :=
  match p with
  | some p => modifyEntry cache p fun entry => { entry with prev := x }
  | none => some { cache with tail := x }

def detachNode (cache : LRUCache) (p : Nat) : Option LRUCache := do
  let entry ← cache.heap p
  let cache ← setNextOrHead cache entry.prev entry.next
  let entry ← cache.heap p
  let cache ← setPrevOrTail cache entry.next entry.prev
  modifyEntry cache p fun entry => { entry with prev := none, next := none }

/-- The entry becomes the first one of the list; its link back is `NULL`. -/
def linkHead (cache : LRUCache) (p : Nat) : Option LRUCache := do
  let cache ← modifyEntry cache p fun entry => { entry with next := cache.head, prev := none }
  let cache ← match cache.head with
    | some q => modifyEntry cache q fun entry => { entry with prev := some p }
    | none => some cache
  some { cache with
    head := some p
    tail := if cache.tail = none then some p else cache.tail }

def moveToHead (cache : LRUCache) (p : Nat) : Option LRUCache :=
  if cache.head = some p then some cache
  else do
    let cache ← detachNode cache p
    linkHead cache p

/-! ## The hash chains -/

/-- A walk over more entries than were ever allocated goes round in a circle. -/
def walkChain (cache : LRUCache) (wanted : Nat → CacheEntry → Bool) (h : Nat) :
    Option (Option (Link × Nat)) :=
  walk cache.heap CacheEntry.hashNext wanted cache.fresh none (cache.hash h)

/-- `*pp = x`, where `pp` is the bucket or the link of the entry before. -/
def setChain (cache : LRUCache) (h : Nat) (before x : Link) : Option LRUCache :=
  match before with
  | none => some { cache with hash := Function.update cache.hash h x }
  | some q => modifyEntry cache q fun entry => { entry with hashNext := x }

def hashRemove (cache : LRUCache) (p : Nat) : Option LRUCache := do
  let entry ← cache.heap p
  let h := hashSlot entry.key
  match ← walkChain cache (fun q _ => q == p) h with
  | none => some cache
  | some (before, _) => setChain cache h before entry.hashNext

def hashInsert (cache : LRUCache) (p : Nat) : Option LRUCache := do
  let entry ← cache.heap p
  let h := hashSlot entry.key
  let cache ← modifyEntry cache p fun entry => { entry with hashNext := cache.hash h }
  some { cache with hash := Function.update cache.hash h (some p) }

def hashFind (cache : LRUCache) (key : CStr) : Option (Option Nat) := do
  let found ← walkChain cache (fun _ entry => entry.key == key) (hashSlot key)
  some (found.map Prod.snd)

/-! ## Operations -/

def cacheInit (capacity defaultTtl : Int) : LRUCache where
  heap := fun _ => none
  fresh := 0
  head := none
  tail := none
  hash := fun _ => none
  capacity := if 0 < capacity then capacity else 64
  size := 0
  hits := 0
  misses := 0
  evictions := 0
  defaultTtl := if 0 ≤ defaultTtl then defaultTtl else 0

def freeEntry (cache : LRUCache) (p : Nat) : LRUCache :=
  { cache with heap := Function.update cache.heap p none }

/-- The lines that take an entry out of both structures and free it. -/
def removeEntry (cache : LRUCache) (p : Nat) : Option LRUCache := do
  let cache ← detachNode cache p
  let cache ← hashRemove cache p
  some { freeEntry cache p with size := cache.size - 1 }

/-- The answer and the cache after `cache_get`. -/
def cacheGet (cache : LRUCache) (key : CStr) (age : Timespec → ℚ) :
    Option (Option CStr × LRUCache) := do
  match ← hashFind cache key with
  | none => some (none, { cache with misses := cache.misses + 1 })
  | some p =>
      let entry ← cache.heap p
      if entryExpired entry.toCacheRecord age then
        let cache ← removeEntry cache p
        some (none, { cache with evictions := cache.evictions + 1, misses := cache.misses + 1 })
      else
        let cache ← moveToHead cache p
        let entry ← cache.heap p
        some (some entry.value, { cache with hits := cache.hits + 1 })

/-- What `cache_put` writes to an entry apart from its key. -/
def writeValue (record : CacheRecord) (value : CStr) (ttlSec : Int) (now : Timespec) :
    CacheRecord :=
  { record with
    value := value.take (cacheMaxValueLen - 1)
    valueLen := (value.take (cacheMaxValueLen - 1)).length
    ttlSec := ttlSec
    createdAt := now }

def cacheEvictLru (cache : LRUCache) : Option (Int × LRUCache) :=
  match cache.tail with
  | none => some (-1, cache)
  | some p => do
      let cache ← removeEntry cache p
      some (0, { cache with evictions := cache.evictions + 1 })

def emptyRecord : CacheRecord := ⟨[], [], 0, ⟨0, 0⟩, 0⟩

def allocEntry (cache : LRUCache) (record : CacheRecord) : LRUCache :=
  { cache with
    heap := Function.update cache.heap cache.fresh (some ⟨record, none, none, none⟩)
    fresh := cache.fresh + 1 }

def cachePut (cache : LRUCache) (key value : CStr) (ttlSec : Int) (now : Timespec) :
    Option (Int × LRUCache) := do
  let ttl := if 0 < ttlSec then ttlSec else cache.defaultTtl
  match ← hashFind cache key with
  | some p =>
      let cache ← modifyEntry cache p fun entry =>
        { entry with toCacheRecord := writeValue entry.toCacheRecord value ttl now }
      let cache ← moveToHead cache p
      some (0, cache)
  | none =>
      let cache ← if cache.capacity ≤ cache.size then (cacheEvictLru cache).map Prod.snd
        else some cache
      let p := cache.fresh
      let record := writeValue { emptyRecord with key := strncpy key (cacheMaxKeyLen - 1) }
        value ttl now
      let cache ← linkHead (allocEntry cache record) p
      let cache ← hashInsert cache p
      some (0, { cache with size := cache.size + 1 })

def cacheDelete (cache : LRUCache) (key : CStr) : Option (Int × LRUCache) := do
  match ← hashFind cache key with
  | none => some (-1, cache)
  | some p =>
      let cache ← removeEntry cache p
      some (0, cache)

/-! ## Runs -/

/-- The calls of a program.  `put` has a time to live of 0. -/
inductive Op
  | get (key : CStr) (age : Timespec → ℚ)
  | put (key value : CStr) (now : Timespec)
  | delete (key : CStr)
  | evictLru

def step (cache : LRUCache) : Op → Option LRUCache
  | .get key age => (cacheGet cache key age).map Prod.snd
  | .put key value now => (cachePut cache key value 0 now).map Prod.snd
  | .delete key => (cacheDelete cache key).map Prod.snd
  | .evictLru => (cacheEvictLru cache).map Prod.snd

end MiniBackend.Framework.Cache
