import MiniBackend.Lib.CArray
import MiniBackend.Lib.CString
import Mathlib.Logic.Function.Basic
import Mathlib.Algebra.Group.Nat.Defs

/-!
# `config_center.c`

Configuration items with their versions, and the snapshots of them.  A bucket of the hash
table is the list of its chain.  The time is an argument; the pointers are non-null, memory
does not run out, and nobody has subscribed.
-/

namespace MiniBackend.Infra.Config

open MiniBackend.Lib.CArray MiniBackend.Lib.CString

def ccMaxKeyLen : Nat := 128
def ccMaxValueLen : Nat := 65536
def ccMaxNamespaceLen : Nat := 64
def ccMaxGroupLen : Nat := 64

inductive CcEncryptType
  | none
  | aes
deriving DecidableEq

structure CcConfigVersion where
  version : Int
  value : CStr
  valueLen : Nat
  createdAt : Int
  operator_ : CStr
deriving DecidableEq

/-- What `cc_config_get` copies out. -/
structure CcConfigEntry where
  configKey : CStr
  value : CStr
  valueLen : Nat
  version : Int
  createdAt : Int
  updatedAt : Int
  namespace_ : CStr
  group_ : CStr
  encryptType : CcEncryptType
deriving DecidableEq

structure CcEntry where
  key : CStr
  value : CStr
  valueLen : Nat
  version : Int
  createdAt : Int
  updatedAt : Int
  namespace_ : CStr
  group_ : CStr
  encryptType : CcEncryptType
  versions : List CcConfigVersion
deriving DecidableEq

def bucketCount : Nat := 256

structure CcConfigCenter where
  buckets : Nat → List CcEntry

def ccCenterCreate : CcConfigCenter := ⟨fun _ => []⟩

def ccHash (s : CStr) : UInt32 :=
  s.foldl (fun h c => (h <<< 5) + h + c.toUInt32) 5381

/-- `snprintf(composite, sizeof(composite), "%s:%s:%s", ...)`, hashed. -/
def bucketIndex (ns gr key : CStr) : Nat :=
  let composite := snprintf (ns ++ lit ":" ++ gr ++ lit ":" ++ key)
    (ccMaxNamespaceLen + ccMaxGroupLen + ccMaxKeyLen + 4)
  (ccHash composite).toNat % bucketCount

def isItem (ns gr key : CStr) (e : CcEntry) : Bool :=
  e.namespace_ = ns ∧ e.group_ = gr ∧ e.key = key

def ccFind (center : CcConfigCenter) (ns gr key : CStr) : Option CcEntry :=
  (center.buckets (bucketIndex ns gr key)).find? (isItem ns gr key)

/-- A write through the pointer that `cc_find` returns. -/
def modifyEntry (center : CcConfigCenter) (ns gr key : CStr) (f : CcEntry → CcEntry) :
    CcConfigCenter :=
  ⟨Function.update center.buckets (bucketIndex ns gr key)
    (updateFirst (isItem ns gr key) f (center.buckets (bucketIndex ns gr key)))⟩

def ccAddVersion (e : CcEntry) : CcEntry :=
  { e with
    versions := e.versions ++ [⟨e.version, e.value, e.valueLen, e.updatedAt, lit "system"⟩] }

/-- The current value is archived, and `value` is the current one under the next version. -/
def newVersion (value : CStr) (valueLen : Nat) (now : Int) (e : CcEntry) : CcEntry :=
  { ccAddVersion e with value, valueLen, version := e.version + 1, updatedAt := now }

def newEntry (ns gr key value : CStr) (now : Int) : CcEntry where
  key := strncpy key (ccMaxKeyLen - 1)
  value := value
  valueLen := value.length
  version := 1
  createdAt := now
  updatedAt := now
  namespace_ := strncpy ns (ccMaxNamespaceLen - 1)
  group_ := strncpy gr (ccMaxGroupLen - 1)
  encryptType := .none
  versions := []

def ccConfigPut (center : CcConfigCenter) (ns gr key value : CStr) (now : Int) :
    CcConfigCenter :=
  match ccFind center ns gr key with
  | some _ => modifyEntry center ns gr key (newVersion value value.length now)
  | none =>
      ⟨Function.update center.buckets (bucketIndex ns gr key)
        (newEntry ns gr key value now :: center.buckets (bucketIndex ns gr key))⟩

def ccConfigGet (center : CcConfigCenter) (ns gr key : CStr) : Option CcConfigEntry :=
  (ccFind center ns gr key).map fun e =>
    ⟨e.key, e.value, e.valueLen, e.version, e.createdAt, e.updatedAt, e.namespace_, e.group_,
      e.encryptType⟩

def ccConfigDelete (center : CcConfigCenter) (ns gr key : CStr) : Int × CcConfigCenter :=
  match ccFind center ns gr key with
  | none => (-1, center)
  | some _ =>
      (0, ⟨Function.update center.buckets (bucketIndex ns gr key)
        ((center.buckets (bucketIndex ns gr key)).eraseP (isItem ns gr key))⟩)

/-- The key is not empty; an empty one divides by zero. -/
def ccXorCrypt (input key : CStr) : List UInt8 :=
  input.zipIdx.map fun (b, i) => b ^^^ key.getD (i % key.length) 0

def ccConfigPutEncrypted (center : CcConfigCenter) (ns gr key value encKey : CStr) (now : Int) :
    CcConfigCenter :=
  -- `cc_config_put` sees what is before the first zero byte.
  let enc := ofBuffer (ccXorCrypt value encKey)
  modifyEntry (ccConfigPut center ns gr key enc now) ns gr key
    ({ · with encryptType := .aes })

/-- The bytes of `out_value` in front of its terminator, `none` for a return value of -1. -/
def ccConfigGetDecrypted (center : CcConfigCenter) (ns gr key : CStr) (outSize : Nat)
    (encKey : CStr) : Option (List UInt8) :=
  (ccFind center ns gr key).map fun e =>
    let room := sizeSub outSize 1
    let len := if e.valueLen < room then e.valueLen else room
    ccXorCrypt (e.value.take len) encKey

def ccConfigGetVersion (center : CcConfigCenter) (ns gr key : CStr) (version : Int) :
    Option CcConfigEntry :=
  match ccFind center ns gr key with
  | none => none
  | some e =>
      if version = e.version then ccConfigGet center ns gr key
      else
        (e.versions.find? (·.version = version)).map fun v =>
          ⟨e.key, v.value, v.valueLen, v.version, v.createdAt, v.createdAt, e.namespace_,
            e.group_, e.encryptType⟩

def ccConfigRollback (center : CcConfigCenter) (ns gr key : CStr) (version now : Int) :
    Int × CcConfigCenter :=
  match ccFind center ns gr key with
  | none => (-1, center)
  | some e =>
      match e.versions.find? (·.version = version) with
      | none => (-1, center)
      | some v => (0, modifyEntry center ns gr key (newVersion v.value v.valueLen now))

/-! ## Snapshots -/

def toInt (z : Int) : Int := (z + 2147483648) % 4294967296 - 2147483648

/-- What `cc_snapshot_save` writes for an item. -/
def snapshotRecord (e : CcEntry) : List UInt8 :=
  e.namespace_.take ccMaxNamespaceLen ++ lit ":" ++ e.group_.take ccMaxGroupLen ++ lit ":" ++
    e.key ++ lit "=" ++ decimalInt (toInt e.version) ++ lit "|" ++
    decimal e.valueLen ++ lit ":" ++ e.value.take e.valueLen ++ [10]

def entries (center : CcConfigCenter) : List CcEntry :=
  (List.range bucketCount).flatMap center.buckets

def ccSnapshotSave (center : CcConfigCenter) : List UInt8 :=
  (entries center).flatMap snapshotRecord

def lineSize : Nat :=
  ccMaxKeyLen + ccMaxNamespaceLen + ccMaxGroupLen + ccMaxValueLen + 256

/-- What the calls of `fgets` return, when `line` was read since the last one. -/
def fgetsLines : List UInt8 → List UInt8 → List (List UInt8)
  | line, [] => if line = [] then [] else [line]
  | line, b :: rest =>
      if b = 10 ∨ (line ++ [b]).length = lineSize - 1 then
        (line ++ [b]) :: fgetsLines [] rest
      else fgetsLines (line ++ [b]) rest

/-- The string before the first `c`, and the string behind it. -/
def cut (s : CStr) (c : UInt8) : Option (CStr × CStr) :=
  (strchr s c).map fun found => (s.take (s.length - found.length), found.tail)

/-- What is read from a line. -/
structure SnapshotLine where
  ns : CStr
  gr : CStr
  key : CStr
  ver : Int
  vlen : Nat
  /-- Up to the line break. -/
  text : CStr
  /-- Where the text begins. -/
  offset : Nat

/-- `none` for a line that is skipped. -/
def parseLine (line : CStr) : Option SnapshotLine :=
  (cut line 58).bind fun (ns, ptr) =>
  (cut ptr 58).bind fun (gr, ptr) =>
  (cut ptr 61).bind fun (key, ptr) =>
  (cut ptr 124).bind fun (ver, ptr) =>
  (cut ptr 58).map fun (vlen, ptr) =>
    { ns := ns.take (ccMaxNamespaceLen - 1)
      gr := gr.take (ccMaxGroupLen - 1)
      key := key.take (ccMaxKeyLen - 1)
      ver := atoi ver
      vlen := (atoll vlen % 2 ^ 64).toNat
      text := ptr.takeWhile (· ≠ 10)
      offset := line.length - ptr.length }

/-- The round of the loop for a line; it is undefined when the terminator is written outside
of the line. -/
def loadLine (center : CcConfigCenter) (buf : List UInt8) (now : Int) :
    Option CcConfigCenter :=
  match parseLine (ofBuffer buf) with
  | none => some center
  | some line =>
      let newer := match ccFind center line.ns line.gr line.key with
        | none => true
        | some exist => exist.version < line.ver
      if newer then
        if line.offset + line.vlen < lineSize then
          some (ccConfigPut center line.ns line.gr line.key (line.text.take line.vlen) now)
        else none
      else some center

/-- `clock` has the times at which the lines are loaded. -/
def loadLines (center : CcConfigCenter) : List (List UInt8) → (Nat → Int) → Option CcConfigCenter
  | [], _ => some center
  | line :: lines, clock =>
      (loadLine center line (clock 0)).bind fun center =>
        loadLines center lines fun i => clock (i + 1)

def ccSnapshotLoad (center : CcConfigCenter) (file : List UInt8) (clock : Nat → Int) :
    Option CcConfigCenter :=
  loadLines center (fgetsLines [] file) clock

/-! ## Items over time -/

/-- Names that fit into their arrays. -/
structure Item where
  ns : Field ccMaxNamespaceLen
  gr : Field ccMaxGroupLen
  key : Field ccMaxKeyLen
deriving DecidableEq

def find (center : CcConfigCenter) (item : Item) : Option CcEntry :=
  ccFind center item.ns item.gr item.key

inductive Write
  | put (item : Item) (value : CStr) (now : Int)
  | putEncrypted (item : Item) (value : CStr) (encKey : { k : CStr // k ≠ [] }) (now : Int)
  | rollback (item : Item) (version now : Int)

def Write.item : Write → Item
  | .put item _ _ => item
  | .putEncrypted item _ _ _ => item
  | .rollback item _ _ => item

def write (center : CcConfigCenter) : Write → CcConfigCenter
  | .put item value now => ccConfigPut center item.ns item.gr item.key value now
  | .putEncrypted item value encKey now =>
      ccConfigPutEncrypted center item.ns item.gr item.key value encKey now
  | .rollback item version now =>
      (ccConfigRollback center item.ns item.gr item.key version now).2

inductive Op
  | write (w : Write)
  | delete (item : Item)

def step (center : CcConfigCenter) : Op → CcConfigCenter
  | .write w => write center w
  | .delete item => (ccConfigDelete center item.ns item.gr item.key).2

end MiniBackend.Infra.Config
