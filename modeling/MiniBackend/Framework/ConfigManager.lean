import Mathlib.Data.List.DropRight
import MiniBackend.Lib.CString
import MiniBackend.Lib.CArray

/-!
# `config.c`

A configuration is the list of its entries.  The environment is only read by `cfg_get` and
`cfg_has`, so it is left out.  A string argument that may be `NULL` is an option.
-/

namespace MiniBackend.Framework.ConfigManager

open MiniBackend.Lib.CString MiniBackend.Lib.CArray

def cfgMaxKeys : Nat := 256
def cfgMaxName : Nat := 64
def cfgMaxValue : Nat := 512

/-- `section_` is empty for a global entry. -/
structure CFGEntry where
  key : CStr
  value : CStr
  section_ : CStr
  isSet : Bool

abbrev Config := List CFGEntry

def isEntry (section_ : Option CStr) (key : CStr) (e : CFGEntry) : Bool :=
  e.section_ == section_.getD [] && e.key == key

def cfgFindEntry (cfg : Config) (section_ : Option CStr) (key : CStr) : Option CFGEntry :=
  cfg.find? (isEntry section_ key)

def withValue (value : CStr) (e : CFGEntry) : CFGEntry :=
  { e with value := strncpy value (cfgMaxValue - 1), isSet := true }

def cfgSet (cfg : Config) (section_ key value : Option CStr) : Config :=
  match key, value with
  | some key, some value =>
      if cfgMaxKeys ≤ cfg.length then cfg
      else
        match cfgFindEntry cfg section_ key with
        | some _ => updateFirst (isEntry section_ key) (withValue value) cfg
        | none =>
            cfg ++
              [{ key := strncpy key (cfgMaxName - 1)
                 value := strncpy value (cfgMaxValue - 1)
                 section_ := strncpy (section_.getD []) (cfgMaxName - 1)
                 isSet := true }]
  | _, _ => cfg

/-- The entries behind the removed one move up. -/
def cfgRemove (cfg : Config) (section_ key : Option CStr) : Int × Config :=
  match key with
  | none => (-1, cfg)
  | some key =>
      match cfgFindEntry cfg section_ key with
      | none => (-1, cfg)
      | some _ => (0, cfg.eraseP (isEntry section_ key))

inductive Op
  | set (section_ key value : Option CStr)
  | remove (section_ key : Option CStr)

def step (cfg : Config) : Op → Config
  | .set section_ key value => cfgSet cfg section_ key value
  | .remove section_ key => (cfgRemove cfg section_ key).2

/-! ## Loading -/

/-- `cfg_trim`.  The second loop stops at the first character, which is not a space. -/
def cfgTrim (s : CStr) : CStr := (s.dropWhile isSpace).rdropWhile isSpace

def lineSize : Nat := 1024

/-- A round of the loop: the entries, `current_section` and `loaded` after a line. -/
def loadLine (s : Config × CStr × Int) (buf : List UInt8) : Config × CStr × Int :=
  let (cfg, currentSection, loaded) := s
  let t := cfgTrim (ofBuffer buf)
  if t = [] ∨ t.head? = some 35 ∨ t.head? = some 59 then s
  else if t.head? = some 91 then
    match strchr t 93 with
    | some last =>
        (cfg, strncpy (cfgTrim (t.take (t.length - last.length)).tail) (cfgMaxName - 1), loaded)
    | none => s
  else
    match strchr t 61 with
    | some eq =>
        let k := cfgTrim (t.take (t.length - eq.length))
        let v := cfgTrim eq.tail
        if k = [] then s
        else
          (cfgSet cfg (if currentSection = [] then none else some currentSection) (some k) (some v),
            currentSection, loaded + 1)
    | none => s

def cfgLoadFile (cfg : Config) (file : Option (List UInt8)) : Int × Config :=
  match file with
  | none => (-1, cfg)
  | some bytes =>
      let s := (fgetsAll lineSize [] bytes).foldl loadLine (cfg, [], 0)
      (s.2.2, s.1)

/-! ## Dumping -/

/-- The section of an entry, `none` for `NULL`. -/
def sectionOf (e : CFGEntry) : Option CStr := if e.section_ = [] then none else some e.section_

/-- What is written for a section when the last one was another, or none. -/
def headerText (lastSec sec : Option CStr) : CStr :=
  if sec = lastSec then []
  else
    match sec with
    | some name => lit "[" ++ name ++ lit "]\n"
    | none => []

def entryText (e : CFGEntry) : CStr := e.key ++ lit " = " ++ e.value ++ lit "\n"

def dumpLoop (maxLen : Int) : Config → Option CStr → CStr → CStr
  | [], _, out => out
  | e :: es, lastSec, out =>
      if out.length < maxLen - 1 then
        let header := headerText lastSec (sectionOf e)
        if header ≠ [] ∧ maxLen ≤ out.length + header.length then out
        else if maxLen ≤ (out ++ header).length + (entryText e).length then out ++ header
        else dumpLoop maxLen es (sectionOf e) (out ++ header ++ entryText e)
      else out

def cfgDump (cfg : Config) (maxLen : Int) : Int × Option CStr :=
  if maxLen ≤ 0 then (-1, none)
  else
    let out := dumpLoop maxLen cfg none []
    (out.length, some out)

end MiniBackend.Framework.ConfigManager
