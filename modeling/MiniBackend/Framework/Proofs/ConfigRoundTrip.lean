import MiniBackend.Lib.Runs
import MiniBackend.Framework.ConfigManager

/-!
# Dumping and loading a configuration

A dump names a section only when it changes to another one, and has no way to go back to the
entries without a section.  A global entry behind a section's entry is loaded into that section.
-/

namespace MiniBackend.Framework.Proofs.ConfigRoundTrip

open MiniBackend.Lib.CString MiniBackend.Lib.CArray MiniBackend.Lib.Runs
open MiniBackend.Framework.ConfigManager

/-! ## Trimming -/

def Trimmed (s : CStr) : Prop :=
  (∀ b ∈ s.head?, isSpace b = false) ∧ ∀ b ∈ s.getLast?, isSpace b = false

instance (s : CStr) : Decidable (Trimmed s) := inferInstanceAs (Decidable (_ ∧ _))

theorem dropWhile_isSpace_append {a s : CStr} (ha : ∀ b ∈ a, isSpace b = true)
    (hs : ∀ b ∈ s.head?, isSpace b = false) : (a ++ s).dropWhile isSpace = s := by
  rw [List.dropWhile_append_of_pos ha]
  cases s with
  | nil => rfl
  | cons b s =>
      rw [List.dropWhile_cons_of_neg]
      rw [hs b rfl]
      exact Bool.false_ne_true

theorem cfgTrim_pad {a s c : CStr} (ha : ∀ b ∈ a, isSpace b = true)
    (hc : ∀ b ∈ c, isSpace b = true) (hs : Trimmed s) : cfgTrim (a ++ s ++ c) = s := by
  have hback : ∀ t : CStr, (∀ b ∈ t.getLast?, isSpace b = false) →
      (t ++ c).rdropWhile isSpace = t := by
    intro t ht
    rw [List.rdropWhile, List.reverse_append,
      dropWhile_isSpace_append (fun b hb => hc b (List.mem_reverse.mp hb)), List.reverse_reverse]
    rw [List.head?_reverse]
    exact ht
  rw [cfgTrim, List.append_assoc, List.dropWhile_append_of_pos ha]
  cases s with
  | nil =>
      have hempty : c.dropWhile isSpace = [] := List.dropWhile_eq_nil_iff.mpr hc
      rw [List.nil_append, hempty, List.rdropWhile_nil]
  | cons b s =>
      have hb : isSpace b = false := hs.1 b rfl
      rw [List.cons_append, List.dropWhile_cons_of_neg (by rw [hb]; exact Bool.false_ne_true),
        ← List.cons_append, hback (b :: s) hs.2]

theorem cfgTrim_of_trimmed {s : CStr} (hs : Trimmed s) : cfgTrim s = s := by
  have hpad := cfgTrim_pad (a := []) (c := []) (by simp) (by simp) hs
  rwa [List.nil_append, List.append_nil] at hpad

/-! ## Lines -/

/-- An entry that a line can hold. -/
structure CleanEntry (e : CFGEntry) : Prop where
  trimmed : Trimmed e.section_ ∧ Trimmed e.key ∧ Trimmed e.value
  unbroken : 10 ∉ e.section_ ∧ 10 ∉ e.key ∧ 10 ∉ e.value
  string : 0 ∉ e.section_ ∧ 0 ∉ e.key ∧ 0 ∉ e.value
  keyNe : e.key ≠ []
  keyEq : 61 ∉ e.key
  keyHead : ∀ b ∈ e.key.head?, b ≠ 35 ∧ b ≠ 59 ∧ b ≠ 91
  sectionEnd : 93 ∉ e.section_

structure Fits (e : CFGEntry) : Prop where
  key : e.key.length < cfgMaxName
  value : e.value.length < cfgMaxValue
  section_ : e.section_.length < cfgMaxName

def sectionArg (currentSection : CStr) : Option CStr :=
  if currentSection = [] then none else some currentSection

/-- What is left of an entry's line after trimming: the value is found behind the sign. -/
theorem cfgTrim_entryText {e : CFGEntry} (he : CleanEntry e) :
    ∃ r, cfgTrim (entryText e) = e.key ++ [32] ++ 61 :: r ∧ cfgTrim r = e.value := by
  obtain ⟨b, key, hkey⟩ := List.exists_cons_of_ne_nil he.keyNe
  have hspace : isSpace b = false := he.trimmed.2.1.1 b (by rw [hkey]; rfl)
  by_cases hvalue : e.value = []
  · have htrimmed : Trimmed (e.key ++ [32, 61]) := by
      constructor
      · rw [hkey, List.cons_append]
        simpa using hspace
      · rw [List.getLast?_append_of_ne_nil _ (by simp)]
        decide +kernel
    have htext : entryText e = [] ++ (e.key ++ [32, 61]) ++ [32, 10] := by
      rw [entryText, hvalue, List.append_nil, List.nil_append, List.append_assoc,
        List.append_assoc]
      rfl
    refine ⟨[], ?_, by rw [hvalue]; rfl⟩
    rw [htext, cfgTrim_pad (by simp) (by decide +kernel) htrimmed, List.append_assoc]
    rfl
  · have htrimmed : Trimmed (e.key ++ [32, 61, 32] ++ e.value) := by
      constructor
      · rw [hkey, List.cons_append, List.cons_append]
        simpa using hspace
      · rw [List.getLast?_append_of_ne_nil _ hvalue]
        exact he.trimmed.2.2.2
    have htext : entryText e = [] ++ (e.key ++ [32, 61, 32] ++ e.value) ++ [10] := by
      rw [entryText, List.nil_append]
      rfl
    refine ⟨32 :: e.value, ?_, ?_⟩
    · rw [htext, cfgTrim_pad (by simp) (by decide +kernel) htrimmed, List.append_assoc,
        List.append_assoc]
      rfl
    · have hpad := cfgTrim_pad (a := [32]) (c := []) (by decide +kernel) (by simp) he.trimmed.2.2
      rwa [List.append_nil] at hpad

theorem ofBuffer_of_not_mem {s : CStr} (h : 0 ∉ s) : ofBuffer s = s :=
  ofBuffer_of_ne fun _ hb hzero => h (hzero ▸ hb)

theorem take_before (a r : List UInt8) : (a ++ r).take ((a ++ r).length - r.length) = a := by
  rw [List.length_append, Nat.add_sub_cancel, List.take_left]

theorem loadLine_entry {e : CFGEntry} (he : CleanEntry e) (cfg : Config) (currentSection : CStr)
    (loaded : Int) :
    loadLine (cfg, currentSection, loaded) (entryText e) =
      (cfgSet cfg (sectionArg currentSection) (some e.key) (some e.value), currentSection,
        loaded + 1) := by
  obtain ⟨r, htrim, hvalue⟩ := cfgTrim_entryText he
  have hstring : ofBuffer (entryText e) = entryText e := by
    apply ofBuffer_of_not_mem
    simp only [entryText, List.mem_append, not_or]
    exact ⟨⟨⟨he.string.2.1, by decide⟩, he.string.2.2⟩, by decide⟩
  have hhead : ∃ b, (e.key ++ [32] ++ 61 :: r).head? = some b ∧ b ≠ 35 ∧ b ≠ 59 ∧ b ≠ 91 := by
    obtain ⟨b, key, hkey⟩ := List.exists_cons_of_ne_nil he.keyNe
    refine ⟨b, ?_, he.keyHead b ?_⟩
    · rw [hkey]; rfl
    · rw [hkey]; rfl
  obtain ⟨b, hb, hhash, hsemi, hopen⟩ := hhead
  have hfound : strchr (e.key ++ [32] ++ 61 :: r) 61 = some (61 :: r) := by
    apply strchr_append
    rw [List.mem_append, not_or]
    exact ⟨he.keyEq, by decide⟩
  have hkey : cfgTrim (e.key ++ [32]) = e.key :=
    cfgTrim_pad (a := []) (by simp) (by decide +kernel) he.trimmed.2.1
  have hne : e.key ++ [32] ++ 61 :: r ≠ [] := by simp
  unfold loadLine
  dsimp only
  rw [hstring, htrim, hb, if_neg (by simp [hhash, hsemi]), if_neg (by simp [hopen]), hfound]
  dsimp only
  rw [take_before, hkey, if_neg he.keyNe, List.tail_cons, hvalue, sectionArg]

theorem loadLine_header {name : CStr} (htrimmed : Trimmed name) (hstring : 0 ∉ name)
    (hend : 93 ∉ name) (hfits : name.length < cfgMaxName) (s : Config × CStr × Int) :
    loadLine s (lit "[" ++ name ++ lit "]\n") = (s.1, name, s.2.2) := by
  have htext : lit "[" ++ name ++ lit "]\n" = [] ++ (91 :: name ++ [93]) ++ [10] := by
    rw [List.nil_append]
    simp only [List.append_assoc]
    rfl
  have hbracket : Trimmed (91 :: name ++ [93]) := by
    constructor
    · rw [List.cons_append, List.head?_cons]
      decide +kernel
    · rw [List.getLast?_append_of_ne_nil _ (by simp)]
      decide +kernel
  have htrim : cfgTrim (lit "[" ++ name ++ lit "]\n") = 91 :: name ++ [93] := by
    rw [htext]
    exact cfgTrim_pad (by simp) (by decide +kernel) hbracket
  have hbuffer : ofBuffer (lit "[" ++ name ++ lit "]\n") = lit "[" ++ name ++ lit "]\n" := by
    apply ofBuffer_of_not_mem
    simp only [List.mem_append, not_or]
    exact ⟨⟨by decide, hstring⟩, by decide⟩
  have hfound : strchr (91 :: name ++ [93]) 93 = some [93] := by
    apply strchr_append
    rw [List.mem_cons, not_or]
    exact ⟨by decide, hend⟩
  unfold loadLine
  dsimp only
  rw [hbuffer, htrim, if_neg (by simp), if_pos (by simp), hfound]
  dsimp only
  rw [take_before, List.tail_cons, cfgTrim_of_trimmed htrimmed,
    strncpy_of_le (Nat.le_sub_one_of_lt hfits)]

/-! ## The whole text -/

/-- A dump that nothing is cut from. -/
def dumpText (lastSec : Option CStr) : Config → CStr
  | [] => []
  | e :: es => headerText lastSec (sectionOf e) ++ entryText e ++ dumpText (sectionOf e) es

theorem dumpLoop_eq {maxLen : Int} {es : Config} {lastSec : Option CStr} {out : CStr}
    (hroom : (out ++ dumpText lastSec es).length < maxLen) :
    dumpLoop maxLen es lastSec out = out ++ dumpText lastSec es := by
  induction es generalizing lastSec out with
  | nil => rw [dumpText, List.append_nil]; rfl
  | cons e es ih =>
      have hentry : 2 ≤ (entryText e).length := by
        have hsign : (lit " = ").length = 3 := by decide
        simp only [entryText, List.length_append, hsign]
        omega
      have hlength := hroom
      simp only [dumpText, List.length_append] at hlength
      push_cast at hlength
      rw [dumpLoop, if_pos (by omega)]
      dsimp only
      rw [if_neg (by omega), if_neg (by rw [List.length_append]; push_cast; omega), ih, dumpText]
      · simp only [List.append_assoc]
      · simpa only [dumpText, List.append_assoc] using hroom

def underHeaders (header : CStr) : Config → Config
  | [] => []
  | e :: es =>
      if e.section_ = [] then { e with section_ := header } :: underHeaders header es
      else e :: underHeaders e.section_ es

def setEntry (cfg : Config) (e : CFGEntry) : Config :=
  cfgSet cfg (sectionArg e.section_) (some e.key) (some e.value)

theorem fgetsAll_line {size : Nat} {body : List UInt8} (hbody : 10 ∉ body)
    (hlength : body.length + 1 < size) (rest : List UInt8) :
    fgetsAll size [] (body ++ [10] ++ rest) = (body ++ [10]) :: fgetsAll size [] rest := by
  have happend := fgetsAll_append hbody [] rest (by rwa [List.nil_append])
  rwa [List.nil_append, ← List.singleton_append, ← List.append_assoc] at happend

theorem fgetsAll_entryText {e : CFGEntry} (he : CleanEntry e) (hfits : Fits e)
    (rest : List UInt8) :
    fgetsAll lineSize [] (entryText e ++ rest) = entryText e :: fgetsAll lineSize [] rest := by
  have hkey := hfits.key
  have hvalue := hfits.value
  unfold cfgMaxName at hkey
  unfold cfgMaxValue at hvalue
  have hbody : 10 ∉ e.key ++ lit " = " ++ e.value := by
    simp only [List.mem_append, not_or]
    exact ⟨⟨he.unbroken.2.1, by decide⟩, he.unbroken.2.2⟩
  have hlength : (e.key ++ lit " = " ++ e.value).length + 1 < lineSize := by
    have hsign : (lit " = ").length = 3 := by decide
    rw [List.length_append, List.length_append, hsign]
    unfold lineSize
    omega
  exact fgetsAll_line hbody hlength rest

theorem fgetsAll_header {name : CStr} (hname : 10 ∉ name) (hfits : name.length < cfgMaxName)
    (rest : List UInt8) :
    fgetsAll lineSize [] (lit "[" ++ name ++ lit "]\n" ++ rest) =
      (lit "[" ++ name ++ lit "]\n") :: fgetsAll lineSize [] rest := by
  have htext : lit "[" ++ name ++ lit "]\n" = 91 :: name ++ [93] ++ [10] := by
    simp only [List.append_assoc]
    rfl
  unfold cfgMaxName at hfits
  rw [htext]
  apply fgetsAll_line
  · simp only [List.cons_append, List.mem_cons, List.mem_append, not_or]
    exact ⟨by decide, hname, by decide, List.not_mem_nil⟩
  · rw [List.length_append, List.length_cons, List.length_singleton]
    unfold lineSize
    omega

/-- A header is read when one was written, and otherwise its section is the current one. -/
theorem foldl_header {e : CFGEntry} (he : CleanEntry e) (hfits : Fits e)
    {lastSec : Option CStr} {currentSection : CStr}
    (hlast : ∀ name ∈ lastSec, currentSection = name) (rest : List UInt8) (cfg : Config)
    (loaded : Int) :
    (fgetsAll lineSize [] (headerText lastSec (sectionOf e) ++ rest)).foldl loadLine
        (cfg, currentSection, loaded) =
      (fgetsAll lineSize [] rest).foldl loadLine
        (cfg, if e.section_ = [] then currentSection else e.section_, loaded) := by
  unfold headerText
  split
  · next hsame =>
      rw [List.nil_append]
      split
      · rfl
      · next hne => rw [hlast e.section_ (by rw [← hsame, sectionOf, if_neg hne]; rfl)]
  · by_cases hempty : e.section_ = []
    · rw [if_pos hempty, sectionOf, if_pos hempty]
      rfl
    · rw [if_neg hempty, sectionOf, if_neg hempty]
      dsimp only
      rw [fgetsAll_header he.unbroken.1 hfits.section_, List.foldl_cons,
        loadLine_header he.trimmed.1 he.string.1 he.sectionEnd hfits.section_]

theorem foldl_dumpText {es : Config} (hes : ∀ e ∈ es, CleanEntry e ∧ Fits e)
    {lastSec : Option CStr} {currentSection : CStr}
    (hlast : ∀ name ∈ lastSec, currentSection = name) (cfg : Config) (loaded : Int) :
    ((fgetsAll lineSize [] (dumpText lastSec es)).foldl loadLine
        (cfg, currentSection, loaded)).1 =
      (underHeaders currentSection es).foldl setEntry cfg := by
  induction es generalizing lastSec currentSection cfg loaded with
  | nil => rfl
  | cons e es ih =>
      obtain ⟨he, hfits⟩ := hes e List.mem_cons_self
      have hrest : ∀ e' ∈ es, CleanEntry e' ∧ Fits e' :=
        fun e' he' => hes e' (List.mem_cons_of_mem e he')
      rw [dumpText, List.append_assoc, foldl_header he hfits hlast, fgetsAll_entryText he hfits,
        List.foldl_cons, loadLine_entry he, underHeaders]
      by_cases hempty : e.section_ = []
      · rw [if_pos hempty, if_pos hempty, List.foldl_cons, setEntry]
        apply ih hrest
        rw [sectionOf, if_pos hempty]
        exact fun name hname => absurd hname (by simp)
      · rw [if_neg hempty, if_neg hempty, List.foldl_cons, setEntry]
        apply ih hrest
        rw [sectionOf, if_neg hempty]
        exact fun name hname => Option.mem_some_iff.mp hname

/-! ## The map of a configuration -/

def cfgValue (cfg : Config) (section_ : Option CStr) (key : CStr) : Option CStr :=
  (cfgFindEntry cfg section_ key).map CFGEntry.value

theorem isEntry_iff {section_ : Option CStr} {key : CStr} {e : CFGEntry} :
    isEntry section_ key e = true ↔ e.section_ = section_.getD [] ∧ e.key = key := by
  rw [isEntry, Bool.and_eq_true, beq_iff_eq, beq_iff_eq]

theorem getD_sectionArg (name : CStr) : (sectionArg name).getD [] = name := by
  unfold sectionArg
  split
  · next h => rw [h]; rfl
  · rfl

theorem isEntry_congr {section_ : Option CStr} {key : CStr} {e : CFGEntry}
    (h : isEntry section_ key e = true) :
    isEntry section_ key = isEntry (sectionArg e.section_) e.key := by
  obtain ⟨hsection, hkey⟩ := isEntry_iff.mp h
  funext e'
  rw [isEntry, isEntry, getD_sectionArg, hsection, hkey]

theorem cfgValue_setEntry {cfg : Config} (hroom : cfg.length < cfgMaxKeys) {e : CFGEntry}
    (he : Fits e) (section_ : Option CStr) (key : CStr) :
    cfgValue (setEntry cfg e) section_ key =
      if isEntry section_ key e then some e.value else cfgValue cfg section_ key := by
  have hvalue : strncpy e.value (cfgMaxValue - 1) = e.value :=
    strncpy_of_le (Nat.le_sub_one_of_lt he.value)
  have hkey : strncpy e.key (cfgMaxName - 1) = e.key :=
    strncpy_of_le (Nat.le_sub_one_of_lt he.key)
  have hsection : strncpy e.section_ (cfgMaxName - 1) = e.section_ :=
    strncpy_of_le (Nat.le_sub_one_of_lt he.section_)
  rw [setEntry, cfgSet, if_neg (by omega)]
  cases hfind : cfgFindEntry cfg (sectionArg e.section_) e.key with
  | some found =>
      dsimp only
      by_cases hsame : isEntry section_ key e = true
      · have hkeeps : ∀ e', isEntry (sectionArg e.section_) e.key e' = true →
            isEntry (sectionArg e.section_) e.key (withValue e.value e') = true := fun _ h => h
        rw [if_pos hsame, cfgValue, cfgFindEntry, isEntry_congr hsame, find?_updateFirst hkeeps,
          ← cfgFindEntry, hfind, Option.map_some, Option.map_some, withValue, hvalue]
      · rw [if_neg hsame, cfgValue, cfgFindEntry, find?_updateFirst_of_disjoint]
        · rfl
        · intro e' he'
          rw [isEntry_iff, getD_sectionArg] at he'
          have hother : isEntry section_ key e' = false := by
            rw [Bool.eq_false_iff]
            intro h
            rw [isEntry_iff, he'.1, he'.2] at h
            exact hsame (isEntry_iff.mpr h)
          exact ⟨hother, hother⟩
  | none =>
      dsimp only
      rw [getD_sectionArg, hkey, hvalue, hsection, cfgValue, cfgFindEntry, List.find?_append]
      by_cases hsame : isEntry section_ key e = true
      · have hnone : cfg.find? (isEntry section_ key) = none := by
          rw [isEntry_congr hsame]
          exact hfind
        rw [if_pos hsame, hnone, Option.none_or, List.find?_cons_of_pos]
        · rfl
        · exact hsame
      · rw [if_neg hsame, List.find?_cons_of_neg, List.find?_nil, Option.or_none]
        · rfl
        · exact hsame

theorem length_setEntry_le (cfg : Config) (e : CFGEntry) :
    (setEntry cfg e).length ≤ cfg.length + 1 := by
  unfold setEntry cfgSet
  dsimp only
  split
  · omega
  · split
    · rw [length_updateFirst]
      omega
    · rw [List.length_append, List.length_singleton]

theorem cfgValue_foldl {es : Config} (hes : ∀ e ∈ es, Fits e) {cfg : Config}
    (hroom : cfg.length + es.length ≤ cfgMaxKeys) (section_ : Option CStr) (key : CStr) :
    cfgValue (es.foldl setEntry cfg) section_ key =
      ((es.reverse.find? (isEntry section_ key)).map CFGEntry.value).or
        (cfgValue cfg section_ key) := by
  induction es generalizing cfg with
  | nil => rfl
  | cons e es ih =>
      rw [List.length_cons] at hroom
      have hlength := length_setEntry_le cfg e
      have hfree : cfg.length < cfgMaxKeys := by omega
      have hset := cfgValue_setEntry hfree (hes e List.mem_cons_self) section_ key
      rw [List.foldl_cons, ih (fun e' he' => hes e' (List.mem_cons_of_mem e he')) (by omega), hset,
        List.reverse_cons, List.find?_append]
      cases es.reverse.find? (isEntry section_ key) with
      | some last => rfl
      | none =>
          rw [Option.map_none, Option.none_or, Option.none_or]
          split
          · next hsame => rw [List.find?_cons_of_pos hsame]; rfl
          · next hother => rw [List.find?_cons_of_neg hother]; rfl

/-! ## Configurations that a program builds -/

theorem fits_step {cfg : Config} (hcfg : ∀ e ∈ cfg, Fits e) (op : Op) :
    ∀ e ∈ step cfg op, Fits e := by
  have htake (s : CStr) {n : Nat} (hn : 0 < n) : (strncpy s (n - 1)).length < n := by
    rw [strncpy, List.length_take]
    omega
  cases op with
  | set section_ key value =>
      rw [step]
      unfold cfgSet
      split
      · next key value =>
          split
          · exact hcfg
          · split
            · intro e he
              rcases mem_updateFirst he with hold | ⟨old, hold, -, rfl⟩
              · exact hcfg e hold
              · exact { hcfg old hold with value := htake value (by decide) }
            · intro e he
              rw [List.mem_append, List.mem_singleton] at he
              rcases he with hold | rfl
              · exact hcfg e hold
              · exact ⟨htake key (by decide), htake value (by decide), htake _ (by decide)⟩
      · exact hcfg
  | remove section_ key =>
      rw [step]
      unfold cfgRemove
      split
      · exact hcfg
      · split
        · exact hcfg
        · exact fun e he => hcfg e (List.mem_of_mem_eraseP he)

theorem fits_run (ops : List Op) : ∀ e ∈ run step [] ops, Fits e :=
  run_keeps step (I := fun cfg => ∀ e ∈ cfg, Fits e) (fun _ op h => fits_step h op)
    (fun _ he => absurd he List.not_mem_nil) ops

def entryNames (e : CFGEntry) : CStr × CStr := (e.section_, e.key)

def names (cfg : Config) : List (CStr × CStr) := cfg.map entryNames

/-- The names that an operation sets are stored as they are. -/
def ShortNames : Op → Prop
  | .set section_ key _ =>
      (∀ name ∈ section_, name.length < cfgMaxName) ∧ ∀ name ∈ key, name.length < cfgMaxName
  | .remove _ _ => True

theorem nodup_names_step {cfg : Config} (hcfg : (names cfg).Nodup) {op : Op}
    (hop : ShortNames op) : (names (step cfg op)).Nodup := by
  cases op with
  | set section_ key value =>
      rw [step]
      unfold cfgSet
      split
      · next key value =>
          split
          · exact hcfg
          · split
            · have hkeeps : ∀ e, entryNames (withValue value e) = entryNames e := fun _ => rfl
              rw [names, map_updateFirst hkeeps]
              exact hcfg
            · next hnone =>
                have hkey : strncpy key (cfgMaxName - 1) = key :=
                  strncpy_of_le (Nat.le_sub_one_of_lt (hop.2 key rfl))
                have hsection : strncpy (section_.getD []) (cfgMaxName - 1) = section_.getD [] := by
                  cases section_ with
                  | none => rfl
                  | some name => exact strncpy_of_le (Nat.le_sub_one_of_lt (hop.1 name rfl))
                rw [hkey, hsection, names, List.map_append, List.map_singleton]
                apply List.Nodup.append hcfg (List.nodup_singleton _)
                rw [List.disjoint_singleton]
                intro hmem
                obtain ⟨e, he, hnames⟩ := List.mem_map.mp hmem
                have hfound := List.find?_eq_none.mp hnone e he
                exact hfound (isEntry_iff.mpr ⟨congrArg Prod.fst hnames, congrArg Prod.snd hnames⟩)
      · exact hcfg
  | remove section_ key =>
      rw [step]
      unfold cfgRemove
      split
      · exact hcfg
      · split
        · exact hcfg
        · exact hcfg.sublist (List.eraseP_sublist.map _)

theorem nodup_names_run {ops : List Op} (hops : ∀ op ∈ ops, ShortNames op) :
    (names (run step [] ops)).Nodup := by
  have hmeet : Always step (fun _ op => ShortNames op) [] ops :=
    always_of_forall step (fun _ _ hop => hop) hops []
  exact run_invariant step (I := fun cfg => (names cfg).Nodup)
    (fun _ _ hcfg hop => nodup_names_step hcfg hop) List.nodup_nil hmeet

/-! ## Global entries -/

/-- No global entry stands behind the entry of a section. -/
def GlobalsFirst (cfg : Config) : Prop :=
  cfg.Pairwise fun e e' => e'.section_ = [] → e.section_ = []

/-- The first entry with a section and a key agrees with the last one that stands under a header
of this section. -/
def FirstIsLast (cfg : Config) : Prop :=
  ∀ section_ key, ((underHeaders [] cfg).reverse.find? (isEntry section_ key)).map CFGEntry.value =
    cfgValue cfg section_ key

theorem length_underHeaders (header : CStr) (cfg : Config) :
    (underHeaders header cfg).length = cfg.length := by
  induction cfg generalizing header with
  | nil => rfl
  | cons e es ih =>
      unfold underHeaders
      split
      · rw [List.length_cons, List.length_cons, ih]
      · rw [List.length_cons, List.length_cons, ih]

theorem fits_underHeaders {header : CStr} (hheader : header.length < cfgMaxName) {cfg : Config}
    (hcfg : ∀ e ∈ cfg, Fits e) : ∀ e ∈ underHeaders header cfg, Fits e := by
  induction cfg generalizing header with
  | nil => exact hcfg
  | cons e es ih =>
      have he := hcfg e List.mem_cons_self
      have hes : ∀ e' ∈ es, Fits e' := fun e' he' => hcfg e' (List.mem_cons_of_mem e he')
      unfold underHeaders
      split
      · rw [List.forall_mem_cons]
        exact ⟨{ he with section_ := hheader }, ih hheader hes⟩
      · rw [List.forall_mem_cons]
        exact ⟨he, ih he.section_ hes⟩

theorem underHeaders_ne {header : CStr} (hheader : header ≠ []) (cfg : Config) :
    ∀ e ∈ underHeaders header cfg, e.section_ ≠ [] := by
  induction cfg generalizing header with
  | nil => exact fun e he => absurd he List.not_mem_nil
  | cons e es ih =>
      unfold underHeaders
      split
      · rw [List.forall_mem_cons]
        exact ⟨hheader, ih hheader⟩
      · next hne =>
          rw [List.forall_mem_cons]
          exact ⟨hne, ih hne⟩

theorem underHeaders_of_sectioned {cfg : Config} (hcfg : ∀ e ∈ cfg, e.section_ ≠ [])
    (header : CStr) : underHeaders header cfg = cfg := by
  induction cfg generalizing header with
  | nil => rfl
  | cons e es ih =>
      rw [underHeaders, if_neg (hcfg e List.mem_cons_self),
        ih fun e' he' => hcfg e' (List.mem_cons_of_mem e he')]

theorem underHeaders_of_globalsFirst {cfg : Config} (h : GlobalsFirst cfg) :
    underHeaders [] cfg = cfg := by
  induction cfg with
  | nil => rfl
  | cons e es ih =>
      obtain ⟨hfirst, hrest⟩ := List.pairwise_cons.mp h
      unfold underHeaders
      split
      · next hglobal =>
          rw [ih hrest]
          cases e
          cases hglobal
          rfl
      · next hne =>
          rw [underHeaders_of_sectioned fun e' he' hglobal => hne (hfirst e' he' hglobal)]

/-- When no names are repeated and every global entry is found again, none stands behind an entry
with a section. -/
theorem globalsFirst_of_found {cfg : Config} (hnames : (names cfg).Nodup)
    (hfound : ∀ e ∈ cfg, e.section_ = [] →
      ∃ e' ∈ underHeaders [] cfg, e'.section_ = [] ∧ e'.key = e.key) :
    GlobalsFirst cfg := by
  induction cfg with
  | nil => exact List.Pairwise.nil
  | cons e es ih =>
      obtain ⟨hfresh, hnames'⟩ := List.nodup_cons.mp hnames
      by_cases hglobal : e.section_ = []
      · refine List.pairwise_cons.mpr ⟨fun _ _ _ => hglobal, ih hnames' ?_⟩
        intro e₁ he₁ hsection
        obtain ⟨e', he', hsection', hkey⟩ := hfound e₁ (List.mem_cons_of_mem e he₁) hsection
        rw [underHeaders, if_pos hglobal, List.mem_cons] at he'
        rcases he' with rfl | he'
        · have hsame : entryNames e = entryNames e₁ := by
            rw [entryNames, entryNames, hglobal, hsection, ← hkey]
          have hmem : entryNames e ∈ names es := by
            rw [hsame]
            exact List.mem_map_of_mem he₁
          exact absurd hmem hfresh
        · exact ⟨e', he', hsection', hkey⟩
      · have hnone : ∀ e₁ ∈ es, e₁.section_ ≠ [] := by
          intro e₁ he₁ hsection
          obtain ⟨e', he', hsection', -⟩ := hfound e₁ (List.mem_cons_of_mem e he₁) hsection
          rw [underHeaders, if_neg hglobal, List.mem_cons] at he'
          rcases he' with rfl | he'
          · exact hglobal hsection'
          · exact underHeaders_ne hglobal es e' he' hsection'
        refine List.pairwise_cons.mpr ⟨fun e₁ he₁ hsection => absurd hsection (hnone e₁ he₁), ?_⟩
        exact List.pairwise_of_forall_mem_list fun _ _ e₁ he₁ hsection =>
          absurd hsection (hnone e₁ he₁)

theorem pairwise_isEntry {cfg : Config} (hnames : (names cfg).Nodup) (section_ : Option CStr)
    (key : CStr) :
    cfg.Pairwise fun e e' => isEntry section_ key e = true → isEntry section_ key e' = false := by
  refine (List.pairwise_map.mp hnames).imp fun {e e'} hne he => ?_
  rw [Bool.eq_false_iff]
  intro he'
  rw [isEntry_iff] at he he'
  exact hne (Prod.ext (he.1.trans he'.1.symm) (he.2.trans he'.2.symm))

theorem firstIsLast_iff_globalsFirst {cfg : Config} (hnames : (names cfg).Nodup) :
    FirstIsLast cfg ↔ GlobalsFirst cfg := by
  constructor
  · intro h
    apply globalsFirst_of_found hnames
    intro e he hglobal
    have hfirst : ((underHeaders [] cfg).reverse.find? (isEntry none e.key)).isSome := by
      have hmatch : (cfg.find? (isEntry none e.key)).isSome :=
        List.find?_isSome.mpr ⟨e, he, isEntry_iff.mpr ⟨hglobal, rfl⟩⟩
      have hvalue := congrArg Option.isSome (h none e.key)
      rw [cfgValue, cfgFindEntry, Option.isSome_map, Option.isSome_map, hmatch] at hvalue
      exact hvalue
    obtain ⟨e', he', hentry⟩ := List.find?_isSome.mp hfirst
    exact ⟨e', List.mem_reverse.mp he', isEntry_iff.mp hentry⟩
  · intro h section_ key
    rw [underHeaders_of_globalsFirst h,
      find?_reverse_of_pairwise (pairwise_isEntry hnames section_ key)]
    rfl

/-! ## The round trip -/

/-- The dump is loaded into an empty configuration with the same map. -/
def Restores (cfg : Config) (maxLen : Int) : Prop :=
  ∃ text, (cfgDump cfg maxLen).2 = some text ∧
    ∀ section_ key,
      cfgValue (cfgLoadFile [] (some text)).2 section_ key = cfgValue cfg section_ key

theorem cfgDump_eq {cfg : Config} {maxLen : Int} (hroom : (dumpText none cfg).length < maxLen) :
    (cfgDump cfg maxLen).2 = some (dumpText none cfg) := by
  have hloop : dumpLoop maxLen cfg none [] = [] ++ dumpText none cfg :=
    dumpLoop_eq (by rwa [List.nil_append])
  rw [cfgDump, if_neg (by omega), hloop, List.nil_append]

theorem cfgValue_load {cfg : Config} (hcount : cfg.length ≤ cfgMaxKeys)
    (hcfg : ∀ e ∈ cfg, CleanEntry e ∧ Fits e) (section_ : Option CStr) (key : CStr) :
    cfgValue (cfgLoadFile [] (some (dumpText none cfg))).2 section_ key =
      ((underHeaders [] cfg).reverse.find? (isEntry section_ key)).map CFGEntry.value := by
  have hload : (cfgLoadFile [] (some (dumpText none cfg))).2 =
      (underHeaders [] cfg).foldl setEntry [] :=
    foldl_dumpText hcfg (fun name hname => absurd hname (by simp)) [] 0
  have hfits : ∀ e ∈ underHeaders [] cfg, Fits e :=
    fits_underHeaders (by decide) fun e he => (hcfg e he).2
  have hlength : ([] : Config).length + (underHeaders [] cfg).length ≤ cfgMaxKeys := by
    rw [length_underHeaders, List.length_nil, Nat.zero_add]
    exact hcount
  rw [hload, cfgValue_foldl hfits hlength]
  exact Option.or_none

/-- Exactly which configurations a dump restores. -/
theorem dump_load_iff {ops : List Op} (hcount : (run step [] ops).length < cfgMaxKeys)
    (hclean : ∀ e ∈ run step [] ops, CleanEntry e) {maxLen : Int}
    (hroom : (dumpText none (run step [] ops)).length < maxLen) :
    (Restores (run step [] ops) maxLen ↔ FirstIsLast (run step [] ops)) ∧
      ((∀ op ∈ ops, ShortNames op) →
        (Restores (run step [] ops) maxLen ↔ GlobalsFirst (run step [] ops))) := by
  have hcfg : ∀ e ∈ run step [] ops, CleanEntry e ∧ Fits e :=
    fun e he => ⟨hclean e he, fits_run ops e he⟩
  have hload := cfgValue_load (Nat.le_of_lt hcount) hcfg
  have hiff : Restores (run step [] ops) maxLen ↔ FirstIsLast (run step [] ops) := by
    constructor
    · rintro ⟨text, htext, hsame⟩ section_ key
      rw [cfgDump_eq hroom, Option.some_inj] at htext
      rw [← hload, htext, hsame]
    · intro h
      refine ⟨_, cfgDump_eq hroom, fun section_ key => ?_⟩
      rw [hload, h]
  exact ⟨hiff, fun hops => hiff.trans (firstIsLast_iff_globalsFirst (nodup_names_run hops))⟩

def globalRun : List Op :=
  [.set none (some (lit "debug")) (some (lit "1")),
    .set (some (lit "db")) (some (lit "host")) (some (lit "x"))]

/-- The same entries in the other order. -/
def sectionRun : List Op :=
  [.set (some (lit "db")) (some (lit "host")) (some (lit "x")),
    .set none (some (lit "debug")) (some (lit "1"))]

def debugEntry : CFGEntry := ⟨lit "debug", lit "1", [], true⟩

def hostEntry : CFGEntry := ⟨lit "host", lit "x", lit "db", true⟩

theorem debugEntry_clean : CleanEntry debugEntry :=
  ⟨by decide +kernel, by decide, by decide, by decide, by decide, by decide +kernel, by decide⟩

theorem hostEntry_clean : CleanEntry hostEntry :=
  ⟨by decide +kernel, by decide, by decide, by decide, by decide, by decide +kernel, by decide⟩

theorem dump_load_iff_global :
    (Restores (run step [] globalRun) 4096 ↔ FirstIsLast (run step [] globalRun)) ∧
      ((∀ op ∈ globalRun, ShortNames op) →
        (Restores (run step [] globalRun) 4096 ↔ GlobalsFirst (run step [] globalRun))) := by
  have hentries : run step [] globalRun = [debugEntry, hostEntry] := rfl
  have hclean : ∀ e ∈ run step [] globalRun, CleanEntry e := by
    rw [hentries, List.forall_mem_cons, List.forall_mem_singleton]
    exact ⟨debugEntry_clean, hostEntry_clean⟩
  exact dump_load_iff (by decide) hclean (by decide)

/-- The global entry is loaded into the section `db`. -/
theorem global_entry_moved :
    (run step [] sectionRun).length < cfgMaxKeys ∧
      (∀ e ∈ run step [] sectionRun, CleanEntry e) ∧
      ((dumpText none (run step [] sectionRun)).length : Int) < 4096 ∧
      ¬Restores (run step [] sectionRun) 4096 := by
  have hentries : run step [] sectionRun = [hostEntry, debugEntry] := rfl
  have hclean : ∀ e ∈ run step [] sectionRun, CleanEntry e := by
    rw [hentries, List.forall_mem_cons, List.forall_mem_singleton]
    exact ⟨hostEntry_clean, debugEntry_clean⟩
  refine ⟨by decide, hclean, by decide, ?_⟩
  rintro ⟨text, htext, hsame⟩
  have hdump : (cfgDump (run step [] sectionRun) 4096).2 =
      some (lit "[db]\nhost = x\ndebug = 1\n") := by decide
  cases htext.symm.trans hdump
  have hdebug := hsame none (lit "debug")
  exact absurd hdebug (by decide)

end MiniBackend.Framework.Proofs.ConfigRoundTrip
