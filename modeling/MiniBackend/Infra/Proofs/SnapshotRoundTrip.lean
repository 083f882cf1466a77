import MiniBackend.Infra.Proofs.ConfigHistory
import Mathlib.Data.List.Nodup

/-!
# What a snapshot brings back

A record of a snapshot is one line, and a value with a line break ends it too early.  The
other records are read back in full, but the items are stored with `cc_config_put`, so that
each starts over with version 1.
-/

namespace MiniBackend.Infra.Proofs.SnapshotRoundTrip

open MiniBackend.Lib.CArray MiniBackend.Lib.CString MiniBackend.Lib.Runs
open MiniBackend.Infra.Config MiniBackend.Infra.Proofs.ConfigHistory

def observed (center : CcConfigCenter) (item : Item) : Option (CStr × Int) :=
  (ccConfigGet center item.ns item.gr item.key).map fun entry => (entry.value, entry.version)

/-- The snapshot of a center brings back all of its items, and nothing else. -/
def Restores (center : CcConfigCenter) (clock : Nat → Int) : Prop :=
  ∃ restored, ccSnapshotLoad ccCenterCreate (ccSnapshotSave center) clock = some restored ∧
    ∀ item, observed restored item = observed center item

def separators : List UInt8 := [0, 10, 58, 61, 124]

structure CleanEntry (e : CcEntry) : Prop where
  names : ∀ name ∈ [e.namespace_, e.group_, e.key], ∀ b ∈ name, b ∉ separators
  value : ∀ b ∈ e.value, b ≠ 0
  value_le : e.value.length ≤ ccMaxValueLen

instance decidableCleanEntry (e : CcEntry) : Decidable (CleanEntry e) :=
  have : DecidablePred fun name : CStr => ∀ b ∈ name, b ∉ separators :=
    fun name => List.decidableBAll (fun b => b ∉ separators) name
  have := List.decidableBAll (fun name : CStr => ∀ b ∈ name, b ∉ separators)
    [e.namespace_, e.group_, e.key]
  have := List.decidableBAll (fun b : UInt8 => b ≠ 0) e.value
  decidable_of_iff
    ((∀ name ∈ [e.namespace_, e.group_, e.key], ∀ b ∈ name, b ∉ separators) ∧
      (∀ b ∈ e.value, b ≠ 0) ∧ e.value.length ≤ ccMaxValueLen)
    ⟨fun h => ⟨h.1, h.2.1, h.2.2⟩, fun h => ⟨h.names, h.value, h.value_le⟩⟩

/-! ## The table -/

def nameOf (e : CcEntry) : CStr × CStr × CStr := (e.namespace_, e.group_, e.key)

theorem isItem_iff_nameOf {ns gr key : CStr} {e : CcEntry} :
    isItem ns gr key e = true ↔ nameOf e = (ns, gr, key) := by
  rw [isItem_iff, nameOf, Prod.mk.injEq, Prod.mk.injEq]

structure SoundEntry (idx : Nat) (e : CcEntry) : Prop where
  fits : ∃ item : Item, isItem item.ns item.gr item.key e = true
  placed : bucketIndex e.namespace_ e.group_ e.key = idx
  measured : e.valueLen = e.value.length
  archived : ∀ v ∈ e.versions, v.valueLen = v.value.length

structure SoundChain (idx : Nat) (chain : List CcEntry) : Prop where
  nodup : (chain.map nameOf).Nodup
  entry : ∀ e ∈ chain, SoundEntry idx e

def Sound (center : CcConfigCenter) : Prop := ∀ idx, SoundChain idx (center.buckets idx)

theorem sound_create : Sound ccCenterCreate := fun _ =>
  ⟨List.nodup_nil, fun _ he => absurd he List.not_mem_nil⟩

theorem Sound.update {center : CcConfigCenter} (hsound : Sound center) {idx : Nat}
    {chain : List CcEntry} (hchain : SoundChain idx chain) :
    Sound ⟨Function.update center.buckets idx chain⟩ := by
  intro other
  by_cases hother : other = idx
  · rw [hother]
    show SoundChain idx (Function.update center.buckets idx chain idx)
    rw [Function.update_self]
    exact hchain
  · show SoundChain other (Function.update center.buckets idx chain other)
    rw [Function.update_of_ne hother]
    exact hsound other

/-- A write to an entry keeps its name and the lengths of its values. -/
theorem Sound.modify {center : CcConfigCenter} (hsound : Sound center) (ns gr key : CStr)
    {f : CcEntry → CcEntry} (hname : ∀ e, nameOf (f e) = nameOf e)
    (hentry : ∀ idx, ∀ e ∈ center.buckets idx, SoundEntry idx e → SoundEntry idx (f e)) :
    Sound (modifyEntry center ns gr key f) := by
  apply hsound.update
  have hchain := hsound (bucketIndex ns gr key)
  constructor
  · rw [map_updateFirst hname]
    exact hchain.nodup
  · intro e he
    rcases mem_updateFirst he with hold | ⟨old, hold, _, hnew⟩
    · exact hchain.entry e hold
    · rw [hnew]
      exact hentry _ old hold (hchain.entry old hold)

theorem SoundEntry.newVersion {idx : Nat} {e : CcEntry} (hsound : SoundEntry idx e)
    {value : CStr} {valueLen : Nat} (hlen : valueLen = value.length) (now : Int) :
    SoundEntry idx (newVersion value valueLen now e) where
  fits := hsound.fits
  placed := hsound.placed
  measured := hlen
  archived v hv := by
    rcases List.mem_append.mp hv with hold | hnew
    · exact hsound.archived v hold
    · rw [List.mem_singleton.mp hnew]
      exact hsound.measured

theorem Sound.put {center : CcConfigCenter} (hsound : Sound center) (item : Item) (value : CStr)
    (now : Int) : Sound (ccConfigPut center item.ns item.gr item.key value now) := by
  unfold ccConfigPut
  cases hfind : ccFind center item.ns item.gr item.key with
  | some e =>
      apply hsound.modify
      · exact fun _ => rfl
      · exact fun idx e _ he => he.newVersion rfl now
  | none =>
      apply hsound.update
      have hnew := isItem_newEntry item value now
      have hname := isItem_iff_nameOf.mp hnew
      have hchain := hsound (bucketIndex item.ns item.gr item.key)
      constructor
      · rw [List.map_cons, List.nodup_cons]
        refine ⟨?_, hchain.nodup⟩
        intro hmem
        obtain ⟨e, he, hsame⟩ := List.mem_map.mp hmem
        have hnone := List.find?_eq_none.mp hfind e he
        apply hnone
        rw [isItem_iff_nameOf, hsame]
        exact hname
      · intro e he
        rcases List.mem_cons.mp he with hhead | hrest
        · obtain ⟨hns, hgr, hkey⟩ := isItem_iff.mp hnew
          rw [hhead]
          refine ⟨⟨item, hnew⟩, ?_, rfl, fun v hv => absurd hv List.not_mem_nil⟩
          rw [hns, hgr, hkey]
        · exact hchain.entry e hrest

theorem Sound.write {center : CcConfigCenter} (hsound : Sound center) (w : Write) :
    Sound (Config.write center w) := by
  cases w with
  | put item value now => exact hsound.put item value now
  | putEncrypted item value encKey now =>
      apply (hsound.put item _ now).modify
      · exact fun _ => rfl
      · exact fun idx e _ he => ⟨he.fits, he.placed, he.measured, he.archived⟩
  | rollback item version now =>
      rw [Config.write, ccConfigRollback]
      cases hfind : ccFind center item.ns item.gr item.key with
      | none => exact hsound
      | some e =>
          dsimp only
          cases hversion : e.versions.find? (·.version = version) with
          | none => exact hsound
          | some v =>
              have hlen : v.valueLen = v.value.length :=
                ((hsound _).entry e (List.mem_of_find?_eq_some hfind)).archived v
                  (List.mem_of_find?_eq_some hversion)
              apply hsound.modify
              · exact fun _ => rfl
              · exact fun idx e _ he => he.newVersion hlen now

theorem Sound.next {center : CcConfigCenter} (hsound : Sound center) (op : Op) :
    Sound (step center op) := by
  cases op with
  | write w => exact hsound.write w
  | delete item =>
      rw [step, ccConfigDelete]
      cases ccFind center item.ns item.gr item.key with
      | none => exact hsound
      | some e =>
          apply hsound.update
          have hchain := hsound (bucketIndex item.ns item.gr item.key)
          constructor
          · exact hchain.nodup.sublist (List.eraseP_sublist.map nameOf)
          · exact fun e he => hchain.entry e (List.mem_of_mem_eraseP he)

/-- The center after a run. -/
def after (ops : List Op) : CcConfigCenter := run step ccCenterCreate ops

theorem sound_after (ops : List Op) : Sound (after ops) :=
  run_keeps step (fun _ op hsound => hsound.next op) sound_create ops

/-! ## The order of the snapshot -/

theorem mem_entries {center : CcConfigCenter} {e : CcEntry} :
    e ∈ entries center ↔ ∃ idx < bucketCount, e ∈ center.buckets idx := by
  rw [entries, List.mem_flatMap]
  simp only [List.mem_range]

theorem bucketIndex_lt (ns gr key : CStr) : bucketIndex ns gr key < bucketCount :=
  Nat.mod_lt _ (by decide)

theorem nodup_entries {center : CcConfigCenter} (hsound : Sound center) :
    ((entries center).map nameOf).Nodup := by
  rw [entries, List.map_flatMap, List.nodup_flatMap]
  refine ⟨fun idx _ => (hsound idx).nodup, ?_⟩
  apply List.nodup_range.imp
  intro idx idx' hne name hmem hmem'
  obtain ⟨e, he, hname⟩ := List.mem_map.mp hmem
  obtain ⟨e', he', hname'⟩ := List.mem_map.mp hmem'
  have hsame : nameOf e = nameOf e' := hname.trans hname'.symm
  rw [nameOf, nameOf, Prod.mk.injEq, Prod.mk.injEq] at hsame
  apply hne
  rw [← ((hsound idx).entry e he).placed, ← ((hsound idx').entry e' he').placed, hsame.1,
    hsame.2.1, hsame.2.2]

theorem pairwise_isItem {l : List CcEntry} (h : (l.map nameOf).Nodup) (ns gr key : CStr) :
    l.Pairwise fun e e' => isItem ns gr key e = true → isItem ns gr key e' = false := by
  apply (List.pairwise_map.mp h).imp
  intro e e' hne he
  rw [Bool.eq_false_iff]
  intro he'
  exact hne ((isItem_iff_nameOf.mp he).trans (isItem_iff_nameOf.mp he').symm)

/-- The snapshot has the entries that are found. -/
theorem find_eq {center : CcConfigCenter} (hsound : Sound center) (item : Item) :
    find center item = (entries center).find? (isItem item.ns item.gr item.key) := by
  apply Option.ext
  intro e
  rw [find, ccFind, find?_eq_some_iff_of_pairwise (pairwise_isItem (hsound _).nodup _ _ _),
    find?_eq_some_iff_of_pairwise (pairwise_isItem (nodup_entries hsound) _ _ _), mem_entries]
  constructor
  · exact fun h => ⟨⟨_, bucketIndex_lt _ _ _, h.1⟩, h.2⟩
  · intro h
    obtain ⟨⟨idx, _, he⟩, hitem⟩ := h
    obtain ⟨hns, hgr, hkey⟩ := isItem_iff.mp hitem
    have hplaced := ((hsound idx).entry e he).placed
    rw [hns, hgr, hkey] at hplaced
    rw [hplaced]
    exact ⟨he, hitem⟩

/-! ## Lines -/

theorem fgetsLines_eq (line file : List UInt8) :
    fgetsLines line file = fgetsAll lineSize line file := by
  induction file generalizing line with
  | nil => rfl
  | cons b file ih => rw [fgetsLines, fgetsAll, ih, ih]

theorem fgetsLines_line {body : List UInt8} (hbody : 10 ∉ body) (line rest : List UInt8)
    (hlength : (line ++ body).length + 1 < lineSize - 1) :
    fgetsLines line (body ++ 10 :: rest) = (line ++ body ++ [10]) :: fgetsLines [] rest := by
  rw [fgetsLines_eq, fgetsLines_eq]
  exact fgetsAll_append hbody line rest (by omega)

/-- An entry whose record is a line. -/
structure Loadable (e : CcEntry) : Prop where
  fits : ∃ item : Item, isItem item.ns item.gr item.key e = true
  measured : e.valueLen = e.value.length
  clean : CleanEntry e
  unbroken : 10 ∉ e.value

theorem Loadable.not_mem_name {e : CcEntry} (he : Loadable e) {name : CStr}
    (hname : name ∈ [e.namespace_, e.group_, e.key]) {b : UInt8} (hb : b ∈ separators) :
    b ∉ name := fun hmem => he.clean.names name hname b hmem hb

theorem Loadable.length_lt {e : CcEntry} (he : Loadable e) :
    e.namespace_.length < ccMaxNamespaceLen ∧ e.group_.length < ccMaxGroupLen ∧
      e.key.length < ccMaxKeyLen := by
  obtain ⟨item, hitem⟩ := he.fits
  obtain ⟨hns, hgr, hkey⟩ := isItem_iff.mp hitem
  rw [hns, hgr, hkey]
  exact ⟨item.ns.property, item.gr.property, item.key.property⟩

def versionText (e : CcEntry) : CStr := decimalInt (toInt e.version)

def recordBody (e : CcEntry) : CStr :=
  e.namespace_ ++ 58 :: (e.group_ ++ 58 :: (e.key ++ 61 :: (versionText e ++ 124 ::
    (decimal e.value.length ++ 58 :: e.value))))

theorem snapshotRecord_eq {e : CcEntry} (he : Loadable e) :
    snapshotRecord e = recordBody e ++ [10] := by
  have hlength := he.length_lt
  rw [snapshotRecord, he.measured, List.take_of_length_le hlength.1.le,
    List.take_of_length_le hlength.2.1.le, List.take_length]
  simp [recordBody, versionText, lit]

theorem not_mem_digits {n : Nat} {b : UInt8} (hb : isDigit b = false) : b ∉ decimal n := by
  intro hmem
  rw [isDigit_of_mem_decimal hmem] at hb
  contradiction

theorem not_mem_versionText {e : CcEntry} {b : UInt8} (hminus : b ≠ 45)
    (hb : isDigit b = false) : b ∉ versionText e := by
  intro hmem
  rcases isDigit_of_mem_decimalInt hmem with heq | hdigit
  · exact hminus heq
  · rw [hdigit] at hb
    contradiction

/-- The value brings no other separator than those of the record. -/
theorem not_mem_recordBody {e : CcEntry} (he : Loadable e) {b : UInt8} (hb : b = 0 ∨ b = 10) :
    b ∉ recordBody e := by
  have hsep : b ∈ separators := by
    rcases hb with rfl | rfl <;> decide
  have hdigit : isDigit b = false := by
    rcases hb with rfl | rfl <;> decide
  have hother : b ≠ 58 ∧ b ≠ 61 ∧ b ≠ 124 ∧ b ≠ 45 := by
    rcases hb with rfl | rfl <;> decide
  have hvalue : b ∉ e.value := by
    rcases hb with rfl | rfl
    · exact fun hmem => he.clean.value 0 hmem rfl
    · exact he.unbroken
  simp only [recordBody, List.mem_append, List.mem_cons, not_or]
  exact ⟨he.not_mem_name (by simp) hsep, hother.1, he.not_mem_name (by simp) hsep, hother.1,
    he.not_mem_name (by simp) hsep, hother.2.1, not_mem_versionText hother.2.2.2 hdigit,
    hother.2.2.1, not_mem_digits hdigit, hother.1, hvalue⟩

theorem length_versionText_le (e : CcEntry) : (versionText e).length ≤ 11 := by
  apply length_decimalInt_le (k := 10) (by decide)
  unfold toInt
  omega

theorem length_recordBody {e : CcEntry} (he : Loadable e) :
    (recordBody e).length + 1 < lineSize - 1 := by
  obtain ⟨hns, hgr, hkey⟩ := he.length_lt
  have hversion := length_versionText_le e
  have hvalue := he.clean.value_le
  have hdigits : (decimal e.value.length).length ≤ 5 := by
    apply length_decimal_le (k := 5) (by decide)
    rw [ccMaxValueLen] at hvalue
    omega
  have hlength : (recordBody e).length = e.namespace_.length + e.group_.length + e.key.length +
      (versionText e).length + (decimal e.value.length).length + e.value.length + 5 := by
    simp only [recordBody, List.length_append, List.length_cons]
    omega
  unfold ccMaxNamespaceLen at hns
  unfold ccMaxGroupLen at hgr
  unfold ccMaxKeyLen at hkey
  unfold ccMaxValueLen at hvalue
  unfold lineSize ccMaxNamespaceLen ccMaxGroupLen ccMaxKeyLen ccMaxValueLen
  omega

theorem fgetsLines_records {es : List CcEntry} (hes : ∀ e ∈ es, Loadable e) :
    fgetsLines [] (es.flatMap snapshotRecord) = es.map snapshotRecord := by
  induction es with
  | nil => rfl
  | cons e es ih =>
      have he := hes e List.mem_cons_self
      rw [List.flatMap_cons, List.map_cons, snapshotRecord_eq he, List.append_assoc,
        List.singleton_append, fgetsLines_line (not_mem_recordBody he (.inr rfl)),
        List.nil_append, ih fun e' he' => hes e' (List.mem_cons_of_mem e he')]
      rw [List.nil_append]
      exact length_recordBody he

theorem cut_append {a : CStr} {c : UInt8} (h : c ∉ a) (rest : CStr) :
    cut (a ++ c :: rest) c = some (a, rest) := by
  rw [cut, strchr_append h, Option.map_some, List.tail_cons, List.length_append,
    Nat.add_sub_cancel, List.take_left]

theorem parseLine_record {e : CcEntry} (he : Loadable e) :
    ∃ ver offset, parseLine (ofBuffer (snapshotRecord e)) =
        some ⟨e.namespace_, e.group_, e.key, ver, e.value.length, e.value, offset⟩ ∧
      offset + e.value.length < lineSize := by
  have hlength := length_recordBody he
  obtain ⟨hns, hgr, hkey⟩ := he.length_lt
  have hnul : ∀ b ∈ recordBody e ++ [10], b ≠ 0 := by
    intro b hb hzero
    rcases List.mem_append.mp hb with hbody | hbreak
    · exact not_mem_recordBody he (.inl hzero) hbody
    · rw [List.mem_singleton.mp hbreak] at hzero
      contradiction
  have hvlen : (atoll (decimal e.value.length) % 2 ^ 64).toNat = e.value.length := by
    have hvalue := he.clean.value_le
    rw [ccMaxValueLen] at hvalue
    rw [atoll_decimal (by omega)]
    omega
  have htext : (e.value ++ [10]).takeWhile (· ≠ (10 : UInt8)) = e.value := by
    rw [List.takeWhile_append_of_pos]
    · rw [List.takeWhile_cons_of_neg (by decide), List.append_nil]
    · intro b hb
      apply decide_eq_true
      intro hbreak
      exact he.unbroken (hbreak ▸ hb)
  refine ⟨atoi (versionText e),
    (recordBody e ++ [10]).length - (e.value ++ [10]).length, ?_, ?_⟩
  · rw [snapshotRecord_eq he, ofBuffer_of_ne hnul]
    unfold parseLine
    conv_lhs =>
      rw [recordBody]
    simp only [List.append_assoc, List.cons_append]
    rw [cut_append (he.not_mem_name (by simp) (by decide)), Option.bind_some]
    dsimp only
    rw [cut_append (he.not_mem_name (by simp) (by decide)), Option.bind_some]
    dsimp only
    rw [cut_append (he.not_mem_name (by simp) (by decide)), Option.bind_some]
    dsimp only
    rw [cut_append (not_mem_versionText (by decide) (by decide)), Option.bind_some]
    dsimp only
    rw [cut_append (not_mem_digits (by decide)), Option.map_some]
    dsimp only
    rw [hvlen, htext, List.take_of_length_le (Nat.le_sub_one_of_lt hns),
      List.take_of_length_le (Nat.le_sub_one_of_lt hgr),
      List.take_of_length_le (Nat.le_sub_one_of_lt hkey)]
    simp [recordBody]
  · have hvalue : e.value.length ≤ (recordBody e).length := by
      simp only [recordBody, List.length_append, List.length_cons]
      omega
    rw [List.length_append, List.length_append, List.length_singleton]
    omega

/-! ## Loading -/

theorem observed_eq (center : CcConfigCenter) (item : Item) :
    observed center item = (find center item).map fun e => (e.value, e.version) := by
  rw [observed, ccConfigGet, Option.map_map]
  rfl

/-- The version in the record only decides whether the item is stored. -/
theorem loadLine_record {center : CcConfigCenter} {e : CcEntry} (he : Loadable e) {item : Item}
    (hitem : isItem item.ns item.gr item.key e = true) (hfresh : find center item = none)
    (now : Int) :
    loadLine center (snapshotRecord e) now =
      some (ccConfigPut center item.ns item.gr item.key e.value now) := by
  obtain ⟨hns, hgr, hkey⟩ := isItem_iff.mp hitem
  obtain ⟨ver, offset, hparse, hinside⟩ := parseLine_record he
  have hnone : ccFind center item.ns item.gr item.key = none := hfresh
  unfold loadLine
  rw [hparse]
  dsimp only
  rw [hns, hgr, hkey, hnone, if_pos hinside, List.take_length]
  rfl

theorem loadLines_records {es : List CcEntry} (hes : ∀ e ∈ es, Loadable e)
    (hnodup : (es.map nameOf).Nodup) (center : CcConfigCenter)
    (hfresh : ∀ e ∈ es, ∀ item : Item, isItem item.ns item.gr item.key e = true →
      find center item = none) (clock : Nat → Int) :
    ∃ restored, loadLines center (es.map snapshotRecord) clock = some restored ∧
      ∀ item : Item, observed restored item =
        ((es.find? (isItem item.ns item.gr item.key)).map fun e => (e.value, (1 : Int))).or
          (observed center item) := by
  induction es generalizing center clock with
  | nil => exact ⟨center, rfl, fun _ => rfl⟩
  | cons e es ih =>
      have he := hes e List.mem_cons_self
      obtain ⟨item, hitem⟩ := he.fits
      have hnone := hfresh e List.mem_cons_self item hitem
      rw [List.map_cons, List.nodup_cons] at hnodup
      have hother : ∀ e' ∈ es, ∀ other : Item, isItem other.ns other.gr other.key e' = true →
          other ≠ item := by
        intro e' he' other hother heq
        apply hnodup.1
        rw [heq] at hother
        rw [isItem_iff_nameOf.mp hitem, ← isItem_iff_nameOf.mp hother]
        exact List.mem_map_of_mem he'
      have hput := find_put center item e.value (clock 0)
      obtain ⟨restored, hload, hrestored⟩ := ih
        (fun e' he' => hes e' (List.mem_cons_of_mem e he')) hnodup.2
        (ccConfigPut center item.ns item.gr item.key e.value (clock 0))
        (fun e' he' other hmatch => by
          rw [hput, if_neg (hother e' he' other hmatch)]
          exact hfresh e' (List.mem_cons_of_mem e he') other hmatch)
        (fun i => clock (i + 1))
      refine ⟨restored, ?_, ?_⟩
      · rw [List.map_cons, loadLines, loadLine_record he hitem hnone, Option.bind_some]
        exact hload
      · intro other
        rw [hrestored, observed_eq, hput]
        by_cases heq : other = item
        · have hmissing : es.find? (isItem item.ns item.gr item.key) = none := by
            apply List.find?_eq_none.mpr
            intro e' he' hmatch
            exact hother e' he' item hmatch rfl
          rw [heq, hmissing, if_pos rfl, hnone, List.find?_cons_of_pos hitem]
          rfl
        · have hskip : ¬isItem other.ns other.gr other.key e = true := by
            rw [isItem_other heq hitem]
            decide
          rw [if_neg heq, List.find?_cons_of_neg hskip, observed_eq]

/-- When each record is one line, the values come back, under version 1. -/
theorem load_unbroken {center : CcConfigCenter} (hsound : Sound center)
    (hclean : ∀ e ∈ entries center, CleanEntry e)
    (hunbroken : ∀ e ∈ entries center, 10 ∉ e.value) (clock : Nat → Int) :
    ∃ restored, ccSnapshotLoad ccCenterCreate (ccSnapshotSave center) clock = some restored ∧
      ∀ item, observed restored item =
        (find center item).map fun e => (e.value, (1 : Int)) := by
  have hloadable : ∀ e ∈ entries center, Loadable e := by
    intro e he
    obtain ⟨idx, _, hbucket⟩ := mem_entries.mp he
    have hentry := (hsound idx).entry e hbucket
    exact ⟨hentry.fits, hentry.measured, hclean e he, hunbroken e he⟩
  rw [ccSnapshotLoad, ccSnapshotSave, fgetsLines_records hloadable]
  obtain ⟨restored, hload, hrestored⟩ := loadLines_records hloadable (nodup_entries hsound)
    ccCenterCreate (fun _ _ _ _ => rfl) clock
  refine ⟨restored, hload, ?_⟩
  intro item
  rw [hrestored, ← find_eq hsound]
  exact Option.or_none

/-! ## Line breaks -/

def Unbroken (center : CcConfigCenter) : Prop :=
  ∀ idx, ∀ e ∈ center.buckets idx, 10 ∉ e.value

theorem Unbroken.update {center : CcConfigCenter} (hunbroken : Unbroken center) {idx : Nat}
    {chain : List CcEntry} (hchain : ∀ e ∈ chain, 10 ∉ e.value) :
    Unbroken ⟨Function.update center.buckets idx chain⟩ := by
  intro other e he
  by_cases hother : other = idx
  · apply hchain e
    rw [hother] at he
    simpa only [Function.update_self] using he
  · apply hunbroken other e
    simpa only [Function.update_of_ne hother] using he

theorem Unbroken.put {center : CcConfigCenter} (hunbroken : Unbroken center) {value : CStr}
    (hvalue : 10 ∉ value) (ns gr key : CStr) (now : Int) :
    Unbroken (ccConfigPut center ns gr key value now) := by
  unfold ccConfigPut
  split
  · apply hunbroken.update
    intro e he
    rcases mem_updateFirst he with hold | ⟨old, _, _, hnew⟩
    · exact hunbroken _ e hold
    · rw [hnew]
      exact hvalue
  · apply hunbroken.update
    intro e he
    rcases List.mem_cons.mp he with hnew | hold
    · rw [hnew]
      exact hvalue
    · exact hunbroken _ e hold

theorem not_mem_text {buf : List UInt8} {line : SnapshotLine}
    (hparse : parseLine buf = some line) : 10 ∉ line.text := by
  unfold parseLine at hparse
  simp only [Option.bind_eq_some_iff, Option.map_eq_some_iff] at hparse
  obtain ⟨_, _, _, _, _, _, _, _, ⟨_, ptr⟩, _, hline⟩ := hparse
  rw [← hline]
  intro hmem
  have hbreak := List.mem_takeWhile_imp hmem
  contradiction

theorem Unbroken.loadLine {center center' : CcConfigCenter} (hunbroken : Unbroken center)
    {buf : List UInt8} {now : Int} (hload : loadLine center buf now = some center') :
    Unbroken center' := by
  unfold Config.loadLine at hload
  split at hload
  next => exact Option.some.inj hload ▸ hunbroken
  next line hparse =>
    have htext : 10 ∉ line.text.take line.vlen := fun hmem =>
      not_mem_text hparse (List.mem_of_mem_take hmem)
    have hstored : (if line.offset + line.vlen < lineSize then
        some (ccConfigPut center line.ns line.gr line.key (line.text.take line.vlen) now)
        else none) = some center' → Unbroken center' := by
      intro hinside
      split at hinside
      · exact Option.some.inj hinside ▸ hunbroken.put htext _ _ _ _
      · contradiction
    dsimp only at hload
    split at hload
    next => exact hstored hload
    next exist hfind =>
      split at hload
      next => exact hstored hload
      next => exact Option.some.inj hload ▸ hunbroken

theorem Unbroken.loadLines {center center' : CcConfigCenter} (hunbroken : Unbroken center)
    {lines : List (List UInt8)} {clock : Nat → Int}
    (hload : loadLines center lines clock = some center') : Unbroken center' := by
  induction lines generalizing center clock with
  | nil => exact Option.some.inj hload ▸ hunbroken
  | cons line lines ih =>
      obtain ⟨next, hline, hrest⟩ := Option.bind_eq_some_iff.mp hload
      exact ih (hunbroken.loadLine hline) hrest

/-! ## The snapshots that restore -/

theorem find_of_mem_entries {center : CcConfigCenter} (hsound : Sound center) {e : CcEntry}
    (he : e ∈ entries center) : ∃ item, find center item = some e := by
  obtain ⟨idx, _, hbucket⟩ := mem_entries.mp he
  obtain ⟨item, hitem⟩ := ((hsound idx).entry e hbucket).fits
  refine ⟨item, ?_⟩
  rw [find_eq hsound,
    find?_eq_some_iff_of_pairwise (pairwise_isItem (nodup_entries hsound) _ _ _)]
  exact ⟨he, hitem⟩

theorem unbroken_of_restores {center : CcConfigCenter} (hsound : Sound center)
    {clock : Nat → Int} (hrestores : Restores center clock) :
    ∀ e ∈ entries center, 10 ∉ e.value := by
  intro e he
  obtain ⟨restored, hload, hsame⟩ := hrestores
  obtain ⟨item, hfind⟩ := find_of_mem_entries hsound he
  have hempty : Unbroken ccCenterCreate := fun _ _ hmem => absurd hmem List.not_mem_nil
  have hunbroken : Unbroken restored := hempty.loadLines hload
  have hitem := hsame item
  rw [observed_eq, observed_eq, hfind, Option.map_some, Option.map_eq_some_iff] at hitem
  obtain ⟨e', hfind', hvalue⟩ := hitem
  rw [Prod.mk.injEq] at hvalue
  rw [← hvalue.1]
  exact hunbroken _ e' (List.mem_of_find?_eq_some hfind')

theorem restores_iff (ops : List Op) (clock : Nat → Int)
    (hclean : ∀ e ∈ entries (after ops), CleanEntry e) :
    Restores (after ops) clock ↔ ∀ e ∈ entries (after ops), e.version = 1 ∧ 10 ∉ e.value := by
  have hsound := sound_after ops
  constructor
  · intro hrestores e he
    have hunbroken := unbroken_of_restores hsound hrestores
    refine ⟨?_, hunbroken e he⟩
    obtain ⟨restored, hload, hsame⟩ := hrestores
    obtain ⟨restored', hload', hvalues⟩ := load_unbroken hsound hclean hunbroken clock
    obtain ⟨item, hfind⟩ := find_of_mem_entries hsound he
    rw [hload, Option.some.injEq] at hload'
    have hitem := hsame item
    rw [hload', hvalues, observed_eq, hfind, Option.map_some, Option.map_some,
      Option.some.injEq, Prod.mk.injEq] at hitem
    exact hitem.2.symm
  · intro hfirst
    obtain ⟨restored, hload, hvalues⟩ :=
      load_unbroken hsound hclean (fun e he => (hfirst e he).2) clock
    refine ⟨restored, hload, ?_⟩
    intro item
    rw [hvalues, observed_eq]
    cases hfind : find (after ops) item with
    | none => rfl
    | some e =>
        have he : e ∈ entries (after ops) := by
          rw [find_eq hsound] at hfind
          exact List.mem_of_find?_eq_some hfind
        rw [Option.map_some, Option.map_some, (hfirst e he).1]

/-- `app:db:url` -/
def dbUrl : Item where
  ns := ⟨lit "app", by decide⟩
  gr := ⟨lit "db", by decide⟩
  key := ⟨lit "url", by decide⟩

theorem restores_iff_once :
    Restores (after [.write (.put dbUrl (lit "host=a|b:80") 1)]) (fun _ => 2) ↔
      ∀ e ∈ entries (after [.write (.put dbUrl (lit "host=a|b:80") 1)]),
        e.version = 1 ∧ 10 ∉ e.value :=
  restores_iff _ _ (by decide)

/-- The second value of an item comes back as its first one. -/
theorem second_value_is_first :
    ¬Restores (after [.write (.put dbUrl (lit "host-a") 1), .write (.put dbUrl (lit "host-b") 2)])
      (fun _ => 3) := by
  intro hrestores
  obtain ⟨restored, hload, hsame⟩ := hrestores
  have hversion : (ccSnapshotLoad ccCenterCreate (ccSnapshotSave
      (after [.write (.put dbUrl (lit "host-a") 1), .write (.put dbUrl (lit "host-b") 2)]))
      (fun _ => 3)).map (observed · dbUrl) = some (some (lit "host-b", 1)) := by decide
  have hbefore : observed
      (after [.write (.put dbUrl (lit "host-a") 1), .write (.put dbUrl (lit "host-b") 2)])
      dbUrl = some (lit "host-b", 2) := by decide
  rw [hload, Option.map_some, hsame, hbefore] at hversion
  contradiction

end MiniBackend.Infra.Proofs.SnapshotRoundTrip
