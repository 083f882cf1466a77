import MiniBackend.Infra.ConfigCenter
import MiniBackend.Lib.Runs

/-!
# The history of a configuration item

An item has the history of the values that were written to it.  The entry of the item holds
the last value under the number of values, and the others as its archive; a rollback writes an
old value again.
-/

namespace MiniBackend.Infra.Proofs.ConfigHistory

open MiniBackend.Lib.CArray MiniBackend.Lib.CString MiniBackend.Lib.Runs
open MiniBackend.Infra.Config

/-! ## Finding items -/

theorem isItem_iff {ns gr key : CStr} {e : CcEntry} :
    isItem ns gr key e = true ↔ e.namespace_ = ns ∧ e.group_ = gr ∧ e.key = key :=
  decide_eq_true_iff

theorem isItem_other {item other : Item} (h : other ≠ item) {e : CcEntry}
    (he : isItem item.ns item.gr item.key e = true) :
    isItem other.ns other.gr other.key e = false := by
  rw [Bool.eq_false_iff]
  intro hother
  obtain ⟨hns, hgr, hkey⟩ := isItem_iff.mp he
  obtain ⟨hns', hgr', hkey'⟩ := isItem_iff.mp hother
  apply h
  cases item with
  | mk ns gr key =>
      cases other with
      | mk ns' gr' key' =>
          rw [Item.mk.injEq]
          exact ⟨Subtype.ext (hns'.symm.trans hns), Subtype.ext (hgr'.symm.trans hgr),
            Subtype.ext (hkey'.symm.trans hkey)⟩

/-- A change of one bucket is seen by its own items only. -/
theorem find_update (center : CcConfigCenter) (item : Item) (chain : List CcEntry)
    (other : Item)
    (hchain : other ≠ item → chain.find? (isItem other.ns other.gr other.key) =
      (center.buckets (bucketIndex item.ns item.gr item.key)).find?
        (isItem other.ns other.gr other.key)) :
    find ⟨Function.update center.buckets (bucketIndex item.ns item.gr item.key) chain⟩ other =
      if other = item then chain.find? (isItem item.ns item.gr item.key)
      else find center other := by
  unfold find ccFind
  dsimp only
  by_cases hother : other = item
  · rw [hother, if_pos rfl, Function.update_self]
  · rw [if_neg hother]
    by_cases hbucket : bucketIndex other.ns other.gr other.key =
        bucketIndex item.ns item.gr item.key
    · rw [hbucket, Function.update_self]
      exact hchain hother
    · rw [Function.update_of_ne hbucket]

theorem find_modifyEntry (center : CcConfigCenter) (item : Item) {f : CcEntry → CcEntry}
    (hf : ∀ e, isItem item.ns item.gr item.key e = true →
      isItem item.ns item.gr item.key (f e) = true) (other : Item) :
    find (modifyEntry center item.ns item.gr item.key f) other =
      if other = item then (find center item).map f else find center other := by
  rw [modifyEntry, find_update, find?_updateFirst hf]
  · rfl
  · intro hother
    apply find?_updateFirst_of_disjoint
    exact fun e he => ⟨isItem_other hother he, isItem_other hother (hf e he)⟩

theorem isItem_newEntry (item : Item) (value : CStr) (now : Int) :
    isItem item.ns item.gr item.key (newEntry item.ns item.gr item.key value now) = true := by
  rw [isItem_iff]
  exact ⟨strncpy_of_le (Nat.le_sub_one_of_lt item.ns.property),
    strncpy_of_le (Nat.le_sub_one_of_lt item.gr.property),
    strncpy_of_le (Nat.le_sub_one_of_lt item.key.property)⟩

theorem find_put (center : CcConfigCenter) (item : Item) (value : CStr) (now : Int)
    (other : Item) :
    find (ccConfigPut center item.ns item.gr item.key value now) other =
      if other = item then
        some (((find center item).map (newVersion value value.length now)).getD
          (newEntry item.ns item.gr item.key value now))
      else find center other := by
  unfold ccConfigPut
  cases hfind : ccFind center item.ns item.gr item.key with
  | some e =>
      have hkept : ∀ e, isItem item.ns item.gr item.key e = true →
          isItem item.ns item.gr item.key (newVersion value value.length now e) = true :=
        fun _ he => he
      dsimp only
      rw [find_modifyEntry center item hkept]
      have hitem : find center item = some e := hfind
      rw [hitem]
      rfl
  | none =>
      have hitem : find center item = none := hfind
      rw [hitem]
      dsimp only
      rw [find_update, List.find?_cons_of_pos (isItem_newEntry item value now)]
      · rfl
      · intro hother
        rw [List.find?_cons_of_neg]
        rw [isItem_other hother (isItem_newEntry item value now)]
        decide

theorem find_write_of_ne (center : CcConfigCenter) {w : Write} {other : Item}
    (hother : other ≠ w.item) : find (write center w) other = find center other := by
  cases w with
  | put item value now => exact (find_put center item value now other).trans (if_neg hother)
  | putEncrypted item value encKey now =>
      have hne : other ≠ item := hother
      rw [write, ccConfigPutEncrypted, find_modifyEntry, if_neg hne, find_put, if_neg hne]
      exact fun _ he => he
  | rollback item version now =>
      have hne : other ≠ item := hother
      rw [write, ccConfigRollback]
      split
      · rfl
      · split
        · rfl
        · rw [find_modifyEntry, if_neg hne]
          exact fun _ he => he

/-! ## The history -/

abbrev Histories := Item → List CStr

def append (h : Histories) (item : Item) (value : CStr) : Histories :=
  Function.update h item (h item ++ [value])

def record (h : Histories) : Write → Histories
  | .put item value _ => append h item value
  | .putEncrypted item value encKey _ => append h item (ofBuffer (ccXorCrypt value encKey))
  | .rollback item version _ =>
      if 1 ≤ version then
        match (h item).dropLast[(version - 1).toNat]? with
        | some value => append h item value
        | none => h
      else h

def histories (writes : List Write) : Histories := run record (fun _ => []) writes

def after (writes : List Write) : CcConfigCenter := run write ccCenterCreate writes

theorem after_append (writes : List Write) (w : Write) :
    after (writes ++ [w]) = write (after writes) w :=
  run_append write ccCenterCreate writes [w]

structure Holds (h : List CStr) (e : CcEntry) : Prop where
  version_eq : e.version = h.length
  value_eq : h.getLast? = some e.value
  valueLen_eq : e.valueLen = e.value.length
  length_eq : e.versions.length = h.length - 1
  archived : ∀ i < e.versions.length, ∃ v, e.versions[i]? = some v ∧ v.version = (i + 1 : Nat) ∧
    h[i]? = some v.value ∧ v.valueLen = v.value.length

def Stored (h : List CStr) : Option CcEntry → Prop
  | none => h = []
  | some e => Holds h e

theorem Holds.ne_nil {h : List CStr} {e : CcEntry} (hold : Holds h e) : h ≠ [] := by
  intro hnil
  have hlast := hold.value_eq
  rw [hnil] at hlast
  contradiction

theorem Holds.newVersion {h : List CStr} {e : CcEntry} (hold : Holds h e) (value : CStr)
    (now : Int) : Holds (h ++ [value]) (newVersion value value.length now e) := by
  have hpos : 0 < h.length := List.length_pos_iff.mpr hold.ne_nil
  have hlength := hold.length_eq
  have hversions : (Config.newVersion value value.length now e).versions =
      e.versions ++ [⟨e.version, e.value, e.valueLen, e.updatedAt, lit "system"⟩] := rfl
  refine ⟨?_, List.getLast?_concat, rfl, ?_, ?_⟩
  · show e.version + 1 = ((h ++ [value]).length : Int)
    rw [hold.version_eq, List.length_append, List.length_singleton]
    rfl
  · rw [hversions, List.length_append, List.length_append, List.length_singleton,
      List.length_singleton]
    omega
  · rw [hversions]
    intro i hi
    rw [List.length_append, List.length_singleton] at hi
    rcases Nat.lt_succ_iff_lt_or_eq.mp hi with hlt | rfl
    · obtain ⟨v, hv, hversion, hvalue, hlen⟩ := hold.archived i hlt
      refine ⟨v, ?_, hversion, ?_, hlen⟩
      · rw [List.getElem?_append_left hlt]
        exact hv
      · rw [List.getElem?_append_left (by omega)]
        exact hvalue
    · refine ⟨_, List.getElem?_concat_length, ?_, ?_, hold.valueLen_eq⟩
      · show e.version = _
        rw [hold.version_eq]
        omega
      · have hlast := hold.value_eq
        rw [List.getLast?_eq_getElem?] at hlast
        rw [List.getElem?_append_left (by omega), hlength]
        exact hlast

theorem holds_newEntry (item : Item) (value : CStr) (now : Int) :
    Holds [value] (newEntry item.ns item.gr item.key value now) where
  version_eq := rfl
  value_eq := rfl
  valueLen_eq := rfl
  length_eq := rfl
  archived _ hi := absurd hi (Nat.not_lt_zero _)

theorem Holds.find_version {h : List CStr} {e : CcEntry} (hold : Holds h e) {k : Nat}
    (hk : k < e.versions.length) :
    e.versions.find? (·.version = ((k + 1 : Nat) : Int)) = e.versions[k]? := by
  obtain ⟨v, hv, hversion, _⟩ := hold.archived k hk
  rw [hv, List.find?_eq_some_iff_getElem]
  refine ⟨decide_eq_true hversion, k, hk, ?_, ?_⟩
  · exact (List.getElem?_eq_some_iff.mp hv).2
  · intro j hj
    obtain ⟨u, hu, huversion, _⟩ := hold.archived j (Nat.lt_trans hj hk)
    rw [(List.getElem?_eq_some_iff.mp hu).2, huversion]
    simp only [Nat.cast_inj, Bool.not_eq_true', decide_eq_false_iff_not]
    omega

theorem Holds.version_range {h : List CStr} {e : CcEntry} (hold : Holds h e) {version : Int}
    {v : CcConfigVersion} (hfind : e.versions.find? (·.version = version) = some v) :
    ∃ k < e.versions.length, version = ((k + 1 : Nat) : Int) := by
  have hmatch := List.find?_some hfind
  have hv : v.version = version := of_decide_eq_true hmatch
  obtain ⟨k, hk, hget⟩ := List.getElem_of_mem (List.mem_of_find?_eq_some hfind)
  obtain ⟨u, hu, huversion, _⟩ := hold.archived k hk
  rw [List.getElem?_eq_getElem hk, hget, Option.some.injEq] at hu
  refine ⟨k, hk, ?_⟩
  rw [← hv, hu, huversion]

/-! ## The writes keep the histories -/

def Kept (center : CcConfigCenter) (h : Histories) : Prop :=
  ∀ item, Stored (h item) (find center item)

theorem Kept.append {center center' : CcConfigCenter} {h : Histories} (hkept : Kept center h)
    {item : Item} {value : CStr} {e : CcEntry}
    (hfind : ∀ other, find center' other =
      if other = item then some e else find center other)
    (he : Holds (h item ++ [value]) e) : Kept center' (append h item value) := by
  intro other
  rw [hfind, ConfigHistory.append]
  by_cases hother : other = item
  · rw [hother, if_pos rfl, Function.update_self]
    exact he
  · rw [if_neg hother, Function.update_of_ne hother]
    exact hkept other

theorem Stored.put {h : List CStr} {item : Item} {found : Option CcEntry}
    (hstored : Stored h found) (value : CStr) (now : Int) :
    Holds (h ++ [value]) ((found.map (newVersion value value.length now)).getD
      (newEntry item.ns item.gr item.key value now)) := by
  cases found with
  | none =>
      have hnil : h = [] := hstored
      rw [hnil]
      exact holds_newEntry item value now
  | some e => exact Holds.newVersion hstored value now

theorem Kept.put {center : CcConfigCenter} {h : Histories} (hkept : Kept center h)
    (item : Item) (value : CStr) (now : Int) :
    Kept (ccConfigPut center item.ns item.gr item.key value now)
      (ConfigHistory.append h item value) :=
  hkept.append (find_put center item value now) ((hkept item).put value now)

theorem Kept.modify {center : CcConfigCenter} {h : Histories} (hkept : Kept center h)
    (item : Item) {f : CcEntry → CcEntry}
    (hf : ∀ e, isItem item.ns item.gr item.key e = true →
      isItem item.ns item.gr item.key (f e) = true)
    (hholds : ∀ e, Holds (h item) e → Holds (h item) (f e)) :
    Kept (modifyEntry center item.ns item.gr item.key f) h := by
  intro other
  rw [find_modifyEntry center item hf]
  by_cases hother : other = item
  · have hitem := hkept item
    rw [if_pos hother, hother]
    cases hfind : find center item with
    | none =>
        rw [hfind] at hitem
        exact hitem
    | some e =>
        rw [hfind] at hitem
        exact hholds e hitem
  · rw [if_neg hother]
    exact hkept other

/-- The values that a rollback can write are those of the archive. -/
theorem record_rollback {h : Histories} {item : Item} {e : CcEntry}
    (hold : Holds (h item) e) (version now : Int) :
    record h (.rollback item version now) =
      match e.versions.find? (·.version = version) with
      | none => h
      | some v => append h item v.value := by
  rw [record]
  cases hfind : e.versions.find? (·.version = version) with
  | none =>
      dsimp only
      split
      next hpos =>
        -- an index of the archive would have been found
        have hout : (h item).dropLast[(version - 1).toNat]? = none := by
          rw [List.getElem?_eq_none_iff, List.length_dropLast, ← hold.length_eq]
          by_contra hlt
          have hk := Nat.lt_of_not_le hlt
          have hfound := hold.find_version hk
          have hversion : (((version - 1).toNat + 1 : Nat) : Int) = version := by omega
          rw [hversion, hfind, List.getElem?_eq_getElem hk] at hfound
          contradiction
        rw [hout]
      next => rfl
  | some v =>
      obtain ⟨k, hk, rfl⟩ := hold.version_range hfind
      have hindex : (((k + 1 : Nat) : Int) - 1).toNat = k := by omega
      obtain ⟨u, hu, _, hvalue, _⟩ := hold.archived k hk
      rw [hold.find_version hk, hu, Option.some.injEq] at hfind
      have hlength := hold.length_eq
      rw [if_pos (by omega), hindex, List.getElem?_dropLast, if_pos (by omega), hvalue, hfind]

theorem Kept.write {center : CcConfigCenter} {h : Histories} (hkept : Kept center h)
    (w : Write) : Kept (write center w) (record h w) := by
  cases w with
  | put item value now => exact hkept.put item value now
  | putEncrypted item value encKey now =>
      apply (hkept.put item (ofBuffer (ccXorCrypt value encKey)) now).modify
      · exact fun _ he => he
      · intro e hold
        exact ⟨hold.version_eq, hold.value_eq, hold.valueLen_eq, hold.length_eq, hold.archived⟩
  | rollback item version now =>
      have hitem := hkept item
      rw [Config.write, ccConfigRollback]
      cases hfind : find center item with
      | none =>
          have hnone : ccFind center item.ns item.gr item.key = none := hfind
          rw [hfind] at hitem
          have hnil : h item = [] := hitem
          have hrecord : record h (.rollback item version now) = h := by
            rw [record, hnil]
            split <;> rfl
          rw [hnone, hrecord]
          exact hkept
      | some e =>
          have hsome : ccFind center item.ns item.gr item.key = some e := hfind
          rw [hfind] at hitem
          rw [hsome, record_rollback hitem]
          dsimp only
          cases hversion : e.versions.find? (·.version = version) with
          | none => exact hkept
          | some v =>
              obtain ⟨k, hk, rfl⟩ := Holds.version_range hitem hversion
              obtain ⟨u, hu, _, _, hlen⟩ := Holds.archived hitem k hk
              rw [Holds.find_version hitem hk, hu, Option.some.injEq] at hversion
              rw [← hversion]
              dsimp only
              rw [hlen]
              apply hkept.append
              · intro other
                have hmodify := find_modifyEntry center item
                  (f := newVersion u.value u.value.length now) (fun _ he => he) other
                rw [hfind] at hmodify
                exact hmodify
              · exact Holds.newVersion hitem u.value now

theorem kept_create : Kept ccCenterCreate fun _ => [] := fun _ => rfl

theorem kept_after (writes : List Write) : Kept (after writes) (histories writes) :=
  run_related Config.write (fun _ _ w hkept => hkept.write w) kept_create writes

/-! ## Histories only grow -/

theorem record_cases (h : Histories) (w : Write) :
    record h w = h ∨ ∃ item value, record h w = append h item value := by
  cases w with
  | put item value now => exact Or.inr ⟨item, value, rfl⟩
  | putEncrypted item value encKey now => exact Or.inr ⟨item, _, rfl⟩
  | rollback item version now =>
      rw [record]
      split
      · cases (h item).dropLast[(version - 1).toNat]? with
        | none => exact Or.inl rfl
        | some value => exact Or.inr ⟨item, value, rfl⟩
      · exact Or.inl rfl

theorem record_item (h : Histories) (w : Write) (item : Item) :
    record h w item = h item ∨ ∃ value, record h w item = h item ++ [value] := by
  rcases record_cases h w with hsame | ⟨other, value, happend⟩
  · exact Or.inl (congrFun hsame item)
  · rw [happend, append]
    by_cases hitem : item = other
    · rw [hitem, Function.update_self]
      exact Or.inr ⟨value, rfl⟩
    · rw [Function.update_of_ne hitem]
      exact Or.inl rfl

theorem prefix_record (h : Histories) (w : Write) (item : Item) : h item <+: record h w item := by
  rcases record_item h w item with hsame | ⟨value, happend⟩
  · rw [hsame]
  · rw [happend]
    exact List.prefix_append _ _

theorem prefix_run (writes : List Write) (h : Histories) (item : Item) :
    h item <+: run record h writes item :=
  run_keeps record (I := fun h' => h item <+: h' item)
    (fun h' w hstart => hstart.trans (prefix_record h' w item)) List.prefix_rfl writes

theorem prefix_histories (writes : List Write) (n : Nat) (item : Item) :
    histories (writes.take n) item <+: histories writes item := by
  have hsplit : histories writes = run record (histories (writes.take n)) (writes.drop n) := by
    rw [histories, histories, ← run_append, List.take_append_drop]
  rw [hsplit]
  exact prefix_run _ _ _

theorem length_record_le (h : Histories) (w : Write) (item : Item) :
    (record h w item).length ≤ (h item).length + 1 := by
  rcases record_item h w item with hsame | ⟨value, happend⟩
  · rw [hsame]
    exact Nat.le_succ _
  · rw [happend, List.length_append, List.length_singleton]

theorem exists_length_histories (writes : List Write) (item : Item) {k : Nat}
    (hk : k ≤ (histories writes item).length) :
    ∃ n ≤ writes.length, (histories (writes.take n) item).length = k := by
  induction writes using List.reverseRecOn with
  | nil => exact ⟨0, le_rfl, (Nat.le_zero.mp hk).symm⟩
  | append_singleton writes w ih =>
      have hlast : histories (writes ++ [w]) = record (histories writes) w := by
        rw [histories, run_append]
        rfl
      rcases Nat.lt_or_ge (histories writes item).length k with hlt | hge
      · refine ⟨(writes ++ [w]).length, le_rfl, ?_⟩
        have hone := length_record_le (histories writes) w item
        rw [List.take_length, hlast]
        rw [hlast] at hk
        omega
      · obtain ⟨n, hn, hlength⟩ := ih hge
        refine ⟨n, ?_, ?_⟩
        · rw [List.length_append]
          omega
        · rw [List.take_append_of_le_length hn]
          exact hlength

/-! ## Travelling in time -/

def getVersion (writes : List Write) (item : Item) (version : Int) : Option CcConfigEntry :=
  ccConfigGetVersion (after writes) item.ns item.gr item.key version

theorem getVersion_spec {writes : List Write} {item : Item} {k : Nat} {value : CStr}
    (hvalue : (histories writes item)[k]? = some value) :
    ∃ entry, getVersion writes item ((k + 1 : Nat) : Int) = some entry ∧
      entry.value = value ∧ entry.valueLen = value.length := by
  have hitem := kept_after writes item
  have hk := (List.getElem?_eq_some_iff.mp hvalue).1
  cases hfind : find (after writes) item with
  | none =>
      rw [hfind] at hitem
      have hnil : histories writes item = [] := hitem
      rw [hnil] at hvalue
      contradiction
  | some e =>
      rw [hfind] at hitem
      have hold : Holds (histories writes item) e := hitem
      have hsome : ccFind (after writes) item.ns item.gr item.key = some e := hfind
      have hlength := hold.length_eq
      rw [getVersion, ccConfigGetVersion, hsome]
      dsimp only
      by_cases hcurrent : ((k + 1 : Nat) : Int) = e.version
      · have hlast := hold.value_eq
        have hk' : k = (histories writes item).length - 1 := by
          rw [hold.version_eq] at hcurrent
          omega
        rw [List.getLast?_eq_getElem?, ← hk', hvalue, Option.some.injEq] at hlast
        rw [if_pos hcurrent, ccConfigGet, hsome]
        refine ⟨_, rfl, hlast.symm, ?_⟩
        rw [hlast]
        exact hold.valueLen_eq
      · have hk' : k < e.versions.length := by
          rw [hold.version_eq] at hcurrent
          omega
        obtain ⟨v, hv, _, hvalue', hlen⟩ := hold.archived k hk'
        rw [hvalue, Option.some.injEq] at hvalue'
        rw [if_neg hcurrent, hold.find_version hk', hv, hvalue']
        exact ⟨_, rfl, rfl, hlen⟩

/-- The law of the versions of an item. -/
structure TimeTravel (writes : List Write) (item : Item) : Prop where
  /-- A put makes its value the current one, under version 1 or the next version. -/
  put : ∀ value now, ∃ e' ∈ find (after (writes ++ [.put item value now])) item,
    e'.value = value ∧ e'.valueLen = value.length ∧
      e'.version = (find (after writes) item).elim 1 (·.version + 1)
  /-- What is written to other items does not matter. -/
  others : ∀ w, item ≠ w.item → find (after (writes ++ [w])) item = find (after writes) item
  /-- The archive of version `n` has the versions from 1 to `n - 1`, in this order. -/
  archived : ∀ e ∈ find (after writes) item,
    1 ≤ e.version ∧ e.versions.map (·.version) =
      (List.range' 1 (e.version.toNat - 1)).map fun v : Nat => (v : Int)
  /-- Every version up to the current one was current once. -/
  written : ∀ e ∈ find (after writes) item, ∀ version, 1 ≤ version → version ≤ e.version →
    ∃ n ≤ writes.length, ∃ e' ∈ find (after (writes.take n)) item, e'.version = version
  /-- What was current under a version is what the version has for ever. -/
  kept : ∀ n, ∀ e ∈ find (after (writes.take n)) item,
    ∃ entry, getVersion writes item e.version = some entry ∧
      entry.value = e.value ∧ entry.valueLen = e.value.length
  /-- A rollback makes an old value the current one under the next version. -/
  rollback : ∀ e ∈ find (after writes) item, ∀ version now, 1 ≤ version → version < e.version →
    (ccConfigRollback (after writes) item.ns item.gr item.key version now).1 = 0 ∧
      ∃ old, getVersion writes item version = some old ∧
        ∃ e' ∈ find (after (writes ++ [.rollback item version now])) item,
          e'.version = e.version + 1 ∧ e'.value = old.value

theorem holds_of_find {writes : List Write} {item : Item} {e : CcEntry}
    (hfind : e ∈ find (after writes) item) : Holds (histories writes item) e := by
  have hitem := kept_after writes item
  rw [Option.mem_def.mp hfind] at hitem
  exact hitem

theorem Holds.one_le_version {h : List CStr} {e : CcEntry} (hold : Holds h e) :
    1 ≤ e.version := by
  have hpos := List.length_pos_iff.mpr hold.ne_nil
  rw [hold.version_eq]
  omega

theorem Holds.versions_eq {h : List CStr} {e : CcEntry} (hold : Holds h e) :
    e.versions.map (·.version) =
      (List.range' 1 (e.version.toNat - 1)).map fun v : Nat => (v : Int) := by
  have hlength : e.version.toNat - 1 = e.versions.length := by
    rw [hold.version_eq, hold.length_eq, Int.toNat_natCast]
  rw [hlength]
  apply List.ext_getElem
  · simp
  · intro i hi _
    rw [List.length_map] at hi
    obtain ⟨v, hv, hversion, _⟩ := hold.archived i hi
    rw [List.getElem_map, (List.getElem?_eq_some_iff.mp hv).2, hversion]
    simp [Nat.add_comm]

theorem find_of_ne_nil {writes : List Write} {item : Item} (h : histories writes item ≠ []) :
    ∃ e, e ∈ find (after writes) item := by
  have hitem := kept_after writes item
  cases hfind : find (after writes) item with
  | none =>
      rw [hfind] at hitem
      exact absurd hitem h
  | some e => exact ⟨e, rfl⟩

theorem config_history (writes : List Write) (item : Item) : TimeTravel writes item where
  put value now := by
    have hput := find_put (after writes) item value now item
    rw [if_pos rfl] at hput
    rw [after_append, write, hput]
    refine ⟨_, rfl, ?_⟩
    cases find (after writes) item with
    | none => exact ⟨rfl, rfl, rfl⟩
    | some e => exact ⟨rfl, rfl, rfl⟩
  others w hother := by
    rw [after_append]
    exact find_write_of_ne (after writes) hother
  archived e hfind :=
    ⟨(holds_of_find hfind).one_le_version, (holds_of_find hfind).versions_eq⟩
  written e hfind version hpos hle := by
    have hold := holds_of_find hfind
    rw [hold.version_eq] at hle
    have hk : version.toNat ≤ (histories writes item).length := by omega
    obtain ⟨n, hn, hlength⟩ := exists_length_histories writes item hk
    have hne : histories (writes.take n) item ≠ [] := by
      apply List.ne_nil_of_length_pos
      omega
    obtain ⟨e', hfind'⟩ := find_of_ne_nil hne
    refine ⟨n, hn, e', hfind', ?_⟩
    rw [(holds_of_find hfind').version_eq, hlength]
    omega
  kept n e hfind := by
    have hold := holds_of_find hfind
    have hpos := List.length_pos_iff.mpr hold.ne_nil
    have hlast := hold.value_eq
    rw [List.getLast?_eq_getElem?] at hlast
    obtain ⟨rest, hrest⟩ := prefix_histories writes n item
    have hvalue : (histories writes item)[(histories (writes.take n) item).length - 1]? =
        some e.value := by
      rw [← hrest, List.getElem?_append_left (by omega)]
      exact hlast
    have hversion : (((histories (writes.take n) item).length - 1 + 1 : Nat) : Int) =
        e.version := by
      rw [hold.version_eq]
      omega
    rw [← hversion]
    exact getVersion_spec hvalue
  rollback e hfind version now hpos hlt := by
    have hold := holds_of_find hfind
    have hsome : ccFind (after writes) item.ns item.gr item.key = some e := hfind
    have hlength := hold.length_eq
    rw [hold.version_eq] at hlt
    obtain ⟨k, rfl⟩ : ∃ k : Nat, version = ((k + 1 : Nat) : Int) :=
      ⟨(version - 1).toNat, by omega⟩
    have hk : k < e.versions.length := by omega
    obtain ⟨v, hv, _, hvalue, hlen⟩ := hold.archived k hk
    obtain ⟨old, hold', hvalue', _⟩ := getVersion_spec hvalue
    have hrollback : ccConfigRollback (after writes) item.ns item.gr item.key
        ((k + 1 : Nat) : Int) now = (0, modifyEntry (after writes) item.ns item.gr item.key
          (newVersion v.value v.valueLen now)) := by
      rw [ccConfigRollback, hsome]
      dsimp only
      rw [hold.find_version hk, hv]
    have hafter : after (writes ++ [.rollback item ((k + 1 : Nat) : Int) now]) =
        modifyEntry (after writes) item.ns item.gr item.key
          (newVersion v.value v.valueLen now) := by
      rw [after_append]
      exact congrArg Prod.snd hrollback
    refine ⟨congrArg Prod.fst hrollback, old, hold', newVersion v.value v.valueLen now e, ?_,
      rfl, hvalue'.symm⟩
    have hmodify := find_modifyEntry (after writes) item
      (f := newVersion v.value v.valueLen now) (fun _ he => he) item
    rw [hafter, Option.mem_def, hmodify, if_pos rfl, Option.mem_def.mp hfind]
    rfl

/-- The item of the run below. -/
def mailHost : Item :=
  ⟨⟨lit "shop", by decide⟩, ⟨lit "smtp", by decide⟩, ⟨lit "host", by decide⟩⟩

/-- Two values and a rollback to the first one. -/
theorem config_history_restored :
    ∃ e ∈ find (after [.put mailHost (lit "localhost") 1, .put mailHost (lit "v2") 2,
        .rollback mailHost 1 3]) mailHost,
      e.version = 3 ∧ e.value = lit "localhost" := by
  obtain ⟨e₁, hfind₁, hvalue₁, -, hversion₁⟩ :=
    (config_history [] mailHost).put (lit "localhost") 1
  obtain ⟨e₂, hfind₂, -, -, hversion₂⟩ :=
    (config_history [.put mailHost (lit "localhost") 1] mailHost).put (lit "v2") 2
  have hone : e₁.version = 1 := hversion₁
  have htwo : e₂.version = 2 := by
    have hfirst : find (after [.put mailHost (lit "localhost") 1]) mailHost = some e₁ := hfind₁
    rw [hfirst] at hversion₂
    rw [hversion₂, Option.elim_some, hone]
    rfl
  have hboth :=
    config_history [.put mailHost (lit "localhost") 1, .put mailHost (lit "v2") 2] mailHost
  obtain ⟨entry, hget, hentry, -⟩ := hboth.kept 1 e₁ hfind₁
  obtain ⟨-, old, hold, e₃, hfind₃, hversion₃, hvalue₃⟩ :=
    hboth.rollback e₂ hfind₂ 1 3 le_rfl (by omega)
  rw [hone, hold, Option.some.injEq] at hget
  refine ⟨e₃, hfind₃, ?_, ?_⟩
  · rw [hversion₃, htwo]
    rfl
  · rw [hvalue₃, hget, hentry, hvalue₁]

/-!
# Encrypted values

The cipher is its own inverse, but what it gives is stored as a C string: a byte of the value that
is equal to its byte of the key becomes the terminator.
-/

section EncryptedValues

open MiniBackend.Lib.CArray MiniBackend.Lib.CString MiniBackend.Infra.Config

/-- The names of an entry are in arrays. -/
def EntriesFit (center : CcConfigCenter) : Prop :=
  ∀ bucket, ∀ e ∈ center.buckets bucket, e.namespace_.length < ccMaxNamespaceLen ∧
    e.group_.length < ccMaxGroupLen ∧ e.key.length < ccMaxKeyLen

/-- Names that are stored whole. -/
def NamesFit (ns gr key : CStr) : Prop :=
  ns.length < ccMaxNamespaceLen ∧ gr.length < ccMaxGroupLen ∧ key.length < ccMaxKeyLen

/-- No byte of the value is equal to the byte of the key that it meets. -/
def DiffersFromKey (value encKey : CStr) : Prop :=
  ∀ i < value.length, value[i]? ≠ some (encKey.getD (i % encKey.length) 0)

/-! ## The cipher -/

theorem getElem?_ccXorCrypt (input key : CStr) (i : Nat) :
    (ccXorCrypt input key)[i]? = input[i]?.map (· ^^^ key.getD (i % key.length) 0) := by
  rw [ccXorCrypt, List.getElem?_map, List.getElem?_zipIdx, Option.map_map, Nat.zero_add]
  rfl

theorem length_ccXorCrypt (input key : CStr) : (ccXorCrypt input key).length = input.length := by
  rw [ccXorCrypt, List.length_map, List.length_zipIdx]

theorem ccXorCrypt_ccXorCrypt (input key : CStr) :
    ccXorCrypt (ccXorCrypt input key) key = input := by
  apply List.ext_getElem?
  intro i
  rw [getElem?_ccXorCrypt, getElem?_ccXorCrypt, Option.map_map]
  have hback : (fun b : UInt8 => b ^^^ key.getD (i % key.length) 0) ∘
      (· ^^^ key.getD (i % key.length) 0) = id := by
    funext b
    rw [Function.comp_apply, UInt8.xor_assoc, UInt8.xor_self, UInt8.xor_zero, id]
  rw [hback, Option.map_id]
  rfl

theorem ccXorCrypt_take (input key : CStr) (n : Nat) :
    ccXorCrypt (input.take n) key = (ccXorCrypt input key).take n := by
  apply List.ext_getElem?
  intro i
  rw [getElem?_ccXorCrypt, List.getElem?_take, List.getElem?_take, getElem?_ccXorCrypt]
  split
  · rfl
  · rfl

theorem zero_not_mem_ccXorCrypt_iff (value encKey : CStr) :
    0 ∉ ccXorCrypt value encKey ↔ DiffersFromKey value encKey := by
  rw [List.mem_iff_getElem?, not_exists]
  constructor
  · intro h i _ hbyte
    apply h i
    rw [getElem?_ccXorCrypt, hbyte, Option.map_some, UInt8.xor_self]
  · intro h i hzero
    rw [getElem?_ccXorCrypt, Option.map_eq_some_iff] at hzero
    obtain ⟨b, hbyte, hxor⟩ := hzero
    have hi : i < value.length := (List.getElem?_eq_some_iff.mp hbyte).1
    apply h i hi
    rw [hbyte, UInt8.xor_eq_zero_iff.mp hxor]

/-- What is decrypted is the value up to the first byte that is equal to its byte of the key. -/
theorem ccXorCrypt_ofBuffer (value encKey : CStr) :
    ccXorCrypt (ofBuffer (ccXorCrypt value encKey)) encKey =
      value.take (ofBuffer (ccXorCrypt value encKey)).length := by
  have hcut : ofBuffer (ccXorCrypt value encKey) =
      (ccXorCrypt value encKey).take (ofBuffer (ccXorCrypt value encKey)).length :=
    List.prefix_iff_eq_take.mp (List.takeWhile_prefix _)
  conv_lhs => rw [hcut]
  rw [ccXorCrypt_take, ccXorCrypt_ccXorCrypt]

theorem take_stored_eq_iff (value encKey : CStr) :
    value.take (ofBuffer (ccXorCrypt value encKey)).length = value ↔
      DiffersFromKey value encKey := by
  rw [← zero_not_mem_ccXorCrypt_iff, List.take_eq_self_iff]
  constructor
  · intro hlong hzero
    have hwhole : ofBuffer (ccXorCrypt value encKey) = ccXorCrypt value encKey := by
      apply (List.takeWhile_prefix _).eq_of_length_le
      rw [length_ccXorCrypt]
      exact hlong
    exact absurd (List.takeWhile_eq_self_iff.mp hwhole 0 hzero) (by decide)
  · intro hzero
    rw [ofBuffer_of_ne (fun b hb => ne_of_mem_of_not_mem hb hzero), length_ccXorCrypt]

/-! ## The store -/

theorem ccFind_of_not_fit {center : CcConfigCenter} (hfits : EntriesFit center) {ns gr key : CStr}
    (hnames : ¬NamesFit ns gr key) : ccFind center ns gr key = none := by
  apply List.find?_eq_none.mpr
  intro e he hitem
  obtain ⟨rfl, rfl, rfl⟩ := isItem_iff.mp hitem
  exact hnames (hfits _ e he)

theorem EntriesFit.ccConfigPut {center : CcConfigCenter} (hfits : EntriesFit center)
    {ns gr key : CStr} (hnames : ¬NamesFit ns gr key) (value : CStr) (now : Int) :
    EntriesFit (ccConfigPut center ns gr key value now) := by
  have hcut {s : CStr} {n : Nat} : (strncpy s n).length ≤ n := List.length_take_le n s
  unfold Config.ccConfigPut
  rw [ccFind_of_not_fit hfits hnames]
  dsimp only
  intro bucket e he
  dsimp only at he
  by_cases hbucket : bucket = bucketIndex ns gr key
  · subst hbucket
    rw [Function.update_self, List.mem_cons] at he
    rcases he with rfl | he
    · exact ⟨Nat.lt_succ_of_le hcut, Nat.lt_succ_of_le hcut, Nat.lt_succ_of_le hcut⟩
    · exact hfits _ e he
  · rw [Function.update_of_ne hbucket] at he
    exact hfits _ e he

theorem ccFind_ccConfigPutEncrypted_of_not_fit {center : CcConfigCenter}
    (hfits : EntriesFit center) {ns gr key : CStr} (hnames : ¬NamesFit ns gr key)
    (value encKey : CStr) (now : Int) :
    ccFind (ccConfigPutEncrypted center ns gr key value encKey now) ns gr key = none := by
  have hput := hfits.ccConfigPut hnames (ofBuffer (ccXorCrypt value encKey)) now
  have hnone := ccFind_of_not_fit hput hnames
  rw [ccConfigPutEncrypted, ccFind, modifyEntry]
  dsimp only
  rw [Function.update_self, updateFirst_of_forall_not]
  · exact hnone
  · intro e he
    simpa using List.find?_eq_none.mp hnone e he

/-- What is found holds the encrypted value up to its first zero byte. -/
theorem ccFind_ccConfigPutEncrypted (center : CcConfigCenter) (item : Item) (value encKey : CStr)
    (now : Int) : ∃ e,
      ccFind (ccConfigPutEncrypted center item.ns item.gr item.key value encKey now)
        item.ns item.gr item.key = some e ∧ e.value = ofBuffer (ccXorCrypt value encKey) ∧
      e.valueLen = (ofBuffer (ccXorCrypt value encKey)).length := by
  have hkept : ∀ e : CcEntry, isItem item.ns item.gr item.key e = true →
      isItem item.ns item.gr item.key { e with encryptType := .aes } = true := fun _ he => he
  have hmark := find_modifyEntry (ccConfigPut center item.ns item.gr item.key
    (ofBuffer (ccXorCrypt value encKey)) now) item hkept item
  rw [if_pos rfl, find_put, if_pos rfl, Option.map_some] at hmark
  refine ⟨_, hmark, ?_⟩
  cases find center item with
  | none => exact ⟨rfl, rfl⟩
  | some e => exact ⟨rfl, rfl⟩

/-! ## Decryption -/

/-- A value comes back unchanged when the names are stored whole and no byte of the value is equal
to its byte of the key. -/
theorem ccConfigGetDecrypted_putEncrypted_iff {center : CcConfigCenter}
    (hfits : EntriesFit center) (ns gr key : CStr) {value : CStr} (encKey : { k : CStr // k ≠ [] })
    {outSize : Nat} (now : Int) (hvalue : 0 ∉ value) (hlength : value.length < outSize) :
    (ccConfigGetDecrypted (ccConfigPutEncrypted center ns gr key value encKey now) ns gr key
        outSize encKey).map ofBuffer = some value ↔
      NamesFit ns gr key ∧ DiffersFromKey value encKey := by
  by_cases hnames : NamesFit ns gr key
  · obtain ⟨e, hfind, hstored, hlen⟩ := ccFind_ccConfigPutEncrypted center
      ⟨⟨ns, hnames.1⟩, ⟨gr, hnames.2.1⟩, ⟨key, hnames.2.2⟩⟩ value encKey now
    have hshort : (ofBuffer (ccXorCrypt value encKey)).length ≤ value.length := by
      rw [← length_ccXorCrypt value encKey]
      exact (List.takeWhile_prefix _).length_le
    have hroom : (if e.valueLen < sizeSub outSize 1 then e.valueLen else sizeSub outSize 1) =
        e.value.length := by
      rw [hlen, hstored, sizeSub_of_le (by omega)]
      split
      · rfl
      · omega
    have hclean : ofBuffer (value.take (ofBuffer (ccXorCrypt value encKey)).length) =
        value.take (ofBuffer (ccXorCrypt value encKey)).length :=
      ofBuffer_of_ne fun b hb => ne_of_mem_of_not_mem (List.mem_of_mem_take hb) hvalue
    dsimp only at hfind
    rw [ccConfigGetDecrypted, hfind, Option.map_some, Option.map_some]
    dsimp only
    rw [hroom, List.take_length, hstored, ccXorCrypt_ofBuffer, hclean, Option.some_inj,
      take_stored_eq_iff]
    exact (and_iff_right hnames).symm
  · rw [ccConfigGetDecrypted, ccFind_ccConfigPutEncrypted_of_not_fit hfits hnames]
    simp [hnames]

theorem entriesFit_ccCenterCreate : EntriesFit ccCenterCreate := fun _ _ he => nomatch he

/-- No byte of the value is the byte of the key that it meets. -/
theorem ccConfigGetDecrypted_putEncrypted_iff_password :
    (ccConfigGetDecrypted (ccConfigPutEncrypted ccCenterCreate (lit "sec") (lit "db") (lit "pass")
        (lit "s3cr3t") (lit "key") 0) (lit "sec") (lit "db") (lit "pass") 256 (lit "key")).map
          ofBuffer = some (lit "s3cr3t") ↔
      NamesFit (lit "sec") (lit "db") (lit "pass") ∧ DiffersFromKey (lit "s3cr3t") (lit "key") :=
  ccConfigGetDecrypted_putEncrypted_iff entriesFit_ccCenterCreate (lit "sec") (lit "db")
    (lit "pass") ⟨lit "key", by decide⟩ 0 (by decide) (by decide)

/-- A value that begins with the first character of its key is lost whole. -/
theorem shared_byte_ends_value :
    0 ∉ lit "secret" ∧
      (ccConfigGetDecrypted (ccConfigPutEncrypted ccCenterCreate (lit "sec") (lit "db")
          (lit "pass") (lit "secret") (lit "salt") 0) (lit "sec") (lit "db") (lit "pass") 256
            (lit "salt")).map ofBuffer = some [] := by
  decide

end EncryptedValues

end MiniBackend.Infra.Proofs.ConfigHistory
