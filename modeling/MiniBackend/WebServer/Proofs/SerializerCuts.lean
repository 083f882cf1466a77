import MiniBackend.WebServer.Proofs.SerializerWalk

/-!
# Where a value ends in the buffer

A string is cut where two more bytes have no room, and a value is left out when the buffer is full.
As far as the buffer goes, a value ends where its text does, or it is cut just there.
-/

namespace MiniBackend.WebServer.Proofs.SerializerCuts

open MiniBackend.Lib.Binary64 MiniBackend.Lib.CString MiniBackend.WebServer.Json
open MiniBackend.WebServer.Proofs.JsonText MiniBackend.WebServer.Proofs.JsonReading
open MiniBackend.WebServer.Proofs.SerializerWalk

/-! ## Strings -/

section

variable {bufSz : Nat}

/-- A string whose first byte belongs at `p` is written up to `e`: as long as there is room for two
more bytes, the next one is written. -/
def WrittenTo (bufSz p : Nat) (s : CStr) (e : Nat) : Prop :=
  ∃ front rest, s = front ++ rest ∧ e = p + (front.flatMap escapeByte).length ∧
    (rest = [] ∨ bufSz ≤ e + 2) ∧
    ∀ before b, front = before ++ [b] → p + (before.flatMap escapeByte).length + 2 < bufSz

theorem walkByte_of_room {b : UInt8} {p : Nat} (hroom : p + 2 < bufSz) :
    walkByte bufSz b p = some (p + (escapeByte b).length) := by
  rw [walkByte]
  by_cases hplain : escapeByte b = [b]
  · rw [if_pos hplain, if_pos (by omega), hplain]
    rfl
  · rw [if_neg hplain, walkPrint, if_pos (by omega)]

theorem walkBytes_cons (hbuf : 2 ≤ bufSz) (b : UInt8) (s : CStr) (p : Nat) :
    walkBytes bufSz (b :: s) p =
      if p + 2 < bufSz then walkBytes bufSz s (p + (escapeByte b).length) else some p := by
  have hguard : p < sizeSub bufSz 2 ↔ p + 2 < bufSz := by
    rw [sizeSub_of_le hbuf]
    omega
  rw [walkBytes]
  by_cases hroom : p + 2 < bufSz
  · rw [if_pos hroom, if_pos (hguard.2 hroom), walkByte_of_room hroom]
    rfl
  · rw [if_neg hroom, if_neg (mt hguard.1 hroom)]

theorem walkBytes_append (hbuf : 2 ≤ bufSz) {front rest : CStr} {p : Nat}
    (hroom : ∀ before b, front = before ++ [b] →
      p + (before.flatMap escapeByte).length + 2 < bufSz) :
    walkBytes bufSz (front ++ rest) p =
      walkBytes bufSz rest (p + (front.flatMap escapeByte).length) := by
  induction front generalizing p with
  | nil => rfl
  | cons b front ih =>
      have hfirst : p + 2 < bufSz := by
        have hlast := hroom (b :: front).dropLast ((b :: front).getLast (by simp))
          (List.dropLast_append_getLast _).symm
        omega
      rw [List.cons_append, walkBytes_cons hbuf, if_pos hfirst, ih, List.flatMap_cons,
        List.length_append, Nat.add_assoc]
      intro before c hsplit
      have hmore := hroom (b :: before) c (by rw [hsplit]; rfl)
      rw [List.flatMap_cons, List.length_append] at hmore
      omega

theorem walkBytes_iff (hbuf : 2 ≤ bufSz) {s : CStr} {p e : Nat} :
    walkBytes bufSz s p = some e ↔ WrittenTo bufSz p s e := by
  constructor
  · intro hwalk
    induction s generalizing p with
    | nil =>
        obtain rfl := Option.some.inj hwalk
        exact ⟨[], [], rfl, rfl, .inl rfl, by simp⟩
    | cons b s ih =>
        rw [walkBytes_cons hbuf] at hwalk
        by_cases hroom : p + 2 < bufSz
        · rw [if_pos hroom] at hwalk
          obtain ⟨front, rest, rfl, rfl, hend, hbefore⟩ := ih hwalk
          refine ⟨b :: front, rest, rfl, ?_, hend, ?_⟩
          · rw [List.flatMap_cons, List.length_append, Nat.add_assoc]
          · intro before c hsplit
            cases before with
            | nil => exact hroom
            | cons b' before =>
                rw [List.cons_append, List.cons.injEq] at hsplit
                have hmore := hbefore before c hsplit.2
                rw [← hsplit.1, List.flatMap_cons, List.length_append]
                omega
        · rw [if_neg hroom] at hwalk
          obtain rfl := Option.some.inj hwalk
          exact ⟨[], b :: s, rfl, rfl, .inr (by omega), by simp⟩
  · rintro ⟨front, rest, rfl, rfl, hend, hbefore⟩
    rw [walkBytes_append hbuf hbefore]
    cases rest with
    | nil => rfl
    | cons b rest =>
        rcases hend with hnil | hfull
        · cases hnil
        · rw [walkBytes_cons hbuf, if_neg (by omega)]

/-- With room for the closing quote and a zero byte nothing is cut. -/
theorem writtenTo_whole {s : CStr} {p : Nat}
    (hroom : p + (s.flatMap escapeByte).length + 2 ≤ bufSz) :
    WrittenTo bufSz p s (p + (s.flatMap escapeByte).length) := by
  refine ⟨s, [], (List.append_nil s).symm, rfl, .inl rfl, ?_⟩
  rintro before b rfl
  have hpos := escapeByte_length_pos b
  rw [List.flatMap_append, List.length_append, List.flatMap_singleton] at hroom
  omega

theorem WrittenTo.whole {s : CStr} {p e : Nat} (h : WrittenTo bufSz p s e) (hroom : e + 2 < bufSz) :
    e = p + (s.flatMap escapeByte).length := by
  obtain ⟨front, rest, rfl, rfl, hend, _⟩ := h
  rcases hend with rfl | hfull
  · rw [List.append_nil]
  · omega

theorem WrittenTo.le {s : CStr} {p e : Nat} (h : WrittenTo bufSz p s e) :
    p ≤ e ∧ e ≤ p + (s.flatMap escapeByte).length := by
  obtain ⟨front, rest, rfl, rfl, _, _⟩ := h
  rw [List.flatMap_append, List.length_append]
  omega

end

/-! ## Entries -/

/-- What is printed before a value inside an array or object, and the value. -/
abbrev Entry := List CStr × JsonValue

def itemEntries (first : Bool) : List JsonValue → List Entry
  | [] => []
  | val :: items => (if first then [] else [[comma]], val) :: itemEntries false items

def memberEntries (first : Bool) : List (CStr × JsonValue) → List Entry
  | [] => []
  | (key, val) :: members =>
      ((if first then [] else [[comma]]) ++ [keyText key], val) :: memberEntries false members

def entries : JsonValue → List Entry
  | .array items => itemEntries true items
  | .object members => memberEntries true members
  | _ => []

def marksLength (marks : List CStr) : Nat := (marks.map List.length).sum

def IsContainer : JsonValue → Prop
  | .array _ | .object _ => True
  | _ => False

def IsString : JsonValue → Prop
  | .string _ => True
  | _ => False

section

variable (formatG17 : Double → CStr)

def textLength (val : JsonValue) : Nat := (jsonText formatG17 val).length

def entriesLength : List Entry → Nat
  | [] => 0
  | (marks, val) :: es => marksLength marks + textLength formatG17 val + entriesLength es

variable (bufSz : Nat)

def walkMarks : List CStr → Nat → Option Nat
  | [], p => some p
  | mark :: marks, p => (walkPrint bufSz mark.length p).bind (walkMarks marks)

def walkEntries : List Entry → Nat → Option Nat
  | [], p => some p
  | (marks, val) :: es, p =>
      ((walkMarks bufSz marks p).bind (walk formatG17 bufSz val)).bind (walkEntries es)

variable {formatG17 bufSz}

theorem walkItems_eq (first : Bool) (items : List JsonValue) (p : Nat) :
    walkItems formatG17 bufSz first items p =
      walkEntries formatG17 bufSz (itemEntries first items) p := by
  induction items generalizing first p with
  | nil => rw [walkItems, itemEntries, walkEntries]
  | cons val items ih =>
      rw [walkItems, itemEntries, walkEntries]
      have hrest : walkItems formatG17 bufSz false items =
          walkEntries formatG17 bufSz (itemEntries false items) := funext (ih false)
      rw [hrest]
      cases first with
      | true => rfl
      | false =>
          simp only [walkMarks, Bool.false_eq_true, if_false, List.length_singleton,
            Option.bind_fun_some]

theorem walkMembers_eq (first : Bool) (members : List (CStr × JsonValue)) (p : Nat) :
    walkMembers formatG17 bufSz first members p =
      walkEntries formatG17 bufSz (memberEntries first members) p := by
  induction members generalizing first p with
  | nil => rw [walkMembers, memberEntries, walkEntries]
  | cons m members ih =>
      obtain ⟨key, val⟩ := m
      rw [walkMembers, memberEntries, walkEntries]
      have hrest : walkMembers formatG17 bufSz false members =
          walkEntries formatG17 bufSz (memberEntries false members) := funext (ih false)
      rw [hrest]
      cases first with
      | true =>
          simp only [walkMarks, if_true, List.nil_append, Option.bind_fun_some, Option.bind_some]
      | false =>
          simp only [walkMarks, Bool.false_eq_true, if_false, List.length_singleton,
            Option.bind_fun_some, List.cons_append, List.nil_append]

theorem entriesLength_items (first : Bool) (items : List JsonValue) :
    entriesLength formatG17 (itemEntries first items) =
      (itemsText formatG17 first items).length := by
  induction items generalizing first with
  | nil => rw [itemEntries, entriesLength, itemsText, List.length_nil]
  | cons val items ih =>
      rw [itemEntries, entriesLength, itemsText, ih, List.length_append, List.length_append]
      cases first <;> rfl

theorem entriesLength_members (first : Bool) (members : List (CStr × JsonValue)) :
    entriesLength formatG17 (memberEntries first members) =
      (membersText formatG17 first members).length := by
  induction members generalizing first with
  | nil => rw [memberEntries, entriesLength, membersText, List.length_nil]
  | cons m members ih =>
      obtain ⟨key, val⟩ := m
      rw [memberEntries, entriesLength, membersText, ih, List.length_append, List.length_append,
        List.length_append]
      cases first <;> simp [marksLength, separator, textLength]

/-- An array or object is walked from bracket to bracket. -/
theorem walk_container {val : JsonValue} (hcontainer : IsContainer val) (p : Nat) :
    walk formatG17 bufSz val p =
      if bufSz ≤ p then some p
      else ((walkPrint bufSz 1 p).bind (walkEntries formatG17 bufSz (entries val))).bind
        (walkPrint bufSz 1) := by
  cases val with
  | null | bool | number | string => cases hcontainer
  | array items =>
      have hitems : walkItems formatG17 bufSz true items =
          walkEntries formatG17 bufSz (itemEntries true items) := funext (walkItems_eq true items)
      rw [walk, entries, hitems]
  | object members =>
      have hmembers : walkMembers formatG17 bufSz true members =
          walkEntries formatG17 bufSz (memberEntries true members) :=
        funext (walkMembers_eq true members)
      rw [walk, entries, hmembers]

theorem textLength_container {val : JsonValue} (hcontainer : IsContainer val) :
    textLength formatG17 val = entriesLength formatG17 (entries val) + 2 := by
  cases val with
  | null | bool | number | string => cases hcontainer
  | array items =>
      rw [textLength, jsonText, entries, entriesLength_items]
      simp only [List.length_append, List.length_singleton]
      omega
  | object members =>
      rw [textLength, jsonText, entries, entriesLength_members]
      simp only [List.length_append, List.length_singleton]
      omega

theorem walkPrint_eq_some {n p q : Nat} :
    walkPrint bufSz n p = some q ↔ p ≤ bufSz ∧ q = p + n := by
  rw [walkPrint]
  by_cases hle : p ≤ bufSz
  · rw [if_pos hle, Option.some.injEq]
    simp only [hle, true_and, eq_comm]
  · rw [if_neg hle]
    simp [hle]

theorem marksLength_cons (mark : CStr) (marks : List CStr) :
    marksLength (mark :: marks) = mark.length + marksLength marks := by
  rw [marksLength, marksLength, List.map_cons, List.sum_cons]

theorem walkMarks_of_le {marks : List CStr} {p : Nat} (hroom : p + marksLength marks ≤ bufSz) :
    walkMarks bufSz marks p = some (p + marksLength marks) := by
  induction marks generalizing p with
  | nil => rfl
  | cons mark marks ih =>
      rw [marksLength_cons] at hroom ⊢
      rw [walkMarks, walkPrint, if_pos (by omega), Option.bind_some, ih (by omega), Nat.add_assoc]

theorem eq_of_walkMarks {marks : List CStr} {p q : Nat} (h : walkMarks bufSz marks p = some q) :
    q = p + marksLength marks := by
  induction marks generalizing p with
  | nil => exact (Option.some.inj h).symm
  | cons mark marks ih =>
      obtain ⟨q', hprint, hmarks⟩ := Option.bind_eq_some_iff.mp h
      rw [marksLength_cons, ih hmarks, (walkPrint_eq_some.mp hprint).2, Nat.add_assoc]

theorem walk_of_full (val : JsonValue) {p : Nat} (hfull : bufSz ≤ p) :
    walk formatG17 bufSz val p = some p := by
  cases val <;> rw [walk, if_pos hfull]

theorem walkEntries_cons {marks : List CStr} {val : JsonValue} {es : List Entry} {p q : Nat} :
    walkEntries formatG17 bufSz ((marks, val) :: es) p = some q ↔
      ∃ start stop, walkMarks bufSz marks p = some start ∧
        walk formatG17 bufSz val start = some stop ∧
        walkEntries formatG17 bufSz es stop = some q := by
  rw [walkEntries, Option.bind_eq_some_iff]
  simp only [Option.bind_eq_some_iff]
  constructor
  · rintro ⟨stop, ⟨start, hmarks, hval⟩, hes⟩
    exact ⟨start, stop, hmarks, hval, hes⟩
  · rintro ⟨start, stop, hmarks, hval, hes⟩
    exact ⟨stop, ⟨start, hmarks, hval⟩, hes⟩

theorem walkEntries_append (es es' : List Entry) (p : Nat) :
    walkEntries formatG17 bufSz (es ++ es') p =
      (walkEntries formatG17 bufSz es p).bind (walkEntries formatG17 bufSz es') := by
  induction es generalizing p with
  | nil => rfl
  | cons e es ih =>
      obtain ⟨marks, val⟩ := e
      have hrest : walkEntries formatG17 bufSz (es ++ es') = fun p =>
          (walkEntries formatG17 bufSz es p).bind (walkEntries formatG17 bufSz es') := funext ih
      rw [List.cons_append, walkEntries, walkEntries, hrest]
      simp only [Option.bind_assoc]

theorem walkEntries_concat {init : List Entry} {marks : List CStr} {val : JsonValue} {p q : Nat} :
    walkEntries formatG17 bufSz (init ++ [(marks, val)]) p = some q ↔
      ∃ before start, walkEntries formatG17 bufSz init p = some before ∧
        walkMarks bufSz marks before = some start ∧ walk formatG17 bufSz val start = some q := by
  rw [walkEntries_append, Option.bind_eq_some_iff]
  simp only [walkEntries_cons]
  constructor
  · rintro ⟨before, hinit, start, stop, hmarks, hval, hend⟩
    exact ⟨before, start, hinit, hmarks, hval.trans hend⟩
  · rintro ⟨before, start, hinit, hmarks, hval⟩
    exact ⟨before, hinit, start, q, hmarks, hval, rfl⟩

theorem entriesLength_append (es es' : List Entry) :
    entriesLength formatG17 (es ++ es') =
      entriesLength formatG17 es + entriesLength formatG17 es' := by
  induction es with
  | nil => rw [List.nil_append, entriesLength, Nat.zero_add]
  | cons e es ih =>
      obtain ⟨marks, val⟩ := e
      rw [List.cons_append, entriesLength, entriesLength, ih, ← Nat.add_assoc]

/-! ## The walk goes on -/

theorem le_of_walkEntries {es : List Entry}
    (hvalue : ∀ e ∈ es, ∀ p q, 1 ≤ p → walk formatG17 bufSz e.2 p = some q → p ≤ q) {p q : Nat}
    (hp : 1 ≤ p) (h : walkEntries formatG17 bufSz es p = some q) : p ≤ q := by
  induction es generalizing p with
  | nil => exact (Option.some.inj h).le
  | cons e es ih =>
      obtain ⟨marks, val⟩ := e
      obtain ⟨start, stop, hmarks, hval, hes⟩ := walkEntries_cons.mp h
      have hstart := eq_of_walkMarks hmarks
      have hstop := hvalue _ List.mem_cons_self start stop (by omega) hval
      have hend := ih (fun e he => hvalue e (List.mem_cons_of_mem _ he)) (by omega) hes
      omega

theorem walk_container_iff {val : JsonValue} (hcontainer : IsContainer val) {p q : Nat}
    (hroom : p < bufSz) :
    walk formatG17 bufSz val p = some q ↔
      ∃ stop, walkEntries formatG17 bufSz (entries val) (p + 1) = some stop ∧ stop ≤ bufSz ∧
        q = stop + 1 := by
  rw [walk_container hcontainer, if_neg (Nat.not_le_of_lt hroom), walkPrint,
    if_pos (Nat.le_of_lt hroom), Option.bind_some, Option.bind_eq_some_iff]
  simp only [walkPrint_eq_some]

theorem walk_string_iff (hbuf : 2 ≤ bufSz) {s : CStr} {p q : Nat} (hroom : p < bufSz) :
    walk formatG17 bufSz (.string s) p = some q ↔
      ∃ e, WrittenTo bufSz (p + 1) s e ∧ e ≤ bufSz ∧ q = e + 1 := by
  rw [walk, if_neg (Nat.not_le_of_lt hroom), walkPrint, if_pos (Nat.le_of_lt hroom),
    Option.bind_some, Option.bind_eq_some_iff]
  simp only [walkPrint_eq_some, walkBytes_iff hbuf]

theorem walk_single {val : JsonValue} (hstring : ¬ IsString val) (hcontainer : ¬ IsContainer val)
    {p : Nat} (hroom : p < bufSz) :
    walk formatG17 bufSz val p = some (p + textLength formatG17 val) := by
  cases val with
  | null | bool | number =>
      rw [walk, if_neg (Nat.not_le_of_lt hroom), walkPrint, if_pos (Nat.le_of_lt hroom)]
      rfl
  | string => exact absurd trivial hstring
  | array | object => exact absurd trivial hcontainer

theorem forall_itemEntries {motive : JsonValue → Prop} {items : List JsonValue}
    (hitem : ∀ val ∈ items, motive val) (first : Bool) :
    ∀ e ∈ itemEntries first items, motive e.2 := by
  induction items generalizing first with
  | nil => exact nofun
  | cons val items ih =>
      rw [itemEntries, List.forall_mem_cons]
      rw [List.forall_mem_cons] at hitem
      exact ⟨hitem.1, ih hitem.2 false⟩

theorem forall_memberEntries {motive : JsonValue → Prop} {members : List (CStr × JsonValue)}
    (hmember : ∀ m ∈ members, motive m.2) (first : Bool) :
    ∀ e ∈ memberEntries first members, motive e.2 := by
  induction members generalizing first with
  | nil => exact nofun
  | cons m members ih =>
      obtain ⟨key, val⟩ := m
      rw [memberEntries, List.forall_mem_cons]
      rw [List.forall_mem_cons] at hmember
      exact ⟨hmember.1, ih hmember.2 false⟩

@[elab_as_elim]
theorem entryInduction {motive : JsonValue → Prop}
    (single : ∀ val, ¬ IsString val → ¬ IsContainer val → motive val)
    (string : ∀ s, motive (.string s))
    (container : ∀ val, IsContainer val → (∀ e ∈ entries val, motive e.2) → motive val)
    (val : JsonValue) : motive val := by
  induction val using valueInduction with
  | null => exact single _ id id
  | bool => exact single _ id id
  | number => exact single _ id id
  | string s => exact string s
  | array items ih => exact container _ trivial (forall_itemEntries ih true)
  | object members ih => exact container _ trivial (forall_memberEntries ih true)

/-- Between two values stands at least a comma. -/
theorem spaced_entries (val : JsonValue) : ∀ e ∈ (entries val).tail, 1 ≤ marksLength e.1 := by
  have hcomma : ∀ marks : List CStr, 1 ≤ marksLength ([[comma]] ++ marks) := by
    intro marks
    rw [List.singleton_append, marksLength_cons, List.length_singleton]
    omega
  have hitems : ∀ items, ∀ e ∈ itemEntries false items, 1 ≤ marksLength e.1 := by
    intro items
    induction items with
    | nil => exact nofun
    | cons val items ih =>
        rw [itemEntries, List.forall_mem_cons]
        exact ⟨hcomma [], ih⟩
  have hmembers : ∀ members, ∀ e ∈ memberEntries false members, 1 ≤ marksLength e.1 := by
    intro members
    induction members with
    | nil => exact nofun
    | cons m members ih =>
        rw [memberEntries, List.forall_mem_cons]
        exact ⟨hcomma [keyText m.1], ih⟩
  cases val with
  | null | bool | number | string => exact nofun
  | array items =>
      cases items with
      | nil => exact nofun
      | cons val items => exact hitems items
  | object members =>
      cases members with
      | nil => exact nofun
      | cons m members => exact hmembers members

theorem le_of_walk (val : JsonValue) :
    ∀ p q, 1 ≤ p → walk formatG17 bufSz val p = some q → p ≤ q := by
  induction val using entryInduction with
  | single val hstring hcontainer =>
      intro p q hp h
      by_cases hroom : p < bufSz
      · rw [walk_single hstring hcontainer hroom] at h
        have hend := Option.some.inj h
        omega
      · rw [walk_of_full _ (Nat.le_of_not_lt hroom)] at h
        exact (Option.some.inj h).le
  | string s =>
      intro p q hp h
      by_cases hroom : p < bufSz
      · obtain ⟨e, hwritten, _, rfl⟩ := (walk_string_iff (by omega) hroom).mp h
        have hle := hwritten.le.1
        omega
      · rw [walk_of_full _ (Nat.le_of_not_lt hroom)] at h
        exact (Option.some.inj h).le
  | container val hcontainer ih =>
      intro p q hp h
      by_cases hroom : p < bufSz
      · obtain ⟨stop, hes, _, rfl⟩ := (walk_container_iff hcontainer hroom).mp h
        have hle := le_of_walkEntries ih (by omega) hes
        omega
      · rw [walk_of_full _ (Nat.le_of_not_lt hroom)] at h
        exact (Option.some.inj h).le

variable (formatG17 bufSz)

/-! ## Where a value ends -/

/-- A value at `p` that ends at `q`, no further than the end of the buffer: it is whole, or a
string that is cut, or its last value is a string that is cut so that the quote and the bracket just
fill the buffer. -/
inductive EndsAt : JsonValue → Nat → Nat → Prop
  | whole {val : JsonValue} {p : Nat} :
      ¬ IsString val → EndsAt val p (p + textLength formatG17 val)
  | string {s : CStr} {p e : Nat} : WrittenTo bufSz (p + 1) s e → EndsAt (.string s) p (e + 1)
  | lastString {val : JsonValue} {p e : Nat} {init : List Entry} {marks : List CStr} {s : CStr} :
      entries val = init ++ [(marks, .string s)] →
      WrittenTo bufSz (p + 1 + entriesLength formatG17 init + marksLength marks + 1) s e →
      e + 2 = bufSz → EndsAt val p bufSz

/-- The walk ends there, as far as the buffer goes. -/
def EndsWell (val : JsonValue) : Prop :=
  ∀ p q, 1 ≤ p → p < bufSz → q ≤ bufSz →
    (walk formatG17 bufSz val p = some q ↔ EndsAt formatG17 bufSz val p q)

variable {formatG17 bufSz}

theorem textLength_string (s : CStr) :
    textLength formatG17 (.string s) = (s.flatMap escapeByte).length + 2 := by
  rw [textLength, jsonText, stringText]
  simp only [List.length_append, List.length_singleton]
  omega

theorem endsAt_of_lt {val : JsonValue} {p : Nat} (hroom : p + textLength formatG17 val < bufSz) :
    EndsAt formatG17 bufSz val p (p + textLength formatG17 val) := by
  cases val with
  | string s =>
      rw [textLength_string] at hroom ⊢
      have hwritten := @writtenTo_whole bufSz s (p + 1) (by omega)
      have hend : p + ((s.flatMap escapeByte).length + 2) =
          p + 1 + (s.flatMap escapeByte).length + 1 := by omega
      rw [hend]
      exact .string hwritten
  | null | bool | number | array | object => exact .whole id

theorem EndsAt.eq_of_lt {val : JsonValue} {p q : Nat} (h : EndsAt formatG17 bufSz val p q)
    (hroom : q + 1 < bufSz) : q = p + textLength formatG17 val := by
  cases h with
  | whole => rfl
  | string hwritten =>
      rw [textLength_string, hwritten.whole (by omega)]
      omega
  | lastString => omega

theorem walkEntries_of_lt {es : List Entry} (hvalue : ∀ e ∈ es, EndsWell formatG17 bufSz e.2)
    {p : Nat} (hp : 1 ≤ p) (hroom : p + entriesLength formatG17 es < bufSz) :
    walkEntries formatG17 bufSz es p = some (p + entriesLength formatG17 es) := by
  induction es generalizing p with
  | nil => rfl
  | cons e es ih =>
      obtain ⟨marks, val⟩ := e
      rw [entriesLength] at hroom ⊢
      have hmarks := @walkMarks_of_le bufSz marks p (by omega)
      have hends := @endsAt_of_lt formatG17 bufSz val (p + marksLength marks) (by omega)
      have hval := (hvalue _ List.mem_cons_self _ _ (by omega) (by omega) (by omega)).mpr hends
      have hrest := @ih (fun e he => hvalue e (List.mem_cons_of_mem _ he))
        (p + marksLength marks + textLength formatG17 val) (by omega) (by omega)
      rw [walkEntries_cons]
      refine ⟨_, _, hmarks, hval, ?_⟩
      rw [hrest]
      congr 1
      omega

theorem eq_of_walkEntries {es : List Entry} (hvalue : ∀ e ∈ es, EndsWell formatG17 bufSz e.2)
    {p q : Nat} (hp : 1 ≤ p) (hroom : q + 1 < bufSz)
    (h : walkEntries formatG17 bufSz es p = some q) : q = p + entriesLength formatG17 es := by
  induction es generalizing p with
  | nil => exact (Option.some.inj h).symm
  | cons e es ih =>
      obtain ⟨marks, val⟩ := e
      obtain ⟨start, stop, hmarks, hval, hes⟩ := walkEntries_cons.mp h
      have hstart := eq_of_walkMarks hmarks
      have hstop := le_of_walk val start stop (by omega) hval
      have hend := le_of_walkEntries (fun e _ => le_of_walk e.2) (by omega) hes
      have hends := (hvalue _ List.mem_cons_self start stop
        (by omega) (by omega) (by omega)).mp hval
      have hwhole : stop = start + textLength formatG17 val := hends.eq_of_lt (by omega)
      have hrest := ih (fun e he => hvalue e (List.mem_cons_of_mem _ he)) (by omega) hes
      rw [entriesLength]
      omega

theorem EndsAt.le {val : JsonValue} {p q : Nat} (h : EndsAt formatG17 bufSz val p q) : p ≤ q := by
  cases h with
  | whole => omega
  | string hwritten =>
      have hle := hwritten.le.1
      omega
  | lastString _ hwritten =>
      have hle := hwritten.le.1
      omega

theorem spaced_concat {init : List Entry} {marks : List CStr} {val : JsonValue}
    (hspaced : ∀ e ∈ (init ++ [(marks, val)]).tail, 1 ≤ marksLength e.1) (hinit : init ≠ []) :
    1 ≤ marksLength marks := by
  apply hspaced (marks, val)
  rw [List.tail_append_of_ne_nil hinit]
  exact List.mem_append_right _ (List.mem_singleton_self _)

/-- All that stands before the last value is whole when the walk reaches that value. -/
theorem walkEntries_init {init : List Entry} {marks : List CStr} {val : JsonValue}
    (hspaced : ∀ e ∈ (init ++ [(marks, val)]).tail, 1 ≤ marksLength e.1)
    (hvalue : ∀ e ∈ init, EndsWell formatG17 bufSz e.2) {p before start : Nat} (hp : 1 ≤ p)
    (hinit : walkEntries formatG17 bufSz init p = some before)
    (hmarks : walkMarks bufSz marks before = some start) (hroom : start < bufSz) :
    start = p + entriesLength formatG17 init + marksLength marks := by
  have hstart := eq_of_walkMarks hmarks
  by_cases hnil : init = []
  · subst hnil
    have hbefore := Option.some.inj hinit
    rw [entriesLength]
    omega
  · have hspace := spaced_concat hspaced hnil
    have hbefore := eq_of_walkEntries hvalue hp (by omega) hinit
    omega

/-- The entries end before the end of the buffer where the last value does. -/
theorem walkEntries_iff {es : List Entry} (hspaced : ∀ e ∈ es.tail, 1 ≤ marksLength e.1)
    (hvalue : ∀ e ∈ es, EndsWell formatG17 bufSz e.2) {p q : Nat} (hp : 1 ≤ p) (hq : q < bufSz) :
    walkEntries formatG17 bufSz es p = some q ↔
      es = [] ∧ q = p ∨ ∃ init marks val, es = init ++ [(marks, val)] ∧
        EndsAt formatG17 bufSz val (p + entriesLength formatG17 init + marksLength marks) q := by
  rcases List.eq_nil_or_concat' es with rfl | ⟨init, ⟨marks, val⟩, rfl⟩
  · constructor
    · intro h
      exact .inl ⟨rfl, (Option.some.inj h).symm⟩
    · rintro (⟨_, rfl⟩ | ⟨init, marks, val, hnil, _⟩)
      · rfl
      · exact absurd hnil (by simp)
  · have hbefore : ∀ e ∈ init, EndsWell formatG17 bufSz e.2 :=
      fun e he => hvalue e (List.mem_append_left _ he)
    have hlast := hvalue (marks, val) (List.mem_append_right _ (List.mem_singleton_self _))
    constructor
    · intro h
      obtain ⟨before, start, hinit, hmarks, hval⟩ := walkEntries_concat.mp h
      have hmono := le_of_walkEntries (fun e _ => le_of_walk e.2) hp hinit
      have hmarked := eq_of_walkMarks hmarks
      have hle := le_of_walk val start q (by omega) hval
      have hstart := walkEntries_init hspaced hbefore hp hinit hmarks (by omega)
      subst hstart
      exact .inr ⟨init, marks, val, rfl, (hlast _ _ (by omega) (by omega) hq.le).mp hval⟩
    · rintro (⟨hnil, _⟩ | ⟨init', marks', val', hsame, hends⟩)
      · exact absurd hnil (by simp)
      · obtain ⟨rfl, hentry⟩ := List.append_inj' hsame rfl
        obtain ⟨rfl, rfl⟩ := Prod.mk.inj (List.singleton_inj.mp hentry)
        have hle := hends.le
        have hinit := walkEntries_of_lt hbefore hp (by omega)
        have hmarks := @walkMarks_of_le bufSz marks (p + entriesLength formatG17 init) (by omega)
        have hval := (hlast _ _ (by omega) (by omega) hq.le).mpr hends
        exact walkEntries_concat.mpr ⟨_, _, hinit, hmarks, hval⟩

theorem not_isString_of_isContainer {val : JsonValue} (hcontainer : IsContainer val) :
    ¬ IsString val := by
  cases val with
  | null | bool | number | string => cases hcontainer
  | array | object => exact id

theorem endsAt_container_iff {val : JsonValue} (hcontainer : IsContainer val) {p q : Nat} :
    EndsAt formatG17 bufSz val p q ↔ q = p + textLength formatG17 val ∨
      ∃ init marks s e, entries val = init ++ [(marks, .string s)] ∧
        WrittenTo bufSz (p + 1 + entriesLength formatG17 init + marksLength marks + 1) s e ∧
        e + 2 = bufSz ∧ q = bufSz := by
  constructor
  · intro h
    cases h with
    | whole => exact .inl rfl
    | string => cases hcontainer
    | lastString hentries hwritten hend => exact .inr ⟨_, _, _, _, hentries, hwritten, hend, rfl⟩
  · rintro (rfl | ⟨init, marks, s, e, hentries, hwritten, hend, rfl⟩)
    · exact .whole (not_isString_of_isContainer hcontainer)
    · exact .lastString hentries hwritten hend

/-- The bracket stands behind the last value. -/
theorem endsAt_of_last {val : JsonValue} (hcontainer : IsContainer val) {p q : Nat}
    (hq : q < bufSz) :
    (entries val = [] ∧ q = p + 1 ∨ ∃ init marks last, entries val = init ++ [(marks, last)] ∧
        EndsAt formatG17 bufSz last
          (p + 1 + entriesLength formatG17 init + marksLength marks) q) ↔
      EndsAt formatG17 bufSz val p (q + 1) := by
  have hlength := @textLength_container formatG17 val hcontainer
  rw [endsAt_container_iff hcontainer]
  constructor
  · rintro (⟨hnil, rfl⟩ | ⟨init, marks, last, hentries, hends⟩)
    · rw [hnil, entriesLength] at hlength
      exact .inl (by omega)
    · rw [hentries, entriesLength_append, entriesLength, entriesLength] at hlength
      cases hends with
      | whole => exact .inl (by omega)
      | @string s _ e hwritten =>
          by_cases hcut : e + 2 = bufSz
          · exact .inr ⟨init, marks, s, e, hentries, hwritten, hcut, hcut⟩
          · have hwhole := hwritten.whole (by omega)
            rw [textLength_string] at hlength
            exact .inl (by omega)
      | lastString => omega
  · rintro (hwhole | ⟨init, marks, s, e, hentries, hwritten, hend, hlast⟩)
    · rcases List.eq_nil_or_concat' (entries val) with hnil | ⟨init, ⟨marks, last⟩, hentries⟩
      · rw [hnil, entriesLength] at hlength
        exact .inl ⟨hnil, by omega⟩
      · rw [hentries, entriesLength_append, entriesLength, entriesLength] at hlength
        have hlast : q = p + 1 + entriesLength formatG17 init + marksLength marks +
            textLength formatG17 last := by omega
        subst hlast
        exact .inr ⟨init, marks, last, hentries, endsAt_of_lt hq⟩
    · have hquote : q = e + 1 := by omega
      subst hquote
      exact .inr ⟨init, marks, .string s, hentries, .string hwritten⟩

theorem endsAt_string_iff {s : CStr} {p q : Nat} :
    EndsAt formatG17 bufSz (.string s) p q ↔ ∃ e, WrittenTo bufSz (p + 1) s e ∧ q = e + 1 := by
  constructor
  · intro h
    cases h with
    | whole hstring => exact absurd trivial hstring
    | string hwritten => exact ⟨_, hwritten, rfl⟩
    | lastString hentries => exact absurd hentries (by simp [entries])
  · rintro ⟨e, hwritten, rfl⟩
    exact .string hwritten

theorem endsAt_single_iff {val : JsonValue} (hstring : ¬ IsString val)
    (hcontainer : ¬ IsContainer val) {p q : Nat} :
    EndsAt formatG17 bufSz val p q ↔ q = p + textLength formatG17 val := by
  constructor
  · intro h
    cases h with
    | whole => rfl
    | string => exact absurd trivial hstring
    | lastString hentries =>
        cases val with
        | null | bool | number | string => exact absurd hentries (by simp [entries])
        | array | object => exact absurd trivial hcontainer
  · rintro rfl
    exact .whole hstring

theorem walk_container_of_entries {val : JsonValue} (hcontainer : IsContainer val)
    (hvalue : ∀ e ∈ entries val, EndsWell formatG17 bufSz e.2) {p q : Nat} (hroom : p < bufSz)
    (hq : q ≤ bufSz) :
    walk formatG17 bufSz val p = some q ↔ EndsAt formatG17 bufSz val p q := by
  rw [walk_container_iff hcontainer hroom]
  constructor
  · rintro ⟨stop, hes, _, rfl⟩
    rw [← endsAt_of_last hcontainer (by omega)]
    exact (walkEntries_iff (spaced_entries val) hvalue (by omega) (by omega)).mp hes
  · intro hends
    have hpos : q ≠ 0 := by
      rw [endsAt_container_iff hcontainer, textLength_container hcontainer] at hends
      rcases hends with hwhole | ⟨_, _, _, _, _, _, _, hlast⟩ <;> omega
    obtain ⟨stop, rfl⟩ := Nat.exists_eq_add_one_of_ne_zero hpos
    rw [← endsAt_of_last hcontainer (by omega)] at hends
    have hes := (walkEntries_iff (spaced_entries val) hvalue (by omega) (by omega)).mpr hends
    exact ⟨stop, hes, by omega, rfl⟩

/-- As far as the buffer goes, every value ends where its text does or where it is cut. -/
theorem endsWell (val : JsonValue) : EndsWell formatG17 bufSz val := by
  induction val using entryInduction with
  | single val hstring hcontainer =>
      intro p q hp hroom hq
      rw [walk_single hstring hcontainer hroom, Option.some.injEq,
        endsAt_single_iff hstring hcontainer, eq_comm]
  | string s =>
      intro p q hp hroom hq
      rw [walk_string_iff (by omega) hroom, endsAt_string_iff]
      constructor
      · rintro ⟨e, hwritten, _, rfl⟩
        exact ⟨e, hwritten, rfl⟩
      · rintro ⟨e, hwritten, rfl⟩
        exact ⟨e, hwritten, by omega, rfl⟩
  | container val hcontainer ih =>
      intro p q _ hroom hq
      exact walk_container_of_entries hcontainer ih hroom hq

end

end MiniBackend.WebServer.Proofs.SerializerCuts
