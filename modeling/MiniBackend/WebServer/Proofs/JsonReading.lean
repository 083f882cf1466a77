import MiniBackend.WebServer.Proofs.JsonGrammar

/-!
# Reading a value back

The grammar derives a value from its text, when the tokenizer reads the text of its strings
and keys back.
-/

namespace MiniBackend.WebServer.Proofs.JsonReading

open MiniBackend.Lib.Binary64 MiniBackend.Lib.CArray MiniBackend.Lib.CString
open MiniBackend.WebServer.Json MiniBackend.WebServer.Proofs.JsonText
open MiniBackend.WebServer.Proofs.JsonTokens MiniBackend.WebServer.Proofs.JsonGrammar

/-! ## Values -/

mutual

/-- A condition on the value and on all values inside it. -/
def Every (p : JsonValue → Prop) : JsonValue → Prop
  | .array items => p (.array items) ∧ EveryItem p items
  | .object members => p (.object members) ∧ EveryMember p members
  | val => p val

def EveryItem (p : JsonValue → Prop) : List JsonValue → Prop
  | [] => True
  | val :: items => Every p val ∧ EveryItem p items

def EveryMember (p : JsonValue → Prop) : List (CStr × JsonValue) → Prop
  | [] => True
  | (_, val) :: members => Every p val ∧ EveryMember p members

end

theorem everyItem_iff {p : JsonValue → Prop} {items : List JsonValue} :
    EveryItem p items ↔ ∀ val ∈ items, Every p val := by
  induction items with
  | nil => simp [EveryItem]
  | cons val items ih => rw [EveryItem, ih, List.forall_mem_cons]

theorem everyMember_iff {p : JsonValue → Prop} {members : List (CStr × JsonValue)} :
    EveryMember p members ↔ ∀ m ∈ members, Every p m.2 := by
  induction members with
  | nil => simp [EveryMember]
  | cons m members ih => rw [EveryMember, ih, List.forall_mem_cons]

mutual

def nesting : JsonValue → Nat
  | .array items => itemsNesting items + 1
  | .object members => membersNesting members + 1
  | _ => 0

def itemsNesting : List JsonValue → Nat
  | [] => 0
  | val :: items => max (nesting val) (itemsNesting items)

def membersNesting : List (CStr × JsonValue) → Nat
  | [] => 0
  | (_, val) :: members => max (nesting val) (membersNesting members)

end

theorem nesting_le_itemsNesting {items : List JsonValue} {val : JsonValue} (h : val ∈ items) :
    nesting val ≤ itemsNesting items := by
  induction items with
  | nil => exact absurd h List.not_mem_nil
  | cons first items ih =>
      rw [itemsNesting]
      rcases List.mem_cons.mp h with rfl | hrest
      · exact Nat.le_max_left _ _
      · exact Nat.le_trans (ih hrest) (Nat.le_max_right _ _)

theorem nesting_le_membersNesting {members : List (CStr × JsonValue)} {m : CStr × JsonValue}
    (h : m ∈ members) : nesting m.2 ≤ membersNesting members := by
  induction members with
  | nil => exact absurd h List.not_mem_nil
  | cons first members ih =>
      rw [membersNesting]
      rcases List.mem_cons.mp h with rfl | hrest
      · exact Nat.le_max_left _ _
      · exact Nat.le_trans (ih hrest) (Nat.le_max_right _ _)

def OrdinaryNode : JsonValue → Prop
  | .number value => ∃ n : Nat, n < 10 ^ 15 ∧ value.magnitude = some (n : ℚ)
  | .string s => ∀ b ∈ s, b ≠ 0
  | .object members => (members.map Prod.fst).Nodup ∧ ∀ m ∈ members, ∀ b ∈ m.1, b ≠ 0
  | _ => True

/-- Strings and keys leave room for the terminator in a token, and keys need no escape. -/
def ReadableNode : JsonValue → Prop
  | .string s => s.length < jsonMaxStringLen - 1
  | .object members =>
      ∀ m ∈ members, m.1.length < jsonMaxStringLen - 1 ∧ ∀ b ∈ m.1, PlainByte b
  | _ => True

/-! ## The first token of a text -/

theorem start_eq {input rest : CStr} {tok : JsonToken}
    (h : jsonTokenizerNext input = some (tok, rest)) : start input = ⟨some tok, rest⟩ := by
  rw [start, parserAdvance, h]

theorem jsonTokenizerNext_string {s : CStr} (h : s.length < jsonMaxStringLen - 1) (rest : CStr) :
    jsonTokenizerNext (stringText s ++ rest) = some (.string s, rest) := by
  have htext := @parseStringToken_text 0 s (by omega) rest
  have hnext : jsonTokenizerNext (quote :: (s.flatMap escapeByte ++ quote :: rest)) =
      (parseStringToken 0 (s.flatMap escapeByte ++ quote :: rest)).map
        fun read => (.string read.1, read.2) := rfl
  rw [stringText, List.append_assoc, List.append_assoc]
  exact hnext.trans (by rw [htext]; rfl)

theorem jsonTokenizerNext_null {rest : CStr} (h : Ends rest) :
    jsonTokenizerNext (lit "null" ++ rest) = some (.null, rest) :=
  matchKeyword_of_ends (lit "null") .null h

theorem jsonTokenizerNext_true {rest : CStr} (h : Ends rest) :
    jsonTokenizerNext (lit "true" ++ rest) = some (.true, rest) :=
  matchKeyword_of_ends (lit "true") .true h

theorem jsonTokenizerNext_false {rest : CStr} (h : Ends rest) :
    jsonTokenizerNext (lit "false" ++ rest) = some (.false, rest) :=
  matchKeyword_of_ends (lit "false") .false h

theorem jsonTokenizerNext_number {c : UInt8} (h : c = 45 ∨ isDigit c = true) (rest : CStr) :
    jsonTokenizerNext (c :: rest) = parseNumberToken (c :: rest) := by
  have hne : ∀ k : UInt8, k ≠ 45 → isDigit k = false → c ≠ k := by
    rintro k hsign hdigit rfl
    rcases h with h | h
    · exact hsign h
    · rw [hdigit] at h
      cases h
  have hblank : isBlank c = false := by
    unfold isBlank
    simp [hne 32 (by decide) (by decide), hne 9 (by decide) (by decide),
      hne 13 (by decide) (by decide), hne 10 (by decide) (by decide)]
  rw [jsonTokenizerNext, List.dropWhile_cons_of_neg (by simp [hblank])]
  dsimp only
  rw [if_neg (hne 123 (by decide) (by decide)), if_neg (hne 125 (by decide) (by decide)),
    if_neg (hne 91 (by decide) (by decide)), if_neg (hne 93 (by decide) (by decide)),
    if_neg (hne comma (by decide) (by decide)), if_neg (hne colon (by decide) (by decide)),
    if_neg (hne quote (by decide) (by decide)), if_neg (hne 116 (by decide) (by decide)),
    if_neg (hne 102 (by decide) (by decide)), if_neg (hne 110 (by decide) (by decide)), if_pos h]

theorem jsonTokenizerNext_integer (negative : Bool) {n : Nat} (hn : n < 10 ^ 15) {rest : CStr}
    (h : Ends rest) :
    jsonTokenizerNext ((if negative then [45] else []) ++ decimal n ++ rest) =
      some (.number ⟨negative, some (n : ℚ)⟩, rest) := by
  have hnumber := parseNumberToken_integer negative hn h
  cases negative with
  | true => exact (jsonTokenizerNext_number (Or.inl rfl) _).trans hnumber
  | false =>
      cases hs : decimal n with
      | nil => exact absurd hs (decimal_ne_nil n)
      | cons d digits =>
          have hd := isDigit_of_mem_decimal (n := n) (b := d) (by rw [hs]; exact List.mem_cons_self)
          rw [hs] at hnumber
          exact (jsonTokenizerNext_number (Or.inr hd) _).trans hnumber

/-! ## Arrays and objects -/

section

variable (formatG17 : Double → CStr)

def Reads (val : JsonValue) : Prop :=
  ∀ {depth : Nat} {rest : CStr}, depth + nesting val ≤ jsonMaxDepth + 1 → Ends rest →
    Parsed .value depth (start (jsonText formatG17 val ++ rest)) val (start rest)

variable {formatG17}

theorem ends_cons {c : UInt8} (h : c = comma ∨ c = 93 ∨ c = 125) (rest : CStr) :
    Ends (c :: rest) := by
  intro d hd
  cases hd
  exact h

/-- The loop of an array in front of its next item. -/
theorem parsed_items {depth : Nat} {items : List JsonValue}
    (hitems : ∀ v ∈ items, Reads formatG17 v ∧ depth + 1 + nesting v ≤ jsonMaxDepth + 1)
    {val : JsonValue} (hval : Reads formatG17 val)
    (hdepth : depth + 1 + nesting val ≤ jsonMaxDepth + 1) (acc : List JsonValue) (rest : CStr) :
    Parsed (.items acc) depth
      (start (jsonText formatG17 val ++ (itemsText formatG17 false items ++ 93 :: rest)))
      (.array (acc ++ val :: items)) (start rest) := by
  induction items generalizing val acc with
  | nil =>
      have hclose : parserAdvance (start (93 :: rest)) = start rest := rfl
      rw [itemsText, List.nil_append, ← hclose]
      exact .lastItem (hval hdepth (ends_cons (Or.inr (Or.inl rfl)) rest)) rfl
  | cons next items ih =>
      obtain ⟨hnext, hnextDepth⟩ := hitems next List.mem_cons_self
      have htext : itemsText formatG17 false (next :: items) ++ 93 :: rest = comma ::
          (jsonText formatG17 next ++ (itemsText formatG17 false items ++ 93 :: rest)) := by
        simp [itemsText, separator]
      have hrest := ih (fun v hv => hitems v (List.mem_cons_of_mem next hv)) hnext hnextDepth
        (acc ++ [val])
      rw [List.append_assoc] at hrest
      rw [htext]
      exact .nextItem (hval hdepth (ends_cons (Or.inl rfl) _)) rfl hrest

theorem start_keyText {key : CStr} (hlength : key.length < jsonMaxStringLen - 1)
    (hplain : ∀ b ∈ key, PlainByte b) (rest : CStr) :
    start (keyText key ++ rest) = ⟨some (.string key), colon :: rest⟩ := by
  apply start_eq
  have h := jsonTokenizerNext_string hlength (colon :: rest)
  rw [stringText, flatMap_escapeByte_of_plain hplain] at h
  simpa [keyText] using h

/-- What the loop of an object needs of a member. -/
structure ReadsMember (formatG17 : Double → CStr) (depth : Nat) (m : CStr × JsonValue) : Prop where
  reads : Reads formatG17 m.2
  nested : depth + 1 + nesting m.2 ≤ jsonMaxDepth + 1
  short : m.1.length < jsonMaxStringLen - 1
  plain : ∀ b ∈ m.1, PlainByte b
  nonzero : ∀ b ∈ m.1, b ≠ 0

theorem ReadsMember.new {depth : Nat} {m : CStr × JsonValue} (hm : ReadsMember formatG17 depth m)
    {acc members : List (CStr × JsonValue)} (hkeys : ((acc ++ m :: members).map Prod.fst).Nodup) :
    ofBuffer m.1 ∉ acc.map Prod.fst ∧ (ofBuffer m.1, m.2) = m := by
  rw [ofBuffer_of_ne hm.nonzero]
  refine ⟨fun hmem => ?_, rfl⟩
  rw [List.map_append, List.nodup_append] at hkeys
  exact hkeys.2.2 m.1 hmem m.1 (List.mem_map_of_mem List.mem_cons_self) rfl

/-- The key and the colon in front of a value. -/
theorem start_member {depth : Nat} {m : CStr × JsonValue} (hm : ReadsMember formatG17 depth m)
    (rest : CStr) :
    (start (keyText m.1 ++ rest)).current = some (.string m.1) ∧
      (parserAdvance (start (keyText m.1 ++ rest))).current = some .colon ∧
      parserAdvance (parserAdvance (start (keyText m.1 ++ rest))) = start rest := by
  rw [start_keyText hm.short hm.plain]
  exact ⟨rfl, rfl, rfl⟩

/-- The loop of an object in front of its next member. -/
theorem parsed_members {depth : Nat} {members : List (CStr × JsonValue)}
    (hmembers : ∀ m ∈ members, ReadsMember formatG17 depth m) {m : CStr × JsonValue}
    (hm : ReadsMember formatG17 depth m) (acc : List (CStr × JsonValue))
    (hkeys : ((acc ++ m :: members).map Prod.fst).Nodup) (rest : CStr) :
    Parsed (.members acc) depth
      (start (keyText m.1 ++ (jsonText formatG17 m.2 ++
        (membersText formatG17 false members ++ 125 :: rest))))
      (.object (acc ++ m :: members)) (start rest) := by
  obtain ⟨hnew, heq⟩ := hm.new hkeys
  induction members generalizing m acc with
  | nil =>
      rw [membersText, List.nil_append]
      obtain ⟨hkey, hcolon, hvalue⟩ := start_member hm (jsonText formatG17 m.2 ++ 125 :: rest)
      have hval := hm.reads hm.nested (ends_cons (Or.inr (Or.inr rfl)) rest)
      have hclose : parserAdvance (start (125 :: rest)) = start rest := rfl
      rw [← hvalue] at hval
      have hlast := @Parsed.lastMember depth acc _ _ _ _ hkey hcolon hval hnew rfl
      rw [heq, hclose] at hlast
      exact hlast
  | cons next members ih =>
      have hnext := hmembers next List.mem_cons_self
      have htext : membersText formatG17 false (next :: members) ++ 125 :: rest =
          comma :: (keyText next.1 ++ (jsonText formatG17 next.2 ++
            (membersText formatG17 false members ++ 125 :: rest))) := by
        simp [membersText, separator]
      have hkeys' : ((acc ++ [m] ++ next :: members).map Prod.fst).Nodup := by
        rw [List.append_assoc]
        exact hkeys
      have hrest := ih (fun m' hm' => hmembers m' (List.mem_cons_of_mem next hm')) hnext
        (acc ++ [m]) hkeys' (hnext.new hkeys').1 (hnext.new hkeys').2
      have hval := hm.reads hm.nested (ends_cons (Or.inl rfl) (keyText next.1 ++
        (jsonText formatG17 next.2 ++ (membersText formatG17 false members ++ 125 :: rest))))
      obtain ⟨hkey, hcolon, hvalue⟩ := start_member hm (jsonText formatG17 m.2 ++ comma ::
        (keyText next.1 ++ (jsonText formatG17 next.2 ++
          (membersText formatG17 false members ++ 125 :: rest))))
      rw [← hvalue] at hval
      rw [List.append_assoc] at hrest
      rw [htext]
      refine .nextMember hkey hcolon hval hnew rfl ?_
      rw [heq]
      exact hrest

theorem reads_of_token {val : JsonValue} (tok : JsonToken) (hvalue : tokenValue tok = some val)
    (htoken : ∀ {rest : CStr}, Ends rest →
      jsonTokenizerNext (jsonText formatG17 val ++ rest) = some (tok, rest)) :
    Reads formatG17 val := by
  intro depth rest _ hends
  rw [start_eq (htoken hends)]
  exact .token rfl hvalue

theorem numberText_integer {value : Double} {n : Nat} (hn : n < 10 ^ 15)
    (h : value.magnitude = some (n : ℚ)) :
    numberText formatG17 value = (if value.negative then [45] else []) ++ decimal n := by
  have hsmall : (n : ℚ) < 10 ^ 15 := by exact_mod_cast hn
  rw [numberText, h]
  dsimp only
  rw [if_pos ⟨Rat.den_natCast n, hsmall⟩, formatInteger, Rat.num_natCast, Int.natAbs_natCast]

theorem reads_number {value : Double} (h : OrdinaryNode (.number value)) :
    Reads formatG17 (.number value) := by
  obtain ⟨n, hn, hmagnitude⟩ := h
  have hvalue : value = ⟨value.negative, some (n : ℚ)⟩ := by rw [← hmagnitude]
  apply reads_of_token (.number value) rfl
  intro rest hends
  rw [jsonText, numberText_integer hn hmagnitude, jsonTokenizerNext_integer value.negative hn hends,
    ← hvalue]

theorem reads_string {s : CStr} (hzero : ∀ b ∈ s, b ≠ 0)
    (hlength : s.length < jsonMaxStringLen - 1) : Reads formatG17 (.string s) := by
  apply reads_of_token (.string s)
  · rw [tokenValue, ofBuffer_of_ne hzero]
  · intro rest _
    rw [jsonText, jsonTokenizerNext_string hlength]

theorem reads_array {items : List JsonValue} (h : ∀ val ∈ items, Reads formatG17 val) :
    Reads formatG17 (.array items) := by
  intro depth rest hnested _
  rw [nesting] at hnested
  have hdepth : depth ≤ jsonMaxDepth := by omega
  cases items with
  | nil => exact .emptyArray rfl hdepth rfl
  | cons val items =>
      have hinner : ∀ v ∈ val :: items, depth + 1 + nesting v ≤ jsonMaxDepth + 1 := by
        intro v hv
        have := nesting_le_itemsNesting hv
        omega
      have htext : jsonText formatG17 (.array (val :: items)) ++ rest = 91 ::
          (jsonText formatG17 val ++ (itemsText formatG17 false items ++ 93 :: rest)) := by
        simp [jsonText, itemsText, separator]
      rw [htext]
      refine .array rfl hdepth ?_
      apply parsed_items
      · intro v hv
        have hmem := List.mem_cons_of_mem val hv
        exact ⟨h v hmem, hinner v hmem⟩
      · exact h val List.mem_cons_self
      · exact hinner val List.mem_cons_self

theorem reads_object {members : List (CStr × JsonValue)}
    (h : ∀ m ∈ members, Reads formatG17 m.2) (hordinary : OrdinaryNode (.object members))
    (hreadable : ReadableNode (.object members)) : Reads formatG17 (.object members) := by
  intro depth rest hnested _
  rw [nesting] at hnested
  have hdepth : depth ≤ jsonMaxDepth := by omega
  cases members with
  | nil => exact .emptyObject rfl hdepth rfl
  | cons m members =>
      have hmember : ∀ m' ∈ m :: members, ReadsMember formatG17 depth m' := by
        intro m' hm'
        have := nesting_le_membersNesting hm'
        exact ⟨h m' hm', by omega, (hreadable m' hm').1, (hreadable m' hm').2, hordinary.2 m' hm'⟩
      have htext : jsonText formatG17 (.object (m :: members)) ++ rest = 123 ::
          (keyText m.1 ++ (jsonText formatG17 m.2 ++
            (membersText formatG17 false members ++ 125 :: rest))) := by
        simp [jsonText, membersText, separator]
      rw [htext]
      refine .object rfl hdepth ?_
      apply parsed_members
      · intro m' hm'
        exact hmember m' (List.mem_cons_of_mem m hm')
      · exact hmember m List.mem_cons_self
      · exact hordinary.1

/-- Every ordinary value that is readable is read back. -/
theorem reads_of_readable (val : JsonValue) (hordinary : Every OrdinaryNode val)
    (hreadable : Every ReadableNode val) : Reads formatG17 val := by
  induction val using valueInduction with
  | null => exact reads_of_token .null rfl jsonTokenizerNext_null
  | bool value =>
      cases value with
      | true => exact reads_of_token .true rfl jsonTokenizerNext_true
      | false => exact reads_of_token .false rfl jsonTokenizerNext_false
  | number value => exact reads_number hordinary
  | string s => exact reads_string hordinary hreadable
  | array items ih =>
      rw [Every, everyItem_iff] at hordinary hreadable
      exact reads_array fun val hval => ih val hval (hordinary.2 val hval) (hreadable.2 val hval)
  | object members ih =>
      rw [Every, everyMember_iff] at hordinary hreadable
      exact reads_object (fun m hm => ih m hm (hordinary.2 m hm) (hreadable.2 m hm))
        hordinary.1 hreadable.1

end

end MiniBackend.WebServer.Proofs.JsonReading
