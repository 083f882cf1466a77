import MiniBackend.Lib.Runs
import MiniBackend.Lib.SqlTokens
import MiniBackend.Framework.OrmCore

/-!
# The text of a query

The values of the conditions are put between apostrophes as they are, so they stay literals as
long as they have no apostrophe; of a long value 255 bytes are kept, and of the conditions the
first 32.  The names of the selected columns are written one over the other: the last one is
left.
-/

namespace MiniBackend.Framework.Proofs.QueryText

open MiniBackend.Lib MiniBackend.Lib.CString MiniBackend.Lib.Runs MiniBackend.Lib.SqlTokens
open MiniBackend.Framework.Orm

/-! ## Built queries -/

def Named : Op → Prop
  | .select cols => ∀ col ∈ cols, IdentifierLike col
  | .andWhere col _ _ | .orWhere col _ _ => IdentifierLike col
  | .join _ ta tb ca cb =>
      IdentifierLike ta ∧ IdentifierLike tb ∧ IdentifierLike ca ∧ IdentifierLike cb
  | .order col _ => IdentifierLike col
  | .limit _ _ => True

def Identifiers (table : CStr) (ops : List Op) : Prop :=
  IdentifierLike table ∧ ∀ op ∈ ops, Named op

def build (table : CStr) (ops : List Op) : ORMQuery := run step (ormQueryInit table) ops

/-- What the caller asks for: the columns of the last call that selects some, and the operators
and values of all conditions. -/
structure Asked where
  selected : Option (List CStr)
  conditions : List (ORMOp × CStr)
deriving DecidableEq

def ask (a : Asked) : Op → Asked
  | .select cols => { a with selected := some cols }
  | .andWhere _ op val | .orWhere _ op val =>
      { a with conditions := a.conditions ++ [(op, val)] }
  | .join .. | .order .. | .limit .. => a

def asked (ops : List Op) : Asked := run ask ⟨none, []⟩ ops

/-- The values that are to stand in the text; `IS NULL` takes none. -/
def Asked.values (a : Asked) : List CStr :=
  (a.conditions.filter (·.1 ≠ .isNull)).map Prod.snd

def Asked.selectTokens (a : Asked) : List Token :=
  match a.selected with
  | none => [.symbol 42]
  | some cols => (cols.map Token.word).intersperse (.symbol 44)

/-- The query without the values of its conditions. -/
def withoutValues (q : ORMQuery) : ORMQuery :=
  { q with conditions := q.conditions.map fun condition => { condition with value := [] } }

/-- The values that stand in the text. -/
def operands (q : ORMQuery) : List CStr :=
  (q.conditions.filter (·.op ≠ .isNull)).map ORMCondition.value

/-- The text lists what was selected, and each value is one literal that denotes it. -/
structure Faithful (a : Asked) (out : CStr) : Prop where
  columns : ∃ rest, sqlTokens out =
    some (.word (lit "SELECT") :: (a.selectTokens ++ .word (lit "FROM") :: rest))
  values : ∃ tokens, sqlTokens out = some tokens ∧ literals tokens = a.values

/-- One column, with a name that fits, or all of them are selected, no condition behind the
32nd has a value, and every value has at most 255 bytes and no apostrophe. -/
structure Keeps (a : Asked) : Prop where
  column : ∀ cols ∈ a.selected, ∃ col, cols = [col] ∧ col.length < ormMaxColumnName
  conditions : ∀ condition ∈ a.conditions.drop ormMaxColumns, condition.1 = .isNull
  values : ∀ value ∈ a.values, value.length ≤ 255 ∧ 39 ∉ value

/-- The texts have the same tokens up to the contents of literals. -/
def SameStructure (out out' : CStr) : Prop :=
  (sqlTokens out').map (List.map Token.shape) = (sqlTokens out).map (List.map Token.shape)

/-! ## Names -/

structure WellNamed (q : ORMQuery) : Prop where
  table : IdentifierLike q.table
  columns : ∀ col ∈ q.columns, IdentifierLike col
  conditions : ∀ condition ∈ q.conditions, IdentifierLike condition.column
  joins : ∀ join ∈ q.joins, IdentifierLike join.tableA ∧ IdentifierLike join.tableB ∧
    IdentifierLike join.colA ∧ IdentifierLike join.colB
  orderBy : q.orderBy = [] ∨ IdentifierLike q.orderBy

theorem WellNamed.addCondition {q : ORMQuery} (h : WellNamed q) {col : CStr}
    (hcol : IdentifierLike col) (isOr : Bool) (op : ORMOp) (val : CStr) :
    WellNamed (addCondition q isOr col op val) := by
  rw [Orm.addCondition]
  split
  · exact h
  · refine ⟨h.table, h.columns, fun condition hcondition => ?_, h.joins, h.orderBy⟩
    rcases List.mem_append.mp hcondition with hcondition | hcondition
    · exact h.conditions condition hcondition
    · rw [List.mem_singleton.mp hcondition]
      exact hcol.strncpy (by decide)

theorem WellNamed.step {q : ORMQuery} (h : WellNamed q) {op : Op} (hop : Named op) :
    WellNamed (step q op) := by
  cases op with
  | select cols =>
      refine ⟨h.table, fun col hcol => ?_, h.conditions, h.joins, h.orderBy⟩
      obtain ⟨col', hcol', rfl⟩ := List.mem_map.mp hcol
      exact (hop col' (List.mem_of_mem_take hcol')).strncpy (by decide)
  | andWhere col op val => exact h.addCondition hop false op val
  | orWhere col op val => exact h.addCondition hop true op val
  | join type ta tb ca cb =>
      rw [Orm.step, ormQueryJoin]
      split
      · exact h
      · refine ⟨h.table, h.columns, h.conditions, fun join hjoin => ?_, h.orderBy⟩
        rcases List.mem_append.mp hjoin with hjoin | hjoin
        · exact h.joins join hjoin
        · obtain ⟨hta, htb, hca, hcb⟩ := hop
          rw [List.mem_singleton.mp hjoin]
          exact ⟨hta.strncpy (by decide), htb.strncpy (by decide), hca.strncpy (by decide),
            hcb.strncpy (by decide)⟩
  | order col dir =>
      have hcol : IdentifierLike col := hop
      exact ⟨h.table, h.columns, h.conditions, h.joins, .inr (hcol.strncpy (by decide))⟩
  | limit limit offset => exact ⟨h.table, h.columns, h.conditions, h.joins, h.orderBy⟩

theorem Identifiers.wellNamed {table : CStr} {ops : List Op} (h : Identifiers table ops) :
    WellNamed (build table ops) := by
  have hinit : WellNamed (ormQueryInit table) :=
    ⟨h.1.strncpy (by decide), by simp [ormQueryInit], by simp [ormQueryInit],
      by simp [ormQueryInit], .inl rfl⟩
  exact run_invariant Orm.step (fun q op h hop => h.step hop) hinit
    (always_of_forall Orm.step (fun _ _ hop => hop) h.2 _)

/-! ## What is stored of what was asked for -/

structure Stores (q : ORMQuery) (a : Asked) : Prop where
  selectAll : q.selectAll = a.selected.isNone
  columns : q.columns = ((a.selected.getD []).take ormMaxColumns).map
    fun col => strncpy col (ormMaxColumnName - 1)
  conditions : q.conditions.map (fun condition => (condition.op, condition.value)) =
    (a.conditions.take ormMaxColumns).map fun condition => (condition.1, strncpy condition.2 255)

theorem Stores.addCondition {q : ORMQuery} {a : Asked} (h : Stores q a) (isOr : Bool) (col : CStr)
    (op : ORMOp) (val : CStr) :
    Stores (addCondition q isOr col op val)
      { a with conditions := a.conditions ++ [(op, val)] } := by
  have hlength := congrArg List.length h.conditions
  rw [List.length_map, List.length_map, List.length_take] at hlength
  rw [Orm.addCondition]
  split
  next hfull =>
    refine ⟨h.selectAll, h.columns, ?_⟩
    rw [h.conditions, List.take_append_of_le_length (by omega)]
  next hroom =>
    refine ⟨h.selectAll, h.columns, ?_⟩
    have hshort : a.conditions.length < ormMaxColumns := by omega
    have hall : a.conditions.take ormMaxColumns = a.conditions :=
      List.take_of_length_le hshort.le
    have hmore : (a.conditions ++ [(op, val)]).take ormMaxColumns =
        a.conditions ++ [(op, val)] := by
      apply List.take_of_length_le
      rw [List.length_append]
      exact hshort
    rw [List.map_append, h.conditions, hall, hmore, List.map_append]
    rfl

theorem stores_step (q : ORMQuery) (a : Asked) (op : Op) (h : Stores q a) :
    Stores (step q op) (ask a op) := by
  cases op with
  | select cols => exact ⟨rfl, rfl, h.conditions⟩
  | andWhere col op val => exact h.addCondition false col op val
  | orWhere col op val => exact h.addCondition true col op val
  | join type ta tb ca cb =>
      rw [Orm.step, ormQueryJoin]
      split
      · exact h
      · exact ⟨h.selectAll, h.columns, h.conditions⟩
  | order col dir => exact ⟨h.selectAll, h.columns, h.conditions⟩
  | limit limit offset => exact ⟨h.selectAll, h.columns, h.conditions⟩

theorem stores_build (table : CStr) (ops : List Op) : Stores (build table ops) (asked ops) :=
  run_related step stores_step ⟨rfl, rfl, rfl⟩ ops

/-- The values of the conditions that are stored. -/
def Asked.storedValues (a : Asked) : List CStr :=
  ((a.conditions.take ormMaxColumns).filter (·.1 ≠ .isNull)).map Prod.snd

theorem Asked.values_eq (a : Asked) :
    a.values = a.storedValues ++
      ((a.conditions.drop ormMaxColumns).filter (·.1 ≠ .isNull)).map Prod.snd := by
  rw [Asked.values, storedValues, ← List.map_append, ← List.filter_append,
    List.take_append_drop]

theorem Stores.operands_eq {q : ORMQuery} {a : Asked} (h : Stores q a) :
    operands q = a.storedValues.map (List.take 255) := by
  have hoperands : operands q = ((q.conditions.map fun condition =>
      (condition.op, condition.value)).filter (·.1 ≠ .isNull)).map Prod.snd := by
    rw [List.filter_map, List.map_map]
    rfl
  rw [hoperands, h.conditions, List.filter_map, List.map_map, Asked.storedValues, List.map_map]
  rfl

theorem Stores.operands_eq_take {q : ORMQuery} {a : Asked} (h : Stores q a) :
    operands q = (a.values.take a.storedValues.length).map (List.take 255) := by
  rw [h.operands_eq, a.values_eq, List.take_left]

theorem Stores.operands_eq_values_iff {q : ORMQuery} {a : Asked} (h : Stores q a) :
    operands q = a.values ↔
      (∀ condition ∈ a.conditions.drop ormMaxColumns, condition.1 = .isNull) ∧
        ∀ value ∈ a.values, value.length ≤ 255 := by
  have hnone : ((a.conditions.drop ormMaxColumns).filter (·.1 ≠ .isNull)).map Prod.snd = [] ↔
      ∀ condition ∈ a.conditions.drop ormMaxColumns, condition.1 = .isNull := by
    simp [List.filter_eq_nil_iff]
  have hwhole : a.storedValues.map (List.take 255) = a.storedValues ↔
      ∀ value ∈ a.storedValues, value.length ≤ 255 := by
    have hmap := @List.map_inj_left CStr CStr a.storedValues (List.take 255) id
    rw [List.map_id] at hmap
    exact hmap.trans (forall₂_congr fun value _ => List.take_eq_self_iff value)
  rw [h.operands_eq, ← hnone]
  constructor
  · intro heq
    have hlength := congrArg List.length heq
    rw [a.values_eq, List.length_map, List.length_append] at hlength
    have hnil := List.eq_nil_of_length_eq_zero (Nat.left_eq_add.mp hlength)
    rw [a.values_eq, hnil, List.append_nil] at heq ⊢
    exact ⟨rfl, hwhole.mp heq⟩
  · rintro ⟨hnil, hshort⟩
    rw [a.values_eq, hnil, List.append_nil] at hshort ⊢
    exact hwhole.mpr hshort

/-! ## The pieces of the text -/

def conditionPieces (first : Bool) (condition : ORMCondition) : List Piece :=
  if condition.op = .isNull then
    [.plain (connector first condition ++ condition.column ++ lit " IS NULL ")]
  else
    [.plain (connector first condition ++ condition.column ++ lit " " ++
      ormOpString condition.op ++ lit " "), .value condition.value]

def conditionsPieces : Bool → List ORMCondition → List Piece
  | _, [] => []
  | first, condition :: conditions =>
      conditionPieces first condition ++ conditionsPieces false conditions

def wherePieces (q : ORMQuery) : List Piece :=
  if q.conditions.isEmpty then [] else .plain (lit " WHERE ") :: conditionsPieces true q.conditions

def orderPieces (q : ORMQuery) : List Piece :=
  if q.orderBy = [] then []
  else [.plain (lit "ORDER BY " ++ q.orderBy ++ lit " " ++
    (if q.orderDir = .asc then lit "ASC" else lit "DESC") ++ lit " ")]

def limitPieces (q : ORMQuery) : List Piece :=
  if 0 ≤ q.limitVal.toInt then
    [.plain (lit "LIMIT " ++ decimalInt q.limitVal.toInt ++ lit " OFFSET " ++
      decimalInt q.offsetVal.toInt)]
  else []

def tailPieces (q : ORMQuery) : List Piece :=
  q.joins.map (fun join => .plain (joinText join)) ++ wherePieces q
    ++ orderPieces q ++ limitPieces q

def queryPieces (q : ORMQuery) (list : CStr) : List Piece :=
  .plain (lit "SELECT ") :: .plain list :: .plain (lit "FROM " ++ q.table) :: tailPieces q

theorem contents_conditionsPieces (first : Bool) (conditions : List ORMCondition) :
    contents (conditionsPieces first conditions) =
      (conditions.filter (·.op ≠ .isNull)).map ORMCondition.value := by
  induction conditions generalizing first with
  | nil => rfl
  | cons condition conditions ih =>
      rw [conditionsPieces, contents_append, ih, conditionPieces]
      by_cases hop : condition.op = .isNull
      · simp [hop, contents]
      · simp [hop, contents]

theorem contents_queryPieces (q : ORMQuery) (list : CStr) :
    contents (queryPieces q list) = operands q := by
  have hjoins : contents (q.joins.map fun join => Piece.plain (joinText join)) = [] := by
    rw [contents, List.filterMap_map]
    exact List.filterMap_eq_nil_iff.mpr fun _ _ => rfl
  have hwhere : contents (wherePieces q) = operands q := by
    rw [wherePieces, operands]
    split
    · next hempty => rw [List.isEmpty_iff.mp hempty]; rfl
    · rw [contents_cons_plain, contents_conditionsPieces]
  have horder : contents (orderPieces q) = [] := by
    rw [orderPieces]
    split <;> rfl
  have hlimit : contents (limitPieces q) = [] := by
    rw [limitPieces]
    split <;> rfl
  simp only [queryPieces, tailPieces, contents_cons_plain, contents_append, hjoins, hwhere, horder,
    hlimit, List.nil_append, List.append_nil]

theorem plainParts_conditionsPieces {conditions : List ORMCondition}
    (hnames : ∀ condition ∈ conditions, IdentifierLike condition.column) (first : Bool) :
    PlainParts (conditionsPieces first conditions) := by
  induction conditions generalizing first with
  | nil => exact fun text htext => absurd htext List.not_mem_nil
  | cons condition conditions ih =>
      obtain ⟨hcolumn, hnames⟩ := List.forall_mem_cons.mp hnames
      refine plainParts_append (fun text htext => ?_) (ih hnames false)
      have hconnector : 39 ∉ connector first condition := by
        rw [connector]
        split
        · exact List.not_mem_nil
        · split
          · decide
          · decide
      have hop : 39 ∉ ormOpString condition.op := by
        cases condition.op <;> decide
      have hblank : 39 ∉ lit " " := by decide
      have hnull : 39 ∉ lit " IS NULL " := by decide
      rw [conditionPieces] at htext
      split at htext
      · obtain rfl := Piece.plain.inj (List.mem_singleton.mp htext)
        simp only [List.mem_append, not_or]
        exact ⟨⟨hconnector, hcolumn.apostrophe_not_mem⟩, hnull⟩
      · rcases List.mem_cons.mp htext with heq | htext
        · obtain rfl := Piece.plain.inj heq
          simp only [List.mem_append, not_or]
          exact ⟨⟨⟨⟨hconnector, hcolumn.apostrophe_not_mem⟩, hblank⟩, hop⟩, hblank⟩
        · exact absurd (List.mem_singleton.mp htext) (by simp)

theorem plainParts_queryPieces {q : ORMQuery} (h : WellNamed q) {list : CStr} (hlist : 39 ∉ list) :
    PlainParts (queryPieces q list) := by
  have hdecimal : ∀ z, 39 ∉ decimalInt z := by
    intro z hmem
    rcases isDigit_of_mem_decimalInt hmem with heq | hdigit
    · exact absurd heq (by decide)
    · exact absurd hdigit (by decide)
  have hsingle : ∀ {text : CStr}, 39 ∉ text → PlainParts [.plain text] := by
    intro text htext other hother
    obtain rfl := Piece.plain.inj (List.mem_singleton.mp hother)
    exact htext
  have hnil : PlainParts [] := fun text htext => absurd htext List.not_mem_nil
  have hjoins : PlainParts (q.joins.map fun join => Piece.plain (joinText join)) := by
    intro text htext
    obtain ⟨join, hjoin, heq⟩ := List.mem_map.mp htext
    obtain rfl := Piece.plain.inj heq
    obtain ⟨hta, htb, hca, hcb⟩ := h.joins join hjoin
    have htype : 39 ∉ ormJoinString join.type := by
      cases join.type <;> decide
    have h1 : 39 ∉ lit " " := by decide
    have h2 : 39 ∉ lit " ON " := by decide
    have h3 : 39 ∉ lit "." := by decide
    have h4 : 39 ∉ lit " = " := by decide
    simp only [joinText, List.mem_append, not_or]
    simp only [h1, h2, h3, h4, htype, hta.apostrophe_not_mem, htb.apostrophe_not_mem,
      hca.apostrophe_not_mem, hcb.apostrophe_not_mem, not_false_eq_true, and_self]
  have hwhere : PlainParts (wherePieces q) := by
    rw [wherePieces]
    split
    · exact hnil
    · have hword : 39 ∉ lit " WHERE " := by decide
      exact plainParts_append (hsingle hword) (plainParts_conditionsPieces h.conditions true)
  have horder : PlainParts (orderPieces q) := by
    rw [orderPieces]
    split
    · exact hnil
    · next hne =>
        have hname := (h.orderBy.resolve_left hne).apostrophe_not_mem
        have h1 : 39 ∉ lit "ORDER BY " := by decide
        have h2 : 39 ∉ lit " " := by decide
        have h3 : 39 ∉ (if q.orderDir = .asc then lit "ASC" else lit "DESC") := by
          split
          · decide
          · decide
        refine hsingle ?_
        simp only [List.mem_append, not_or]
        exact ⟨⟨⟨⟨h1, hname⟩, h2⟩, h3⟩, h2⟩
  have hlimit : PlainParts (limitPieces q) := by
    rw [limitPieces]
    split
    · have h1 : 39 ∉ lit "LIMIT " := by decide
      have h2 : 39 ∉ lit " OFFSET " := by decide
      refine hsingle ?_
      simp only [List.mem_append, not_or]
      exact ⟨⟨⟨h1, hdecimal _⟩, h2⟩, hdecimal _⟩
    · exact hnil
  have hselect : 39 ∉ lit "SELECT " := by decide
  have hfrom : 39 ∉ lit "FROM " ++ q.table := by
    have hword : 39 ∉ lit "FROM " := by decide
    rw [List.mem_append, not_or]
    exact ⟨hword, h.table.apostrophe_not_mem⟩
  have htail := plainParts_append
    (plainParts_append (plainParts_append hjoins hwhere) horder) hlimit
  exact plainParts_append (hsingle hselect)
    (plainParts_append (hsingle hlist) (plainParts_append (hsingle hfrom) htail))

theorem map_blank_queryPieces (q : ORMQuery) (list : CStr) :
    (queryPieces q list).map Piece.blank = queryPieces (withoutValues q) list := by
  have hconditions : ∀ (conditions : List ORMCondition) first,
      (conditionsPieces first conditions).map Piece.blank =
        conditionsPieces first
          (conditions.map fun condition => { condition with value := [] }) := by
    intro conditions
    induction conditions with
    | nil => exact fun _ => rfl
    | cons condition conditions ih =>
        intro first
        rw [List.map_cons, conditionsPieces, conditionsPieces, List.map_append, ih]
        congr 1
        rw [conditionPieces, conditionPieces]
        by_cases hop : condition.op = .isNull
        · simp [hop, Piece.blank, connector]
        · simp [hop, Piece.blank, connector]
  have hwhere : (wherePieces q).map Piece.blank = wherePieces (withoutValues q) := by
    rw [wherePieces, wherePieces]
    cases hempty : q.conditions.isEmpty with
    | true => simp [withoutValues, List.isEmpty_iff.mp hempty]
    | false =>
        have hempty' : (withoutValues q).conditions.isEmpty = false := by
          simpa [withoutValues] using hempty
        rw [hempty', if_neg (by simp), if_neg (by simp), List.map_cons, hconditions]
        rfl
  have horder : (orderPieces q).map Piece.blank = orderPieces (withoutValues q) := by
    rw [orderPieces, apply_ite (List.map Piece.blank)]
    rfl
  have hlimit : (limitPieces q).map Piece.blank = limitPieces (withoutValues q) := by
    rw [limitPieces, apply_ite (List.map Piece.blank)]
    rfl
  have hjoins : (q.joins.map fun join => Piece.plain (joinText join)).map Piece.blank =
      (withoutValues q).joins.map fun join => Piece.plain (joinText join) := by
    rw [List.map_map]
    rfl
  rw [queryPieces, queryPieces, tailPieces, tailPieces]
  simp only [List.map_cons, List.map_append, hjoins, hwhere, horder, hlimit]
  rfl

/-! ## What is generated -/

section Print

variable {maxLen : Nat} {R : TextBuffer → CStr → Prop}
variable (hprint : ∀ out out' text piece, R out text → out.printAll maxLen piece = some out' →
  R out' (text ++ piece))

include hprint

theorem printJoins_keeps {joins : List ORMJoin} {out out' : TextBuffer} {text : CStr}
    (h : R out text) (hrun : printJoins maxLen joins out = some out') :
    R out' (text ++ piecesText (joins.map fun join => .plain (joinText join))) := by
  induction joins generalizing out text with
  | nil =>
      obtain rfl := Option.some.inj hrun
      rwa [List.map_nil, piecesText_nil, List.append_nil]
  | cons join joins ih =>
      obtain ⟨out₁, hjoin, hrest⟩ := Option.bind_eq_some_iff.mp hrun
      have hfinal := ih (hprint _ _ _ _ h hjoin) hrest
      rwa [List.append_assoc] at hfinal

theorem printConditions_keeps {conditions : List ORMCondition} {first : Bool}
    {out out' : TextBuffer} {text : CStr} (h : R out text)
    (hrun : printConditions maxLen first conditions out = some out') :
    R out' (text ++ piecesText (conditionsPieces first conditions)) := by
  induction conditions generalizing first out text with
  | nil =>
      obtain rfl := Option.some.inj hrun
      rwa [conditionsPieces, piecesText_nil, List.append_nil]
  | cons condition conditions ih =>
      obtain ⟨out₁, hcondition, hrest⟩ := Option.bind_eq_some_iff.mp hrun
      have hpieces : piecesText (conditionPieces first condition) =
          conditionText first condition := by
        rw [conditionPieces, conditionText]
        split
        · simp [Piece.text]
        · simp [Piece.text, lit]
      have hfinal := ih (hprint _ _ _ _ h hcondition) hrest
      rwa [List.append_assoc, ← hpieces, ← piecesText_append] at hfinal

theorem printTail_keeps {q : ORMQuery} {out out₁ out₂ out₃ out₄ : TextBuffer} {text : CStr}
    (h : R out text) (hjoins : printJoins maxLen q.joins out = some out₁)
    (hwhere : printWhere q maxLen out₁ = some out₂) (horder : printOrder q maxLen out₂ = some out₃)
    (hlimit : printLimit q maxLen out₃ = some out₄) :
    R out₄ (text ++ piecesText (tailPieces q)) := by
  have h₁ := printJoins_keeps hprint h hjoins
  have h₂ : R out₂ (text ++ piecesText (q.joins.map fun join => .plain (joinText join)) ++
      piecesText (wherePieces q)) := by
    rw [printWhere] at hwhere
    rw [wherePieces]
    split at hwhere
    · next hempty =>
        obtain rfl := Option.some.inj hwhere
        rwa [if_pos hempty, piecesText_nil, List.append_nil]
    · next hempty =>
        obtain ⟨out', hword, hconditions⟩ := Option.bind_eq_some_iff.mp hwhere
        have hfinal := printConditions_keeps hprint (hprint _ _ _ _ h₁ hword) hconditions
        rwa [if_neg hempty, piecesText_cons, ← List.append_assoc]
  have h₃ : R out₃ (text ++ piecesText (q.joins.map fun join => .plain (joinText join)) ++
      piecesText (wherePieces q) ++ piecesText (orderPieces q)) := by
    rw [printOrder] at horder
    rw [orderPieces]
    split at horder
    · next hempty =>
        obtain rfl := Option.some.inj horder
        rwa [if_pos hempty, piecesText_nil, List.append_nil]
    · next hempty =>
        have hfinal := hprint _ _ _ _ h₂ horder
        rwa [if_neg hempty, piecesText_cons, piecesText_nil, List.append_nil]
  have h₄ : R out₄ (text ++ piecesText (q.joins.map fun join => .plain (joinText join)) ++
      piecesText (wherePieces q) ++ piecesText (orderPieces q) ++ piecesText (limitPieces q)) := by
    rw [printLimit] at hlimit
    rw [limitPieces]
    split at hlimit
    · next hpos =>
        have hfinal := hprint _ _ _ _ h₃ hlimit
        rwa [if_pos hpos, piecesText_cons, piecesText_nil, List.append_nil]
    · next hneg =>
        obtain rfl := Option.some.inj hlimit
        rwa [if_neg hneg, piecesText_nil, List.append_nil]
  rw [tailPieces, piecesText_append, piecesText_append, piecesText_append, ← List.append_assoc,
    ← List.append_assoc, ← List.append_assoc]
  exact h₄

end Print

def listText (q : ORMQuery) : CStr :=
  if q.selectAll then lit "* " else (q.columns.getLast?.getD []) ++ lit " "

theorem put_of_prefix {maxLen : Nat} {out : TextBuffer} {text : CStr}
    (hpos : out.pos = text.length) (hlt : text.length < maxLen) (hcut : text <+: out.text)
    (piece : CStr) :
    out.put maxLen piece = ⟨text.length, text ++ snprintf piece (maxLen - text.length)⟩ := by
  have hroom : out.pos ≤ out.text.length ∧ out.pos < maxLen := by
    rw [hpos]
    exact ⟨hcut.length_le, hlt⟩
  rw [TextBuffer.put, if_pos hroom, hpos, List.prefix_iff_eq_take.mp hcut]
  simp

theorem columnsLoop_eq {maxLen : Nat} {text : CStr} (hlt : text.length < maxLen)
    {cols : List CStr} (hne : cols ≠ []) {out : TextBuffer} (hpos : out.pos = text.length)
    (hcut : text <+: out.text) (written : Nat) :
    columnsLoop maxLen cols out written =
      (⟨text.length, text ++ snprintf (cols.getLast hne ++ lit " ") (maxLen - text.length)⟩,
        (cols.getLast hne ++ lit " ").length) := by
  induction cols generalizing out written with
  | nil => exact absurd rfl hne
  | cons col cols ih =>
      rw [columnsLoop, put_of_prefix hpos hlt hcut]
      cases cols with
      | nil => rfl
      | cons col' cols =>
          rw [ih (List.cons_ne_nil _ _) rfl (List.prefix_append _ _),
            List.getLast_cons (List.cons_ne_nil _ _)]

theorem printColumns_holds {q : ORMQuery} (hlist : q.selectAll = true ∨ q.columns ≠ [])
    {maxLen : Nat} {out out' : TextBuffer} {text : CStr}
    (h : out.Holds maxLen text ∧ text.length < maxLen)
    (hrun : printColumns q maxLen out = some out') :
    out'.Holds maxLen (text ++ listText q) ∧ (text ++ listText q).length < maxLen := by
  obtain ⟨hholds, hlt⟩ := h
  have htext := hholds.text_eq hlt
  rw [printColumns] at hrun
  dsimp only at hrun
  rw [listText]
  by_cases hall : q.selectAll = true
  · rw [if_pos hall] at hrun ⊢
    have hprint : out.printAll maxLen (lit "* ") = some out' := hrun
    exact hholds.printAll hprint
  · have hne := hlist.resolve_left hall
    rw [if_neg hall, columnsLoop_eq hlt hne hholds.pos_eq (by rw [htext])] at hrun
    rw [if_neg hall, List.getLast?_eq_some_getLast hne, Option.getD_some]
    dsimp only at hrun
    split at hrun
    · exact absurd hrun (by simp)
    · next hroom =>
        obtain rfl := Option.some.inj hrun
        rw [hholds.pos_eq] at hroom
        refine ⟨⟨?_, fun _ => ?_⟩, ?_⟩
        · simp only [hholds.pos_eq, List.length_append]
        · dsimp only
          rw [snprintf_of_lt (by omega)]
        · rw [List.length_append]
          omega

theorem ormQueryGenerate_eq {q : ORMQuery} (hlist : q.selectAll = true ∨ q.columns ≠ [])
    {maxLen : Nat} {out : TextBuffer} (hout : ormQueryGenerate q maxLen = some out) :
    out.text = piecesText (queryPieces q (listText q)) := by
  obtain ⟨out₁, hselect, hout⟩ := Option.bind_eq_some_iff.mp hout
  obtain ⟨out₂, hcolumns, hout⟩ := Option.bind_eq_some_iff.mp hout
  obtain ⟨out₃, hfrom, hout⟩ := Option.bind_eq_some_iff.mp hout
  obtain ⟨out₄, hjoins, hout⟩ := Option.bind_eq_some_iff.mp hout
  obtain ⟨out₅, hwhere, hout⟩ := Option.bind_eq_some_iff.mp hout
  obtain ⟨out₆, horder, hlimit⟩ := Option.bind_eq_some_iff.mp hout
  have h₂ := printColumns_holds hlist ((TextBuffer.holds_empty maxLen).printAll hselect) hcolumns
  have hfinal := printTail_keeps
    (R := fun out text => out.Holds maxLen text ∧ text.length < maxLen)
    (fun _ _ _ _ h hprint => h.1.printAll hprint) (h₂.1.printAll hfrom) hjoins hwhere horder hlimit
  rw [hfinal.1.text_eq hfinal.2, queryPieces]
  simp [Piece.text]

/-- Without a column, what follows is written behind the end of the string. -/
theorem ormQueryGenerate_nil {q : ORMQuery} (hall : q.selectAll = false) (hcols : q.columns = [])
    {maxLen : Nat} {out : TextBuffer} (hout : ormQueryGenerate q maxLen = some out) :
    out.text = lit "SELECT " := by
  obtain ⟨out₁, hselect, hout⟩ := Option.bind_eq_some_iff.mp hout
  obtain ⟨out₂, hcolumns, hout⟩ := Option.bind_eq_some_iff.mp hout
  obtain ⟨out₃, hfrom, hout⟩ := Option.bind_eq_some_iff.mp hout
  obtain ⟨out₄, hjoins, hout⟩ := Option.bind_eq_some_iff.mp hout
  obtain ⟨out₅, hwhere, hout⟩ := Option.bind_eq_some_iff.mp hout
  obtain ⟨out₆, horder, hlimit⟩ := Option.bind_eq_some_iff.mp hout
  obtain ⟨hholds, hlt⟩ := (TextBuffer.holds_empty maxLen).printAll hselect
  have htext : out₁.text = lit "SELECT " := hholds.text_eq hlt
  have h₂ : out₂.text = lit "SELECT " ∧ out₂.text.length < out₂.pos := by
    simp only [printColumns, hall, hcols, columnsLoop, Bool.false_eq_true, if_false] at hcolumns
    split at hcolumns
    · exact absurd hcolumns (by simp)
    · obtain rfl := Option.some.inj hcolumns
      have hlen : (lit "SELECT ").length = 7 := by decide
      have hpos : out₁.pos = 7 := hholds.pos_eq
      simp [htext, hlen, hpos]
  have hstep : ∀ (out out' : TextBuffer) (text : CStr) piece,
      out.text = lit "SELECT " ∧ out.text.length < out.pos →
      out.printAll maxLen piece = some out' →
      out'.text = lit "SELECT " ∧ out'.text.length < out'.pos := by
    intro out out' _ piece h hprint
    obtain ⟨heq, hbehind⟩ := TextBuffer.printAll_behind h.2 hprint
    exact ⟨heq.trans h.1, hbehind⟩
  exact (@printTail_keeps maxLen _ hstep q _ _ _ _ _ [] (hstep _ _ [] _ h₂ hfrom) hjoins hwhere
    horder hlimit).1

/-! ## The tokens at the start of the text -/

theorem scanAll_select : scanAll (lit "SELECT ") (.gap, []) = (.gap, [.word (lit "SELECT")]) := by
  have hname : IdentifierLike (lit "SELECT") := by decide +kernel
  exact scanAll_name hname

theorem scanAll_star : scanAll (lit "* ") (.gap, []) = (.gap, [.symbol 42]) := by decide

theorem sqlTokens_queryPieces (q : ORMQuery) {list : CStr} {listed : List Token}
    (hlist : scanAll list (.gap, []) = (.gap, listed)) :
    sqlTokens (piecesText (queryPieces q list)) =
      (sqlTokens (q.table ++ piecesText (tailPieces q))).map fun rest =>
        .word (lit "SELECT") :: (listed ++ .word (lit "FROM") :: rest) := by
  have hname : IdentifierLike (lit "FROM") := by decide +kernel
  have hfrom : scanAll (lit "FROM ") (.gap, []) = (.gap, [.word (lit "FROM")]) := scanAll_name hname
  rw [queryPieces, piecesText_cons, piecesText_cons, piecesText_cons, Piece.text, Piece.text,
    Piece.text, sqlTokens_append scanAll_select, sqlTokens_append hlist, List.append_assoc,
    sqlTokens_append hfrom, Option.map_map, Option.map_map]
  rfl

def listed (q : ORMQuery) : List Token :=
  if q.selectAll then [.symbol 42] else [.word (q.columns.getLast?.getD [])]

theorem scanAll_listText {q : ORMQuery} (h : WellNamed q)
    (hlist : q.selectAll = true ∨ q.columns ≠ []) :
    scanAll (listText q) (.gap, []) = (.gap, listed q) := by
  rw [listText, listed]
  by_cases hall : q.selectAll = true
  · rw [if_pos hall, if_pos hall]
    exact scanAll_star
  · have hne := hlist.resolve_left hall
    rw [if_neg hall, if_neg hall, List.getLast?_eq_some_getLast hne, Option.getD_some]
    exact scanAll_name (h.columns _ (List.getLast_mem hne))

theorem listed_eq_iff {q : ORMQuery} {a : Asked} (h : Stores q a)
    (hlist : q.selectAll = true ∨ q.columns ≠ []) {rest rest' : List Token} :
    listed q ++ .word (lit "FROM") :: rest = a.selectTokens ++ .word (lit "FROM") :: rest' ↔
      (∀ cols ∈ a.selected, ∃ col, cols = [col] ∧ col.length < ormMaxColumnName) ∧
        rest = rest' := by
  rw [listed, Asked.selectTokens, h.selectAll]
  have hcolumns := h.columns
  rw [h.selectAll] at hlist
  match hselected : a.selected with
  | none => simp
  | some [] => simp [hselected, hcolumns] at hlist
  | some [col] =>
      rw [hselected] at hcolumns
      have hcut : strncpy col (ormMaxColumnName - 1) = col ↔ col.length < ormMaxColumnName := by
        rw [strncpy, List.take_eq_self_iff]
        exact Nat.le_sub_one_iff_lt (by decide)
      simpa [hcolumns, ormMaxColumns] using fun _ => hcut
  | some (col :: col' :: cols) => simp

/-! ## Main results -/

theorem plainParts_listed {q : ORMQuery} (h : WellNamed q)
    (hlist : q.selectAll = true ∨ q.columns ≠ []) : PlainParts (queryPieces q (listText q)) := by
  apply plainParts_queryPieces h
  have hstar : 39 ∉ lit "* " := by decide
  have hblank : 39 ∉ lit " " := by decide
  rw [listText]
  by_cases hall : q.selectAll = true
  · rwa [if_pos hall]
  · have hne := hlist.resolve_left hall
    rw [if_neg hall, List.getLast?_eq_some_getLast hne, Option.getD_some, List.mem_append, not_or]
    exact ⟨(h.columns _ (List.getLast_mem hne)).apostrophe_not_mem, hblank⟩

theorem faithful_iff_of_list {q : ORMQuery} {a : Asked} (h : WellNamed q) (hstores : Stores q a)
    (hlist : q.selectAll = true ∨ q.columns ≠ []) :
    Faithful a (piecesText (queryPieces q (listText q))) ↔ Keeps a := by
  have hvalues : (∃ tokens, sqlTokens (piecesText (queryPieces q (listText q))) = some tokens ∧
      literals tokens = a.values) ↔ operands q = a.values ∧ ∀ value ∈ a.values, 39 ∉ value := by
    have hcut := (contents_queryPieces q (listText q)).trans hstores.operands_eq_take
    rw [literals_piecesText_iff (plainParts_listed h hlist) hcut, contents_queryPieces]
  have htokens := sqlTokens_queryPieces q (scanAll_listText h hlist)
  constructor
  · intro hfaithful
    obtain ⟨hall, hquotes⟩ := hvalues.mp hfaithful.values
    obtain ⟨hconditions, hshort⟩ := hstores.operands_eq_values_iff.mp hall
    refine ⟨?_, hconditions, fun value hvalue => ⟨hshort value hvalue, hquotes value hvalue⟩⟩
    obtain ⟨rest, hcolumns⟩ := hfaithful.columns
    rw [htokens] at hcolumns
    obtain ⟨rest', -, heq⟩ := Option.map_eq_some_iff.mp hcolumns
    exact ((listed_eq_iff hstores hlist).mp (List.cons.inj heq).2).1
  · intro hkeeps
    have hall := hstores.operands_eq_values_iff.mpr
      ⟨hkeeps.conditions, fun value hvalue => (hkeeps.values value hvalue).1⟩
    have hliterals := hvalues.mpr ⟨hall, fun value hvalue => (hkeeps.values value hvalue).2⟩
    refine ⟨?_, hliterals⟩
    obtain ⟨tokens, hsome, -⟩ := hliterals
    rw [htokens] at hsome ⊢
    obtain ⟨rest, hrest, -⟩ := Option.map_eq_some_iff.mp hsome
    rw [hrest, Option.map_some, (listed_eq_iff hstores hlist).mpr ⟨hkeeps.column, rfl⟩]
    exact ⟨rest, rfl⟩

theorem faithful_iff {q : ORMQuery} {a : Asked} (h : WellNamed q) (hstores : Stores q a)
    {maxLen : Nat} {out : TextBuffer} (hout : ormQueryGenerate q maxLen = some out) :
    Faithful a out.text ↔ Keeps a := by
  by_cases hlist : q.selectAll = true ∨ q.columns ≠ []
  · rw [ormQueryGenerate_eq hlist hout]
    exact faithful_iff_of_list h hstores hlist
  · rw [not_or, not_not, Bool.not_eq_true] at hlist
    obtain ⟨hall, hcols⟩ := hlist
    rw [ormQueryGenerate_nil hall hcols hout]
    constructor
    · intro hfaithful
      obtain ⟨rest, hcolumns⟩ := hfaithful.columns
      have hselect : sqlTokens (lit "SELECT ") = some [.word (lit "SELECT")] := by decide
      rw [hselect, Option.some.injEq, List.cons.injEq] at hcolumns
      exact absurd hcolumns.2.symm (by simp)
    · intro hkeeps
      have hselected := hstores.selectAll
      have hcolumns := hstores.columns
      cases hcase : a.selected with
      | none =>
          rw [hall, hcase] at hselected
          exact absurd hselected (by decide)
      | some cols =>
          obtain ⟨col, rfl, -⟩ := hkeeps.column cols hcase
          rw [hcols, hcase] at hcolumns
          exact absurd hcolumns (by simp [ormMaxColumns])

theorem Stores.list_of_keeps {q : ORMQuery} {a : Asked} (h : Stores q a) (hkeeps : Keeps a) :
    q.selectAll = true ∨ q.columns ≠ [] := by
  rw [h.selectAll, h.columns]
  cases hcase : a.selected with
  | none => exact .inl rfl
  | some cols =>
      obtain ⟨col, rfl, -⟩ := hkeeps.column cols hcase
      exact .inr (by simp [ormMaxColumns])

theorem Stores.quotes_of_keeps {q : ORMQuery} {a : Asked} (h : Stores q a) (hkeeps : Keeps a) :
    ∀ value ∈ operands q, 39 ∉ value := by
  rw [h.operands_eq_values_iff.mpr
    ⟨hkeeps.conditions, fun value hvalue => (hkeeps.values value hvalue).1⟩]
  exact fun value hvalue => (hkeeps.values value hvalue).2

theorem sameStructure {q q' : ORMQuery} (h : WellNamed q)
    (hsame : withoutValues q = withoutValues q') {maxLen maxLen' : Nat} {out out' : TextBuffer}
    (hout : ormQueryGenerate q maxLen = some out) (hout' : ormQueryGenerate q' maxLen' = some out')
    (hlist : q.selectAll = true ∨ q.columns ≠ []) (hquotes : ∀ value ∈ operands q, 39 ∉ value)
    (hquotes' : ∀ value ∈ operands q', 39 ∉ value) : SameStructure out.text out'.text := by
  have hall : (withoutValues q).selectAll = (withoutValues q').selectAll := by rw [hsame]
  have hcols : (withoutValues q).columns = (withoutValues q').columns := by rw [hsame]
  change q.selectAll = q'.selectAll at hall
  change q.columns = q'.columns at hcols
  have hlist' : q'.selectAll = true ∨ q'.columns ≠ [] := by rwa [← hall, ← hcols]
  have htext : listText q' = listText q := by
    rw [listText, listText, hall, hcols]
  rw [SameStructure, ormQueryGenerate_eq hlist hout, ormQueryGenerate_eq hlist' hout', htext]
  apply shape_piecesText
  · rw [map_blank_queryPieces, map_blank_queryPieces, hsame]
  · exact plainParts_listed h hlist
  · rwa [contents_queryPieces]
  · rwa [contents_queryPieces]

/-- Two queries that differ in values only: both texts are faithful to what was asked for and of
one structure exactly if both keep what they are given. -/
theorem generates_faithfully_iff {table table' : CStr} {ops ops' : List Op}
    (hnames : Identifiers table ops) (hnames' : Identifiers table' ops')
    (hsame : withoutValues (build table ops) = withoutValues (build table' ops'))
    {maxLen maxLen' : Nat} {out out' : TextBuffer}
    (hout : ormQueryGenerate (build table ops) maxLen = some out)
    (hout' : ormQueryGenerate (build table' ops') maxLen' = some out') :
    (Faithful (asked ops) out.text ∧ Faithful (asked ops') out'.text ∧
      SameStructure out.text out'.text) ↔ Keeps (asked ops) ∧ Keeps (asked ops') := by
  have hstores := stores_build table ops
  have hstores' := stores_build table' ops'
  rw [faithful_iff hnames.wellNamed hstores hout, faithful_iff hnames'.wellNamed hstores' hout']
  constructor
  · exact fun h => ⟨h.1, h.2.1⟩
  · rintro ⟨hkeeps, hkeeps'⟩
    exact ⟨hkeeps, hkeeps', sameStructure hnames.wellNamed hsame hout hout'
      (hstores.list_of_keeps hkeeps) (hstores.quotes_of_keeps hkeeps)
      (hstores'.quotes_of_keeps hkeeps')⟩

/-- `SELECT name FROM users WHERE age > '…' `. -/
def olderThan (value : CStr) : List Op :=
  [.select [lit "name"], .andWhere (lit "age") .gt value, .limit 10 0]

theorem identifiers_olderThan (value : CStr) : Identifiers (lit "users") (olderThan value) := by
  refine ⟨by decide +kernel, ?_⟩
  intro op hop
  simp only [olderThan, List.mem_cons, List.not_mem_nil, or_false] at hop
  rcases hop with rfl | rfl | rfl
  · have hname : IdentifierLike (lit "name") := by decide +kernel
    exact fun col hcol => List.mem_singleton.mp hcol ▸ hname
  · have hname : IdentifierLike (lit "age") := by decide +kernel
    exact hname
  · trivial

theorem keeps_olderThan {value : CStr} (hshort : value.length ≤ 255) (hquotes : 39 ∉ value) :
    Keeps (asked (olderThan value)) where
  column cols hcols := by
    obtain rfl : [lit "name"] = cols := Option.some.inj hcols
    exact ⟨lit "name", rfl, by decide⟩
  conditions condition hcondition := absurd hcondition (by simp [asked, ask, olderThan, run,
    ormMaxColumns])
  values other hother := by
    obtain rfl : other = value := List.mem_singleton.mp hother
    exact ⟨hshort, hquotes⟩

theorem generates_faithfully_iff_olderThan : ∃ out out',
    ormQueryGenerate (build (lit "users") (olderThan (lit "18"))) 4096 = some out ∧
    ormQueryGenerate (build (lit "users") (olderThan (lit "21"))) 4096 = some out' ∧
    Faithful (asked (olderThan (lit "18"))) out.text ∧
    Faithful (asked (olderThan (lit "21"))) out'.text ∧ SameStructure out.text out'.text := by
  obtain ⟨out, hout⟩ : ∃ out,
      ormQueryGenerate (build (lit "users") (olderThan (lit "18"))) 4096 = some out :=
    Option.isSome_iff_exists.mp (by decide)
  obtain ⟨out', hout'⟩ : ∃ out',
      ormQueryGenerate (build (lit "users") (olderThan (lit "21"))) 4096 = some out' :=
    Option.isSome_iff_exists.mp (by decide)
  have hsame : withoutValues (build (lit "users") (olderThan (lit "18"))) =
      withoutValues (build (lit "users") (olderThan (lit "21"))) := by
    decide
  exact ⟨out, out', hout, hout', (generates_faithfully_iff (identifiers_olderThan _)
    (identifiers_olderThan _) hsame hout hout').mpr
      ⟨keeps_olderThan (by decide) (by decide), keeps_olderThan (by decide) (by decide)⟩⟩

/-- A value with apostrophes becomes a condition of its own: the text has three literals. -/
theorem value_is_not_escaped : ¬ ∀ (table : CStr) (ops : List Op) (maxLen : Nat)
    (out : TextBuffer), Identifiers table ops →
    ormQueryGenerate (build table ops) maxLen = some out → Faithful (asked ops) out.text := by
  intro hclaim
  obtain ⟨out, hout, hliterals⟩ : ∃ out,
      ormQueryGenerate (build (lit "users") (olderThan (lit "18' OR '1' = '1"))) 4096 = some out ∧
      (sqlTokens out.text).map literals = some [lit "18", lit "1", lit "1"] := by
    decide
  obtain ⟨tokens, htokens, hvalues⟩ := (hclaim _ _ _ _ (identifiers_olderThan _) hout).values
  rw [htokens, Option.map_some, hvalues] at hliterals
  exact absurd hliterals (by decide)

end MiniBackend.Framework.Proofs.QueryText
