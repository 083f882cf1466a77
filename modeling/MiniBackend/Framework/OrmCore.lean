import MiniBackend.Lib.CString
import MiniBackend.Lib.TextBuffer

/-!
# `orm_core.c`

The query builder and the SQL text it generates; the table of models is left out.
-/

namespace MiniBackend.Framework.Orm

open MiniBackend.Lib MiniBackend.Lib.CString

def ormMaxColumns : Nat := 32
def ormMaxTableName : Nat := 64
def ormMaxColumnName : Nat := 64
def ormMaxJoins : Nat := 4

inductive ORMOp
  | eq
  | ne
  | lt
  | le
  | gt
  | ge
  | like
  | isIn
  | isNull
deriving DecidableEq

inductive ORMOrderDir
  | asc
  | desc
deriving DecidableEq

inductive ORMJoinType
  | inner
  | left
  | right
deriving DecidableEq

structure ORMCondition where
  column : CStr
  op : ORMOp
  value : CStr
  isOr : Bool
deriving DecidableEq

structure ORMJoin where
  tableA : CStr
  tableB : CStr
  colA : CStr
  colB : CStr
  type : ORMJoinType
deriving DecidableEq

/-- The counts are the lengths of the lists. -/
structure ORMQuery where
  table : CStr
  selectAll : Bool
  columns : List CStr
  conditions : List ORMCondition
  joins : List ORMJoin
  orderBy : CStr
  orderDir : ORMOrderDir
  limitVal : Int32
  offsetVal : Int32
deriving DecidableEq

def ormOpString : ORMOp → CStr
  | .eq => lit "="
  | .ne => lit "!="
  | .lt => lit "<"
  | .le => lit "<="
  | .gt => lit ">"
  | .ge => lit ">="
  | .like => lit "LIKE"
  | .isIn => lit "IN"
  | .isNull => lit "IS NULL"

def ormJoinString : ORMJoinType → CStr
  | .inner => lit "INNER JOIN"
  | .left => lit "LEFT JOIN"
  | .right => lit "RIGHT JOIN"

/-! ## Building -/

def ormQueryInit (table : CStr) : ORMQuery where
  table := strncpy table (ormMaxTableName - 1)
  selectAll := true
  columns := []
  conditions := []
  joins := []
  orderBy := []
  orderDir := .asc
  limitVal := -1
  offsetVal := 0

def ormQuerySelect (q : ORMQuery) (cols : List CStr) : ORMQuery :=
  { q with
    selectAll := false
    columns := (cols.take ormMaxColumns).map fun col => strncpy col (ormMaxColumnName - 1) }

/-- `orm_query_where` and `orm_query_or_where` only differ in `is_or`. -/
def addCondition (q : ORMQuery) (isOr : Bool) (col : CStr) (op : ORMOp) (val : CStr) : ORMQuery :=
  if ormMaxColumns ≤ q.conditions.length then q
  else
    { q with conditions := q.conditions ++
        [⟨strncpy col (ormMaxColumnName - 1), op, strncpy val 255, isOr⟩] }

def ormQueryWhere (q : ORMQuery) (col : CStr) (op : ORMOp) (val : CStr) : ORMQuery :=
  addCondition q false col op val

def ormQueryOrWhere (q : ORMQuery) (col : CStr) (op : ORMOp) (val : CStr) : ORMQuery :=
  addCondition q true col op val

def ormQueryJoin (q : ORMQuery) (type : ORMJoinType) (ta tb ca cb : CStr) : ORMQuery :=
  if ormMaxJoins ≤ q.joins.length then q
  else
    { q with joins := q.joins ++
        [⟨strncpy ta (ormMaxTableName - 1), strncpy tb (ormMaxTableName - 1),
          strncpy ca (ormMaxColumnName - 1), strncpy cb (ormMaxColumnName - 1), type⟩] }

def ormQueryOrder (q : ORMQuery) (col : CStr) (dir : ORMOrderDir) : ORMQuery :=
  { q with orderBy := strncpy col (ormMaxColumnName - 1), orderDir := dir }

def ormQueryLimit (q : ORMQuery) (limit offset : Int32) : ORMQuery :=
  { q with limitVal := limit, offsetVal := offset }

/-- The calls that build a query. -/
inductive Op
  | select (cols : List CStr)
  | andWhere (col : CStr) (op : ORMOp) (val : CStr)
  | orWhere (col : CStr) (op : ORMOp) (val : CStr)
  | join (type : ORMJoinType) (ta tb ca cb : CStr)
  | order (col : CStr) (dir : ORMOrderDir)
  | limit (limit offset : Int32)
deriving DecidableEq

def step (q : ORMQuery) : Op → ORMQuery
  | .select cols => ormQuerySelect q cols
  | .andWhere col op val => ormQueryWhere q col op val
  | .orWhere col op val => ormQueryOrWhere q col op val
  | .join type ta tb ca cb => ormQueryJoin q type ta tb ca cb
  | .order col dir => ormQueryOrder q col dir
  | .limit limit offset => ormQueryLimit q limit offset

/-! ## Generating -/

/-- The loop over the columns, with the last value of `written`: it does not move the
position. -/
def columnsLoop (maxLen : Nat) : List CStr → TextBuffer → Nat → TextBuffer × Nat
  | [], out, written => (out, written)
  | col :: cols, out, _ =>
      let piece := col ++ if cols.isEmpty then lit " " else lit ", "
      columnsLoop maxLen cols (out.put maxLen piece) piece.length

/-- What is selected; 7 is the length of `SELECT `, which `written` holds before. -/
def printColumns (q : ORMQuery) (maxLen : Nat) (out : TextBuffer) : Option TextBuffer :=
  let r := if q.selectAll then (out.put maxLen (lit "* "), 2)
    else columnsLoop maxLen q.columns out 7
  if maxLen - out.pos ≤ r.2 then none else some { r.1 with pos := out.pos + r.2 }

def joinText (join : ORMJoin) : CStr :=
  lit " " ++ ormJoinString join.type ++ lit " " ++ join.tableB ++ lit " ON " ++ join.tableA ++
    lit "." ++ join.colA ++ lit " = " ++ join.tableB ++ lit "." ++ join.colB

def printJoins (maxLen : Nat) : List ORMJoin → TextBuffer → Option TextBuffer
  | [], out => some out
  | join :: joins, out => (out.printAll maxLen (joinText join)).bind (printJoins maxLen joins)

def connector (first : Bool) (condition : ORMCondition) : CStr :=
  if first then [] else if condition.isOr then lit "OR " else lit "AND "

def conditionText (first : Bool) (condition : ORMCondition) : CStr :=
  if condition.op = .isNull then connector first condition ++ condition.column ++ lit " IS NULL "
  else
    connector first condition ++ condition.column ++ lit " " ++ ormOpString condition.op ++
      lit " '" ++ condition.value ++ lit "' "

def printConditions (maxLen : Nat) : Bool → List ORMCondition → TextBuffer → Option TextBuffer
  | _, [], out => some out
  | first, condition :: conditions, out =>
      (out.printAll maxLen (conditionText first condition)).bind
        (printConditions maxLen false conditions)

def printWhere (q : ORMQuery) (maxLen : Nat) (out : TextBuffer) : Option TextBuffer :=
  if q.conditions.isEmpty then some out
  else (out.printAll maxLen (lit " WHERE ")).bind (printConditions maxLen true q.conditions)

def printOrder (q : ORMQuery) (maxLen : Nat) (out : TextBuffer) : Option TextBuffer :=
  if q.orderBy = [] then some out
  else
    out.printAll maxLen (lit "ORDER BY " ++ q.orderBy ++ lit " " ++
      (if q.orderDir = .asc then lit "ASC" else lit "DESC") ++ lit " ")

def printLimit (q : ORMQuery) (maxLen : Nat) (out : TextBuffer) : Option TextBuffer :=
  if 0 ≤ q.limitVal.toInt then
    out.printAll maxLen (lit "LIMIT " ++ decimalInt q.limitVal.toInt ++ lit " OFFSET " ++
      decimalInt q.offsetVal.toInt)
  else some out

/-- `none` for the return value -1, otherwise the length that is returned and the string. -/
def ormQueryGenerate (q : ORMQuery) (maxLen : Nat) : Option TextBuffer :=
  (TextBuffer.empty.printAll maxLen (lit "SELECT ")).bind fun out =>
    (printColumns q maxLen out).bind fun out =>
      (out.printAll maxLen (lit "FROM " ++ q.table)).bind fun out =>
        (printJoins maxLen q.joins out).bind fun out =>
          (printWhere q maxLen out).bind fun out =>
            (printOrder q maxLen out).bind fun out => printLimit q maxLen out

end MiniBackend.Framework.Orm
