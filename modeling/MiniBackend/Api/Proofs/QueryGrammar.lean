import MiniBackend.Api.GraphqlEngine

/-!
# Texts of queries

The grammar of queries with the text of each of its trees: an operation, nested selection sets,
arguments and their values, with gaps of blanks and commas between the tokens.  The depth and the
number of fields are those of the whole tree.
-/

namespace MiniBackend.Api.Proofs.QueryGrammar

open MiniBackend.Lib.CString MiniBackend.Lib.Scanner MiniBackend.Api.Graphql

/-! ## Values -/

/-- The exponent of a number. -/
structure Exponent where
  upper : Bool
  sign : Option Bool
  digits : CStr
deriving DecidableEq

def Exponent.signText (exponent : Exponent) : CStr :=
  match exponent.sign with
  | none => []
  | some negative => [if negative then 45 else 43]

def Exponent.text (exponent : Exponent) : CStr :=
  (if exponent.upper then 69 else 101) :: (exponent.signText ++ exponent.digits)

structure Number where
  negative : Bool
  digits : CStr
  fraction : Option CStr
  exponent : Option Exponent
deriving DecidableEq

def Number.exponentText (n : Number) : CStr :=
  match n.exponent with
  | none => []
  | some exponent => exponent.text

def Number.fractionText (n : Number) : CStr :=
  match n.fraction with
  | none => []
  | some digits => 46 :: digits

def Number.text (n : Number) : CStr :=
  (if n.negative then [45] else []) ++ (n.digits ++ (n.fractionText ++ n.exponentText))

def Digits (digits : CStr) : Prop := digits ≠ [] ∧ ∀ b ∈ digits, isDigit b = true

structure Number.WellFormed (n : Number) : Prop where
  digits : Digits n.digits
  fraction : ∀ digits ∈ n.fraction, Digits digits
  exponent : ∀ exponent ∈ n.exponent, Digits exponent.digits

inductive Value
  | var (name : CStr)
  | word (name : CStr)
  | number (n : Number)
  | string (content : CStr)
deriving DecidableEq

def Value.text : Value → CStr
  | .var name => 36 :: name
  | .word name => name
  | .number n => n.text
  | .string content => 34 :: (content ++ [34])

def Value.WellFormed : Value → Prop
  | .var name => IsName name
  | .word name => IsName name
  | .number n => n.WellFormed
  | .string content => 34 ∉ content

/-- A value that the next token may follow at once. -/
def Value.Closed : Value → Prop
  | .var _ | .word _ | .number _ => False
  | .string _ => True

/-! ## Arguments -/

structure Argument where
  name : CStr
  beforeColon : CStr
  afterColon : CStr
  value : Value
  after : CStr
deriving DecidableEq

def Argument.text (arg : Argument) : CStr :=
  arg.name ++ (arg.beforeColon ++ 58 :: (arg.afterColon ++ (arg.value.text ++ arg.after)))

structure Argument.WellFormed (arg : Argument) : Prop where
  name : IsName arg.name
  beforeColon : Gap arg.beforeColon
  afterColon : Gap arg.afterColon
  value : arg.value.WellFormed
  after : Gap arg.after

structure Arguments where
  opening : CStr
  args : List Argument
  after : CStr
deriving DecidableEq

def argsText (args : List Argument) : CStr := args.flatMap Argument.text

def Arguments.text (arguments : Arguments) : CStr :=
  40 :: (arguments.opening ++ (argsText arguments.args ++ 41 :: arguments.after))

structure Arguments.WellFormed (arguments : Arguments) : Prop where
  opening : Gap arguments.opening
  args : ∀ arg ∈ arguments.args, arg.WellFormed
  separated : ∀ arg ∈ arguments.args.dropLast, arg.after ≠ [] ∨ arg.value.Closed
  after : Gap arguments.after

/-! ## Selection sets -/

/-- A field up to its selection set. -/
structure Head where
  name : CStr
  gap : CStr
  arguments : Option Arguments
deriving DecidableEq

def Head.text (head : Head) : CStr :=
  head.name ++ (head.gap ++ match head.arguments with
    | none => []
    | some arguments => arguments.text)

def Head.argCount (head : Head) : Nat :=
  match head.arguments with
  | none => 0
  | some arguments => arguments.args.length

structure Head.WellFormed (head : Head) : Prop where
  name : IsName head.name
  gap : Gap head.gap
  arguments : ∀ arguments ∈ head.arguments, arguments.WellFormed

/-- The strings among the values have no braces. -/
def Head.Braceless (head : Head) : Prop :=
  ∀ arguments ∈ head.arguments, ∀ arg ∈ arguments.args, ∀ content, arg.value = .string content →
    123 ∉ content ∧ 125 ∉ content

/-- The fields of a selection set. -/
inductive Selections
  | nil
  | leaf (head : Head) (rest : Selections)
  | nested (head : Head) (opening : CStr) (inner : Selections) (after : CStr) (rest : Selections)
deriving DecidableEq

namespace Selections

def text : Selections → CStr
  | nil => []
  | leaf head rest => head.text ++ rest.text
  | nested head opening inner after rest =>
      head.text ++ 123 :: (opening ++ (inner.text ++ 125 :: (after ++ rest.text)))

/-- The depth of a selection set with these fields. -/
def depth : Selections → Nat
  | nil => 1
  | leaf _ rest => rest.depth
  | nested _ _ inner _ rest => max (inner.depth + 1) rest.depth

/-- The arguments of the first level. -/
def argCount : Selections → Nat
  | nil => 0
  | leaf head rest => head.argCount + rest.argCount
  | nested head _ _ _ rest => head.argCount + rest.argCount

/-- Braces in this text are those of selection sets. -/
def Braceless : Selections → Prop
  | nil => True
  | leaf head rest => head.Braceless ∧ rest.Braceless
  | nested head _ inner _ rest => head.Braceless ∧ inner.Braceless ∧ rest.Braceless

/-- No selection set in it is empty, its tokens are separated, and the inner texts have balanced
braces. -/
def WellFormed : Selections → Prop
  | nil => True
  | leaf head rest =>
      head.WellFormed ∧ (rest = nil ∨ head.gap ≠ [] ∨ head.arguments.isSome) ∧ rest.WellFormed
  | nested head opening inner after rest =>
      head.WellFormed ∧ Gap opening ∧ inner.WellFormed ∧ inner ≠ nil ∧ inner.Braceless ∧ Gap after ∧
        rest.WellFormed

end Selections

/-! ## Queries -/

def keyword : GqlOperation → CStr
  | .query => lit "query"
  | .mutation => lit "mutation"
  | .subscription => lit "subscription"

structure Operation where
  kind : GqlOperation
  gap : CStr
  name : Option (CStr × CStr)
deriving DecidableEq

def Operation.text (operation : Operation) : CStr :=
  keyword operation.kind ++ (operation.gap ++ match operation.name with
    | none => []
    | some (name, gap) => name ++ gap)

theorem Operation.text_eq (operation : Operation) : ∃ nameText,
    operation.text = keyword operation.kind ++ operation.gap ++ nameText ∧
      (operation.name = none → nameText = []) ∧
      ∀ name gap, operation.name = some (name, gap) → nameText = name ++ gap := by
  cases hname : operation.name with
  | none => exact ⟨[], by simp [Operation.text, hname], fun _ => rfl, by simp⟩
  | some found =>
      refine ⟨found.1 ++ found.2, by simp [Operation.text, hname], by simp, ?_⟩
      intro name gap hfound
      rw [Option.some.inj hfound]

structure Operation.WellFormed (operation : Operation) : Prop where
  gap : Gap operation.gap
  name : ∀ name ∈ operation.name, IsName name.1 ∧ Gap name.2 ∧ operation.gap ≠ []

structure Query where
  before : CStr
  operation : Option Operation
  opening : CStr
  selections : Selections
  after : CStr
deriving DecidableEq

def Query.text (query : Query) : CStr :=
  query.before ++ ((match query.operation with
    | none => []
    | some operation => operation.text) ++
      123 :: (query.opening ++ (query.selections.text ++ 125 :: query.after)))

structure Query.WellFormed (query : Query) : Prop where
  before : Gap query.before
  operation : ∀ operation ∈ query.operation, operation.WellFormed
  opening : Gap query.opening
  selections : query.selections.WellFormed
  nonempty : query.selections ≠ .nil
  after : Gap query.after

end MiniBackend.Api.Proofs.QueryGrammar
