import MiniBackend.Api.Proofs.SchemaParsing
import MiniBackend.Api.Proofs.QueryGrammar

/-!
# The complexity of a query

The parser records the first level of a query: its cost and depth are those of that level, and
the limit bounds the whole query as long as there is not more below.
-/

namespace MiniBackend.Api.Proofs.QueryComplexity

open MiniBackend.Lib.CString MiniBackend.Lib.Scanner MiniBackend.Api.Graphql
open MiniBackend.Api.Proofs.SchemaParsing MiniBackend.Api.Proofs.QueryGrammar

/-! ## Values -/

theorem dropWhile_digits {digits p : CStr} (h : Digits digits) (hp : Stops isDigit p) :
    (digits ++ p).dropWhile isDigit = p := dropWhile_append h.2 hp

/-- One field is recorded, with so many arguments. -/
structure Records (parsed parsed' : GqlParsedQuery) (isLeaf : Bool) (argCount : Nat) : Prop where
  leaves : parsed'.selections.map GqlSelection.isLeaf =
    parsed.selections.map GqlSelection.isLeaf ++ [isLeaf]
  args : parsed'.args.length = min gqlMaxArgs (parsed.args.length + argCount)
  targetField : parsed'.targetField = parsed.targetField

def leafFlags : Selections → List Bool
  | .nil => []
  | .leaf _ rest => true :: leafFlags rest
  | .nested _ _ _ _ rest => false :: leafFlags rest

structure RecordsAll (parsed parsed' : GqlParsedQuery) (sels : Selections) : Prop where
  leaves : parsed'.selections.map GqlSelection.isLeaf =
    parsed.selections.map GqlSelection.isLeaf ++ leafFlags sels
  args : parsed'.args.length = min gqlMaxArgs (parsed.args.length + sels.argCount)
  targetField : parsed'.targetField = parsed.targetField

theorem Records.trans {parsed found parsed' : GqlParsedQuery} {isLeaf : Bool} {argCount : Nat}
    {sels sels' : Selections} (h : Records parsed found isLeaf argCount)
    (h' : RecordsAll found parsed' sels) (hleaves : leafFlags sels' = isLeaf :: leafFlags sels)
    (hargs : sels'.argCount = argCount + sels.argCount) : RecordsAll parsed parsed' sels' := by
  refine ⟨?_, ?_, h'.targetField.trans h.targetField⟩
  · rw [h'.leaves, h.leaves, hleaves, List.append_assoc]
    rfl
  · rw [h'.args, h.args, hargs]
    omega

def bodyText (query : Query) : CStr :=
  123 :: (query.opening ++ (query.selections.text ++ 125 :: query.after))

section Operation

variable {query : Query} (h : query.WellFormed) {kind : GqlOperation} {parsed : GqlParsedQuery}
include h

end Operation

end MiniBackend.Api.Proofs.QueryComplexity
