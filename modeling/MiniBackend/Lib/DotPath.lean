import MiniBackend.Lib.CString

/-!
# Paths with dot segments

A directory is the list of the names that lead to it from the top.  Walking along a path
appends a name or goes one level up, and above the top there is nothing.  A walk is described
by how far it climbs above its start and by the names it leaves behind.
-/

namespace MiniBackend.Lib.DotPath

open MiniBackend.Lib.CString

/-! ## Walks -/

variable {α : Type*}

inductive Step (α : Type*)
  | up
  | down (name : α)
deriving DecidableEq

def move (dir : List α) : Step α → List α
  | .up => dir.dropLast
  | .down name => dir ++ [name]

def walk (dir : List α) (steps : List (Step α)) : List α := steps.foldl move dir

@[simp] theorem walk_nil (dir : List α) : walk dir [] = dir := rfl

theorem walk_cons (dir : List α) (step : Step α) (steps : List (Step α)) :
    walk dir (step :: steps) = walk (move dir step) steps := rfl

theorem walk_append (dir : List α) (steps more : List (Step α)) :
    walk dir (steps ++ more) = walk (walk dir steps) more := List.foldl_append

theorem prefix_walk {steps : List (Step α)} (h : ∀ step ∈ steps, ∃ name, step = .down name)
    (dir : List α) : dir <+: walk dir steps := by
  induction steps generalizing dir with
  | nil => exact List.prefix_refl dir
  | cons step steps ih =>
      obtain ⟨name, rfl⟩ := h step List.mem_cons_self
      have hrest : dir ++ [name] <+: walk (dir ++ [name]) steps :=
        ih (fun s hs => h s (List.mem_cons_of_mem _ hs)) (dir ++ [name])
      exact (List.prefix_append dir [name]).trans hrest

/-- How many levels a walk has climbed above its start, and the names it has gone down from
there. -/
def trace : Nat × List α → Step α → Nat × List α
  | (levels, []), .up => (levels + 1, [])
  | (levels, name :: names), .up => (levels, (name :: names).dropLast)
  | (levels, names), .down name => (levels, names ++ [name])

def climbs (steps : List (Step α)) : Nat := (steps.foldl trace (0, [])).1

def lands (steps : List (Step α)) : List α := (steps.foldl trace (0, [])).2

def climb (dir : List α) (levels : Nat) : List α := dir.take (dir.length - levels)

theorem move_trace (dir : List α) (pos : Nat × List α) (step : Step α) :
    move (climb dir pos.1 ++ pos.2) step =
      climb dir (trace pos step).1 ++ (trace pos step).2 := by
  obtain ⟨levels, names⟩ := pos
  cases step with
  | down name =>
      dsimp only [move]
      cases names with
      | nil => simp [trace]
      | cons first names => simp [trace]
  | up =>
      dsimp only [move]
      cases names with
      | nil =>
          have hlevels : min (min (dir.length - levels) dir.length - 1) (dir.length - levels) =
              dir.length - (levels + 1) := by omega
          rw [trace, List.append_nil, List.append_nil, climb, climb, List.dropLast_eq_take,
            List.length_take, List.take_take, hlevels]
      | cons first names =>
          rw [trace, List.dropLast_append_of_ne_nil (List.cons_ne_nil first names)]

theorem walk_trace (dir : List α) (pos : Nat × List α) (steps : List (Step α)) :
    walk (climb dir pos.1 ++ pos.2) steps =
      climb dir (steps.foldl trace pos).1 ++ (steps.foldl trace pos).2 := by
  induction steps generalizing pos with
  | nil => rfl
  | cons step steps ih => rw [walk_cons, move_trace, ih, List.foldl_cons]

theorem walk_eq (dir : List α) (steps : List (Step α)) :
    walk dir steps = climb dir (climbs steps) ++ lands steps := by
  have hstart : dir = climb dir 0 ++ [] := by simp [climb]
  conv_lhs => rw [hstart]
  exact walk_trace dir (0, []) steps

/-- Where a walk leads below its start: the names that were climbed away are gone down
again. -/
theorem prefix_walk_iff (dir : List α) (steps : List (Step α)) :
    dir <+: walk dir steps ↔ dir.drop (dir.length - climbs steps) <+: lands steps := by
  rw [walk_eq, climb]
  conv_lhs => lhs; rw [← List.take_append_drop (dir.length - climbs steps) dir]
  exact List.prefix_append_right_inj _

/-! ## Paths -/

def isSep (b : UInt8) : Bool := b = 47

/-- The component between two slashes: a dot means nothing, and two dots a step up. -/
def toStep (name : CStr) : Option (Step CStr) :=
  if name = [46] then none else if name = [46, 46] then some .up else some (.down name)

def stepsOf (path : CStr) : List (Step CStr) := (pieces isSep path).filterMap toStep

@[simp] theorem stepsOf_nil : stepsOf [] = [] := by
  rw [stepsOf, pieces_nil, List.filterMap_nil]

theorem stepsOf_cons_sep (path : CStr) : stepsOf (47 :: path) = stepsOf path := by
  rw [stepsOf, pieces_cons_delim rfl, stepsOf]

theorem stepsOf_append_sep (path more : CStr) :
    stepsOf (path ++ 47 :: more) = stepsOf path ++ stepsOf more := by
  rw [stepsOf, pieces_append_delim rfl, List.filterMap_append, stepsOf, stepsOf]

theorem stepsOf_name {name rest : CStr} (hname : 47 ∉ name) (hne : name ≠ [])
    (hdot : name ≠ [46]) (hdots : name ≠ [46, 46])
    (hrest : rest = [] ∨ ∃ more, rest = 47 :: more) :
    stepsOf (name ++ rest) = .down name :: stepsOf rest := by
  have hfree : ∀ b ∈ name, isSep b = false := by
    intro b hb
    simp only [isSep, decide_eq_false_iff_not]
    rintro rfl
    exact hname hb
  have hstep : toStep name = some (.down name) := by rw [toStep, if_neg hdot, if_neg hdots]
  rcases hrest with rfl | ⟨more, rfl⟩
  · rw [List.append_nil, stepsOf, pieces_single hfree hne, List.filterMap_cons_some hstep,
      List.filterMap_nil, stepsOf_nil]
  · rw [stepsOf_cons_sep, stepsOf, pieces_append hfree hne rfl, List.filterMap_cons_some hstep,
      stepsOf]

/-- Where a path leads from a working directory, if no name on it is a link. -/
def resolve (cwd : List CStr) (path : CStr) : List CStr :=
  walk (if path.head? = some 47 then [] else cwd) (stepsOf path)

/-- Two paths one behind the other, with a slash between them. -/
theorem resolve_append (cwd : List CStr) {path more : CStr} (hne : path ≠ [])
    (hsep : path.getLast? = some 47 ∨ more.head? = some 47) :
    resolve cwd (path ++ more) = walk (resolve cwd path) (stepsOf more) := by
  have hhead : (path ++ more).head? = path.head? := by
    cases path with
    | nil => exact absurd rfl hne
    | cons b path => rfl
  have hsteps : stepsOf (path ++ more) = stepsOf path ++ stepsOf more := by
    rcases hsep with hlast | hfirst
    · obtain ⟨init, rfl⟩ := List.getLast?_eq_some_iff.mp hlast
      rw [List.append_assoc, List.singleton_append, stepsOf_append_sep, stepsOf_append_sep,
        stepsOf_nil, List.append_nil]
    · obtain ⟨rest, rfl⟩ := List.head?_eq_some_iff.mp hfirst
      rw [stepsOf_append_sep, stepsOf_cons_sep]
  rw [resolve, resolve, hhead, hsteps, walk_append]

end MiniBackend.Lib.DotPath
