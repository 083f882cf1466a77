import MiniBackend.Lib.CString
import MiniBackend.Lib.CArray

/-!
# `di_container.c`

Services under names, with the names of what they depend on.  Pointers are not `NULL` unless
the model says `Option`.  A factory does not call the container: what it returns is a function
of the factory calls before, of the service and of the instances it is given.  A resolution is
run to a given depth of the recursion and has no result when that is not enough.  Destructors
are left out.
-/

namespace MiniBackend.Framework.Di

open MiniBackend.Lib.CString MiniBackend.Lib.CArray

def diMaxServices : Nat := 64
def diMaxName : Nat := 64
def diMaxType : Nat := 128
def diMaxDependencies : Nat := 16
abbrev Instance := Nat

inductive DIScope
  | singleton
  | transient
  | request
deriving DecidableEq

/-- `dep_count` and `tag_count` are the lengths of the lists. -/
structure DIServiceEntry where
  name : CStr
  typeName : CStr
  scope : DIScope
  inst : Option Instance
  initialized : Bool
  dependencies : List CStr
  tags : List CStr
deriving DecidableEq

/-- A call of the factory of the service at an index. -/
structure FactoryCall where
  service : Nat
  deps : List (Option Instance)
  result : Option Instance
deriving DecidableEq

/-- `count` is the length of the list of entries; `calls` are the factory calls so far. -/
structure DIContainer where
  entries : List DIServiceEntry
  inRequest : Bool
  requestInstances : Nat → Option Instance
  resolveDepth : Int
  calls : List FactoryCall

abbrev Factories := List FactoryCall → Nat → List (Option Instance) → Option Instance

def diInit : DIContainer where
  entries := []
  inRequest := false
  requestInstances := fun _ => none
  resolveDepth := 0
  calls := []

def diFindEntry (c : DIContainer) (name : CStr) : Option Nat :=
  c.entries.findIdx? fun entry => entry.name == name

/-! ## Registration -/

def storedName (dep : Option CStr) : CStr :=
  match dep with
  | some dep => strncpy dep (diMaxName - 1)
  | none => []

def diRegister (c : DIContainer) (name typeName : CStr) (scope : DIScope)
    (deps : List (Option CStr)) : Int × DIContainer :=
  if diMaxServices ≤ c.entries.length then (-1, c)
  else if diMaxDependencies < deps.length then (-2, c)
  else
    let entry : DIServiceEntry :=
      { name := strncpy name (diMaxName - 1)
        typeName := strncpy typeName (diMaxType - 1)
        scope := scope
        inst := none
        initialized := false
        dependencies := deps.map storedName
        tags := [] }
    (0, { c with entries := c.entries ++ [entry] })

/-! ## Cycle detection -/

inductive Color
  | white | gray | black
deriving DecidableEq

/-- The loop over the dependencies; `visit` is the recursive call.  An unknown dependency is
skipped. -/
def cycleDeps (c : DIContainer) (visit : (Nat → Color) → Nat → Bool × (Nat → Color)) :
    List CStr → (Nat → Color) → Bool × (Nat → Color)
  | [], colors => (false, colors)
  | dep :: rest, colors =>
      match diFindEntry c dep with
      | none => cycleDeps c visit rest colors
      | some depIdx =>
          match colors depIdx with
          | .gray => (true, colors)
          | .white =>
              match visit colors depIdx with
              | (true, colors) => (true, colors)
              | (false, colors) => cycleDeps c visit rest colors
          | .black => cycleDeps c visit rest colors

def depsAt (c : DIContainer) (i : Nat) : List CStr :=
  match c.entries[i]? with
  | some entry => entry.dependencies
  | none => []

/-- A call marks its entry before it recurses, so the recursion is never deeper than the
number of entries. -/
def diCycleDfs (c : DIContainer) : Nat → (Nat → Color) → Nat → Bool × (Nat → Color)
  | 0, colors, _ => (false, colors)
  | fuel + 1, colors, idx =>
      match cycleDeps c (diCycleDfs c fuel) (depsAt c idx) (Function.update colors idx .gray) with
      | (true, colors) => (true, colors)
      | (false, colors) => (false, Function.update colors idx .black)

def diHasCycle (c : DIContainer) (name : CStr) : Int :=
  match diFindEntry c name with
  | none => 0
  | some idx => if (diCycleDfs c c.entries.length (fun _ => .white) idx).1 then 1 else 0

/-! ## Resolution -/

/-- The loop of `di_build`, with the instances found so far; it stops at a dependency that is
`NULL` and whose name is not empty. -/
def buildDeps (resolve : DIContainer → CStr → Option (Option Instance × DIContainer)) :
    List CStr → List (Option Instance) → DIContainer →
      Option (Option (List (Option Instance)) × DIContainer)
  | [], deps, c => some (some deps, c)
  | dep :: rest, deps, c =>
      match resolve c dep with
      | none => none
      | some (inst, c) =>
          if inst = none ∧ dep ≠ [] then some (none, c)
          else buildDeps resolve rest (deps ++ [inst]) c

def diBuild (factories : Factories)
    (resolve : DIContainer → CStr → Option (Option Instance × DIContainer))
    (c : DIContainer) (i : Nat) : Option (Option Instance × DIContainer) :=
  if diMaxServices < c.resolveDepth then some (none, c)
  else
    match buildDeps resolve (depsAt c i) [] { c with resolveDepth := c.resolveDepth + 1 } with
    | none => none
    | some (none, c) => some (none, { c with resolveDepth := c.resolveDepth - 1 })
    | some (some deps, c) =>
        let inst := factories c.calls i deps
        some (inst, { c with
          resolveDepth := c.resolveDepth - 1
          calls := c.calls ++ [⟨i, deps, inst⟩] })

def setInstance (c : DIContainer) (i : Nat) (inst : Option Instance) : DIContainer :=
  { c with entries := c.entries.modify i fun entry =>
      { entry with inst := inst, initialized := inst.isSome } }

def diResolve (factories : Factories) :
    Nat → DIContainer → CStr → Option (Option Instance × DIContainer)
  | 0, _, _ => none
  | fuel + 1, c, name =>
      let build := diBuild factories (diResolve factories fuel)
      match diFindEntry c name with
      | none => some (none, c)
      | some i =>
          match c.entries[i]? with
          | none => some (none, c)
          | some entry =>
              match entry.scope with
              | .singleton =>
                  if !entry.initialized then
                    (build { c with resolveDepth := 0 } i).map fun (inst, c) =>
                      (inst, setInstance c i inst)
                  else some (entry.inst, c)
              | .transient => build { c with resolveDepth := 0 } i
              | .request =>
                  if c.inRequest then
                    match c.requestInstances i with
                    | some inst => some (some inst, c)
                    | none =>
                        (build { c with resolveDepth := 0 } i).map fun (inst, c) =>
                          (inst, { c with
                            requestInstances := Function.update c.requestInstances i inst })
                  else build { c with resolveDepth := 0 } i

def taggedLoop (factories : Factories) (fuel : Nat) (tag : CStr) (maxResults : Int) :
    List DIServiceEntry → List (Option Instance) → DIContainer →
      Option (List (Option Instance) × DIContainer)
  | [], results, c => some (results, c)
  | entry :: rest, results, c =>
      if (results.length : Int) < maxResults then
        if entry.tags.contains tag then
          match diResolve factories fuel c entry.name with
          | none => none
          | some (inst, c) => taggedLoop factories fuel tag maxResults rest (results ++ [inst]) c
        else taggedLoop factories fuel tag maxResults rest results c
      else some (results, c)

/-- The names and the tags of the entries are never written after the registration, so the
loop reads those of the container it starts with. -/
def diResolveTagged (factories : Factories) (fuel : Nat) (c : DIContainer) (tag : CStr)
    (maxResults : Int) : Option (List (Option Instance) × DIContainer) :=
  if maxResults ≤ 0 then some ([], c)
  else taggedLoop factories fuel tag maxResults c.entries [] c

/-! ## Bulk resolution -/

/-- One edge of the inner loops: a dependency of entry `i` that is the name just resolved. -/
def relaxDep (name : CStr) (i : Nat) (st : (Nat → Int) × List Nat) (dep : CStr) :
    (Nat → Int) × List Nat :=
  if dep = name then
    let d := st.1 i - 1
    (Function.update st.1 i d, if d = 0 then st.2 ++ [i] else st.2)
  else st

def relaxAll (c : DIContainer) (name : CStr) (st : (Nat → Int) × List Nat) :
    (Nat → Int) × List Nat :=
  (List.range c.entries.length).foldl (fun st i => (depsAt c i).foldl (relaxDep name i) st) st

def resolveSingleton (factories : Factories) (fuel : Nat) (c : DIContainer)
    (entry : DIServiceEntry) : Option DIContainer :=
  if entry.scope = .singleton then (diResolve factories fuel c entry.name).map Prod.snd else some c

/-- The loop of `di_resolve_all`, with `in_degree` and the queue from `q_head` on.  Every entry
is queued at most once, so the loop takes no more rounds than there are entries. -/
def resolveAllLoop (factories : Factories) (fuel : Nat) :
    Nat → (Nat → Int) → List Nat → Int → DIContainer → Option (Int × DIContainer)
  | _, _, [], resolved, c => some (resolved, c)
  | 0, _, _ :: _, resolved, c => some (resolved, c)
  | rounds + 1, inDegree, u :: queue, resolved, c =>
      match c.entries[u]? with
      | none => some (resolved, c)
      | some entry =>
          match resolveSingleton factories fuel c entry with
          | none => none
          | some c =>
              let st := relaxAll c entry.name (inDegree, queue)
              resolveAllLoop factories fuel rounds st.1 st.2 (resolved + 1) c

def diResolveAll (factories : Factories) (fuel : Nat) (c : DIContainer) :
    Option (Int × DIContainer) :=
  let inDegree := fun i => ((depsAt c i).length : Int)
  let queue := (List.range c.entries.length).filter fun i => inDegree i = 0
  (resolveAllLoop factories fuel c.entries.length inDegree queue 0 c).map fun (resolved, c) =>
    (if resolved = c.entries.length then 0 else -1, c)

/-! ## Runs -/

/-- The calls of a client that resolve services. -/
inductive Op
  | resolveAll
  | resolve (name : CStr)
  | resolveTagged (tag : CStr) (maxResults : Int)
deriving DecidableEq

def step (factories : Factories) (fuel : Nat) (c : DIContainer) : Op → Option DIContainer
  | .resolveAll => (diResolveAll factories fuel c).map Prod.snd
  | .resolve name => (diResolve factories fuel c name).map Prod.snd
  | .resolveTagged tag maxResults => (diResolveTagged factories fuel c tag maxResults).map Prod.snd

end MiniBackend.Framework.Di
