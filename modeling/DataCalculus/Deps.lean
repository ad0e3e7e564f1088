import DataCalculus.Env

/-!
# Dependencies

The free variables of a term with their types. A variable has one type in one set of dependencies,
so that joining sets can fail.
-/

namespace DataCalculus

set_option autoImplicit false

/-- Free variables and their types. -/
abbrev Deps := Table Name

namespace Deps

/-- Adds a variable, unless it is there with another type. -/
def add (deps : Deps) (name ty : Name) : Except Fault Deps :=
  match deps.get? name with
  | some first =>
    if first = ty then .ok deps else .error (.inconsistentVariable name first ty)
  | none => .ok (deps.insert name ty)

/-- Adds the variables of a list of entries in their order. -/
def addAll (deps : Deps) (entries : Entries Name) : Except Fault Deps :=
  entries.foldlM (fun deps e => deps.add e.1 e.2) deps

/-- Joins sets of dependencies, from the first to the last. -/
def union (parts : List Deps) : Except Fault Deps :=
  parts.foldlM (fun deps part => deps.addAll part.entries) .empty

/-- Every variable has a value of its type, or the fault of the first that has not. -/
def check (deps : Deps) (env : Env) : Except Fault Unit :=
  deps.entries.forM fun e => (env.read e.1 e.2).map fun _ => ()

/-- The variables with their types between braces, and nothing if there are none. -/
def display (deps : Deps) : String :=
  if deps.isEmpty then ""
  else "\x7b" ++ String.intercalate "," (deps.entries.map fun e => e.1 ++ ":" ++ e.2) ++ "\x7d"

end Deps

end DataCalculus
