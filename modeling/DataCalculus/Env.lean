import DataCalculus.Value

/-!
# Environments

An environment gives values to variables. Its names are not checked, and its values may be of any
types: what a term needs of it is the business of `Deps.check`.
-/

namespace DataCalculus

set_option autoImplicit false

/-- Values of variables. -/
abbrev Env := Table Value

namespace Env

/-- Gives a value to a variable, in place of an earlier one. -/
def bind (env : Env) (name : Name) (value : Value) : Env := env.insert name value

/-- Gives values to names by position; a longer list is cut. -/
def extend (env : Env) (names : List Name) (values : List Value) : Env :=
  (names.zip values).foldl (fun env b => env.bind b.1 b.2) env

/-- The value of a variable, if it is of the expected type. -/
def read (env : Env) (name expected : Name) : Except Fault Value :=
  match env.get? name with
  | some value =>
    if value.ty = expected then .ok value
    else .error (.unsatisfiedDependency name expected (some value.ty))
  | none => .error (.unsatisfiedDependency name expected none)

end Env

end DataCalculus
