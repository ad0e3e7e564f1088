import DataCalculus.Registry.Reachable

/-!
# Histories

A registry is set up by calls that declare types and add constructors, one after another. A call that
fails leaves the registry as it is, and the calls go on after it.
-/

namespace DataCalculus.Registry

set_option autoImplicit false

/-- A call that may change a registry. -/
inductive Call where
  | declare (name : Name)
  | addConstructor (ty tag : Name) (args : List Name)
  deriving DecidableEq

/-- The changed registry, or the fault of the call. -/
def call (R : Registry) : Call → Except Fault Registry
  | .declare name => R.declare name
  | .addConstructor ty tag args => R.addConstructor ty tag args

/-- The registry after a call. -/
def after (R : Registry) (c : Call) : Registry :=
  match R.call c with
  | .ok S => S
  | .error _ => R

/-- The registry after a list of calls. -/
def run (R : Registry) (calls : List Call) : Registry := calls.foldl after R

variable {R S : Registry} {c : Call}

theorem after_of_ok (h : R.call c = .ok S) : R.after c = S := by
  rw [after, h]

theorem after_of_error {fault : Fault} (h : R.call c = .error fault) : R.after c = R := by
  rw [after, h]

/-- A call succeeded, or nothing happened. -/
theorem after_cases (R : Registry) (c : Call) : R.call c = .ok (R.after c) ∨ R.after c = R := by
  cases h : R.call c with
  | ok S => exact .inl (congrArg Except.ok (after_of_ok h).symm)
  | error fault => exact .inr (after_of_error h)

theorem run_cons (R : Registry) (c : Call) (calls : List Call) :
    R.run (c :: calls) = (R.after c).run calls := rfl

theorem run_append (R : Registry) (calls more : List Call) :
    R.run (calls ++ more) = (R.run calls).run more := List.foldl_append

theorem run_concat (R : Registry) (calls : List Call) (c : Call) :
    R.run (calls ++ [c]) = (R.run calls).after c := run_append R calls [c]

theorem Reachable.after (h : R.Reachable) (c : Call) : (R.after c).Reachable := by
  rcases R.after_cases c with hok | hsame
  · cases c with
    | declare name => exact .declare h hok
    | addConstructor ty tag args => exact .addConstructor h hok
  · rw [hsame]
    exact h

theorem Reachable.run (h : R.Reachable) (calls : List Call) : (R.run calls).Reachable := by
  induction calls generalizing R with
  | nil => exact h
  | cons c calls ih => exact ih (h.after c)

end DataCalculus.Registry
