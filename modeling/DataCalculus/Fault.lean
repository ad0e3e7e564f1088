import DataCalculus.Json.Printer

/-!
# Faults

The reasons why a declaration, a value, a term, a surface form or an evaluation is refused, and
the one-line message of each.
-/

namespace DataCalculus

set_option autoImplicit false

/-- A reason for a refusal. -/
inductive Fault where
  | duplicateType (name : Name)
  /-- A name is no identifier where one is needed. -/
  | invalidName (name : Name)
  | unknownType (name : Name)
  /-- A declared type has no such constructor. -/
  | unknownConstructor (ty tag : Name)
  /-- A constructor takes an argument of an undeclared type. -/
  | unknownArgumentType (ty tag : Name) (index : Nat) (arg : Name)
  /-- A value has more or fewer arguments than its constructor. -/
  | arityMismatch (ty tag : Name) (expected got : Nat)
  /-- A value has an argument of another type than its constructor. -/
  | argumentTypeMismatch (ty tag : Name) (index : Nat) (expected got : Name)
  /-- A variable is used at two types. -/
  | inconsistentVariable (name first second : Name)
  | missingBranch (ty tag : Name)
  /-- The parameters of a branch differ from the arguments of its constructor. -/
  | branchSignatureMismatch (ty tag : Name) (expected got : List Name)
  /-- A term is not of the type that it is declared to have. -/
  | resultTypeMismatch (expected got : Name)
  | repeatedParameter (name : Name)
  /-- A function is called with an argument of another type than its parameter. -/
  | parameterTypeMismatch (param expected got : Name)
  /-- A variable has no value, or one of another type. -/
  | unsatisfiedDependency (name expected : Name) (found : Option Name)
  /-- A function is applied to more or fewer arguments than it has parameters. -/
  | argumentCountMismatch (expected got : Nat)
  | depthExceeded (limit : Nat)
  /-- A tree is no surface form. -/
  | unrecognized (head : Json)
  /-- A tree is no typed variable name. -/
  | malformedVariable (literal : Json)
  /-- A function literal has no body, or several. -/
  | functionBody (got : Nat)
  /-- A text is not JSON, or too deeply nested. -/
  | malformedText
  deriving DecidableEq

namespace Fault

def arguments (n : Nat) : String := if n = 1 then "argument" else "arguments"

def commaSeparated (names : List Name) : String := String.intercalate ", " names

def message : Fault → String
  | .duplicateType name => s!"duplicate type name: {name}"
  | .invalidName name => s!"invalid name '{name}': expected letters, digits or '_'"
  | .unknownType name => s!"unknown type name: {name}"
  | .unknownConstructor ty tag => s!"unknown constructor {ty}.{tag}"
  | .unknownArgumentType ty tag index arg =>
    s!"unknown type '{arg}' used in constructor '{ty}.{tag}' at argument {index}"
  | .arityMismatch ty tag expected got =>
    s!"{ty}.{tag} expects {expected} {arguments expected}, got {got}"
  | .argumentTypeMismatch ty tag index expected got =>
    s!"arg type {got} != {expected} in {ty}.{tag}[{index}]"
  | .inconsistentVariable name first second =>
    s!"inconsistent free var types: {name} is used as both {first} and {second}"
  | .missingBranch ty tag => s!"no mapping found in pattern match for {ty}.{tag}"
  | .branchSignatureMismatch ty tag expected got =>
    s!"branch for {ty}.{tag} takes ({commaSeparated got}) " ++
      s!"but the constructor has ({commaSeparated expected})"
  | .resultTypeMismatch expected got =>
    s!"result type mismatch: expected {expected}, got {got}"
  | .repeatedParameter name =>
    s!"malformed parameter list: {name} is bound more than once"
  | .parameterTypeMismatch param expected got =>
    s!"parameter {param} has type {expected}, argument has type {got}"
  | .unsatisfiedDependency name expected (some found) =>
    s!"unsatisfied dependency {name}: expected {expected}, found {found}"
  | .unsatisfiedDependency name expected none =>
    s!"unsatisfied dependency {name}: expected {expected}, not bound"
  | .argumentCountMismatch expected got =>
    s!"bad arguments: function takes {expected} {arguments expected}, got {got}"
  | .depthExceeded limit => s!"maximum evaluation depth exceeded (limit: {limit})"
  | .unrecognized head => "don't know how to parse " ++ head.text
  | .malformedVariable literal => "argument does not match 'name: Type': " ++ literal.plain
  | .functionBody got => s!"function body must have 1 element, got {got}"
  | .malformedText => "malformed text"

/-- A sequence of two steps succeeds when both do. -/
theorem bind_eq_ok {α β : Type} {first : Except Fault α} {next : α → Except Fault β} {b : β} :
    (first >>= next) = .ok b ↔ ∃ a, first = .ok a ∧ next a = .ok b := by
  cases first <;> simp [bind, Except.bind]

/-- A sequence of two steps fails when the first does, or the second on a result of the first. -/
theorem bind_eq_error {α β : Type} {first : Except Fault α} {next : α → Except Fault β}
    {fault : Fault} : (first >>= next) = .error fault ↔
      first = .error fault ∨ ∃ a, first = .ok a ∧ next a = .error fault := by
  cases first <;> simp [bind, Except.bind]

/-- A second step matters only on results of the first. -/
theorem bind_congr {α β : Type} {first : Except Fault α} {next next' : α → Except Fault β}
    (h : ∀ a, first = .ok a → next a = next' a) : first >>= next = first >>= next' := by
  cases first with
  | error fault => rfl
  | ok a => exact h a rfl

end Fault

end DataCalculus
