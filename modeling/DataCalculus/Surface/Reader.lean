import DataCalculus.Json.Reader
import DataCalculus.Surface.Head
import DataCalculus.Term.Build

/-!
# Reading surface forms

Trees are read into terms and values of a registry, which checks them as they are built. The parts
of a form are read before the form is built, from left to right, and the branches of a case
analysis in the order of their tags, so that the fault is that of the innermost, leftmost part.
-/

namespace DataCalculus

set_option autoImplicit false

mutual

def Registry.readValue (R : Registry) : Json → Except Fault Value
  | .arr (.str head :: items) =>
    match Surface.typeAndTag? head with
    | some (ty, tag) => do
      let args ← R.readValues items
      R.value ty tag args
    | none => .error (.unrecognized (.str head))
  | .arr (head :: _) => .error (.unrecognized head)
  | j => .error (.unrecognized j)

def Registry.readValues (R : Registry) : List Json → Except Fault (List Value)
  | [] => .ok []
  | item :: items => do
    let value ← R.readValue item
    let values ← R.readValues items
    return value :: values

end

def Registry.readParam (R : Registry) : Json → Except Fault Param
  | .str s =>
    match Surface.typedName? s with
    | some (name, ty) => R.param name ty
    | none => .error (.malformedVariable (.str s))
  | j => .error (.malformedVariable j)

mutual

def Registry.readTerm (R : Registry) : Json → Except Fault Term
  | .str s =>
    match Surface.typedName? s with
    | some (name, ty) => R.free name ty
    | none => .error (.malformedVariable (.str s))
  | .arr items => R.readForm items
  | j => .error (.unrecognized j)

def Registry.readForm (R : Registry) : List Json → Except Fault Term
  | .arr params :: items => do
    let f ← R.readFunc params items
    return .func f
  | .str head :: items =>
    match Surface.Head.ofString? head, items with
    | some (.construct ty tag), items => do
      let args ← R.readTerms items
      R.construct ty tag args
    | some (.call ty), literal :: items => do
      let decl ← R.get ty
      let f ← R.readLiteral literal
      let args ← R.readTerms items
      let t ← f.call args
      if t.ty = decl.name then return t else .error (.resultTypeMismatch decl.name t.ty)
    | some (.caseOf ty), [scrutinee, .obj fields] => do
      let t ← R.readTerm scrutinee
      let branches ← R.readBranches fields
      R.caseOf ty t branches
    | some _, items => .error (.unrecognized (.arr (.str head :: items)))
    | none, _ => .error (.unrecognized (.str head))
  | head :: _ => .error (.unrecognized head)
  | [] => .error (.unrecognized (.arr []))

def Registry.readTerms (R : Registry) : List Json → Except Fault (List Term)
  | [] => .ok []
  | item :: items => do
    let t ← R.readTerm item
    let ts ← R.readTerms items
    return t :: ts

/-- Reads a function from its parameters and the items that should be its body. -/
def Registry.readFunc (R : Registry) (params : List Json) : List Json → Except Fault Func
  | [body] => do
    let params ← params.mapM R.readParam
    let body ← R.readTerm body
    Func.build params body
  | items => .error (.functionBody items.length)

def Registry.readLiteral (R : Registry) : Json → Except Fault Func
  | .arr (.arr params :: items) => R.readFunc params items
  | j => .error (.unrecognized j)

def Registry.readBranches (R : Registry) : List (String × Json) → Except Fault (Entries Func)
  | [] => .ok []
  | (tag, literal) :: fields => do
    let f ← R.readLiteral literal
    let branches ← R.readBranches fields
    return (tag, f) :: branches

end

/-- Reads a term from JSON text; the whole text has to be JSON before its form counts. -/
def Registry.readText (R : Registry) (s : String) : Except Fault Term :=
  match Json.ofText? s with
  | some j => R.readTerm j
  | none => .error .malformedText

end DataCalculus
