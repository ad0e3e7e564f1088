import DataCalculus.Term.Basic
import DataCalculus.Value.Valid

/-!
# Building terms

The checked ways to make terms. A registry makes variables, constructors, parameters and case
analyses of its types; functions and calls are made of parts that are already there. All of them
join the dependencies of the parts. Whether a constructor gets the arguments that it takes is left
to evaluation. The terms that the builders of one registry lead to, constants of its values included,
are those built over it.
-/

namespace DataCalculus

set_option autoImplicit false

namespace Registry

/-- A parameter of a declared type, whose name is an identifier. -/
def param (R : Registry) (name ty : Name) : Except Fault Param :=
  if !name.isIdentifier then .error (.invalidName name)
  else do
    let decl ← R.get ty
    return ⟨name, decl.name⟩

/-- A free variable of a declared type, whose name is an identifier. -/
def free (R : Registry) (name ty : Name) : Except Fault Term :=
  if !name.isIdentifier then .error (.invalidName name)
  else do
    let decl ← R.get ty
    return .free name decl.name

/-- A declared constructor, whose tag is an identifier, over arguments that agree on their
variables. -/
def construct (R : Registry) (ty tag : Name) (args : List Term) : Except Fault Term := do
  let decl ← R.get ty
  let _ ← decl.signature tag
  if !tag.isIdentifier then .error (.invalidName tag)
  else
    let deps ← Deps.union (args.map Term.deps)
    return .construct decl.name tag args deps

end Registry

mutual

/-- The term that a value is, tags of any form included. -/
def Term.constant : Value → Term
  | .mk ty tag args => .construct ty tag (Term.constants args) .empty

def Term.constants : List Value → List Term
  | [] => []
  | arg :: args => Term.constant arg :: Term.constants args

end

namespace Func

/-- The fault of the first parameter that repeats an earlier name, or that the body uses at
another type. -/
def paramFault? (used : Deps) (earlier : List Name) : List Param → Option Fault
  | [] => none
  | p :: ps =>
    if p.name ∈ earlier then some (.repeatedParameter p.name)
    else match used.get? p.name with
      | some ty =>
        if ty = p.ty then paramFault? used (p.name :: earlier) ps
        else some (.inconsistentVariable p.name p.ty ty)
      | none => paramFault? used (p.name :: earlier) ps

/-- A function of distinct parameters, which the body uses at their types. -/
def build (params : List Param) (body : Term) : Except Fault Func :=
  match paramFault? body.deps [] params with
  | some fault => .error fault
  | none => .ok (.mk params body (body.deps.without (params.map Param.name)))

/-- The fault of the first argument that is of another type than its parameter. -/
def argumentFault? : List Param → List Term → Option Fault
  | p :: ps, arg :: args =>
    if arg.ty = p.ty then argumentFault? ps args
    else some (.parameterTypeMismatch p.name p.ty arg.ty)
  | _, _ => none

/-- A call with an argument of the right type for each parameter. -/
def call (f : Func) (args : List Term) : Except Fault Term :=
  if args.length ≠ f.arity then .error (.argumentCountMismatch f.arity args.length)
  else match argumentFault? f.params args with
    | some fault => .error fault
    | none => do
      let deps ← Deps.union (f.deps :: args.map Term.deps)
      return .call f args deps

end Func

namespace TypeDecl

/-- The fault of the branch for one constructor: it is missing, takes other arguments, or is of
another type than `ty`. -/
def branchFault? (decl : TypeDecl) (ty : Name) (branches : Entries Func) (tag : Name)
    (signature : List Name) : Option Fault :=
  match branches.get? tag with
  | none => some (.missingBranch decl.name tag)
  | some f =>
    if f.signature ≠ signature then
      some (.branchSignatureMismatch decl.name tag signature f.signature)
    else if f.ty ≠ ty then some (.resultTypeMismatch ty f.ty)
    else none

/-- The fault of the first constructor with a bad branch, or else of the first branch without a
constructor. -/
def branchesFault? (decl : TypeDecl) (ty : Name) (branches : Entries Func) : Option Fault :=
  match decl.constructors.entries.findSome? fun c => decl.branchFault? ty branches c.1 c.2 with
  | some fault => some fault
  | none => (branches.keys.find? fun tag => !decl.hasConstructor tag).map fun tag =>
      .unknownConstructor decl.name tag

end TypeDecl

namespace Registry

/-- A function from the names and types of its parameters. -/
def func (R : Registry) (params : List (Name × Name)) (body : Term) : Except Fault Func := do
  let params ← params.mapM fun p => R.param p.1 p.2
  Func.build params body

/-- A case analysis of declared type `ty`: one branch for each constructor of the scrutinee's
type, which takes the arguments of the constructor and is of type `ty`. -/
def caseOf (R : Registry) (ty : Name) (scrutinee : Term) (branches : Entries Func) :
    Except Fault Term := do
  let result ← R.get ty
  let decl ← R.get scrutinee.ty
  match decl.branchesFault? result.name branches with
  | some fault => .error fault
  | none =>
    let deps ← Deps.union (scrutinee.deps :: branches.map fun b => b.2.deps)
    return .caseOf result.name scrutinee branches deps

end Registry

mutual

/-- Made by the builders of the registry. -/
inductive Term.Built (R : Registry) : Term → Prop where
  | free {name ty : Name} {t : Term} (step : R.free name ty = .ok t) : Term.Built R t
  | construct {ty tag : Name} {args : List Term} {t : Term}
      (parts : ∀ arg ∈ args, Term.Built R arg) (step : R.construct ty tag args = .ok t) :
      Term.Built R t
  | constant {v : Value} (part : v.Built R) : Term.Built R (Term.constant v)
  | func {f : Func} (part : Func.Built R f) : Term.Built R (.func f)
  | call {f : Func} {args : List Term} {t : Term} (function : Func.Built R f)
      (parts : ∀ arg ∈ args, Term.Built R arg) (step : f.call args = .ok t) : Term.Built R t
  | caseOf {ty : Name} {scrutinee : Term} {branches : List (Name × Func)} {t : Term}
      (part : Term.Built R scrutinee) (parts : ∀ branch ∈ branches, Func.Built R branch.2)
      (ordered : Entries.Ordered branches) (step : R.caseOf ty scrutinee branches = .ok t) :
      Term.Built R t

/-- Made by the builders of the registry. -/
inductive Func.Built (R : Registry) : Func → Prop where
  | mk {params : List Param} {body : Term} {f : Func}
      (declared : ∀ p ∈ params, R.param p.name p.ty = .ok p) (part : Term.Built R body)
      (step : Func.build params body = .ok f) : Func.Built R f

end

end DataCalculus
