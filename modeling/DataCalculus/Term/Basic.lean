import DataCalculus.Deps

/-!
# Terms

Terms are free variables, constructors, function literals, calls of function literals and case
analyses. Functions are no values: a literal that stands as a term is called without arguments.
Constructors, calls, case analyses and functions carry their dependencies, which were computed
when they were built; nothing here says that these are the free variables of the term. Where a
variable stands free in a term, and how many levels evaluation counts in it, is said without them.
-/

namespace DataCalculus

set_option autoImplicit false

/-- A variable with its type, as a function takes it. -/
structure Param where
  name : Name
  ty : Name
  deriving DecidableEq

/-- The parameter as it is written in surface forms. -/
def Param.display (p : Param) : String := p.name ++ ":" ++ p.ty

mutual

/-- An expression of a declared type over free variables. -/
inductive Term where
  | free (name ty : Name)
  /-- A constructor over argument terms, whose number and types are not checked. -/
  | construct (ty tag : Name) (args : List Term) (deps : Deps)
  | func (f : Func)
  /-- A function literal with its arguments. -/
  | call (f : Func) (args : List Term) (deps : Deps)
  /-- A case analysis with a branch for each tag. -/
  | caseOf (ty : Name) (scrutinee : Term) (branches : List (Name × Func)) (deps : Deps)

/-- Parameters and a body; the dependencies are those of the body without the parameters. -/
inductive Func where
  | mk (params : List Param) (body : Term) (deps : Deps)

end

namespace Func

def params : Func → List Param
  | .mk params _ _ => params

def body : Func → Term
  | .mk _ body _ => body

def deps : Func → Deps
  | .mk _ _ deps => deps

@[simp] theorem params_mk (ps : List Param) (body : Term) (deps : Deps) :
    (mk ps body deps).params = ps := rfl

@[simp] theorem body_mk (ps : List Param) (body : Term) (deps : Deps) :
    (mk ps body deps).body = body := rfl

@[simp] theorem deps_mk (ps : List Param) (body : Term) (deps : Deps) :
    (mk ps body deps).deps = deps := rfl

def arity (f : Func) : Nat := f.params.length

def signature (f : Func) : List Name := f.params.map Param.ty

end Func

mutual

/-- The type of a term; that of a function literal and of a call is the type of the body. -/
def Term.ty : Term → Name
  | .free _ ty => ty
  | .construct ty _ _ _ => ty
  | .func f => f.ty
  | .call f _ _ => f.ty
  | .caseOf ty _ _ _ => ty

def Func.ty : Func → Name
  | .mk _ body _ => body.ty

end

namespace Term

def deps : Term → Deps
  | .free name ty => .single name ty
  | .construct _ _ _ deps => deps
  | .func f => f.deps
  | .call _ _ deps => deps
  | .caseOf _ _ _ deps => deps

def isClosed (t : Term) : Bool := t.deps.isEmpty

/-- Every dependency has a value of its type, or the fault of the first that has not. -/
def checkDeps (t : Term) (env : Env) : Except Fault Unit := t.deps.check env

/-- The type and the dependencies. -/
def describe (t : Term) : String := t.ty ++ t.deps.display ++ "<...>"

/-- A free variable as it is written, and any other term by its type and dependencies. -/
def display : Term → String
  | .free name ty => name ++ ":" ++ ty
  | t => t.describe

end Term

mutual

/-- The number of levels below the root: arguments, scrutinees and the bodies of functions are one
level below the term that they belong to. -/
def Term.height : Term → Nat
  | .free _ _ => 0
  | .construct _ _ args _ => Term.heightAll args
  | .func f => f.height
  | .call f args _ => max f.height (Term.heightAll args)
  | .caseOf _ scrutinee branches _ => max (scrutinee.height + 1) (Func.heightAll branches)

/-- One more than the greatest height, and zero for no terms. -/
def Term.heightAll : List Term → Nat
  | [] => 0
  | t :: ts => max (t.height + 1) (Term.heightAll ts)

/-- One more than the height of the body. -/
def Func.height : Func → Nat
  | .mk _ body _ => body.height + 1

/-- The greatest height of a branch. -/
def Func.heightAll : List (Name × Func) → Nat
  | [] => 0
  | (_, f) :: branches => max f.height (Func.heightAll branches)

end

theorem Term.height_lt_heightAll {args : List Term} {arg : Term} (h : arg ∈ args) :
    arg.height + 1 ≤ heightAll args := by
  induction args with
  | nil => cases h
  | cons first args ih =>
    rw [heightAll]
    rcases List.mem_cons.1 h with rfl | h
    · omega
    · have hrest := ih h
      omega

theorem Func.height_le_heightAll {branches : List (Name × Func)} {b : Name × Func}
    (h : b ∈ branches) : b.2.height ≤ heightAll branches := by
  induction branches with
  | nil => cases h
  | cons first branches ih =>
    rw [heightAll]
    rcases List.mem_cons.1 h with rfl | h
    · omega
    · have hrest := ih h
      omega

mutual

/-- The variable `x` stands free in the term at type `T`. -/
inductive Term.Occurs (x T : Name) : Term → Prop where
  | free : Term.Occurs x T (.free x T)
  | construct {ty tag : Name} {args : List Term} {deps : Deps} {arg : Term} (mem : arg ∈ args)
      (h : Term.Occurs x T arg) : Term.Occurs x T (.construct ty tag args deps)
  | func {f : Func} (h : Func.Occurs x T f) : Term.Occurs x T (.func f)
  | callFunc {f : Func} {args : List Term} {deps : Deps} (h : Func.Occurs x T f) :
      Term.Occurs x T (.call f args deps)
  | callArg {f : Func} {args : List Term} {deps : Deps} {arg : Term} (mem : arg ∈ args)
      (h : Term.Occurs x T arg) : Term.Occurs x T (.call f args deps)
  | scrutinee {ty : Name} {t : Term} {branches : List (Name × Func)} {deps : Deps}
      (h : Term.Occurs x T t) : Term.Occurs x T (.caseOf ty t branches deps)
  | branch {ty : Name} {t : Term} {branches : List (Name × Func)} {deps : Deps}
      {b : Name × Func} (mem : b ∈ branches) (h : Func.Occurs x T b.2) :
      Term.Occurs x T (.caseOf ty t branches deps)

/-- The variable `x` stands free in the function at type `T`, and is no parameter of it. -/
inductive Func.Occurs (x T : Name) : Func → Prop where
  | body {params : List Param} {body : Term} {deps : Deps} (unbound : ∀ p ∈ params, p.name ≠ x)
      (h : Term.Occurs x T body) : Func.Occurs x T (.mk params body deps)

end

end DataCalculus
