import DataCalculus.Term.Build

/-!
# Evaluation

Terms are evaluated to values of a registry, arguments before functions and from left to right.
Calls bind parameters in an environment of their own. The level of a term is counted from the
root: arguments, scrutinees and the bodies of functions are one level below. A limit on the level
is part of the settings; it is compared with the count and does not bound the recursion, which
follows the term.
-/

namespace DataCalculus

set_option autoImplicit false

structure Settings where
  /-- The deepest level that may be evaluated. -/
  maxDepth : Option Nat := none
  /-- Whether the registry has to pass its check. -/
  checkRegistry : Bool := true
  deriving DecidableEq

structure Interpreter where
  registry : Registry
  settings : Settings

namespace Interpreter

/-- An interpreter for a registry, which is checked if the settings ask for it. -/
def build (registry : Registry) (settings : Settings) : Except Fault Interpreter :=
  if settings.checkRegistry then do
    registry.check
    return ⟨registry, settings⟩
  else .ok ⟨registry, settings⟩

def enter (I : Interpreter) (depth : Nat) : Except Fault Unit :=
  match I.settings.maxDepth with
  | some limit => if limit < depth then .error (.depthExceeded limit) else .ok ()
  | none => .ok ()

mutual

/-- The value of a term at a level. -/
def eval (I : Interpreter) : Term → Env → Nat → Except Fault Value
  | .free name ty, env, depth => do
    I.enter depth
    env.read name ty
  | .construct ty tag args _, env, depth => do
    I.enter depth
    let values ← I.evalAll args env (depth + 1)
    I.registry.value ty tag values
  | .func f, env, depth => do
    I.enter depth
    I.applyAt f [] env depth
  | .call f args _, env, depth => do
    I.enter depth
    let values ← I.evalAll args env (depth + 1)
    I.applyAt f values env depth
  | .caseOf _ scrutinee branches _, env, depth => do
    I.enter depth
    let value ← I.eval scrutinee env (depth + 1)
    I.evalBranch branches value env depth

def evalAll (I : Interpreter) : List Term → Env → Nat → Except Fault (List Value)
  | [], _, _ => .ok []
  | t :: ts, env, depth => do
    let value ← I.eval t env depth
    let values ← I.evalAll ts env depth
    return value :: values

/-- The value of a function literal over arguments, for a term at level `depth`. -/
def applyAt (I : Interpreter) : Func → List Value → Env → Nat → Except Fault Value
  | .mk params body _, args, env, depth =>
    if args.length ≠ params.length then
      .error (.argumentCountMismatch params.length args.length)
    else I.eval body (env.extend (params.map Param.name) args) (depth + 1)

/-- The value of the branch for a value, for a term at level `depth`. -/
def evalBranch (I : Interpreter) : List (Name × Func) → Value → Env → Nat → Except Fault Value
  | [], value, _, _ => .error (.missingBranch value.ty value.tag)
  | (tag, f) :: branches, value, env, depth =>
    if value.tag = tag then I.applyAt f value.args env depth
    else I.evalBranch branches value env depth

end

/-- The value of a term whose dependencies the environment satisfies. -/
def evaluate (I : Interpreter) (t : Term) (env : Env) : Except Fault Value := do
  t.checkDeps env
  I.eval t env 0

/-- The value of a function over arguments, of which only the number is checked. -/
def apply (I : Interpreter) (f : Func) (env : Env) (args : List Value) : Except Fault Value :=
  I.applyAt f args env 0

end Interpreter

end DataCalculus
