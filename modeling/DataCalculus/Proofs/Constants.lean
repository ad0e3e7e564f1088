import DataCalculus.Proofs.Inhabitants

/-!
# Constants

A value that can be had from a registry evaluates to itself as a constant, under every limit from its
height on. A function can be applied to values, or it can be called in a term on the constants of the
values. Both ways enter its body at the same level, so that they agree on every body, on those that
exceed the limit as well, provided that the limit leaves room for the constants: these stand one level
below the call and are evaluated once more. The function need not be built over the registry.
-/

namespace DataCalculus

set_option autoImplicit false

/-- Constants add no dependencies to a call. -/
theorem Func.call_constants {f : Func} {vs : List Value} {t : Term}
    (h : f.call (Term.constants vs) = .ok t) : t = .call f (Term.constants vs) f.deps := by
  obtain ⟨_, deps, hu, rfl⟩ := Func.call_eq_ok.1 h
  have hdeps : deps = f.deps := by
    apply Table.ext_get?
    intro x
    apply Option.ext
    intro T
    rw [Term.constants_eq_map, List.map_map, Deps.union_cons_map_eq_ok] at hu
    rw [hu]
    simp
  rw [hdeps]

namespace Interpreter

variable {I : Interpreter} {vs : List Value} {env : Env} {depth : Nat}

/-- A lifted value is a closed term of the type of the value. In every environment it evaluates to the
value it was lifted from, unless there is a limit below the height of the value, which is then
exceeded. -/
theorem lifted_value_evaluates_to_itself_up_to_its_height {R : Registry} (hR : R.Reachable)
    {v : Value} (hv : v.Obtainable R) (env : Env) (settings : Settings) :
    (Term.constant v).isClosed = true ∧ (Term.constant v).ty = v.ty ∧
    evaluate ⟨R, settings⟩ (.constant v) env = match settings.maxDepth with
      | none => .ok v
      | some limit => if v.height ≤ limit then .ok v else .error (.depthExceeded limit) := by
  have hdeps : (Term.constant v).deps = .empty := Term.deps_constant v
  have hcheck : (Term.constant v).checkDeps env = .ok () := by
    rw [Term.checkDeps, hdeps]
    rfl
  have heval := eval_constant_reaches (I := ⟨R, settings⟩) hR (hv.valid hR) env 0
  rw [Nat.zero_add] at heval
  refine ⟨?_, Term.ty_constant v, ?_⟩
  · rw [Term.isClosed, hdeps]
    rfl
  · rw [evaluate_eq_eval hcheck]
    exact heval.run_eq settings.maxDepth

/-- The second argument of this tree is the higher one, and it is the one that exceeds a limit of
one. -/
theorem tree_of_height_two_is_lifted :
    evaluate ⟨.trees, ⟨some 2, true⟩⟩ (.constant (.node .leaf (.node .leaf .leaf))) .empty =
      .ok (.node .leaf (.node .leaf .leaf)) ∧
    evaluate ⟨.trees, ⟨some 1, true⟩⟩ (.constant (.node .leaf (.node .leaf .leaf))) .empty =
      .error (.depthExceeded 1) := by
  have hbuilt : (Value.node .leaf (.node .leaf .leaf)).Built .trees :=
    Value.node_built Value.leaf_built
      (Value.node_built Value.leaf_built Value.leaf_built rfl rfl) rfl rfl
  have h := lifted_value_evaluates_to_itself_up_to_its_height Registry.trees_reachable
    hbuilt.obtainable .empty
  exact ⟨(h ⟨some 2, true⟩).2.2, (h ⟨some 1, true⟩).2.2⟩

/-- A call on constants is the application to their values, at every level that leaves room for
them. -/
theorem eval_call_constants (hR : I.registry.Reachable) (hv : ∀ v ∈ vs, v.Valid I.registry)
    (hroom : ∀ limit, I.settings.maxDepth = some limit → depth + Value.heightAll vs ≤ limit)
    (f : Func) (deps : Deps) :
    I.eval (.call f (Term.constants vs) deps) env depth = I.applyAt f vs env depth := by
  have henter : I.enter depth = .ok () := enter_eq_ok.2 fun limit hl =>
    Nat.le_trans (Nat.le_add_right depth _) (hroom limit hl)
  rw [eval, henter, evalAll_constants hR hv env hroom]
  rfl

/-- Applying a function to values that the registry built gives what evaluating its call on their
constants gives, the same value or the same fault, in every environment that satisfies the function.
A depth limit has to be at least one more than the height of each of the values. -/
theorem apply_eq_evaluate_call {R : Registry} (hR : R.Reachable) {f : Func} {vs : List Value}
    (hvs : ∀ v ∈ vs, v.Built R) {t : Term} (hcall : f.call (Term.constants vs) = .ok t) {env : Env}
    (hdeps : f.deps.check env = .ok ()) {settings : Settings}
    (hroom : ∀ limit, settings.maxDepth = some limit → ∀ v ∈ vs, 1 + v.height ≤ limit) :
    apply ⟨R, settings⟩ f env vs = evaluate ⟨R, settings⟩ t env := by
  obtain rfl := Func.call_constants hcall
  have hvalid : ∀ v ∈ vs, v.Valid R := fun v hv => (hvs v hv).valid hR
  have hbelow : ∀ limit, settings.maxDepth = some limit → 0 + Value.heightAll vs ≤ limit := by
    intro limit hl
    rw [Nat.zero_add, Value.heightAll_le_iff]
    intro v hv
    have h := hroom limit hl v hv
    omega
  have hcheck : (Term.call f (Term.constants vs) f.deps).checkDeps env = .ok () := hdeps
  calc apply ⟨R, settings⟩ f env vs
      = applyAt ⟨R, settings⟩ f vs env 0 := rfl
    _ = eval ⟨R, settings⟩ (.call f (Term.constants vs) f.deps) env 0 :=
        (eval_call_constants hR hvalid hbelow f f.deps).symm
    _ = evaluate ⟨R, settings⟩ (.call f (Term.constants vs) f.deps) env :=
        (evaluate_eq_eval hcheck).symm

/-- The number one, which is of height one. -/
def one : Value := .mk "Nat" "next" [.mk "Nat" "zero" []]

/-- The predecessor as a function. -/
def predecessorFunc : Func := .mk [⟨"n", "Nat"⟩] .predecessor .empty

/-- A limit of two leaves just enough room for one as an argument. -/
theorem predecessor_of_one_applied_and_called :
    apply ⟨.naturals, ⟨some 2, true⟩⟩ predecessorFunc .empty [one] = .ok (.mk "Nat" "zero" []) ∧
    apply ⟨.naturals, ⟨some 2, true⟩⟩ predecessorFunc .empty [one] =
      evaluate ⟨.naturals, ⟨some 2, true⟩⟩ (.call predecessorFunc (Term.constants [one]) .empty)
        .empty := by
  have hcall : predecessorFunc.call (Term.constants [one]) =
      .ok (.call predecessorFunc (Term.constants [one]) .empty) := rfl
  refine ⟨rfl, apply_eq_evaluate_call Registry.naturals_reachable ?_ hcall rfl ?_⟩
  · intro v hv
    rw [List.mem_singleton.1 hv]
    exact Env.one_built "n" one rfl
  · intro limit hl v hv
    obtain rfl : 2 = limit := Option.some.inj hl
    rw [List.mem_singleton.1 hv]
    decide

/-- Under a limit of one, which suffices for the body of the identity, its argument is too high. -/
example : let f : Func := .mk [⟨"n", "Nat"⟩] (.free "n" "Nat") .empty
    apply ⟨.naturals, ⟨some 1, true⟩⟩ f .empty [one] = .ok one ∧
    evaluate ⟨.naturals, ⟨some 1, true⟩⟩ (.call f (Term.constants [one]) .empty) .empty =
      .error (.depthExceeded 1) := ⟨rfl, rfl⟩

end Interpreter

end DataCalculus
