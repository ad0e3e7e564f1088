import DataCalculus.Proofs.Inhabitants
import DataCalculus.Proofs.Locality

/-!
# Types of results across registries

A result is of the type that its term or function was built with, also where the interpreter belongs
to another registry and the values to yet others. Variables and constructors are checked when they are
evaluated, and branches were checked when they were put together. Such a result need not be a valid
value of any registry, and there may well be none.
-/

namespace DataCalculus

set_option autoImplicit false

/-- All branches of a made case analysis are of its type. -/
theorem Term.Made.branch_ty {ty : Name} {scrutinee : Term} {branches : List (Name × Func)}
    {deps : Deps} (h : (Term.caseOf ty scrutinee branches deps).Made) :
    ∀ b ∈ branches, b.2.ty = ty := by
  generalize ht : Term.caseOf ty scrutinee branches deps = t at h
  cases h with
  | free step =>
    obtain ⟨_, _, _, rfl⟩ := Registry.free_eq_ok.1 step
    cases ht
  | construct parts step =>
    obtain ⟨_, _, _, _, _, _, _, rfl⟩ := Registry.construct_eq_ok.1 step
    cases ht
  | constant v =>
    cases v
    cases ht
  | func part => cases ht
  | call function parts step =>
    obtain ⟨_, _, _, rfl⟩ := Func.call_eq_ok.1 step
    cases ht
  | caseOf part parts ordered step =>
    obtain ⟨_, _, _, _, _, hcovered, _, rfl⟩ := (Registry.caseOf_eq_ok ordered).1 step
    cases ht
    exact hcovered.result

namespace Interpreter

variable {I : Interpreter}

/-- The invariant of evaluation, which asks nothing of the environment or the arguments. -/
theorem eval_ty (hI : I.registry.Reachable) :
    (∀ t : Term, t.Made → ∀ env depth v, I.eval t env depth = .ok v → v.ty = t.ty) ∧
    ∀ f : Func, f.Made → ∀ args env depth v, I.applyAt f args env depth = .ok v → v.ty = f.ty := by
  refine Term.induct ?free ?construct ?func ?call ?caseOf ?mk
  case free =>
    intro name ty _ env depth v h
    obtain ⟨_, _, hread⟩ := Fault.bind_eq_ok.1 h
    exact (Env.read_eq_ok.1 hread).2
  case construct =>
    intro ty tag args deps _ _ env depth v h
    obtain ⟨_, _, hvalue⟩ := eval_construct_eq_ok h
    obtain ⟨decl, hd, _, rfl⟩ := Registry.value_eq_ok.1 hvalue
    exact (hI.name_eq hd).1
  case func =>
    intro f ih ht env depth v h
    obtain ⟨_, _, happly⟩ := Fault.bind_eq_ok.1 h
    exact ih ht.joined [] env depth v happly
  case call =>
    intro f args deps ihf _ ht env depth v h
    simp only [eval, Fault.bind_eq_ok] at h
    obtain ⟨_, _, vs, _, happly⟩ := h
    exact ihf ht.joined.1 vs env depth v happly
  case caseOf =>
    intro ty scrutinee branches deps _ ihb ht env depth v h
    simp only [eval, Fault.bind_eq_ok] at h
    obtain ⟨_, _, w, _, hbranch⟩ := h
    -- The tag of `w` may come from anywhere, but only a branch can take `w` on.
    obtain ⟨b, hb, happly⟩ := exists_branch_of_evalBranch hbranch
    have hmade : b.2.Made := ht.joined.2.1 b hb
    exact (ihb b hb hmade w.args env depth v happly).trans (ht.branch_ty b hb)
  case mk =>
    intro params body deps ih hf args env depth v h
    rw [applyAt] at h
    by_cases hl : args.length = params.length
    · rw [if_neg (not_not_intro hl)] at h
      exact ih hf.inv.1 _ (depth + 1) v h
    · rw [if_pos hl] at h
      cases h

/-- Over every reachable registry and with any settings, a term or function that any registries made
has results of its type only, in every environment and on all arguments. -/
theorem results_have_the_type_built (I : Interpreter) (hI : I.registry.Reachable) :
    (∀ t : Term, t.Made → ∀ (env : Env) (v : Value), I.evaluate t env = .ok v → v.ty = t.ty) ∧
    ∀ f : Func, f.Made → ∀ (env : Env) (args : List Value) (v : Value),
      I.apply f env args = .ok v → v.ty = f.ty := by
  obtain ⟨hterm, hfunc⟩ := eval_ty hI
  constructor
  · intro t ht env v h
    obtain ⟨_, _, heval⟩ := Fault.bind_eq_ok.1 h
    exact hterm t ht env 0 v heval
  · intro f hf env args v h
    exact hfunc f hf args env 0 v h

/-- A registry with another type `Nat`, which has zero and minus one. -/
def integers : Registry :=
  ⟨.single "Nat" ⟨"Nat", (Table.single "zero" []).insert "minusOne" []⟩, .single "Nat" ()⟩

/-- The predecessor of a number that neither of the two registries can make, and a function that passes
over an argument of another type. -/
theorem minus_one_is_still_a_number :
    (evaluate ⟨integers, {}⟩ .predecessor
        (.single "n" (.mk "Nat" "next" [.mk "Nat" "minusOne" []])) = .ok (.mk "Nat" "minusOne" []) ∧
      (Value.mk "Nat" "minusOne" []).ty = Term.predecessor.ty) ∧
    apply ⟨integers, {}⟩ second .empty [.mk "Bool" "true" [], .mk "Nat" "minusOne" []] =
        .ok (.mk "Nat" "minusOne" []) ∧
      (Value.mk "Nat" "minusOne" []).ty = second.ty := by
  have hintegers : integers.Reachable := by
    have h : Registry.ofDecls [("Nat", [("zero", []), ("minusOne", [])])] = .ok integers := rfl
    exact Registry.reachable_of_ofDecls h
  obtain ⟨hterm, hfunc⟩ := results_have_the_type_built ⟨integers, {}⟩ hintegers
  have heval : evaluate ⟨integers, {}⟩ .predecessor
      (.single "n" (.mk "Nat" "next" [.mk "Nat" "minusOne" []])) = .ok (.mk "Nat" "minusOne" []) := rfl
  have happly : apply ⟨integers, {}⟩ second .empty
      [.mk "Bool" "true" [], .mk "Nat" "minusOne" []] = .ok (.mk "Nat" "minusOne" []) := rfl
  exact ⟨⟨heval, hterm _ Term.predecessor_built.made _ _ heval⟩,
    happly, hfunc _ second_made _ _ _ happly⟩

end Interpreter

end DataCalculus
