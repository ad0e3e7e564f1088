import DataCalculus.Term.Basic

/-!
# Parts of terms

Induction over terms and functions by their parts, and the listing of all subterms of a term in the
order in which a reader of its surface form meets them: a term before its parts, a function before
its arguments, a scrutinee before the branches.
-/

namespace DataCalculus

set_option autoImplicit false

/-- What holds of a node whenever it holds of the parts of the node holds of every term and of
every function. -/
theorem Term.induct {P : Term → Prop} {Q : Func → Prop} (free : ∀ name ty, P (.free name ty))
    (construct : ∀ ty tag args deps, (∀ arg ∈ args, P arg) → P (.construct ty tag args deps))
    (func : ∀ f, Q f → P (.func f))
    (call : ∀ f args deps, Q f → (∀ arg ∈ args, P arg) → P (.call f args deps))
    (caseOf : ∀ ty scrutinee branches deps, P scrutinee → (∀ b ∈ branches, Q b.2) →
      P (.caseOf ty scrutinee branches deps))
    (mk : ∀ params body deps, P body → Q (.mk params body deps)) :
    (∀ t, P t) ∧ ∀ f, Q f := by
  have hterm : ∀ t, P t := @Term.rec P Q (fun args => ∀ arg ∈ args, P arg)
    (fun branches => ∀ b ∈ branches, Q b.2) (fun b => Q b.2) free construct func call caseOf mk
    (fun _ h => absurd h List.not_mem_nil)
    (fun _ _ ht hts => List.forall_mem_cons.2 ⟨ht, hts⟩)
    (fun _ h => absurd h List.not_mem_nil)
    (fun _ _ hb hbs => List.forall_mem_cons.2 ⟨hb, hbs⟩)
    (fun _ _ hf => hf)
  refine ⟨hterm, ?_⟩
  rintro ⟨params, body, deps⟩
  exact mk params body deps (hterm body)

mutual

/-- The term and all terms in it, each before its parts. -/
def Term.subterms : Term → List Term
  | .free name ty => [.free name ty]
  | .construct ty tag args deps => .construct ty tag args deps :: Term.subtermsAll args
  | .func f => .func f :: f.subterms
  | .call f args deps => .call f args deps :: (f.subterms ++ Term.subtermsAll args)
  | .caseOf ty scrutinee branches deps =>
    .caseOf ty scrutinee branches deps :: (scrutinee.subterms ++ Func.subtermsAll branches)

def Term.subtermsAll : List Term → List Term
  | [] => []
  | t :: ts => t.subterms ++ Term.subtermsAll ts

/-- The body and all terms in it. -/
def Func.subterms : Func → List Term
  | .mk _ body _ => body.subterms

def Func.subtermsAll : List (Name × Func) → List Term
  | [] => []
  | (_, f) :: branches => f.subterms ++ Func.subtermsAll branches

end

namespace Term

theorem subtermsAll_eq_flatMap (ts : List Term) : subtermsAll ts = ts.flatMap subterms := by
  induction ts with
  | nil => rfl
  | cons t ts ih => rw [subtermsAll, ih, List.flatMap_cons]

end Term

theorem Func.subtermsAll_eq_flatMap (branches : List (Name × Func)) :
    Func.subtermsAll branches = branches.flatMap fun b => b.2.subterms := by
  induction branches with
  | nil => rfl
  | cons b branches ih => rw [Func.subtermsAll, ih, List.flatMap_cons]

namespace Term

variable {s : Term}

theorem self_mem_subterms (t : Term) : t ∈ t.subterms := by
  cases t <;> simp [subterms]

theorem mem_subterms_construct {ty tag : Name} {args : List Term} {deps : Deps} :
    s ∈ (construct ty tag args deps).subterms ↔
      s = .construct ty tag args deps ∨ ∃ arg ∈ args, s ∈ arg.subterms := by
  rw [subterms, subtermsAll_eq_flatMap, List.mem_cons, List.mem_flatMap]

theorem mem_subterms_func {f : Func} : s ∈ (func f).subterms ↔ s = .func f ∨ s ∈ f.subterms := by
  rw [subterms, List.mem_cons]

theorem mem_subterms_call {f : Func} {args : List Term} {deps : Deps} :
    s ∈ (call f args deps).subterms ↔
      s = .call f args deps ∨ s ∈ f.subterms ∨ ∃ arg ∈ args, s ∈ arg.subterms := by
  rw [subterms, subtermsAll_eq_flatMap, List.mem_cons, List.mem_append, List.mem_flatMap]

theorem mem_subterms_caseOf {ty : Name} {scrutinee : Term} {branches : List (Name × Func)}
    {deps : Deps} : s ∈ (caseOf ty scrutinee branches deps).subterms ↔
      s = .caseOf ty scrutinee branches deps ∨ s ∈ scrutinee.subterms ∨
        ∃ b ∈ branches, s ∈ b.2.subterms := by
  rw [subterms, Func.subtermsAll_eq_flatMap, List.mem_cons, List.mem_append, List.mem_flatMap]

/-- The functions that the node itself has. -/
def ownFunctions : Term → List Func
  | .free _ _ | .construct _ _ _ _ => []
  | .func f | .call f _ _ => [f]
  | .caseOf _ _ branches _ => branches.map (·.2)

/-- All functions in the term. -/
def functions (t : Term) : List Func := t.subterms.flatMap ownFunctions

end Term

end DataCalculus
