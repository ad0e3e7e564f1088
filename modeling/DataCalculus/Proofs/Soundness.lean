import DataCalculus.Interpreter
import DataCalculus.Proofs.BuiltTerms

/-!
# Evaluation of built terms

Evaluating a built term in an environment of built values that satisfies its dependencies gives a
valid value of the type of the term, or one of four faults, each of which is due to a node of the
term or to the depth limit. So a term that no node is to blame for has a value. Nothing is said
about registries other than the one that the term was built over.
-/

namespace DataCalculus

set_option autoImplicit false

namespace Interpreter

/-- The faults of evaluation, each with the node among `nodes` that is to blame: a constructor over
more, fewer or other arguments than it takes, or a function literal with parameters. The types of
arguments are those of the argument terms. -/
inductive Blamed (I : Interpreter) (nodes : List Term) : Fault → Prop where
  | arity {ty tag : Name} {args : List Term} {deps : Deps} {decl : TypeDecl} {signature : List Name}
      (node : .construct ty tag args deps ∈ nodes) (declared : I.registry.types.get? ty = some decl)
      (constructor : decl.constructors.get? tag = some signature)
      (differ : args.length ≠ signature.length) :
      Blamed I nodes (.arityMismatch ty tag signature.length args.length)
  | argument {ty tag : Name} {args : List Term} {deps : Deps} {decl : TypeDecl}
      {signature : List Name} {index : Nat} {expected got : Name}
      (node : .construct ty tag args deps ∈ nodes) (declared : I.registry.types.get? ty = some decl)
      (constructor : decl.constructors.get? tag = some signature)
      (differ : firstMismatch 0 signature (args.map Term.ty) = some (index, expected, got)) :
      Blamed I nodes (.argumentTypeMismatch ty tag index expected got)
  | literal {f : Func} (node : .func f ∈ nodes) (params : f.params ≠ []) :
      Blamed I nodes (.argumentCountMismatch f.arity 0)
  | depth {limit : Nat} (limited : I.settings.maxDepth = some limit) :
      Blamed I nodes (.depthExceeded limit)

theorem Blamed.mono {I : Interpreter} {nodes more : List Term} {fault : Fault}
    (h : I.Blamed nodes fault) (hsub : ∀ s ∈ nodes, s ∈ more) : I.Blamed more fault := by
  cases h with
  | arity node hd hs hl => exact .arity (hsub _ node) hd hs hl
  | argument node hd hs hm => exact .argument (hsub _ node) hd hs hm
  | literal node hp => exact .literal (hsub _ node) hp
  | depth hlimit => exact .depth hlimit

/-- A result with the property `P`, or a fault that one of the nodes is to blame for. -/
def Outcome {α : Type} (I : Interpreter) (nodes : List Term) (P : α → Prop) : Except Fault α → Prop
  | .ok a => P a
  | .error fault => I.Blamed nodes fault

section Outcomes

variable {α β : Type} {I : Interpreter} {nodes : List Term} {P : α → Prop} {Q : β → Prop}

theorem Outcome.bind {first : Except Fault α} {next : α → Except Fault β}
    (h : I.Outcome nodes P first) (hnext : ∀ a, P a → I.Outcome nodes Q (next a)) :
    I.Outcome nodes Q (first >>= next) := by
  cases first with
  | ok a => exact hnext a h
  | error fault => exact h

theorem Outcome.mono {more : List Term} {r : Except Fault α} (h : I.Outcome nodes P r)
    (hsub : ∀ s ∈ nodes, s ∈ more) : I.Outcome more P r := by
  cases r with
  | ok a => exact h
  | error fault => exact Blamed.mono h hsub

theorem enter_outcome (depth : Nat) : I.Outcome nodes (fun _ => True) (I.enter depth) := by
  unfold enter
  cases hm : I.settings.maxDepth with
  | none => trivial
  | some limit =>
    by_cases hl : limit < depth
    · simp only [hl, ↓reduceIte]
      exact .depth hm
    · simp only [hl, ↓reduceIte]
      trivial

end Outcomes

end Interpreter

section Scopes

variable {R : Registry}

/-- All values in the environment are valid. -/
def Env.Valid (R : Registry) (env : Env) : Prop := ∀ x v, env.get? x = some v → v.Valid R

theorem Env.Valid.extend {env : Env} (h : env.Valid R) (names : List Name) {vs : List Value}
    (hv : ∀ v ∈ vs, v.Valid R) : (env.extend names vs).Valid R := by
  induction names generalizing env vs with
  | nil => exact h
  | cons name names ih =>
    cases vs with
    | nil => exact h
    | cons v vs =>
      obtain ⟨hfirst, hrest⟩ := List.forall_mem_cons.1 hv
      rw [Env.extend_cons]
      refine ih ?_ hrest
      intro x w hw
      rw [Env.bind, Table.get?_insert] at hw
      by_cases hx : x = name
      · rw [if_pos hx] at hw
        obtain rfl := Option.some.inj hw
        exact hfirst
      · rw [if_neg hx] at hw
        exact h x w hw

/-- Among parameters and values of their types, a name is found with a value of the type of its
parameter unless it is no parameter. -/
theorem get?_zip_params {params : List Param} {vs : List Value}
    (h : vs.map Value.ty = params.map Param.ty) (x : Name) :
    (x ∉ params.map Param.name ∧ Entries.get? ((params.map Param.name).zip vs) x = none) ∨
      ∃ v, Entries.get? ((params.map Param.name).zip vs) x = some v ∧
        ∃ p ∈ params, p.name = x ∧ v.ty = p.ty := by
  induction params generalizing vs with
  | nil => exact .inl ⟨List.not_mem_nil, rfl⟩
  | cons p params ih =>
    cases vs with
    | nil => cases h
    | cons v vs =>
      obtain ⟨hv, hvs⟩ := List.cons.inj h
      simp only [List.map_cons, List.zip_cons_cons, Entries.get?, List.mem_cons, not_or]
      by_cases hx : x = p.name
      · exact .inr ⟨v, by simp [hx], p, .inl rfl, hx.symm, hv⟩
      · simp only [hx, ↓reduceIte, not_false_eq_true, true_and]
        rcases ih hvs with hnone | ⟨w, hw, q, hq, hname, hty⟩
        · exact .inl hnone
        · exact .inr ⟨w, hw, q, .inr hq, hname, hty⟩

/-- Calling a function on values of its parameter types satisfies what the body needs, whatever
the parameters hide in the environment. -/
theorem Func.Checked.satisfied {f : Func} (hf : f.Checked R) {env : Env} {vs : List Value}
    (henv : f.deps.Satisfied env) (hvs : vs.map Value.ty = f.signature) :
    f.body.deps.Satisfied (env.extend (f.params.map Param.name) vs) := by
  intro x T hx
  rw [Env.get?_extend hf.distinct]
  rcases get?_zip_params hvs x with ⟨hfree, hnone⟩ | ⟨v, hv, p, hp, rfl, hty⟩
  · rw [hnone, Option.none_or]
    apply henv
    rw [hf.deps_eq, Table.get?_without, if_neg hfree]
    exact hx
  · rw [hv, Option.some_or]
    exact ⟨v, rfl, hty.trans (hf.used p hp T hx).symm⟩

theorem Deps.Satisfied.part {parts : List Deps} {deps part : Deps} {env : Env}
    (h : deps.Satisfied env) (hu : Deps.union parts = .ok deps) (hp : part ∈ parts) :
    part.Satisfied env := by
  intro x T hx
  exact h x T ((Deps.union_eq_ok.1 hu x T).2 ⟨part, hp, hx⟩)

end Scopes

namespace Interpreter

variable {R : Registry} {settings : Settings} {nodes : List Term}

/-- A valid value of the type. -/
def Inhabits (R : Registry) (ty : Name) (v : Value) : Prop := v.ty = ty ∧ v.Valid R

theorem value_outcome (hR : R.Reachable) {ty tag : Name} {args : List Term} {deps : Deps}
    {decl : TypeDecl} {signature : List Name} (node : .construct ty tag args deps ∈ nodes)
    (hd : R.types.get? ty = some decl) (hs : decl.constructors.get? tag = some signature)
    {vs : List Value} (hty : vs.map Value.ty = args.map Term.ty) (hv : ∀ v ∈ vs, v.Valid R) :
    Outcome ⟨R, settings⟩ nodes (Inhabits R ty) (R.value ty tag vs) := by
  have hname := (hR.name_eq hd).1
  cases hr : R.value ty tag vs with
  | ok v =>
    obtain ⟨decl', hd', _, rfl⟩ := Registry.value_eq_ok.1 hr
    refine ⟨?_, Value.valid_of_value hR hr hv⟩
    exact (hR.name_eq hd').1
  | error fault =>
    have hlen : vs.length = args.length := by
      have := congrArg List.length hty
      simpa using this
    rw [Registry.value, Registry.get_eq_ok.2 hd] at hr
    change (decl.signature tag >>= _) = _ at hr
    rw [TypeDecl.signature_eq_ok.2 hs] at hr
    change (if _ then _ else _) = _ at hr
    rw [hty, hlen, hname] at hr
    by_cases hl : args.length = signature.length
    · rw [if_neg (not_not_intro hl)] at hr
      cases hm : firstMismatch 0 signature (args.map Term.ty) with
      | none =>
        rw [hm] at hr
        cases hr
      | some mismatch =>
        rw [hm] at hr
        obtain rfl := Except.error.inj hr
        exact .argument node hd hs hm
    · rw [if_pos hl] at hr
      obtain rfl := Except.error.inj hr
      exact .arity node hd hs hl

theorem evalAll_outcome {I : Interpreter} {args : List Term} {env : Env} {depth : Nat}
    (hsub : ∀ arg ∈ args, ∀ s ∈ arg.subterms, s ∈ nodes)
    (h : ∀ arg ∈ args, I.Outcome arg.subterms (Inhabits R arg.ty) (I.eval arg env depth)) :
    I.Outcome nodes (fun vs => vs.map Value.ty = args.map Term.ty ∧ ∀ v ∈ vs, v.Valid R)
      (I.evalAll args env depth) := by
  induction args with
  | nil => exact ⟨rfl, fun v hv => absurd hv List.not_mem_nil⟩
  | cons arg args ih =>
    obtain ⟨harg, hargs⟩ := List.forall_mem_cons.1 h
    obtain ⟨hfirst, hrest⟩ := List.forall_mem_cons.1 hsub
    rw [evalAll]
    refine (harg.mono hfirst).bind fun v hv => (ih hrest hargs).bind fun vs hvs => ?_
    refine ⟨?_, List.forall_mem_cons.2 ⟨hv.2, hvs.2⟩⟩
    rw [List.map_cons, List.map_cons, hv.1, hvs.1]

theorem evalBranch_eq {I : Interpreter} {branches : Entries Func} {v : Value} {f : Func}
    (h : branches.get? v.tag = some f) (env : Env) (depth : Nat) :
    I.evalBranch branches v env depth = I.applyAt f v.args env depth := by
  induction branches with
  | nil => cases h
  | cons b branches ih =>
    obtain ⟨tag, g⟩ := b
    rw [Entries.get?] at h
    rw [evalBranch]
    by_cases ht : v.tag = tag
    · rw [if_pos ht] at h ⊢
      rw [Option.some.inj h]
    · rw [if_neg ht] at h ⊢
      exact ih h

/-- A valid value of the scrutinee's type meets a branch that takes its arguments. -/
theorem exists_branch {decl : TypeDecl} {ty scrutinee : Name} {branches : Entries Func}
    (hd : R.types.get? scrutinee = some decl) (hc : decl.CoveredBy ty branches) {v : Value}
    (hv : Inhabits R scrutinee v) :
    ∃ f, branches.get? v.tag = some f ∧ v.args.map Value.ty = f.signature ∧
      ∀ arg ∈ v.args, arg.Valid R := by
  obtain ⟨rfl, hvalid⟩ := hv
  obtain ⟨hd', hs, hargs⟩ := hvalid
  rw [Value.ty_mk, hd'] at hd
  obtain rfl := Option.some.inj hd
  rw [hc.signatures, Option.map_eq_some_iff] at hs
  obtain ⟨f, hf, hsig⟩ := hs
  exact ⟨f, hf, hsig.symm, hargs⟩

theorem applyAt_no_args {I : Interpreter} {f : Func} (hp : f.params ≠ []) (env : Env) (depth : Nat) :
    I.applyAt f [] env depth = .error (.argumentCountMismatch f.arity 0) := by
  obtain ⟨params, body, deps⟩ := f
  have hlen : ([] : List Value).length ≠ params.length := by
    cases params with
    | nil => exact absurd rfl hp
    | cons p params => simp
  rw [applyAt, if_pos hlen]
  rfl

theorem applyAt_eq {I : Interpreter} {f : Func} {vs : List Value}
    (hvs : vs.map Value.ty = f.signature) (env : Env) (depth : Nat) :
    I.applyAt f vs env depth =
      I.eval f.body (env.extend (f.params.map Param.name) vs) (depth + 1) := by
  obtain ⟨params, body, deps⟩ := f
  have hlen : vs.length = params.length := by
    have h := congrArg List.length hvs
    simpa [Func.signature] using h
  rw [applyAt, if_neg (not_not_intro hlen), Func.params_mk, Func.body_mk]

/-- The invariant of evaluation, for terms at every level and for functions on arguments of the
right types. -/
theorem eval_outcome (hR : R.Reachable) :
    (∀ t : Term, t.Built R → ∀ env depth, env.Valid R → t.deps.Satisfied env →
      Outcome ⟨R, settings⟩ t.subterms (Inhabits R t.ty) (eval ⟨R, settings⟩ t env depth)) ∧
    ∀ f : Func, f.Built R → ∀ vs env depth, vs.map Value.ty = f.signature →
      (∀ v ∈ vs, v.Valid R) → env.Valid R → f.deps.Satisfied env →
      Outcome ⟨R, settings⟩ f.subterms (Inhabits R f.ty) (applyAt ⟨R, settings⟩ f vs env depth) := by
  -- The environment grows at each call, so that it stays general in the induction.
  refine Term.induct ?free ?construct ?func ?call ?caseOf ?mk
  case free =>
    intro name ty _ env depth henv hdeps
    have hself : (Table.single name ty).get? name = some ty := by
      simp [Table.get?_eq_some_iff, Table.single]
    obtain ⟨v, hv, hty⟩ := hdeps name ty hself
    rw [eval]
    refine (enter_outcome depth).bind fun _ _ => ?_
    rw [Env.read_eq_ok.2 ⟨hv, hty⟩]
    exact ⟨hty, henv name v hv⟩
  case construct =>
    intro ty tag args deps ih h env depth henv hdeps
    obtain ⟨⟨decl, signature, hd, hs⟩, hargs, hu⟩ := h.checked hR
    have hsub : ∀ arg ∈ args, ∀ s ∈ arg.subterms, s ∈ (Term.construct ty tag args deps).subterms :=
      fun arg ha s hs => Term.mem_subterms_construct.2 (.inr ⟨arg, ha, hs⟩)
    have hparts : ∀ arg ∈ args, Outcome ⟨R, settings⟩ arg.subterms (Inhabits R arg.ty)
        (eval ⟨R, settings⟩ arg env (depth + 1)) := by
      intro arg ha
      exact ih arg ha (hargs arg ha) _ _ henv (hdeps.part hu (List.mem_map_of_mem ha))
    rw [eval]
    refine (enter_outcome depth).bind fun _ _ => (evalAll_outcome hsub hparts).bind fun vs hvs => ?_
    exact value_outcome hR (Term.self_mem_subterms _) hd hs hvs.1 hvs.2
  case func =>
    intro f ih h env depth henv hdeps
    rw [eval]
    refine (enter_outcome depth).bind fun _ _ => ?_
    by_cases hp : f.params = []
    · have hnil : ([] : List Value).map Value.ty = f.signature := by simp [Func.signature, hp]
      have hnone : ∀ v ∈ ([] : List Value), v.Valid R := fun v hv => absurd hv List.not_mem_nil
      refine (ih (h.checked hR) [] env depth hnil hnone henv hdeps).mono fun s hs => ?_
      exact Term.mem_subterms_func.2 (.inr hs)
    · rw [applyAt_no_args hp]
      exact .literal (Term.self_mem_subterms _) hp
  case call =>
    intro f args deps ihf iha h env depth henv hdeps
    obtain ⟨hf, hargs, hsig, hu⟩ := h.checked hR
    have hsub : ∀ arg ∈ args, ∀ s ∈ arg.subterms, s ∈ (Term.call f args deps).subterms :=
      fun arg ha s hs => Term.mem_subterms_call.2 (.inr (.inr ⟨arg, ha, hs⟩))
    have hparts : ∀ arg ∈ args, Outcome ⟨R, settings⟩ arg.subterms (Inhabits R arg.ty)
        (eval ⟨R, settings⟩ arg env (depth + 1)) := by
      intro arg ha
      have harg := hdeps.part hu (List.mem_cons_of_mem _ (List.mem_map_of_mem ha))
      exact iha arg ha (hargs arg ha) _ _ henv harg
    rw [eval]
    refine (enter_outcome depth).bind fun _ _ => (evalAll_outcome hsub hparts).bind fun vs hvs => ?_
    have hfdeps := hdeps.part hu List.mem_cons_self
    refine (ihf hf vs env depth (hvs.1.trans hsig) hvs.2 henv hfdeps).mono fun s hs => ?_
    exact Term.mem_subterms_call.2 (.inr (.inl hs))
  case caseOf =>
    intro ty scrutinee branches deps iht ihb h env depth henv hdeps
    obtain ⟨ht, hbranches, _, _, ⟨decl, hd, hc⟩, hu⟩ := h.checked hR
    have htdeps := hdeps.part hu List.mem_cons_self
    have hscrutinee : Outcome ⟨R, settings⟩ (Term.caseOf ty scrutinee branches deps).subterms
        (Inhabits R scrutinee.ty) (eval ⟨R, settings⟩ scrutinee env (depth + 1)) := by
      refine (iht ht env (depth + 1) henv htdeps).mono fun s hs => ?_
      exact Term.mem_subterms_caseOf.2 (.inr (.inl hs))
    rw [eval]
    refine (enter_outcome depth).bind fun _ _ => hscrutinee.bind fun v hv => ?_
    obtain ⟨f, hf, hsig, hvs⟩ := exists_branch hd hc hv
    have hb : (v.tag, f) ∈ branches := Entries.mem_of_get? hf
    have hfdeps := hdeps.part hu (List.mem_cons_of_mem _ (List.mem_map_of_mem hb))
    have hresult : f.ty = ty := hc.result _ hb
    rw [evalBranch_eq hf, Term.ty, ← hresult]
    refine (ihb _ hb (hbranches _ hb) v.args env depth hsig hvs henv hfdeps).mono fun s hs => ?_
    exact Term.mem_subterms_caseOf.2 (.inr (.inr ⟨_, hb, hs⟩))
  case mk =>
    intro params body deps ih h vs env depth hvs hv henv hdeps
    rw [applyAt_eq hvs]
    exact ih h.checked.body _ _ (henv.extend _ hv) (h.checked.satisfied hdeps hvs)

theorem evaluate_eq_eval {I : Interpreter} {t : Term} {env : Env} (h : t.checkDeps env = .ok ()) :
    I.evaluate t env = I.eval t env 0 := by
  rw [evaluate, h]
  rfl

theorem evaluate_outcome (hR : R.Reachable) (settings : Settings) {t : Term} (ht : t.Built R)
    {env : Env} (henv : ∀ x v, env.get? x = some v → v.Built R) (h : t.checkDeps env = .ok ()) :
    Outcome ⟨R, settings⟩ t.subterms (Inhabits R t.ty) (evaluate ⟨R, settings⟩ t env) := by
  rw [evaluate_eq_eval h]
  have hvalid : env.Valid R := fun x v hv => (henv x v hv).valid hR
  exact (eval_outcome hR).1 t ht env 0 hvalid (Deps.check_eq_ok.1 h)

/-- A built term fails before it is evaluated, at its least unsatisfied dependency, or it has a
valid value of its type, or it fails in one of four ways; variables, branches, types and
constructors are never missing in its evaluation. -/
theorem evaluate_sound (hR : R.Reachable) {t : Term} (ht : t.Built R) {env : Env}
    (henv : ∀ x v, env.get? x = some v → v.Built R) (settings : Settings) :
    (∀ fault, t.checkDeps env = .error fault → evaluate ⟨R, settings⟩ t env = .error fault ∧
      ∃ name ty, (name, ty) ∈ t.deps.entries ∧ (¬ ∃ v, env.get? name = some v ∧ v.ty = ty) ∧
        (∀ x T, (x, T) ∈ t.deps.entries → x < name → ∃ v, env.get? x = some v ∧ v.ty = T) ∧
        fault = .unsatisfiedDependency name ty ((env.get? name).map Value.ty)) ∧
    (t.checkDeps env = .ok () →
      (∃ v, evaluate ⟨R, settings⟩ t env = .ok v ∧ v.ty = t.ty ∧ v.Valid R) ∨
      (∃ ty tag expected got, expected ≠ got ∧
        evaluate ⟨R, settings⟩ t env = .error (.arityMismatch ty tag expected got)) ∨
      (∃ ty tag index expected got,
        evaluate ⟨R, settings⟩ t env = .error (.argumentTypeMismatch ty tag index expected got)) ∨
      (∃ expected, 1 ≤ expected ∧
        evaluate ⟨R, settings⟩ t env = .error (.argumentCountMismatch expected 0)) ∨
      ∃ limit, settings.maxDepth = some limit ∧
        evaluate ⟨R, settings⟩ t env = .error (.depthExceeded limit)) := by
  constructor
  · intro fault h
    refine ⟨?_, ?_⟩
    · rw [evaluate, h]
      rfl
    · simp only [← Table.get?_eq_some_iff]
      exact Deps.check_eq_error h
  · intro h
    have ho := evaluate_outcome hR settings ht henv h
    cases hr : evaluate ⟨R, settings⟩ t env with
    | ok v =>
      rw [hr] at ho
      exact .inl ⟨v, rfl, ho.1, ho.2⟩
    | error fault =>
      rw [hr] at ho
      cases ho with
      | arity _ _ _ differ => exact .inr (.inl ⟨_, _, _, _, differ.symm, rfl⟩)
      | argument => exact .inr (.inr (.inl ⟨_, _, _, _, _, rfl⟩))
      | literal _ hp =>
        exact .inr (.inr (.inr (.inl ⟨_, List.length_pos_iff.2 hp, rfl⟩)))
      | depth hl => exact .inr (.inr (.inr (.inr ⟨_, hl, rfl⟩)))

theorem predecessor_sound :
    (∃ v, evaluate ⟨.naturals, {}⟩ .predecessor .one = .ok v ∧ v.ty = "Nat" ∧ v.Valid .naturals) ∧
    evaluate ⟨.naturals, {}⟩ .predecessor .empty =
      .error (.unsatisfiedDependency "n" "Nat" none) := by
  have hzero : evaluate ⟨.naturals, {}⟩ .predecessor .one = .ok (.mk "Nat" "zero" []) := rfl
  constructor
  · have hsound := evaluate_sound Registry.naturals_reachable Term.predecessor_built Env.one_built {}
    rcases hsound.2 rfl with h | ⟨_, _, _, _, _, h⟩ | ⟨_, _, _, _, _, h⟩ | ⟨_, _, h⟩ | ⟨_, _, h⟩
    · exact h
    all_goals
      rw [hzero] at h
      cases h
  · have hempty : ∀ x v, (Table.empty : Env).get? x = some v → v.Built .naturals := by
      intro x v hv
      cases hv
    have hsound := evaluate_sound Registry.naturals_reachable Term.predecessor_built hempty {}
    exact (hsound.1 _ rfl).1

/-- A built term has a value if its constructors stand over argument terms of the types that they
take and its function literals have no parameters. What is checked when values are made never
refuses what these conditions allow. -/
theorem evaluate_progress (hR : R.Reachable) {t : Term} (ht : t.Built R)
    (hnodes : ∀ ty tag args deps, .construct ty tag args deps ∈ t.subterms →
      ∃ decl, R.types.get? ty = some decl ∧ decl.constructors.get? tag = some (args.map Term.ty))
    (hliterals : ∀ f, .func f ∈ t.subterms → f.params = [])
    {env : Env} (henv : ∀ x v, env.get? x = some v → v.Built R)
    (hdeps : t.checkDeps env = .ok ()) {settings : Settings} (hlimit : settings.maxDepth = none) :
    ∃ v, evaluate ⟨R, settings⟩ t env = .ok v ∧ v.ty = t.ty ∧ v.Valid R := by
  have hsignature : ∀ {ty tag args deps decl signature},
      .construct ty tag args deps ∈ t.subterms → R.types.get? ty = some decl →
      decl.constructors.get? tag = some signature → signature = args.map Term.ty := by
    intro ty tag args deps decl signature node hd hs
    obtain ⟨decl', hd', hs'⟩ := hnodes ty tag args deps node
    rw [hd] at hd'
    obtain rfl := Option.some.inj hd'
    rw [hs] at hs'
    exact Option.some.inj hs'
  have ho := evaluate_outcome hR settings ht henv hdeps
  cases hr : evaluate ⟨R, settings⟩ t env with
  | ok v =>
    rw [hr] at ho
    exact ⟨v, rfl, ho.1, ho.2⟩
  | error fault =>
    -- Each kind of blame contradicts one of the conditions.
    rw [hr] at ho
    exfalso
    cases ho with
    | arity node hd hs differ =>
      rw [hsignature node hd hs, List.length_map] at differ
      exact differ rfl
    | argument node hd hs differ =>
      rw [hsignature node hd hs, (firstMismatch_eq_none rfl).2 rfl] at differ
      cases differ
    | literal node hp => exact hp (hliterals _ node)
    | depth hl =>
      rw [hlimit] at hl
      cases hl

theorem predecessor_of_one_progress : Term.predecessor.checkDeps .one = .ok () ∧
    ∃ v, evaluate ⟨.naturals, {}⟩ .predecessor .one = .ok v ∧ v.ty = "Nat" ∧ v.Valid .naturals := by
  have hdeps : Term.predecessor.checkDeps .one = .ok () := rfl
  have hsub : Term.predecessor.subterms = [.caseOf "Nat" (.free "n" "Nat") Func.predecessorBranches
      (.single "n" "Nat"), .free "n" "Nat", .free "m" "Nat", .construct "Nat" "zero" [] .empty] := rfl
  refine ⟨hdeps, evaluate_progress Registry.naturals_reachable Term.predecessor_built ?_ ?_
    Env.one_built hdeps rfl⟩
  · intro ty tag args deps h
    rw [hsub] at h
    obtain ⟨rfl, rfl, rfl, rfl⟩ : ty = "Nat" ∧ tag = "zero" ∧ args = [] ∧ deps = .empty := by
      simpa using h
    exact ⟨⟨"Nat", (Table.single "zero" []).insert "next" ["Nat"]⟩, rfl, rfl⟩
  · intro f h
    rw [hsub] at h
    simp at h

end Interpreter

end DataCalculus
