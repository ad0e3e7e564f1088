import DataCalculus.Proofs.LiftedValues
import DataCalculus.Proofs.Locality
import DataCalculus.Proofs.Soundness

/-!
# Substitution

Evaluating a term in an environment gives what evaluating the term with the values of the
environment put in place of its free variables gives. The term with the values in it is again one
that the builders of the registry make, it is closed, and it keeps its type. Constants add levels to
a term, so that nothing is said about evaluation under a depth limit.
-/

namespace DataCalculus

set_option autoImplicit false

mutual

/-- The term with the constants of the values in `σ` in place of its free variables. What a
function binds is left alone in its body, and so are variables without a value. -/
def Term.subst : Term → Env → Term
  | .free name ty, σ =>
    match σ.get? name with
    | some v => .constant v
    | none => .free name ty
  | .construct ty tag args deps, σ => .construct ty tag (Term.substAll args σ) (deps.without σ.keys)
  | .func f, σ => .func (f.subst σ)
  | .call f args deps, σ => .call (f.subst σ) (Term.substAll args σ) (deps.without σ.keys)
  | .caseOf ty scrutinee branches deps, σ =>
    .caseOf ty (scrutinee.subst σ) (Func.substAll branches σ) (deps.without σ.keys)

def Term.substAll : List Term → Env → List Term
  | [], _ => []
  | t :: ts, σ => t.subst σ :: Term.substAll ts σ

def Func.subst : Func → Env → Func
  | .mk params body deps, σ =>
    .mk params (body.subst (σ.without (params.map Param.name))) (deps.without σ.keys)

def Func.substAll : List (Name × Func) → Env → List (Name × Func)
  | [], _ => []
  | (tag, f) :: branches, σ => (tag, f.subst σ) :: Func.substAll branches σ

end

theorem Term.substAll_eq_map (ts : List Term) (σ : Env) : substAll ts σ = ts.map (·.subst σ) := by
  induction ts with
  | nil => rfl
  | cons t ts ih => rw [substAll, ih, List.map_cons]

theorem Func.substAll_eq_map (branches : List (Name × Func)) (σ : Env) :
    substAll branches σ = branches.map fun b => (b.1, b.2.subst σ) := by
  induction branches with
  | nil => rfl
  | cons b branches ih => rw [substAll, ih, List.map_cons]

namespace Deps

/-- What is left of a join when names are left out is the join of what is left of the parts. -/
theorem union_without {parts : List Deps} {deps : Deps} (h : union parts = .ok deps)
    (keys : List Name) : union (parts.map (·.without keys)) = .ok (deps.without keys) := by
  rw [union_map_eq_ok]
  intro x T
  simp only [Table.get?_without]
  by_cases hx : x ∈ keys
  · simp [hx]
  · simp only [hx, ↓reduceIte]
    exact union_eq_ok.1 h x T

/-- The values that `σ` has for variables of the set are of their types. -/
def Admits (deps : Deps) (σ : Env) : Prop :=
  ∀ x T, deps.get? x = some T → ∀ v, σ.get? x = some v → v.ty = T

end Deps

section Functions

variable {R : Registry} {f : Func} {σ : Env}

/-- What the parameters hide does not get into the body. -/
theorem Func.Checked.admits_body (hf : f.Checked R) (h : f.deps.Admits σ) :
    f.body.deps.Admits (σ.without (f.params.map Param.name)) := by
  intro x T hx v hv
  obtain ⟨hfree, hv⟩ := Table.get?_without_eq_some.1 hv
  exact h x T (hf.get?_deps hfree hx) v hv

end Functions

namespace Term

theorem deps_subst (t : Term) (σ : Env) : (t.subst σ).deps = t.deps.without σ.keys := by
  cases t with
  | free name ty =>
    apply Table.ext_get?
    intro x
    rw [subst, Table.get?_without, deps, Table.get?_single]
    cases hv : σ.get? name with
    | some v =>
      have hname : name ∈ σ.keys := Table.mem_keys_iff.2 ⟨v, hv⟩
      by_cases hx : x = name <;> simp [hx, hname]
    | none =>
      have hname : name ∉ σ.keys := Table.not_mem_keys_iff.2 hv
      by_cases hx : x = name <;> simp [hx, hname, deps, Table.get?_single]
  | func f =>
    cases f
    rfl
  | construct | call | caseOf => rfl

end Term

theorem Func.deps_subst (f : Func) (σ : Env) : (f.subst σ).deps = f.deps.without σ.keys := by
  cases f
  rfl

theorem Func.params_subst (f : Func) (σ : Env) : (f.subst σ).params = f.params := by
  cases f
  rfl

theorem Func.signature_subst (f : Func) (σ : Env) : (f.subst σ).signature = f.signature := by
  rw [signature, params_subst, signature]

section Building

variable {R : Registry}

/-- Values of the right types leave the type of a term as it is. -/
theorem ty_subst (hR : R.Reachable) :
    (∀ t : Term, t.Built R → ∀ σ, t.deps.Admits σ → (t.subst σ).ty = t.ty) ∧
      ∀ f : Func, f.Built R → ∀ σ, f.deps.Admits σ → (f.subst σ).ty = f.ty := by
  refine Term.induct ?free ?construct ?func ?call ?caseOf ?mk
  case free =>
    intro name ty _ σ h
    rw [Term.subst]
    cases hv : σ.get? name with
    | none => rfl
    | some v =>
      have hty : v.ty = ty := h name ty (Table.get?_single_self name ty) v hv
      exact (Term.ty_constant v).trans hty
  case construct =>
    intro ty tag args deps _ _ σ _
    rfl
  case func =>
    intro f ih ht σ h
    exact ih (ht.checked hR) σ h
  case call =>
    intro f args deps ihf _ ht σ h
    obtain ⟨hf, _, _, hu⟩ := ht.checked hR
    exact ihf hf σ (Deps.forall_part h hu List.mem_cons_self)
  case caseOf =>
    intro ty scrutinee branches deps _ _ _ σ _
    rfl
  case mk =>
    intro params body deps ih hf σ h
    exact ih hf.checked.body _ (hf.checked.admits_body h)

mutual

/-- A constant has no variables to replace. -/
theorem Term.subst_constant (σ : Env) : ∀ v : Value, (constant v).subst σ = constant v
  | .mk ty tag args => by
    have hdeps : (Table.empty : Deps).without σ.keys = .empty := rfl
    rw [constant, subst, substAll_constants σ args, hdeps]

theorem Term.substAll_constants (σ : Env) :
    ∀ vs : List Value, substAll (constants vs) σ = constants vs
  | [] => rfl
  | v :: vs => by rw [constants, substAll, subst_constant σ v, substAll_constants σ vs]

end

/-- A constructor node that was built is a constant, or was made from its arguments. -/
theorem Term.Built.construct_cases {ty tag : Name} {args : List Term} {deps : Deps}
    (h : (Term.construct ty tag args deps).Built R) :
    (∃ v : Value, v.Built R ∧ Term.construct ty tag args deps = Term.constant v) ∨
      ((∀ arg ∈ args, arg.Built R) ∧
        ∃ ty', R.construct ty' tag args = .ok (.construct ty tag args deps)) := by
  generalize ht : Term.construct ty tag args deps = t at h
  cases h with
  | free step =>
    obtain ⟨_, _, _, rfl⟩ := Registry.free_eq_ok.1 step
    cases ht
  | construct parts step =>
    obtain ⟨_, _, _, _, _, _, _, rfl⟩ := Registry.construct_eq_ok.1 step
    cases ht
    exact .inr ⟨parts, _, step⟩
  | constant part => exact .inl ⟨_, part, rfl⟩
  | func part => cases ht
  | call function parts step =>
    obtain ⟨_, _, _, rfl⟩ := Func.call_eq_ok.1 step
    cases ht
  | caseOf part parts ordered step =>
    obtain ⟨_, _, _, _, _, _, _, rfl⟩ := (Registry.caseOf_eq_ok ordered).1 step
    cases ht

theorem Term.forall_mem_substAll {args : List Term} {σ : Env} {P : Term → Prop}
    (h : ∀ arg ∈ args, P (arg.subst σ)) : ∀ t ∈ substAll args σ, P t := by
  intro t ht
  rw [substAll_eq_map] at ht
  obtain ⟨arg, ha, rfl⟩ := List.mem_map.1 ht
  exact h arg ha

theorem Term.map_deps_substAll (args : List Term) (σ : Env) :
    (substAll args σ).map deps = (args.map deps).map (·.without σ.keys) := by
  rw [substAll_eq_map, List.map_map, List.map_map]
  exact List.map_congr_left fun arg _ => deps_subst arg σ

theorem Func.map_deps_substAll (branches : List (Name × Func)) (σ : Env) :
    ((substAll branches σ).map fun b => b.2.deps) =
      (branches.map fun b => b.2.deps).map (·.without σ.keys) := by
  rw [substAll_eq_map, List.map_map, List.map_map]
  exact List.map_congr_left fun b _ => deps_subst b.2 σ

theorem Func.ordered_substAll {branches : List (Name × Func)} (h : Entries.Ordered branches)
    (σ : Env) : Entries.Ordered (substAll branches σ) := by
  rw [substAll_eq_map]
  exact List.pairwise_map.2 h

theorem TypeDecl.CoveredBy.subst {decl : TypeDecl} {ty : Name} {branches : Entries Func} {σ : Env}
    (hc : decl.CoveredBy ty branches) (hty : ∀ b ∈ branches, (b.2.subst σ).ty = b.2.ty) :
    decl.CoveredBy ty (Func.substAll branches σ) := by
  rw [Func.substAll_eq_map]
  constructor
  · intro tag
    have hsig : Func.signature ∘ (·.subst σ) = Func.signature :=
      funext fun f => f.signature_subst σ
    rw [Entries.get?_map (·.subst σ) branches, Option.map_map, hsig, hc.signatures]
  · intro b hb
    obtain ⟨b', hb', rfl⟩ := List.mem_map.1 hb
    exact (hty b' hb').trans (hc.result b' hb')

/-- Leaving out first what the parameters bind and then the replaced variables is the same as
leaving out first what is replaced in the body and then what the parameters bind. -/
theorem Deps.without_body (deps : Deps) (names : List Name) (σ : Env) :
    (deps.without names).without σ.keys = (deps.without (σ.without names).keys).without names := by
  apply Table.ext_get?
  intro x
  simp only [Table.get?_without]
  by_cases hn : x ∈ names
  · simp [hn]
  · have hkeys : x ∈ (σ.without names).keys ↔ x ∈ σ.keys := by
      rw [Table.mem_keys_iff, Table.mem_keys_iff, Table.get?_without, if_neg hn]
    simp [hn, hkeys]

/-- The builders make the term with the values in it from its parts with the values in them. -/
theorem subst_built (hR : R.Reachable) :
    (∀ t : Term, t.Built R → ∀ σ : Env, (∀ x v, σ.get? x = some v → v.Built R) →
      t.deps.Admits σ → (t.subst σ).Built R) ∧
    ∀ f : Func, f.Built R → ∀ σ : Env, (∀ x v, σ.get? x = some v → v.Built R) →
      f.deps.Admits σ → (f.subst σ).Built R := by
  obtain ⟨hterm, hfunc⟩ := ty_subst hR
  refine Term.induct ?free ?construct ?func ?call ?caseOf ?mk
  case free =>
    intro name ty ht σ hσ _
    rw [Term.subst]
    cases hv : σ.get? name with
    | none => exact ht
    | some v => exact .constant (hσ name v hv)
  case construct =>
    intro ty tag args deps ih ht σ hσ h
    rcases ht.construct_cases with ⟨v, hv, he⟩ | ⟨hargs, ty', step⟩
    · rw [he, Term.subst_constant]
      exact .constant hv
    · obtain ⟨decl, signature, _, hd, hs, hi, hu, he⟩ := Registry.construct_eq_ok.1 step
      cases he
      have hu' : Deps.union ((Term.substAll args σ).map Term.deps) = .ok (deps.without σ.keys) := by
        rw [Term.map_deps_substAll]
        exact Deps.union_without hu σ.keys
      have step' : R.construct ty' tag (Term.substAll args σ) =
          .ok ((Term.construct decl.name tag args deps).subst σ) :=
        Registry.construct_eq_ok.2 ⟨decl, signature, _, hd, hs, hi, hu', rfl⟩
      refine .construct (Term.forall_mem_substAll fun arg ha => ?_) step'
      exact ih arg ha (hargs arg ha) σ hσ (Deps.forall_part h hu (List.mem_map_of_mem ha))
  case func =>
    intro f ih ht σ hσ h
    exact .func (ih (ht.checked hR) σ hσ h)
  case call =>
    intro f args deps ihf iha ht σ hσ h
    obtain ⟨hf, hargs, hsig, hu⟩ := ht.checked hR
    have hfirst : f.deps.Admits σ := Deps.forall_part h hu List.mem_cons_self
    have hpart : ∀ arg ∈ args, arg.deps.Admits σ := fun arg ha =>
      Deps.forall_part h hu (List.mem_cons_of_mem _ (List.mem_map_of_mem ha))
    have hsig' : (Term.substAll args σ).map Term.ty = (f.subst σ).signature := by
      rw [Func.signature_subst, ← hsig, Term.substAll_eq_map, List.map_map]
      exact List.map_congr_left fun arg ha => hterm arg (hargs arg ha) σ (hpart arg ha)
    have hu' : Deps.union ((f.subst σ).deps :: (Term.substAll args σ).map Term.deps) =
        .ok (deps.without σ.keys) := by
      rw [Func.deps_subst, Term.map_deps_substAll]
      exact Deps.union_without hu σ.keys
    have step : (f.subst σ).call (Term.substAll args σ) = .ok ((Term.call f args deps).subst σ) :=
      Func.call_eq_ok.2 ⟨hsig', _, hu', rfl⟩
    refine .call (ihf hf σ hσ hfirst) (Term.forall_mem_substAll fun arg ha => ?_) step
    exact iha arg ha (hargs arg ha) σ hσ (hpart arg ha)
  case caseOf =>
    intro ty scrutinee branches deps iht ihb ht σ hσ h
    obtain ⟨hs, hbranches, hordered, ⟨result, hr⟩, ⟨decl, hd, hc⟩, hu⟩ := ht.checked hR
    have hscrutinee : scrutinee.deps.Admits σ := Deps.forall_part h hu List.mem_cons_self
    have hpart : ∀ b ∈ branches, b.2.deps.Admits σ := fun b hb =>
      Deps.forall_part h hu (List.mem_cons_of_mem _ (List.mem_map_of_mem hb))
    have hty : ∀ b ∈ branches, (b.2.subst σ).ty = b.2.ty := fun b hb =>
      hfunc b.2 (hbranches b hb) σ (hpart b hb)
    have hname := (hR.name_eq hr).1
    have hu' : Deps.union ((scrutinee.subst σ).deps ::
        (Func.substAll branches σ).map fun b => b.2.deps) = .ok (deps.without σ.keys) := by
      rw [Term.deps_subst, Func.map_deps_substAll]
      exact Deps.union_without hu σ.keys
    have hordered' := Func.ordered_substAll hordered σ
    have step : R.caseOf ty (scrutinee.subst σ) (Func.substAll branches σ) =
        .ok ((Term.caseOf ty scrutinee branches deps).subst σ) := by
      refine (Registry.caseOf_eq_ok hordered').2 ⟨result, decl, _, hr, ?_, ?_, hu', ?_⟩
      · rw [hterm scrutinee hs σ hscrutinee, hd]
      · rw [hname]
        exact hc.subst hty
      · rw [hname, Term.subst]
    refine .caseOf (iht hs σ hσ hscrutinee) ?_ hordered' step
    intro b hb
    rw [Func.substAll_eq_map] at hb
    obtain ⟨b', hb', rfl⟩ := List.mem_map.1 hb
    exact ihb b' hb' (hbranches b' hb') σ hσ (hpart b' hb')
  case mk =>
    intro params body deps ih hf σ hσ h
    have hc := hf.checked
    have hσ' : ∀ x v, (σ.without (params.map Param.name)).get? x = some v → v.Built R := by
      intro x v hv
      exact hσ x v (Table.get?_without_eq_some.1 hv).2
    have hbody := ih hc.body _ hσ' (hc.admits_body h)
    have hdeps : deps = body.deps.without (params.map Param.name) := hc.deps_eq
    have step : Func.build params (body.subst (σ.without (params.map Param.name))) =
        .ok ((Func.mk params body deps).subst σ) := by
      refine Func.build_eq_ok.2 ⟨hc.distinct, ?_, ?_⟩
      · intro p hp T hT
        rw [Term.deps_subst] at hT
        exact hc.used p hp T (Table.get?_without_eq_some.1 hT).2
      · rw [Term.deps_subst, Func.subst, hdeps, Deps.without_body]
    refine .mk ?_ hbody step
    intro p hp
    obtain ⟨hi, decl, hd⟩ := hc.declared p hp
    exact Registry.param_eq_ok.2 ⟨hi, decl, hd, by rw [(hR.name_eq hd).1]⟩

end Building

namespace Interpreter

variable {I : Interpreter}

theorem enter_eq_ok {depth : Nat} :
    I.enter depth = .ok () ↔ ∀ limit, I.settings.maxDepth = some limit → depth ≤ limit := by
  unfold enter
  cases I.settings.maxDepth with
  | none => simp
  | some limit =>
    by_cases hl : limit < depth
    · simp [hl, Nat.not_le.2 hl]
    · simp [hl, Nat.not_lt.1 hl]

end Interpreter

/-- In `env` every variable of the set has the value that `σ` has for it, or else that `ρ` has. -/
def Deps.Split (deps : Deps) (env σ ρ : Env) : Prop :=
  ∀ x T, deps.get? x = some T → env.get? x = (σ.get? x).or (ρ.get? x)

/-- A call binds its parameters on the side of `ρ` and takes them from `σ`. -/
theorem Func.Checked.split_body {R : Registry} {f : Func} (hf : f.Checked R) {env σ ρ : Env}
    (h : f.deps.Split env σ ρ) {vs : List Value} (hlen : vs.length = f.params.length) :
    f.body.deps.Split (env.extend (f.params.map Param.name) vs)
      (σ.without (f.params.map Param.name)) (ρ.extend (f.params.map Param.name) vs) := by
  have hlen' : vs.length = (f.params.map Param.name).length := by rw [List.length_map, hlen]
  intro x T hx
  rw [Env.get?_extend hf.distinct, Env.get?_extend hf.distinct, Table.get?_without]
  cases hfound : Entries.get? ((f.params.map Param.name).zip vs) x with
  | none =>
    have hfree := (Entries.get?_zip_eq_none hlen').1 hfound
    rw [if_neg hfree, Option.none_or, Option.none_or, h x T (hf.get?_deps hfree hx)]
  | some v =>
    have hparam : x ∈ f.params.map Param.name := by
      refine Decidable.not_not.1 fun hfree => ?_
      rw [(Entries.get?_zip_eq_none hlen').2 hfree] at hfound
      cases hfound
    rw [if_pos hparam, Option.some_or, Option.some_or, Option.none_or]

namespace Interpreter

variable {R : Registry} {settings : Settings}

/-- Terms with the values of `σ` in them evaluate in `ρ` as the terms themselves evaluate in the
two together, at any levels. -/
theorem eval_subst (hR : R.Reachable) (hlimit : settings.maxDepth = none) :
    (∀ t : Term, t.Built R → ∀ env σ ρ depth₁ depth₂, σ.Valid R → t.deps.Admits σ →
      t.deps.Split env σ ρ →
      eval ⟨R, settings⟩ (t.subst σ) ρ depth₁ = eval ⟨R, settings⟩ t env depth₂) ∧
    ∀ f : Func, f.Built R → ∀ vs env σ ρ depth₁ depth₂, σ.Valid R → f.deps.Admits σ →
      f.deps.Split env σ ρ →
      applyAt ⟨R, settings⟩ (f.subst σ) vs ρ depth₁ = applyAt ⟨R, settings⟩ f vs env depth₂ := by
  -- A part of the values is in the term and a part in `ρ`, which grows at each call.
  have henter : ∀ depth, enter ⟨R, settings⟩ depth = .ok () := fun depth =>
    enter_eq_ok.2 fun limit hl => by rw [hlimit] at hl; cases hl
  refine Term.induct ?free ?construct ?func ?call ?caseOf ?mk
  case free =>
    intro name ty _ env σ ρ depth₁ depth₂ hσ hadmits hsplit
    have hself := Table.get?_single_self name ty
    have hget := hsplit name ty hself
    have hread : eval ⟨R, settings⟩ (.free name ty) env depth₂ = env.read name ty := by
      rw [eval, henter]
      rfl
    rw [hread, Term.subst]
    cases hv : σ.get? name with
    | some v =>
      rw [hv, Option.some_or] at hget
      rw [Env.read_eq_ok.2 ⟨hget, hadmits name ty hself v hv⟩]
      exact eval_constant hR (hσ name v hv) ρ fun limit hl => by rw [hlimit] at hl; cases hl
    | none =>
      rw [hv, Option.none_or] at hget
      rw [Env.read_congr hget]
      simp only [eval, henter]
      rfl
  case construct =>
    intro ty tag args deps ih ht env σ ρ depth₁ depth₂ hσ hadmits hsplit
    obtain ⟨_, hargs, hu⟩ := ht.checked hR
    have hall : evalAll ⟨R, settings⟩ (Term.substAll args σ) ρ (depth₁ + 1) =
        evalAll ⟨R, settings⟩ args env (depth₂ + 1) := by
      rw [Term.substAll_eq_map]
      refine evalAll_congr (List.forall₂_map_left_iff.2 (List.forall₂_same.2 fun arg ha => ?_))
      have hpart : arg.deps ∈ args.map Term.deps := List.mem_map_of_mem ha
      exact ih arg ha (hargs arg ha) _ _ _ _ _ hσ (Deps.forall_part hadmits hu hpart)
        (Deps.forall_part hsplit hu hpart)
    simp only [Term.subst, eval, henter, hall]
  case func =>
    intro f ih ht env σ ρ depth₁ depth₂ hσ hadmits hsplit
    have happly := ih (ht.checked hR) [] env σ ρ depth₁ depth₂ hσ hadmits hsplit
    simp only [Term.subst, eval, henter, happly]
  case call =>
    intro f args deps ihf iha ht env σ ρ depth₁ depth₂ hσ hadmits hsplit
    obtain ⟨hf, hargs, _, hu⟩ := ht.checked hR
    have hall : evalAll ⟨R, settings⟩ (Term.substAll args σ) ρ (depth₁ + 1) =
        evalAll ⟨R, settings⟩ args env (depth₂ + 1) := by
      rw [Term.substAll_eq_map]
      refine evalAll_congr (List.forall₂_map_left_iff.2 (List.forall₂_same.2 fun arg ha => ?_))
      have hpart : arg.deps ∈ f.deps :: args.map Term.deps :=
        List.mem_cons_of_mem _ (List.mem_map_of_mem ha)
      exact iha arg ha (hargs arg ha) _ _ _ _ _ hσ (Deps.forall_part hadmits hu hpart)
        (Deps.forall_part hsplit hu hpart)
    have happly : ∀ vs, applyAt ⟨R, settings⟩ (f.subst σ) vs ρ depth₁ =
        applyAt ⟨R, settings⟩ f vs env depth₂ := fun vs =>
      ihf hf vs _ _ _ _ _ hσ (Deps.forall_part hadmits hu List.mem_cons_self)
        (Deps.forall_part hsplit hu List.mem_cons_self)
    simp only [Term.subst, eval, henter, hall, happly]
  case caseOf =>
    intro ty scrutinee branches deps iht ihb ht env σ ρ depth₁ depth₂ hσ hadmits hsplit
    obtain ⟨hs, hbranches, _, _, _, hu⟩ := ht.checked hR
    have hscrutinee : eval ⟨R, settings⟩ (scrutinee.subst σ) ρ (depth₁ + 1) =
        eval ⟨R, settings⟩ scrutinee env (depth₂ + 1) :=
      iht hs _ _ _ _ _ hσ (Deps.forall_part hadmits hu List.mem_cons_self)
        (Deps.forall_part hsplit hu List.mem_cons_self)
    have hbranch : ∀ v, evalBranch ⟨R, settings⟩ (Func.substAll branches σ) v ρ depth₁ =
        evalBranch ⟨R, settings⟩ branches v env depth₂ := by
      intro v
      rw [Func.substAll_eq_map]
      refine evalBranch_congr (List.forall₂_map_left_iff.2 (List.forall₂_same.2 fun b hb => ?_))
      have hpart : b.2.deps ∈ scrutinee.deps :: branches.map fun b => b.2.deps :=
        List.mem_cons_of_mem _ (List.mem_map_of_mem hb)
      exact ⟨rfl, fun _ => ihb b hb (hbranches b hb) _ _ _ _ _ _ hσ
        (Deps.forall_part hadmits hu hpart) (Deps.forall_part hsplit hu hpart)⟩
    simp only [Term.subst, eval, henter, hscrutinee, hbranch]
  case mk =>
    intro params body deps ih hf vs env σ ρ depth₁ depth₂ hσ hadmits hsplit
    have hc := hf.checked
    rw [Func.subst, applyAt, applyAt]
    by_cases hcount : vs.length = params.length
    · have hσ' : Env.Valid R (σ.without (params.map Param.name)) := fun x v hv =>
        hσ x v (Table.get?_without_eq_some.1 hv).2
      rw [if_neg (not_not_intro hcount), if_neg (not_not_intro hcount)]
      exact ih hc.body _ _ _ _ _ hσ' (hc.admits_body hadmits) (hc.split_body hsplit hcount)
    · rw [if_pos hcount, if_pos hcount]

/-- Putting the values of an environment that satisfies a built term in place of its free variables
gives a closed term of the same type, which the builders make as well, and which without a depth
limit evaluates to the same value or fails with the same fault. -/
theorem evaluate_subst (hR : R.Reachable) {t : Term} (ht : t.Built R) {env : Env}
    (henv : ∀ x v, env.get? x = some v → v.Built R) (hdeps : t.checkDeps env = .ok ()) :
    (t.subst env).Built R ∧ (t.subst env).isClosed = true ∧ (t.subst env).ty = t.ty ∧
    ∀ settings : Settings, settings.maxDepth = none →
      evaluate ⟨R, settings⟩ (t.subst env) .empty = evaluate ⟨R, settings⟩ t env := by
  have hsatisfied : t.deps.Satisfied env := Deps.check_eq_ok.1 hdeps
  have hadmits : t.deps.Admits env := by
    intro x T hx v hv
    obtain ⟨w, hw, hty⟩ := hsatisfied x T hx
    rw [hv] at hw
    obtain rfl := Option.some.inj hw
    exact hty
  have hvalid : env.Valid R := fun x v hv => (henv x v hv).valid hR
  have hempty : (t.subst env).deps = .empty := by
    rw [Term.deps_subst]
    apply Table.ext_get?
    intro x
    rw [Table.get?_empty, Option.eq_none_iff_forall_ne_some]
    intro T hT
    obtain ⟨hunbound, hx⟩ := Table.get?_without_eq_some.1 hT
    obtain ⟨v, hv, _⟩ := hsatisfied x T hx
    exact hunbound (Table.mem_keys_iff.2 ⟨v, hv⟩)
  refine ⟨(subst_built hR).1 t ht env henv hadmits, ?_, (ty_subst hR).1 t ht env hadmits, ?_⟩
  · rw [Term.isClosed, hempty]
    rfl
  · intro settings hlimit
    have hclosed : (t.subst env).checkDeps .empty = .ok () := by
      rw [Term.checkDeps, hempty]
      rfl
    rw [evaluate_eq_eval hdeps, evaluate_eq_eval hclosed]
    refine (eval_subst hR hlimit).1 t ht env env .empty 0 0 hvalid hadmits ?_
    intro x T _
    simp

theorem predecessor_with_one_in_it :
    (Term.predecessor.subst .one).Built .naturals ∧ (Term.predecessor.subst .one).isClosed = true ∧
    evaluate ⟨.naturals, {}⟩ (Term.predecessor.subst .one) .empty = .ok (.mk "Nat" "zero" []) := by
  have hdeps : Term.predecessor.checkDeps .one = .ok () := rfl
  have hzero : evaluate ⟨.naturals, {}⟩ .predecessor .one = .ok (.mk "Nat" "zero" []) := rfl
  obtain ⟨hbuilt, hclosed, _, heval⟩ :=
    evaluate_subst Registry.naturals_reachable Term.predecessor_built Env.one_built hdeps
  exact ⟨hbuilt, hclosed, (heval {} rfl).trans hzero⟩

end Interpreter

end DataCalculus
