import DataCalculus.Proofs.FreeVariables
import DataCalculus.Proofs.Locality
import DataCalculus.Proofs.Soundness
import Mathlib.Data.List.Zip

/-!
# Names of parameters

Terms that differ in the names of their parameters only have the same type and the same dependencies,
and over the registry that they were built with they evaluate to the same value or fail with the same
fault, although environments go by names and a parameter may hide another variable of its name. The
values in the environment have to be built as well: the arguments of another value may not fit a
branch, and the fault of that names the parameter.
-/

namespace DataCalculus

set_option autoImplicit false

/-- The parameters around corresponding places of two terms, in pairs and from the inside out. -/
abbrev Scope := List (Name × Name)

namespace Scope

/-- The names stand for the same variable: for the parameters of the first pair that has one of them,
or for a free variable of this name. -/
def Same : Scope → Name → Name → Prop
  | [], x, y => x = y
  | (a, b) :: scope, x, y => x = a ∧ y = b ∨ x ≠ a ∧ y ≠ b ∧ Same scope x y

instance decidableSame : (scope : Scope) → (x y : Name) → Decidable (scope.Same x y)
  | [], x, y => inferInstanceAs (Decidable (x = y))
  | (a, b) :: scope, x, y =>
    have := decidableSame scope x y
    inferInstanceAs (Decidable (x = a ∧ y = b ∨ x ≠ a ∧ y ≠ b ∧ Same scope x y))

example : Same [("m", "n")] "m" "n" ∧ ¬ Same [("m", "n")] "n" "n" := by decide

variable {scope : Scope} {names names' : List Name} {x y : Name}

theorem Same.swap (h : scope.Same x y) : Same (scope.map Prod.swap) y x := by
  induction scope with
  | nil => exact Eq.symm h
  | cons p scope ih =>
    obtain ⟨a, b⟩ := p
    rcases h with ⟨hx, hy⟩ | ⟨hx, hy, hrest⟩
    · exact .inl ⟨hy, hx⟩
    · exact .inr ⟨hy, hx, ih hrest⟩

/-- A name that the innermost parameters do not bind stands for a name that they do not bind either,
and for the same variable further out. -/
theorem Same.outside (hl : names.length = names'.length)
    (h : Same (names.zip names' ++ scope) x y) (hx : x ∉ names) : y ∉ names' ∧ scope.Same x y := by
  induction names generalizing names' with
  | nil =>
    obtain rfl := List.length_eq_zero_iff.1 hl.symm
    exact ⟨List.not_mem_nil, h⟩
  | cons a names ih =>
    cases names' with
    | nil => cases hl
    | cons b names' =>
      obtain ⟨hxa, hrest⟩ := not_or.1 (List.mem_cons.not.1 hx)
      rcases h with ⟨hbound, _⟩ | ⟨_, hyb, h⟩
      · exact absurd hbound hxa
      · obtain ⟨hy, hsame⟩ := ih (Nat.succ.inj hl) h hrest
        exact ⟨List.mem_cons.not.2 (not_or.2 ⟨hyb, hy⟩), hsame⟩

/-- Names of the same variable find the same value among the values of the innermost parameters. -/
theorem Same.get?_zip (hl : names.length = names'.length)
    (h : Same (names.zip names' ++ scope) x y) (vs : List Value) :
    Entries.get? (names.zip vs) x = Entries.get? (names'.zip vs) y := by
  induction names generalizing names' vs with
  | nil =>
    obtain rfl := List.length_eq_zero_iff.1 hl.symm
    rfl
  | cons a names ih =>
    cases names' with
    | nil => cases hl
    | cons b names' =>
      cases vs with
      | nil => rfl
      | cons v vs =>
        rw [List.zip_cons_cons, List.zip_cons_cons, Entries.get?, Entries.get?]
        rcases h with ⟨hx, hy⟩ | ⟨hx, hy, h⟩
        · rw [if_pos hx, if_pos hy]
        · rw [if_neg hx, if_neg hy, ih (Nat.succ.inj hl) h]

end Scope

mutual

/-- The terms are the same up to the names of parameters, where the parameters around them are paired
in `scope`. Dependencies that are stored in the terms are not compared. -/
inductive Term.AlphaEq : Scope → Term → Term → Prop where
  | free {scope : Scope} {x y ty : Name} (same : scope.Same x y) :
      Term.AlphaEq scope (.free x ty) (.free y ty)
  | construct {scope : Scope} {ty tag : Name} {args args' : List Term} {deps deps' : Deps}
      (count : args.length = args'.length)
      (parts : ∀ t u, (t, u) ∈ args.zip args' → Term.AlphaEq scope t u) :
      Term.AlphaEq scope (.construct ty tag args deps) (.construct ty tag args' deps')
  | func {scope : Scope} {f g : Func} (part : Func.AlphaEq scope f g) :
      Term.AlphaEq scope (.func f) (.func g)
  | call {scope : Scope} {f g : Func} {args args' : List Term} {deps deps' : Deps}
      (function : Func.AlphaEq scope f g) (count : args.length = args'.length)
      (parts : ∀ t u, (t, u) ∈ args.zip args' → Term.AlphaEq scope t u) :
      Term.AlphaEq scope (.call f args deps) (.call g args' deps')
  | caseOf {scope : Scope} {ty : Name} {scrutinee scrutinee' : Term}
      {branches branches' : List (Name × Func)} {deps deps' : Deps}
      (part : Term.AlphaEq scope scrutinee scrutinee') (count : branches.length = branches'.length)
      (keys : ∀ b c, (b, c) ∈ branches.zip branches' → b.1 = c.1)
      (parts : ∀ b c, (b, c) ∈ branches.zip branches' → Func.AlphaEq scope b.2 c.2) :
      Term.AlphaEq scope (.caseOf ty scrutinee branches deps)
        (.caseOf ty scrutinee' branches' deps')

/-- The functions are the same up to the names of parameters, their own included. -/
inductive Func.AlphaEq : Scope → Func → Func → Prop where
  | mk {scope : Scope} {params params' : List Param} {body body' : Term} {deps deps' : Deps}
      (types : params.map Param.ty = params'.map Param.ty)
      (part : Term.AlphaEq ((params.map Param.name).zip (params'.map Param.name) ++ scope) body body') :
      Func.AlphaEq scope (.mk params body deps) (.mk params' body' deps')

end

theorem mem_zip_swap {α β : Type} {as : List α} {bs : List β} {a : α} {b : β}
    (h : (b, a) ∈ bs.zip as) : (a, b) ∈ as.zip bs := by
  rw [← List.zip_swap]
  exact List.mem_map_of_mem h

mutual

theorem Term.AlphaEq.symm :
    {scope : Scope} → {t u : Term} → t.AlphaEq scope u → u.AlphaEq (scope.map Prod.swap) t
  | _, _, _, .free same => .free same.swap
  | _, _, _, .construct count parts =>
    .construct count.symm fun t u h => (parts u t (mem_zip_swap h)).symm
  | _, _, _, .func part => .func part.symm
  | _, _, _, .call function count parts =>
    .call function.symm count.symm fun t u h => (parts u t (mem_zip_swap h)).symm
  | _, _, _, .caseOf part count keys parts =>
    .caseOf part.symm count.symm (fun b c h => (keys c b (mem_zip_swap h)).symm)
      fun b c h => (parts c b (mem_zip_swap h)).symm

theorem Func.AlphaEq.symm :
    {scope : Scope} → {f g : Func} → f.AlphaEq scope g → g.AlphaEq (scope.map Prod.swap) f
  | _, _, _, .mk types part => by
    have hpart := part.symm
    rw [List.map_append, List.zip_swap] at hpart
    exact .mk types.symm hpart

end

mutual

theorem Term.AlphaEq.ty_eq : {scope : Scope} → {t u : Term} → t.AlphaEq scope u → t.ty = u.ty
  | _, _, _, .free _ | _, _, _, .construct _ _ | _, _, _, .caseOf _ _ _ _ => rfl
  | _, _, _, .func part => part.ty_eq
  | _, _, _, .call function _ _ => function.ty_eq

theorem Func.AlphaEq.ty_eq : {scope : Scope} → {f g : Func} → f.AlphaEq scope g → f.ty = g.ty
  | _, _, _, .mk _ part => part.ty_eq

end

theorem Param.length_names_eq {params params' : List Param}
    (h : params.map Param.ty = params'.map Param.ty) :
    (params.map Param.name).length = (params'.map Param.name).length := by
  simpa using congrArg List.length h

theorem exists_mem_zip {α β : Type} {as : List α} {bs : List β} (hl : as.length = bs.length) {a : α}
    (ha : a ∈ as) : ∃ b ∈ bs, (a, b) ∈ as.zip bs := by
  rw [← List.map_fst_zip (Nat.le_of_eq hl), List.mem_map] at ha
  obtain ⟨⟨a, b⟩, hmem, rfl⟩ := ha
  exact ⟨b, (List.of_mem_zip hmem).2, hmem⟩

/-- A variable that stands free in a term stands free in the other at the same type, under the name
that it has there. -/
theorem occurs_alphaEq :
    (∀ t : Term, ∀ u scope, t.AlphaEq scope u → ∀ x T, Term.Occurs x T t →
      ∃ y, scope.Same x y ∧ Term.Occurs y T u) ∧
    ∀ f : Func, ∀ g scope, f.AlphaEq scope g → ∀ x T, Func.Occurs x T f →
      ∃ y, scope.Same x y ∧ Func.Occurs y T g := by
  refine Term.induct ?free ?construct ?func ?call ?caseOf ?mk
  case free =>
    intro name ty u scope h x T hx
    obtain ⟨rfl, rfl⟩ := Term.occurs_free.1 hx
    cases h with
    | free same => exact ⟨_, same, .free⟩
  case construct =>
    intro ty tag args deps ih u scope h x T hx
    obtain ⟨arg, ha, hx⟩ := Term.occurs_construct.1 hx
    cases h with
    | construct count parts =>
      obtain ⟨arg', ha', hpair⟩ := exists_mem_zip count ha
      obtain ⟨y, hsame, hy⟩ := ih arg ha arg' scope (parts _ _ hpair) x T hx
      exact ⟨y, hsame, .construct ha' hy⟩
  case func =>
    intro f ih u scope h x T hx
    cases h with
    | func part =>
      obtain ⟨y, hsame, hy⟩ := ih _ scope part x T (Term.occurs_func.1 hx)
      exact ⟨y, hsame, .func hy⟩
  case call =>
    intro f args deps ihf iha u scope h x T hx
    cases h with
    | call function count parts =>
      rcases Term.occurs_call.1 hx with hx | ⟨arg, ha, hx⟩
      · obtain ⟨y, hsame, hy⟩ := ihf _ scope function x T hx
        exact ⟨y, hsame, .callFunc hy⟩
      · obtain ⟨arg', ha', hpair⟩ := exists_mem_zip count ha
        obtain ⟨y, hsame, hy⟩ := iha arg ha arg' scope (parts _ _ hpair) x T hx
        exact ⟨y, hsame, .callArg ha' hy⟩
  case caseOf =>
    intro ty scrutinee branches deps iht ihb u scope h x T hx
    cases h with
    | caseOf part count keys parts =>
      rcases Term.occurs_caseOf.1 hx with hx | ⟨b, hb, hx⟩
      · obtain ⟨y, hsame, hy⟩ := iht _ scope part x T hx
        exact ⟨y, hsame, .scrutinee hy⟩
      · obtain ⟨c, hc, hpair⟩ := exists_mem_zip count hb
        obtain ⟨y, hsame, hy⟩ := ihb b hb c.2 scope (parts _ _ hpair) x T hx
        exact ⟨y, hsame, .branch hc hy⟩
  case mk =>
    intro params body deps ih g scope h x T hx
    obtain ⟨hfree, hx⟩ := Func.occurs_mk.1 hx
    cases h with
    | mk types part =>
      obtain ⟨y, hsame, hy⟩ := ih _ _ part x T hx
      obtain ⟨hfree', hsame'⟩ := hsame.outside (Param.length_names_eq types) hfree
      exact ⟨y, hsame', Func.occurs_mk.2 ⟨hfree', hy⟩⟩

section Environments

variable {R : Registry} {scope : Scope} {env₁ env₂ : Env}

/-- The first environment has valid values of the right types for the variables of the set, and the
second has these values under the names that stand for the variables there. -/
structure Deps.Mirrored (R : Registry) (deps : Deps) (scope : Scope) (env₁ env₂ : Env) : Prop where
  valid : env₁.Valid R
  satisfied : deps.Satisfied env₁
  same : ∀ x T, deps.get? x = some T → ∀ y, scope.Same x y → env₁.get? x = env₂.get? y

theorem Deps.Mirrored.part {parts : List Deps} {deps part : Deps}
    (h : deps.Mirrored R scope env₁ env₂) (hu : union parts = .ok deps) (hp : part ∈ parts) :
    part.Mirrored R scope env₁ env₂ :=
  ⟨h.valid, h.satisfied.part hu hp, forall_part h.same hu hp⟩

/-- Calls of two functions on the same values bind corresponding parameters to the same value. -/
theorem Func.Checked.mirrored_body {f g : Func} (hf : f.Checked R) (hg : g.Checked R)
    (hl : (f.params.map Param.name).length = (g.params.map Param.name).length)
    (h : f.deps.Mirrored R scope env₁ env₂) {vs : List Value}
    (hvs : vs.map Value.ty = f.signature) (hvalid : ∀ v ∈ vs, v.Valid R) :
    f.body.deps.Mirrored R ((f.params.map Param.name).zip (g.params.map Param.name) ++ scope)
      (env₁.extend (f.params.map Param.name) vs) (env₂.extend (g.params.map Param.name) vs) := by
  refine ⟨h.valid.extend _ hvalid, hf.satisfied h.satisfied hvs, ?_⟩
  intro x T hx y hsame
  rw [Env.get?_extend hf.distinct, Env.get?_extend hg.distinct, ← hsame.get?_zip hl]
  rcases get?_zip_params hvs x with ⟨hfree, hnone⟩ | ⟨v, hv, _⟩
  · -- The name comes from further out, where the environments are as they were.
    obtain ⟨_, hsame⟩ := hsame.outside hl hfree
    rw [hnone, Option.none_or, Option.none_or, h.same x T (hf.get?_deps hfree hx) y hsame]
  · rw [hv, Option.some_or, Option.some_or]

end Environments

namespace Interpreter

variable {R : Registry} {settings : Settings}

theorem inhabits_of_eval (hR : R.Reachable) {t : Term} (ht : t.Built R) {scope : Scope}
    {env₁ env₂ : Env} (henv : t.deps.Mirrored R scope env₁ env₂) {depth : Nat} {v : Value}
    (h : eval ⟨R, settings⟩ t env₁ depth = .ok v) : Inhabits R t.ty v := by
  have ho : Outcome ⟨R, settings⟩ t.subterms (Inhabits R t.ty) (eval ⟨R, settings⟩ t env₁ depth) :=
    (eval_outcome hR).1 t ht env₁ depth henv.valid henv.satisfied
  rw [h] at ho
  exact ho

theorem typed_of_evalAll (hR : R.Reachable) {args : List Term} (hargs : ∀ arg ∈ args, arg.Built R)
    {scope : Scope} {env₁ env₂ : Env}
    (henv : ∀ arg ∈ args, arg.deps.Mirrored R scope env₁ env₂) {depth : Nat} {vs : List Value}
    (h : evalAll ⟨R, settings⟩ args env₁ depth = .ok vs) :
    vs.map Value.ty = args.map Term.ty ∧ ∀ v ∈ vs, v.Valid R := by
  have hparts : ∀ arg ∈ args, Outcome ⟨R, settings⟩ arg.subterms (Inhabits R arg.ty)
      (eval ⟨R, settings⟩ arg env₁ depth) := fun arg ha =>
    (eval_outcome hR).1 arg (hargs arg ha) env₁ depth (henv arg ha).valid (henv arg ha).satisfied
  have ho := evalAll_outcome (fun arg ha s hs => List.mem_flatMap.2 ⟨arg, ha, hs⟩) hparts
  rw [h] at ho
  exact ho

/-- The two runs of terms in environments that mirror each other, and of functions on the same values;
the values are of the types of the parameters if there are as many. -/
theorem eval_alphaEq (hR : R.Reachable) :
    (∀ t : Term, t.Built R → ∀ u scope env₁ env₂ depth, u.Built R → t.AlphaEq scope u →
      t.deps.Mirrored R scope env₁ env₂ →
      eval ⟨R, settings⟩ t env₁ depth = eval ⟨R, settings⟩ u env₂ depth) ∧
    ∀ f : Func, f.Built R → ∀ g scope vs env₁ env₂ depth, g.Built R → f.AlphaEq scope g →
      f.deps.Mirrored R scope env₁ env₂ →
      (vs.length = f.params.length → vs.map Value.ty = f.signature) → (∀ v ∈ vs, v.Valid R) →
      applyAt ⟨R, settings⟩ f vs env₁ depth = applyAt ⟨R, settings⟩ g vs env₂ depth := by
  -- At each call the scope grows with both environments, so that all three stay general.
  refine Term.induct ?free ?construct ?func ?call ?caseOf ?mk
  case free =>
    intro name ty _ u scope env₁ env₂ depth _ h henv
    cases h with
    | @free _ _ y _ same =>
      have hself := Table.get?_single_self name ty
      obtain ⟨v, hv, hty⟩ := henv.satisfied name ty hself
      have hv' : env₂.get? y = some v := by rw [← henv.same name ty hself y same, hv]
      rw [eval, eval, Env.read_eq_ok.2 ⟨hv, hty⟩, Env.read_eq_ok.2 ⟨hv', hty⟩]
  case construct =>
    intro ty tag args deps ih ht u scope env₁ env₂ depth hu h henv
    cases h with
    | @construct _ _ _ _ args' _ _ count parts =>
      obtain ⟨_, hargs, hjoin⟩ := ht.checked hR
      obtain ⟨_, hargs', _⟩ := hu.checked hR
      have hall : evalAll ⟨R, settings⟩ args env₁ (depth + 1) =
          evalAll ⟨R, settings⟩ args' env₂ (depth + 1) := by
        refine evalAll_congr (List.forall₂_iff_zip.2 ⟨count, fun {arg arg'} hpair => ?_⟩)
        obtain ⟨ha, ha'⟩ := List.of_mem_zip hpair
        exact ih arg ha (hargs arg ha) arg' scope _ _ _ (hargs' arg' ha') (parts _ _ hpair)
          (henv.part hjoin (List.mem_map_of_mem ha))
      rw [eval, eval, hall]
  case func =>
    intro f ih ht u scope env₁ env₂ depth hu h henv
    cases h with
    | @func _ _ g part =>
      have hnil : ([] : List Value).length = f.params.length → [] = f.signature := by
        intro hl
        rw [Func.signature, List.length_eq_zero_iff.1 hl.symm, List.map_nil]
      have happly : applyAt ⟨R, settings⟩ f [] env₁ depth = applyAt ⟨R, settings⟩ g [] env₂ depth :=
        ih (ht.checked hR) g scope [] _ _ _ (hu.checked hR) part henv hnil fun v hv =>
          absurd hv List.not_mem_nil
      rw [eval, eval, happly]
  case call =>
    intro f args deps ihf iha ht u scope env₁ env₂ depth hu h henv
    cases h with
    | @call _ _ g _ args' _ _ function count parts =>
      obtain ⟨hf, hargs, hsig, hjoin⟩ := ht.checked hR
      obtain ⟨hg, hargs', _⟩ := hu.checked hR
      have hpart : ∀ arg ∈ args, arg.deps.Mirrored R scope env₁ env₂ := fun arg ha =>
        henv.part hjoin (List.mem_cons_of_mem _ (List.mem_map_of_mem ha))
      have hall : evalAll ⟨R, settings⟩ args env₁ (depth + 1) =
          evalAll ⟨R, settings⟩ args' env₂ (depth + 1) := by
        refine evalAll_congr (List.forall₂_iff_zip.2 ⟨count, fun {arg arg'} hpair => ?_⟩)
        obtain ⟨ha, ha'⟩ := List.of_mem_zip hpair
        exact iha arg ha (hargs arg ha) arg' scope _ _ _ (hargs' arg' ha') (parts _ _ hpair)
          (hpart arg ha)
      rw [eval, eval, ← hall]
      refine Fault.bind_congr fun _ _ => Fault.bind_congr fun vs hvs => ?_
      obtain ⟨htypes, hvalid⟩ := typed_of_evalAll hR hargs hpart hvs
      exact ihf hf g scope vs _ _ _ hg function (henv.part hjoin List.mem_cons_self)
        (fun _ => htypes.trans hsig) hvalid
  case caseOf =>
    intro ty scrutinee branches deps iht ihb ht u scope env₁ env₂ depth hu h henv
    cases h with
    | @caseOf _ _ _ scrutinee' _ branches' _ _ part count keys parts =>
      obtain ⟨hs, hbranches, hordered, _, ⟨decl, hd, hcovered⟩, hjoin⟩ := ht.checked hR
      obtain ⟨hs', hbranches', _⟩ := hu.checked hR
      have hfirst := henv.part hjoin List.mem_cons_self
      have hscrutinee : eval ⟨R, settings⟩ scrutinee env₁ (depth + 1) =
          eval ⟨R, settings⟩ scrutinee' env₂ (depth + 1) :=
        iht hs scrutinee' scope _ _ _ hs' part hfirst
      rw [eval, eval, ← hscrutinee]
      refine Fault.bind_congr fun _ _ => Fault.bind_congr fun v hv => ?_
      -- Only the branch that takes the value is known to fit its arguments.
      obtain ⟨f, hf, hsig, hvalid⟩ := exists_branch hd hcovered (inhabits_of_eval hR hs hfirst hv)
      refine evalBranch_congr (List.forall₂_iff_zip.2 ⟨count, fun {b c} hpair => ?_⟩)
      obtain ⟨hb, hc⟩ := List.of_mem_zip hpair
      refine ⟨keys b c hpair, fun htag => ?_⟩
      have hbf : f = b.2 := by
        rw [htag, hordered.get?_eq_some_iff.2 hb] at hf
        exact (Option.some.inj hf).symm
      exact ihb b hb (hbranches b hb) c.2 scope v.args _ _ _ (hbranches' c hc) (parts b c hpair)
        (henv.part hjoin (List.mem_cons_of_mem _ (List.mem_map_of_mem hb))) (fun _ => hbf ▸ hsig) hvalid
  case mk =>
    intro params body deps ih hf g scope vs env₁ env₂ depth hg h henv hvs hvalid
    cases h with
    | @mk _ _ params' _ body' _ deps' types part =>
      have hl := Param.length_names_eq types
      have hcount : params.length = params'.length := by simpa using hl
      rw [applyAt, applyAt, ← hcount]
      by_cases hfits : vs.length = params.length
      · rw [if_neg (not_not_intro hfits), if_neg (not_not_intro hfits)]
        exact ih hf.checked.body body' _ _ _ _ hg.checked.body part
          (hf.checked.mirrored_body hg.checked hl henv (hvs hfits) hvalid)
      · rw [if_pos hfits, if_pos hfits]

end Interpreter

/-- At the outside, variables are called the same. -/
theorem Term.AlphaEq.deps_eq {R : Registry} (hR : R.Reachable) {t u : Term} (ht : t.Built R)
    (hu : u.Built R) (h : t.AlphaEq [] u) : t.deps = u.deps := by
  obtain ⟨hdeps, _⟩ := get?_deps_iff_occurs hR
  obtain ⟨hoccurs, _⟩ := occurs_alphaEq
  apply Table.ext_get?
  intro x
  apply Option.ext
  intro T
  rw [hdeps t ht, hdeps u hu]
  constructor
  · intro hx
    obtain ⟨y, rfl, hy⟩ := hoccurs t u [] h x T hx
    exact hy
  · intro hx
    obtain ⟨y, rfl, hy⟩ := hoccurs u t [] h.symm x T hx
    exact hy

namespace Interpreter

variable {R : Registry}

/-- Terms that are built over one registry and are the same up to the names of parameters have the same
type and the same dependencies, and in every environment of built values and with any settings they
evaluate to the same value or fail with the same fault. -/
theorem parameter_names_do_not_matter (hR : R.Reachable) {t u : Term} (ht : t.Built R)
    (hu : u.Built R) (h : t.AlphaEq [] u) :
    t.ty = u.ty ∧ t.deps = u.deps ∧
    ∀ env : Env, (∀ x v, env.get? x = some v → v.Built R) → ∀ settings : Settings,
      evaluate ⟨R, settings⟩ t env = evaluate ⟨R, settings⟩ u env := by
  have hdeps := h.deps_eq hR ht hu
  refine ⟨h.ty_eq, hdeps, ?_⟩
  intro env henv settings
  rw [evaluate, evaluate, Term.checkDeps, Term.checkDeps, ← hdeps]
  refine Fault.bind_congr fun _ hcheck => ?_
  have hmirrored : t.deps.Mirrored R [] env env := by
    refine ⟨fun x v hv => (henv x v hv).valid hR, Deps.check_eq_ok.1 hcheck, ?_⟩
    intro x T _ y hsame
    rw [show x = y from hsame]
  exact (eval_alphaEq hR).1 t ht u [] env env 0 hu h hmirrored

/-- The predecessor of a variable `n`, where the number below it is called `n` as well. -/
def shadowing : Term :=
  .caseOf "Nat" (.free "n" "Nat")
    [("next", .mk [⟨"n", "Nat"⟩] (.free "n" "Nat") .empty),
      ("zero", .mk [] (.construct "Nat" "zero" [] .empty) .empty)] (.single "n" "Nat")

theorem shadowing_built : shadowing.Built .naturals := by
  obtain ⟨hn, hbranches, _⟩ := Term.predecessor_built.checked Registry.naturals_reachable
  have hparam : Registry.naturals.param "n" "Nat" = .ok ⟨"n", "Nat"⟩ := rfl
  have hnext : Func.build [⟨"n", "Nat"⟩] (.free "n" "Nat") =
      .ok (.mk [⟨"n", "Nat"⟩] (.free "n" "Nat") .empty) := rfl
  have hcase : Registry.naturals.caseOf "Nat" (.free "n" "Nat")
      [("next", .mk [⟨"n", "Nat"⟩] (.free "n" "Nat") .empty),
        ("zero", .mk [] (.construct "Nat" "zero" [] .empty) .empty)] = .ok shadowing := rfl
  refine .caseOf hn (List.forall_mem_cons.2 ⟨?_, ?_⟩) (by decide) hcase
  · refine .mk ?_ hn hnext
    intro p hp
    obtain rfl := List.mem_singleton.1 hp
    exact hparam
  · intro b hb
    exact hbranches b (List.mem_cons_of_mem _ hb)

theorem predecessor_alphaEq_shadowing : Term.predecessor.AlphaEq [] shadowing := by
  refine .caseOf (.free rfl) rfl ?_ ?_
  all_goals
    intro b c hpair
    simp only [Func.predecessorBranches, List.zip_cons_cons, List.zip_nil_right, List.mem_cons,
      List.not_mem_nil, or_false, Prod.mk.injEq] at hpair
    obtain ⟨rfl, rfl⟩ | ⟨rfl, rfl⟩ := hpair
  · rfl
  · rfl
  · exact .mk rfl (.free (by decide))
  · exact .mk rfl (.construct rfl fun t u h => absurd h List.not_mem_nil)

/-- The predecessor of one, and the fault of it under a limit. -/
theorem shadowing_does_not_matter :
    evaluate ⟨.naturals, {}⟩ shadowing .one = .ok (.mk "Nat" "zero" []) ∧
    evaluate ⟨.naturals, ⟨some 0, true⟩⟩ shadowing .one = .error (.depthExceeded 0) := by
  have hzero : evaluate ⟨.naturals, {}⟩ .predecessor .one = .ok (.mk "Nat" "zero" []) := rfl
  have hlimit : evaluate ⟨.naturals, ⟨some 0, true⟩⟩ .predecessor .one =
      .error (.depthExceeded 0) := rfl
  obtain ⟨_, _, heval⟩ := parameter_names_do_not_matter Registry.naturals_reachable
    Term.predecessor_built shadowing_built predecessor_alphaEq_shadowing
  exact ⟨(heval _ Env.one_built _).symm.trans hzero, (heval _ Env.one_built _).symm.trans hlimit⟩

-- With a value that is not built, the fault names the parameter.
example : evaluate ⟨.naturals, {}⟩ .predecessor
    (.single "n" (.mk "Nat" "next" [.mk "Bool" "true" []])) =
      .error (.unsatisfiedDependency "m" "Nat" (some "Bool")) := rfl

end Interpreter

end DataCalculus
