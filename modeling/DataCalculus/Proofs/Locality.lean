import DataCalculus.Interpreter
import DataCalculus.Proofs.BuiltTerms
import Mathlib.Data.List.Forall2

/-!
# What evaluation reads

Evaluating a term reads its environment at the dependencies of the term only, and applying a
function reads only those arguments whose parameters its body depends on. This holds of failing
evaluations too and for every interpreter: neither the values nor the registry are assumed to fit
the term, which may even have been put together with several registries.
-/

namespace DataCalculus

set_option autoImplicit false

mutual

/-- Made by the builders, each call of which may be to a registry of its own. -/
inductive Term.Made : Term → Prop where
  | free {R : Registry} {name ty : Name} {t : Term} (step : R.free name ty = .ok t) : Term.Made t
  | construct {R : Registry} {ty tag : Name} {args : List Term} {t : Term}
      (parts : ∀ arg ∈ args, Term.Made arg) (step : R.construct ty tag args = .ok t) : Term.Made t
  | constant (v : Value) : Term.Made (Term.constant v)
  | func {f : Func} (part : Func.Made f) : Term.Made (.func f)
  | call {f : Func} {args : List Term} {t : Term} (function : Func.Made f)
      (parts : ∀ arg ∈ args, Term.Made arg) (step : f.call args = .ok t) : Term.Made t
  | caseOf {R : Registry} {ty : Name} {scrutinee : Term} {branches : List (Name × Func)} {t : Term}
      (part : Term.Made scrutinee) (parts : ∀ branch ∈ branches, Func.Made branch.2)
      (ordered : Entries.Ordered branches) (step : R.caseOf ty scrutinee branches = .ok t) :
      Term.Made t

/-- Made by the builders, whatever registries the parameters come from. -/
inductive Func.Made : Func → Prop where
  | mk {params : List Param} {body : Term} {f : Func} (part : Term.Made body)
      (step : Func.build params body = .ok f) : Func.Made f

end

mutual

theorem Term.Built.made {R : Registry} : {t : Term} → t.Built R → t.Made
  | _, .free step => .free step
  | _, .construct parts step => .construct (fun arg ha => (parts arg ha).made) step
  | _, .constant _ => .constant _
  | _, .func part => .func part.made
  | _, .call function parts step => .call function.made (fun arg ha => (parts arg ha).made) step
  | _, .caseOf part parts ordered step =>
    .caseOf part.made (fun b hb => (parts b hb).made) ordered step

theorem Func.Built.made {R : Registry} : {f : Func} → f.Built R → f.Made
  | _, .mk _ part step => .mk part.made step

end

/-- The parts of a made term, and how its dependencies come from theirs. -/
def Term.Joined : Term → Prop
  | .free _ _ => True
  | .construct _ _ args deps =>
    (∀ arg ∈ args, arg.Made) ∧ Deps.union (args.map Term.deps) = .ok deps
  | .func f => f.Made
  | .call f args deps =>
    f.Made ∧ (∀ arg ∈ args, arg.Made) ∧ Deps.union (f.deps :: args.map Term.deps) = .ok deps
  | .caseOf _ scrutinee branches deps =>
    scrutinee.Made ∧ (∀ b ∈ branches, b.2.Made) ∧
    Deps.union (scrutinee.deps :: branches.map fun b => b.2.deps) = .ok deps

theorem Term.joined_constant (v : Value) : (constant v).Joined := by
  obtain ⟨ty, tag, args⟩ := v
  refine ⟨?_, union_deps_constants args⟩
  rw [constants_eq_map]
  intro t ht
  obtain ⟨arg, _, rfl⟩ := List.mem_map.1 ht
  exact .constant arg

theorem Term.Made.joined {t : Term} (h : t.Made) : t.Joined := by
  cases h with
  | free step =>
    obtain ⟨_, _, _, rfl⟩ := Registry.free_eq_ok.1 step
    trivial
  | construct parts step =>
    obtain ⟨_, _, _, _, _, _, hu, rfl⟩ := Registry.construct_eq_ok.1 step
    exact ⟨parts, hu⟩
  | constant v => exact joined_constant v
  | func part => exact part
  | call function parts step =>
    obtain ⟨_, _, hu, rfl⟩ := Func.call_eq_ok.1 step
    exact ⟨function, parts, hu⟩
  | caseOf part parts ordered step =>
    obtain ⟨_, _, _, _, _, _, hu, rfl⟩ := (Registry.caseOf_eq_ok ordered).1 step
    exact ⟨part, parts, hu⟩

theorem Func.Made.inv {f : Func} (h : f.Made) :
    f.body.Made ∧ (f.params.map Param.name).Nodup ∧
      f.deps = f.body.deps.without (f.params.map Param.name) := by
  obtain ⟨part, step⟩ := h
  obtain ⟨hn, _, rfl⟩ := Func.build_eq_ok.1 step
  exact ⟨part, hn, rfl⟩

namespace Deps

/-- Both environments give every variable of the set the same value, or none. -/
def AgreeOn (deps : Deps) (env₁ env₂ : Env) : Prop :=
  ∀ x T, deps.get? x = some T → env₁.get? x = env₂.get? x

/-- What holds of every variable of a join holds of every variable of its parts. -/
theorem forall_part {parts : List Deps} {deps part : Deps} {p : Name → Name → Prop}
    (h : ∀ x T, deps.get? x = some T → p x T) (hu : union parts = .ok deps) (hp : part ∈ parts) :
    ∀ x T, part.get? x = some T → p x T := by
  intro x T hx
  exact h x T ((union_eq_ok.1 hu x T).2 ⟨part, hp, hx⟩)

end Deps

theorem Env.read_congr {env₁ env₂ : Env} {name : Name} (h : env₁.get? name = env₂.get? name)
    (ty : Name) : env₁.read name ty = env₂.read name ty := by
  rw [read, read, h]

/-- The check of a set reads the environment at the variables of the set. -/
theorem Deps.AgreeOn.check_eq {deps : Deps} {env₁ env₂ : Env} (h : deps.AgreeOn env₁ env₂) :
    deps.check env₁ = deps.check env₂ := by
  have hentries : ∀ es : Entries Name, (∀ e ∈ es, env₁.get? e.1 = env₂.get? e.1) →
      es.forM (checkOne env₁) = es.forM (checkOne env₂) := by
    intro es hes
    induction es with
    | nil => rfl
    | cons e es ih =>
      obtain ⟨he, hrest⟩ := List.forall_mem_cons.1 hes
      rw [forM_checkOne_cons, forM_checkOne_cons, ih hrest, checkOne, checkOne, Env.read_congr he]
  exact hentries deps.entries fun e he => h e.1 e.2 (Table.get?_eq_some_iff.2 he)

/-- A name is looked up in the same way among values that are the same where the name stands. -/
theorem Entries.get?_zip_congr {names : List Name} {vs ws : List Value} {x : Name}
    (h : ∀ i : Nat, names[i]? = some x → vs[i]? = ws[i]?) :
    get? (names.zip vs) x = get? (names.zip ws) x := by
  induction names generalizing vs ws with
  | nil => rfl
  | cons name names ih =>
    have hrest : get? (names.zip vs.tail) x = get? (names.zip ws.tail) x := by
      apply ih
      intro i hi
      rw [List.getElem?_tail, List.getElem?_tail]
      exact h (i + 1) hi
    have hfirst : name = x → vs[0]? = ws[0]? := fun he => h 0 (congrArg some he)
    cases vs <;> cases ws <;> grind [get?]

/-- With a value for every name, exactly the other names are not found. -/
theorem Entries.get?_zip_eq_none {names : List Name} {vs : List Value}
    (hl : vs.length = names.length) {x : Name} : get? (names.zip vs) x = none ↔ x ∉ names := by
  induction names generalizing vs with
  | nil => simp
  | cons name names ih =>
    cases vs with
    | nil => cases hl
    | cons v vs =>
      have hrest : get? (names.zip vs) x = none ↔ x ∉ names := ih (Nat.succ.inj hl)
      rw [List.zip_cons_cons, get?, List.mem_cons, not_or]
      by_cases hx : x = name <;> simp [hx, ← hrest]

/-- Calls on arguments that agree where the body looks give the body environments that agree. -/
theorem Func.Made.agreeOn_extend {f : Func} (hf : f.Made) {env₁ env₂ : Env}
    {args₁ args₂ : List Value} (henv : f.deps.AgreeOn env₁ env₂)
    (hlen : args₁.length = f.params.length)
    (hargs : ∀ (i : Nat) (p : Param), f.params[i]? = some p →
      f.body.deps.contains p.name = true → args₁[i]? = args₂[i]?) :
    f.body.deps.AgreeOn (env₁.extend (f.params.map Param.name) args₁)
      (env₂.extend (f.params.map Param.name) args₂) := by
  obtain ⟨_, hnodup, hdeps⟩ := hf.inv
  intro x T hx
  have hused : f.body.deps.contains x = true := by rw [Table.contains, hx]; rfl
  have hzip : Entries.get? ((f.params.map Param.name).zip args₁) x =
      Entries.get? ((f.params.map Param.name).zip args₂) x := by
    apply Entries.get?_zip_congr
    intro i hi
    rw [List.getElem?_map, Option.map_eq_some_iff] at hi
    obtain ⟨p, hp, rfl⟩ := hi
    exact hargs i p hp hused
  rw [Env.get?_extend hnodup, Env.get?_extend hnodup, ← hzip]
  cases hfound : Entries.get? ((f.params.map Param.name).zip args₁) x with
  | some v => rfl
  | none =>
    -- The name is no parameter, so the function depends on it as well.
    have hlen' : args₁.length = (f.params.map Param.name).length := by rw [List.length_map, hlen]
    have hfree := (Entries.get?_zip_eq_none hlen').1 hfound
    have hdep : f.deps.get? x = some T := by rw [hdeps, Table.get?_without, if_neg hfree, hx]
    rw [Option.none_or, Option.none_or, henv x T hdep]

namespace Interpreter

variable {I J : Interpreter} {env₁ env₂ : Env} {depth₁ depth₂ : Nat}

/-- Terms with the same results one by one have the same results together. -/
theorem evalAll_congr {ss ts : List Term}
    (h : List.Forall₂ (fun s t => I.eval s env₁ depth₁ = J.eval t env₂ depth₂) ss ts) :
    I.evalAll ss env₁ depth₁ = J.evalAll ts env₂ depth₂ := by
  induction h with
  | nil => rfl
  | cons hfirst _ ih => rw [evalAll, evalAll, hfirst, ih]

/-- Branches with the same tags, and with the same results if they have the tag of a value, are taken
in the same way. -/
theorem evalBranch_congr {bs cs : List (Name × Func)} {v : Value}
    (h : List.Forall₂ (fun b c => b.1 = c.1 ∧ (v.tag = b.1 →
      I.applyAt b.2 v.args env₁ depth₁ = J.applyAt c.2 v.args env₂ depth₂)) bs cs) :
    I.evalBranch bs v env₁ depth₁ = J.evalBranch cs v env₂ depth₂ := by
  induction h with
  | nil => rfl
  | @cons b c bs cs hfirst _ ih =>
    obtain ⟨tag, f⟩ := b
    obtain ⟨tag', g⟩ := c
    obtain ⟨rfl, hresult⟩ := hfirst
    rw [evalBranch, evalBranch]
    by_cases ht : v.tag = tag
    · rw [if_pos ht, if_pos ht, hresult ht]
    · rw [if_neg ht, if_neg ht, ih]

/-- The two runs of a term, and of a function on arguments that differ only where its body does
not look. -/
theorem eval_agree (I : Interpreter) :
    (∀ t : Term, t.Made → ∀ env₁ env₂ depth, t.deps.AgreeOn env₁ env₂ →
      I.eval t env₁ depth = I.eval t env₂ depth) ∧
    ∀ f : Func, f.Made → ∀ args₁ args₂ env₁ env₂ depth, f.deps.AgreeOn env₁ env₂ →
      args₁.length = args₂.length →
      (∀ (i : Nat) (p : Param), f.params[i]? = some p →
        f.body.deps.contains p.name = true → args₁[i]? = args₂[i]?) →
      I.applyAt f args₁ env₁ depth = I.applyAt f args₂ env₂ depth := by
  refine Term.induct ?free ?construct ?func ?call ?caseOf ?mk
  case free =>
    intro name ty _ env₁ env₂ depth h
    rw [eval, eval, Env.read_congr (h name ty (Table.get?_single_self name ty))]
  case construct =>
    intro ty tag args deps ih ht env₁ env₂ depth h
    obtain ⟨hargs, hu⟩ := ht.joined
    have hall : I.evalAll args env₁ (depth + 1) = I.evalAll args env₂ (depth + 1) := by
      refine evalAll_congr (List.forall₂_same.2 fun arg ha => ?_)
      exact ih arg ha (hargs arg ha) _ _ _ (Deps.forall_part h hu (List.mem_map_of_mem ha))
    rw [eval, eval, hall]
  case func =>
    intro f ih ht env₁ env₂ depth h
    have happly : I.applyAt f [] env₁ depth = I.applyAt f [] env₂ depth :=
      ih ht.joined [] [] _ _ _ h rfl fun _ _ _ _ => rfl
    rw [eval, eval, happly]
  case call =>
    intro f args deps ihf iha ht env₁ env₂ depth h
    obtain ⟨hf, hargs, hu⟩ := ht.joined
    have hall : I.evalAll args env₁ (depth + 1) = I.evalAll args env₂ (depth + 1) := by
      refine evalAll_congr (List.forall₂_same.2 fun arg ha => ?_)
      have harg := Deps.forall_part h hu (List.mem_cons_of_mem _ (List.mem_map_of_mem ha))
      exact iha arg ha (hargs arg ha) _ _ _ harg
    have happly : ∀ vs, I.applyAt f vs env₁ depth = I.applyAt f vs env₂ depth := fun vs =>
      ihf hf vs vs _ _ _ (Deps.forall_part h hu List.mem_cons_self) rfl fun _ _ _ _ => rfl
    simp only [eval, hall, happly]
  case caseOf =>
    intro ty scrutinee branches deps iht ihb ht env₁ env₂ depth h
    obtain ⟨hs, hbranches, hu⟩ := ht.joined
    have hscrutinee : I.eval scrutinee env₁ (depth + 1) = I.eval scrutinee env₂ (depth + 1) :=
      iht hs _ _ _ (Deps.forall_part h hu List.mem_cons_self)
    have hbranch : ∀ v,
        I.evalBranch branches v env₁ depth = I.evalBranch branches v env₂ depth := by
      intro v
      refine evalBranch_congr (List.forall₂_same.2 fun b hb => ⟨rfl, fun _ => ?_⟩)
      have hdeps := Deps.forall_part h hu (List.mem_cons_of_mem _ (List.mem_map_of_mem hb))
      exact ihb b hb (hbranches b hb) _ _ _ _ _ hdeps rfl fun _ _ _ _ => rfl
    simp only [eval, hscrutinee, hbranch]
  case mk =>
    intro params body deps ih hf args₁ args₂ env₁ env₂ depth h hlen hargs
    rw [applyAt, applyAt, hlen]
    by_cases hcount : args₂.length = params.length
    · rw [if_neg (not_not_intro hcount), if_neg (not_not_intro hcount)]
      exact ih hf.inv.1 _ _ _ (hf.agreeOn_extend h (hlen.trans hcount) hargs)
    · rw [if_pos hcount, if_pos hcount]

/-- Two environments that agree on the dependencies of a made term give the same value or the same
fault, and so do two lists of arguments that agree wherever the body of a made function depends on
the parameter. -/
theorem depends_only_on_deps (I : Interpreter) :
    (∀ t : Term, t.Made → ∀ env₁ env₂ : Env, t.deps.AgreeOn env₁ env₂ →
      I.evaluate t env₁ = I.evaluate t env₂) ∧
    ∀ f : Func, f.Made → ∀ (env₁ env₂ : Env) (args₁ args₂ : List Value),
      f.deps.AgreeOn env₁ env₂ → args₁.length = args₂.length →
      (∀ (i : Nat) (p : Param), f.params[i]? = some p →
        f.body.deps.contains p.name = true → args₁[i]? = args₂[i]?) →
      I.apply f env₁ args₁ = I.apply f env₂ args₂ := by
  obtain ⟨hterm, hfunc⟩ := I.eval_agree
  constructor
  · intro t ht env₁ env₂ h
    rw [evaluate, evaluate, Term.checkDeps, Term.checkDeps, h.check_eq, hterm t ht env₁ env₂ 0 h]
  · intro f hf env₁ env₂ args₁ args₂ henv hlen hargs
    exact hfunc f hf args₁ args₂ env₁ env₂ 0 henv hlen hargs

/-- A function of two arguments that gives back the second. -/
def second : Func := .mk [⟨"a", "Nat"⟩, ⟨"b", "Nat"⟩] (.free "b" "Nat") .empty

theorem second_made : second.Made := by
  have hb : Registry.naturals.free "b" "Nat" = .ok (.free "b" "Nat") := rfl
  have hbuild : Func.build [⟨"a", "Nat"⟩, ⟨"b", "Nat"⟩] (.free "b" "Nat") = .ok second := rfl
  exact .mk (.free hb) hbuild

/-- A mistyped binding and a mistyped argument that nothing reads, over a registry that the term
was not built with. -/
theorem unread_values_do_not_matter :
    evaluate ⟨.empty, {}⟩ .predecessor (Env.one.bind "m" (.mk "Bool" "true" [])) =
      evaluate ⟨.empty, {}⟩ .predecessor .one ∧
    apply ⟨.empty, {}⟩ second .empty [.mk "Bool" "true" [], .mk "Nat" "zero" []] =
      apply ⟨.empty, {}⟩ second .one [.mk "Nat" "zero" [], .mk "Nat" "zero" []] := by
  obtain ⟨hterm, hfunc⟩ := depends_only_on_deps ⟨.empty, {}⟩
  constructor
  · refine hterm .predecessor Term.predecessor_built.made _ _ ?_
    intro x T hx
    obtain ⟨rfl, -⟩ : x = "n" ∧ T = "Nat" := by
      simpa [Table.get?_eq_some_iff, Term.deps, Term.predecessor, Table.single] using hx
    rfl
  · refine hfunc second second_made _ _ _ _ ?_ rfl ?_
    · intro x T hx
      cases hx
    · intro i p hp hused
      cases i with
      | zero =>
        obtain rfl := Option.some.inj hp
        exact absurd hused (by decide)
      | succ i => rfl

end Interpreter

end DataCalculus
