import DataCalculus.Proofs.Dependencies
import DataCalculus.Term.Build

/-!
# What the builders accept

Each builder succeeds under a condition on its parts and gives one term. The conditions are stated
by lookups and lists of types; the order of the checks, which decides between faults, plays no part.
-/

namespace DataCalculus

set_option autoImplicit false

theorem Fault.pure_eq_ok {α : Type} {a b : α} : (pure a : Except Fault α) = .ok b ↔ b = a :=
  ⟨fun h => (Except.ok.inj h).symm, fun h => congrArg Except.ok h.symm⟩

namespace Registry

/-- Parameters and free variables ask for the same: an identifier and a declared type. -/
theorem typedName_eq_ok {α : Type} {R : Registry} {name ty : Name} {make : TypeDecl → α} {a : α} :
    (if !name.isIdentifier then .error (.invalidName name)
      else do let decl ← R.get ty; return make decl : Except Fault α) = .ok a ↔
      name.isIdentifier = true ∧ ∃ decl, R.types.get? ty = some decl ∧ a = make decl := by
  cases name.isIdentifier with
  | false => simp
  | true =>
    simp only [Bool.not_true, Bool.false_eq_true, ↓reduceIte, Fault.bind_eq_ok, get_eq_ok,
      Fault.pure_eq_ok, true_and]

theorem param_eq_ok {R : Registry} {name ty : Name} {p : Param} :
    R.param name ty = .ok p ↔ name.isIdentifier = true ∧
      ∃ decl, R.types.get? ty = some decl ∧ p = ⟨name, decl.name⟩ := typedName_eq_ok

theorem free_eq_ok {R : Registry} {name ty : Name} {t : Term} :
    R.free name ty = .ok t ↔ name.isIdentifier = true ∧
      ∃ decl, R.types.get? ty = some decl ∧ t = .free name decl.name := typedName_eq_ok

theorem construct_eq_ok {R : Registry} {ty tag : Name} {args : List Term} {t : Term} :
    R.construct ty tag args = .ok t ↔ ∃ decl signature deps, R.types.get? ty = some decl ∧
      decl.constructors.get? tag = some signature ∧ tag.isIdentifier = true ∧
      Deps.union (args.map Term.deps) = .ok deps ∧ t = .construct decl.name tag args deps := by
  simp only [construct, Fault.bind_eq_ok, get_eq_ok, TypeDecl.signature_eq_ok]
  cases hi : tag.isIdentifier with
  | false => simp
  | true =>
    simp only [Bool.not_true, Bool.false_eq_true, ↓reduceIte, Fault.bind_eq_ok, Fault.pure_eq_ok,
      true_and]
    constructor
    · rintro ⟨decl, hd, signature, hs, deps, hu, ht⟩
      exact ⟨decl, signature, deps, hd, hs, hu, ht⟩
    · rintro ⟨decl, signature, deps, hd, hs, hu, ht⟩
      exact ⟨decl, hd, signature, hs, deps, hu, ht⟩

end Registry

namespace Func

theorem paramFault?_eq_none {used : Deps} {earlier : List Name} {ps : List Param} :
    paramFault? used earlier ps = none ↔
      (ps.map Param.name).Nodup ∧ (∀ p ∈ ps, p.name ∉ earlier) ∧
      ∀ p ∈ ps, ∀ T, used.get? p.name = some T → T = p.ty := by
  induction ps generalizing earlier with
  | nil => simp [paramFault?]
  | cons p ps ih =>
    -- The rest is checked with this name among the earlier ones.
    have hrest : paramFault? used (p.name :: earlier) ps = none ↔
        (p.name ∉ ps.map Param.name ∧ (ps.map Param.name).Nodup) ∧
        (∀ q ∈ ps, q.name ∉ earlier) ∧ ∀ q ∈ ps, ∀ T, used.get? q.name = some T → T = q.ty := by
      rw [ih]
      simp only [List.mem_cons, not_or, List.mem_map, not_exists, not_and]
      constructor
      · rintro ⟨hnd, hne, hty⟩
        exact ⟨⟨fun q hq => (hne q hq).1, hnd⟩, fun q hq => (hne q hq).2, hty⟩
      · rintro ⟨⟨hp, hnd⟩, hne, hty⟩
        exact ⟨hnd, fun q hq => ⟨hp q hq, hne q hq⟩, hty⟩
    rw [paramFault?, List.map_cons, List.nodup_cons]
    by_cases he : p.name ∈ earlier
    · simp [he]
    · simp only [he, ↓reduceIte, List.forall_mem_cons, not_false_eq_true, true_and]
      cases hg : used.get? p.name with
      | none =>
        rw [hrest]
        simp
      | some ty =>
        by_cases hty : ty = p.ty
        · simp only [hty, ↓reduceIte, hrest]
          simp
        · simp [hty]

theorem build_eq_ok {params : List Param} {body : Term} {f : Func} :
    build params body = .ok f ↔ (params.map Param.name).Nodup ∧
      (∀ p ∈ params, ∀ T, body.deps.get? p.name = some T → T = p.ty) ∧
      f = .mk params body (body.deps.without (params.map Param.name)) := by
  unfold build
  cases hf : paramFault? body.deps [] params with
  | none =>
    obtain ⟨hnd, _, hty⟩ := paramFault?_eq_none.1 hf
    simp only [Except.ok.injEq]
    exact ⟨fun h => ⟨hnd, hty, h.symm⟩, fun h => h.2.2.symm⟩
  | some fault =>
    simp only [reduceCtorEq, false_iff]
    rintro ⟨hnd, hty, _⟩
    have hn : paramFault? body.deps [] params = none :=
      paramFault?_eq_none.2 ⟨hnd, fun p _ => List.not_mem_nil, hty⟩
    rw [hf] at hn
    cases hn

theorem argumentFault?_eq_none {ps : List Param} {args : List Term} (h : args.length = ps.length) :
    argumentFault? ps args = none ↔ args.map Term.ty = ps.map Param.ty := by
  induction ps generalizing args with
  | nil =>
    obtain rfl := List.length_eq_zero_iff.1 h
    simp [argumentFault?]
  | cons p ps ih =>
    cases args with
    | nil => simp at h
    | cons arg args =>
      have hl : args.length = ps.length := by simpa using h
      by_cases ha : arg.ty = p.ty
      · simp [argumentFault?, ha, ih hl]
      · simp [argumentFault?, ha]

theorem call_eq_ok {f : Func} {args : List Term} {t : Term} :
    f.call args = .ok t ↔ args.map Term.ty = f.signature ∧
      ∃ deps, Deps.union (f.deps :: args.map Term.deps) = .ok deps ∧ t = .call f args deps := by
  unfold call
  by_cases hl : args.length = f.arity
  · rw [if_neg (not_not_intro hl)]
    have ha : argumentFault? f.params args = none ↔ args.map Term.ty = f.params.map Param.ty :=
      argumentFault?_eq_none hl
    cases hf : argumentFault? f.params args with
    | none =>
      simp only [ha.1 hf, signature, Fault.bind_eq_ok, Fault.pure_eq_ok, true_and]
    | some fault =>
      simp only [reduceCtorEq, false_iff]
      rintro ⟨hs, _⟩
      rw [ha.2 hs] at hf
      cases hf
  · rw [if_pos hl]
    simp only [reduceCtorEq, false_iff]
    rintro ⟨hs, _⟩
    have hlen := congrArg List.length hs
    simp only [List.length_map, signature] at hlen
    exact hl hlen

end Func

namespace TypeDecl

/-- There is one branch for each constructor, with its signature, and all are of one type. -/
structure CoveredBy (decl : TypeDecl) (ty : Name) (branches : Entries Func) : Prop where
  signatures : ∀ tag, decl.constructors.get? tag = (branches.get? tag).map Func.signature
  result : ∀ b ∈ branches, b.2.ty = ty

theorem branchFault?_eq_none {decl : TypeDecl} {ty : Name} {branches : Entries Func} {tag : Name}
    {signature : List Name} : decl.branchFault? ty branches tag signature = none ↔
      ∃ f, branches.get? tag = some f ∧ f.signature = signature ∧ f.ty = ty := by
  unfold branchFault?
  cases branches.get? tag with
  | none => simp
  | some f => by_cases hs : f.signature = signature <;> by_cases ht : f.ty = ty <;> simp [hs, ht]

/-- The two passes over the branches, by lookups: no constructor lacks a fitting branch, and no
branch lacks a constructor. -/
theorem branchesFault?_eq_none_iff {decl : TypeDecl} {ty : Name} {branches : Entries Func} :
    decl.branchesFault? ty branches = none ↔
      (∀ tag signature, decl.constructors.get? tag = some signature →
        ∃ f, branches.get? tag = some f ∧ f.signature = signature ∧ f.ty = ty) ∧
      ∀ b ∈ branches, decl.constructors.get? b.1 ≠ none := by
  have hfound : (decl.constructors.entries.findSome? fun c =>
      decl.branchFault? ty branches c.1 c.2) = none ↔
      ∀ tag signature, decl.constructors.get? tag = some signature →
        ∃ f, branches.get? tag = some f ∧ f.signature = signature ∧ f.ty = ty := by
    simp only [List.findSome?_eq_none_iff, branchFault?_eq_none, Table.get?_eq_some_iff]
    exact ⟨fun h tag s hm => h (tag, s) hm, fun h c hm => h c.1 c.2 hm⟩
  have hextra : ((branches.keys.find? fun tag => !decl.hasConstructor tag).map fun tag =>
      Fault.unknownConstructor decl.name tag) = none ↔
      ∀ b ∈ branches, decl.constructors.get? b.1 ≠ none := by
    simp [Entries.keys, hasConstructor, Table.contains]
  rw [← hfound, ← hextra, branchesFault?]
  cases decl.constructors.entries.findSome? fun c => decl.branchFault? ty branches c.1 c.2 with
  | none => simp
  | some fault => simp

theorem branchesFault?_eq_none {decl : TypeDecl} {ty : Name} {branches : Entries Func}
    (ho : branches.Ordered) :
    decl.branchesFault? ty branches = none ↔ decl.CoveredBy ty branches := by
  rw [branchesFault?_eq_none_iff]
  constructor
  · rintro ⟨hall, hknown⟩
    constructor
    · intro tag
      cases hg : decl.constructors.get? tag with
      | some signature =>
        obtain ⟨f, hf, hs, _⟩ := hall tag signature hg
        simp [hf, hs]
      | none =>
        cases hb : branches.get? tag with
        | none => rfl
        | some f => exact absurd hg (hknown (tag, f) (Entries.mem_of_get? hb))
    · intro b hb
      cases hg : decl.constructors.get? b.1 with
      | none => exact absurd hg (hknown b hb)
      | some signature =>
        obtain ⟨f, hf, _, ht⟩ := hall b.1 signature hg
        rw [ho.get?_eq_some_iff.2 hb] at hf
        obtain rfl := Option.some.inj hf
        exact ht
  · intro hc
    constructor
    · intro tag signature hg
      rw [hc.signatures, Option.map_eq_some_iff] at hg
      obtain ⟨f, hf, hs⟩ := hg
      exact ⟨f, hf, hs, hc.result (tag, f) (Entries.mem_of_get? hf)⟩
    · intro b hb
      rw [hc.signatures, ho.get?_eq_some_iff.2 hb]
      simp

end TypeDecl

namespace Registry

variable {R : Registry} {ty : Name} {scrutinee : Term} {branches : Entries Func} {t : Term}

theorem caseOf_eq_ok_iff : R.caseOf ty scrutinee branches = .ok t ↔
    ∃ result decl deps, R.types.get? ty = some result ∧ R.types.get? scrutinee.ty = some decl ∧
      decl.branchesFault? result.name branches = none ∧
      Deps.union (scrutinee.deps :: branches.map fun b => b.2.deps) = .ok deps ∧
      t = .caseOf result.name scrutinee branches deps := by
  simp only [caseOf, Fault.bind_eq_ok, get_eq_ok]
  constructor
  · intro hr
    obtain ⟨result, hr, decl, hd, h⟩ := hr
    cases hf : decl.branchesFault? result.name branches with
    | some fault => simp [hf] at h
    | none =>
      simp only [hf, Fault.bind_eq_ok, Fault.pure_eq_ok] at h
      obtain ⟨deps, hu, ht⟩ := h
      exact ⟨result, decl, deps, hr, hd, hf, hu, ht⟩
  · intro hr
    obtain ⟨result, decl, deps, hr, hd, hf, hu, ht⟩ := hr
    refine ⟨result, hr, decl, hd, ?_⟩
    simp only [hf, Fault.bind_eq_ok, Fault.pure_eq_ok]
    exact ⟨deps, hu, ht⟩

theorem caseOf_eq_ok (ho : branches.Ordered) : R.caseOf ty scrutinee branches = .ok t ↔
    ∃ result decl deps, R.types.get? ty = some result ∧ R.types.get? scrutinee.ty = some decl ∧
      decl.CoveredBy result.name branches ∧
      Deps.union (scrutinee.deps :: branches.map fun b => b.2.deps) = .ok deps ∧
      t = .caseOf result.name scrutinee branches deps := by
  simp only [caseOf_eq_ok_iff, TypeDecl.branchesFault?_eq_none ho]

end Registry

end DataCalculus
