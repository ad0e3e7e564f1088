import DataCalculus.Proofs.BuiltTerms
import DataCalculus.Proofs.Conflicts

/-!
# Case analyses

A case analysis is built exactly if it is complete: there is one branch for each constructor of the
scrutinee's type and no other, each branch takes the arguments of its constructor and is of the
result type, and scrutinee and branches agree on their variables. Otherwise the fault that is
reported is the first one, in an order that is given here without regard to how it is looked for.
-/

namespace DataCalculus

set_option autoImplicit false

namespace Registry

/-- One branch of type `ty` for each constructor of the scrutinee's type, over its arguments. -/
structure CompleteCase (R : Registry) (ty : Name) (scrutinee : Term) (branches : Entries Func) :
    Prop where
  declared : R.contains ty = true
  keys_iff : ∀ tag, tag ∈ branches.keys ↔ ∃ args, R.signature? scrutinee.ty tag = some args
  signatures : ∀ tag f, branches.get? tag = some f →
    R.signature? scrutinee.ty tag = some f.signature
  results : ∀ tag f, branches.get? tag = some f → f.ty = ty
  agree : Deps.Agree (scrutinee.deps :: branches.map fun b => b.2.deps)

/-- What is wrong with the branch for a constructor of type `T`. A branch that is there is compared
first by its signature and then by its type. -/
inductive BranchFault (R : Registry) (T ty : Name) (branches : Entries Func) (tag : Name) :
    Fault → Prop where
  | missing {args : List Name} (constructor : R.signature? T tag = some args)
      (absent : branches.get? tag = none) : BranchFault R T ty branches tag (.missingBranch T tag)
  | signature {args : List Name} {f : Func} (constructor : R.signature? T tag = some args)
      (branch : branches.get? tag = some f) (differ : f.signature ≠ args) :
      BranchFault R T ty branches tag (.branchSignatureMismatch T tag args f.signature)
  | result {f : Func} (constructor : R.signature? T tag = some f.signature)
      (branch : branches.get? tag = some f) (differ : f.ty ≠ ty) :
      BranchFault R T ty branches tag (.resultTypeMismatch ty f.ty)

/-- The fault of a case analysis that is reported: that of the result type before those of the
branches, of these the one for the least constructor, then the least branch without a constructor,
and last the first conflict between the variables of the scrutinee and of the branches. -/
inductive FirstCaseFault (R : Registry) (ty : Name) (scrutinee : Term) (branches : Entries Func) :
    Fault → Prop where
  | unknownType (undeclared : R.contains ty = false) :
      FirstCaseFault R ty scrutinee branches (.unknownType ty)
  | branch {tag : Name} {fault : Fault} (declared : R.contains ty = true)
      (here : R.BranchFault scrutinee.ty ty branches tag fault)
      (least : ∀ earlier < tag, ∀ other, ¬ R.BranchFault scrutinee.ty ty branches earlier other) :
      FirstCaseFault R ty scrutinee branches fault
  | extra {tag : Name} (declared : R.contains ty = true)
      (covered : ∀ c other, ¬ R.BranchFault scrutinee.ty ty branches c other)
      (key : tag ∈ branches.keys) (unknown : R.signature? scrutinee.ty tag = none)
      (least : ∀ earlier ∈ branches.keys, earlier < tag →
        R.signature? scrutinee.ty earlier ≠ none) :
      FirstCaseFault R ty scrutinee branches (.unknownConstructor scrutinee.ty tag)
  | conflict {name first second : Name} (declared : R.contains ty = true)
      (covered : ∀ c other, ¬ R.BranchFault scrutinee.ty ty branches c other)
      (known : ∀ tag ∈ branches.keys, R.signature? scrutinee.ty tag ≠ none)
      (first_met : Deps.FirstConflict (scrutinee.deps :: branches.map fun b => b.2.deps)
        name first second) :
      FirstCaseFault R ty scrutinee branches (.inconsistentVariable name first second)

section Faults

variable {R : Registry} {T ty tag : Name} {branches : Entries Func} {decl : TypeDecl}
  {args : List Name} {fault : Fault}

theorem BranchFault.exists_signature (h : R.BranchFault T ty branches tag fault) :
    ∃ args, R.signature? T tag = some args := by
  cases h with
  | missing hs => exact ⟨_, hs⟩
  | signature hs => exact ⟨_, hs⟩
  | result hs => exact ⟨_, hs⟩

theorem branchFault?_eq_some (hR : R.Reachable) (hd : R.types.get? T = some decl)
    (hs : decl.constructors.get? tag = some args) :
    decl.branchFault? ty branches tag args = some fault ↔
      R.BranchFault T ty branches tag fault := by
  rw [← signature?_of_get? hd] at hs
  rw [TypeDecl.branchFault?, (hR.name_eq hd).1]
  constructor
  · intro h
    cases hb : branches.get? tag with
    | none =>
      rw [hb] at h
      obtain rfl := Option.some.inj h
      exact .missing hs hb
    | some f =>
      rw [hb] at h
      by_cases hsig : f.signature = args
      · by_cases hty : f.ty = ty
        · simp [hsig, hty] at h
        · simp only [hsig, hty, ne_eq, not_true_eq_false, not_false_eq_true, ↓reduceIte,
            Option.some.injEq] at h
          subst h hsig
          exact .result hs hb hty
      · simp only [hsig, ne_eq, not_false_eq_true, ↓reduceIte, Option.some.injEq] at h
        subst h
        exact .signature hs hb hsig
  · intro h
    cases h with
    | missing _ absent => rw [absent]
    | signature hs' branch differ =>
      obtain rfl := Option.some.inj (hs.symm.trans hs')
      rw [branch]
      exact if_pos differ
    | result hs' branch differ =>
      obtain rfl := Option.some.inj (hs.symm.trans hs')
      rw [branch]
      simp [differ]

theorem branchFault?_eq_none_iff (hR : R.Reachable) (hd : R.types.get? T = some decl)
    (hs : decl.constructors.get? tag = some args) :
    decl.branchFault? ty branches tag args = none ↔
      ∀ other, ¬ R.BranchFault T ty branches tag other := by
  rw [Option.eq_none_iff_forall_ne_some]
  exact forall_congr' fun other => not_congr (branchFault?_eq_some hR hd hs)

/-- The pass over the constructors stops at the least one whose branch is at fault. -/
theorem findSome?_branchFault (hR : R.Reachable) (hd : R.types.get? T = some decl) :
    (decl.constructors.entries.findSome? fun c => decl.branchFault? ty branches c.1 c.2) =
        some fault ↔
      ∃ tag, R.BranchFault T ty branches tag fault ∧
        ∀ earlier < tag, ∀ other, ¬ R.BranchFault T ty branches earlier other := by
  rw [Table.findSome?_entries]
  constructor
  · intro h
    obtain ⟨tag, args, hs, hfault, hleast⟩ := h
    refine ⟨tag, (branchFault?_eq_some hR hd hs).1 hfault, ?_⟩
    intro earlier hlt other hother
    obtain ⟨args', hs'⟩ := hother.exists_signature
    rw [signature?_of_get? hd] at hs'
    exact (branchFault?_eq_none_iff hR hd hs').1 (hleast earlier args' hs' hlt) other hother
  · intro h
    obtain ⟨tag, hfault, hleast⟩ := h
    obtain ⟨args, hs⟩ := hfault.exists_signature
    rw [signature?_of_get? hd] at hs
    refine ⟨tag, args, hs, (branchFault?_eq_some hR hd hs).2 hfault, ?_⟩
    intro earlier args' hs' hlt
    exact (branchFault?_eq_none_iff hR hd hs').2 (hleast earlier hlt)

theorem findSome?_branchFault_eq_none (hR : R.Reachable) (hd : R.types.get? T = some decl) :
    (decl.constructors.entries.findSome? fun c => decl.branchFault? ty branches c.1 c.2) = none ↔
      ∀ tag other, ¬ R.BranchFault T ty branches tag other := by
  rw [List.findSome?_eq_none_iff]
  constructor
  · intro h tag other hother
    obtain ⟨args, hs⟩ := hother.exists_signature
    rw [signature?_of_get? hd] at hs
    have hnone := h (tag, args) (Table.get?_eq_some_iff.1 hs)
    exact (branchFault?_eq_none_iff hR hd hs).1 hnone other hother
  · intro h c hc
    exact (branchFault?_eq_none_iff hR hd (Table.get?_eq_some_iff.2 hc)).2 (h c.1)

theorem not_hasConstructor (hd : R.types.get? T = some decl) (tag : Name) :
    (!decl.hasConstructor tag) = (R.signature? T tag).isNone := by
  rw [signature?_of_get? hd, TypeDecl.hasConstructor, Table.contains, Option.not_isSome]

/-- The pass over the branches stops at the least one without a constructor. -/
theorem find?_extra (hd : R.types.get? T = some decl) (ho : branches.Ordered) :
    (branches.keys.find? fun tag => !decl.hasConstructor tag) = some tag ↔
      tag ∈ branches.keys ∧ R.signature? T tag = none ∧
        ∀ earlier ∈ branches.keys, earlier < tag → R.signature? T earlier ≠ none := by
  have hincreasing : branches.keys.Pairwise (· < ·) := List.pairwise_map.2 ho
  simp only [not_hasConstructor hd]
  rw [List.find?_eq_findSome?_guard,
    findSome?_eq_some_iff_least (fun a b => String.lt_asymm) hincreasing]
  simp only [Option.guard_eq_some_iff, Option.guard_eq_none_iff, Option.isNone_iff_eq_none,
    Option.isNone_eq_false_iff, Option.isSome_iff_ne_none]
  constructor
  · intro h
    obtain ⟨_, hkey, ⟨rfl, hunknown⟩, hleast⟩ := h
    exact ⟨hkey, hunknown, hleast⟩
  · intro h
    obtain ⟨hkey, hunknown, hleast⟩ := h
    exact ⟨tag, hkey, ⟨rfl, hunknown⟩, hleast⟩

theorem find?_extra_eq_none (hd : R.types.get? T = some decl) :
    (branches.keys.find? fun tag => !decl.hasConstructor tag) = none ↔
      ∀ tag ∈ branches.keys, R.signature? T tag ≠ none := by
  simp only [not_hasConstructor hd, List.find?_eq_none, Option.isNone_iff_eq_none, ne_eq]

/-- What the two passes over constructors and branches find. -/
theorem branchesFault?_eq_some (hR : R.Reachable) (hd : R.types.get? T = some decl)
    (ho : branches.Ordered) : decl.branchesFault? ty branches = some fault ↔
      (∃ tag, R.BranchFault T ty branches tag fault ∧
        ∀ earlier < tag, ∀ other, ¬ R.BranchFault T ty branches earlier other) ∨
      ((∀ c other, ¬ R.BranchFault T ty branches c other) ∧
        ∃ tag, (tag ∈ branches.keys ∧ R.signature? T tag = none ∧
          ∀ earlier ∈ branches.keys, earlier < tag → R.signature? T earlier ≠ none) ∧
          fault = .unknownConstructor T tag) := by
  rw [← findSome?_branchFault hR hd, ← findSome?_branchFault_eq_none hR hd, TypeDecl.branchesFault?,
    (hR.name_eq hd).1]
  simp only [← find?_extra hd ho]
  cases decl.constructors.entries.findSome? fun c => decl.branchFault? ty branches c.1 c.2 with
  | some found => simp
  | none =>
    simp only [reduceCtorEq, false_or, true_and, Option.map_eq_some_iff]
    exact exists_congr fun tag => and_congr_right fun _ => eq_comm

theorem branchesFault?_eq_none_iff (hR : R.Reachable) (hd : R.types.get? T = some decl) :
    decl.branchesFault? ty branches = none ↔
      (∀ c other, ¬ R.BranchFault T ty branches c other) ∧
        ∀ tag ∈ branches.keys, R.signature? T tag ≠ none := by
  rw [← findSome?_branchFault_eq_none hR hd, ← find?_extra_eq_none hd, TypeDecl.branchesFault?]
  cases decl.constructors.entries.findSome? fun c => decl.branchFault? ty branches c.1 c.2 with
  | some found => simp
  | none => simp

end Faults

variable {R : Registry} {ty : Name} {scrutinee : Term} {branches : Entries Func} {fault : Fault}

theorem caseOf_eq_ok_iff_complete (hR : R.Reachable) (ho : branches.Ordered) :
    (∃ t, R.caseOf ty scrutinee branches = .ok t) ↔
      (∃ decl, R.types.get? scrutinee.ty = some decl) ∧ R.CompleteCase ty scrutinee branches := by
  simp only [caseOf_eq_ok ho]
  constructor
  · intro h
    obtain ⟨_, result, decl, deps, hr, hd, hcovered, hu, _⟩ := h
    rw [(hR.name_eq hr).1] at hcovered
    have hsignature := fun tag => (signature?_of_get? hd tag).trans (hcovered.signatures tag)
    refine ⟨⟨decl, hd⟩, contains_iff.2 ⟨result, hr⟩, ?_, ?_, ?_, Deps.exists_union_iff.1 ⟨deps, hu⟩⟩
    · intro tag
      rw [Entries.mem_keys_iff, hsignature]
      cases branches.get? tag <;> simp
    · intro tag f hf
      rw [hsignature, hf, Option.map_some]
    · intro tag f hf
      exact hcovered.result (tag, f) (Entries.mem_of_get? hf)
  · intro h
    obtain ⟨⟨decl, hd⟩, hcomplete⟩ := h
    obtain ⟨result, hr⟩ := contains_iff.1 hcomplete.declared
    obtain ⟨deps, hu⟩ := Deps.exists_union_iff.2 hcomplete.agree
    refine ⟨_, result, decl, deps, hr, hd, ?_, hu, rfl⟩
    rw [(hR.name_eq hr).1]
    constructor
    · intro tag
      rw [← signature?_of_get? hd]
      cases hf : branches.get? tag with
      | some f => rw [hcomplete.signatures tag f hf, Option.map_some]
      | none =>
        rw [Option.map_none, Option.eq_none_iff_forall_ne_some]
        intro args hs
        obtain ⟨f, hf'⟩ := Entries.mem_keys_iff.1 ((hcomplete.keys_iff tag).2 ⟨args, hs⟩)
        rw [hf] at hf'
        cases hf'
    · intro b hb
      exact hcomplete.results b.1 b.2 (ho.get?_eq_some_iff.2 hb)

/-- How a case analysis over declared types fails: at the branches, or else at the variables. -/
theorem caseOf_eq_error_of_declared {result decl : TypeDecl} (hr : R.types.get? ty = some result)
    (hd : R.types.get? scrutinee.ty = some decl) :
    R.caseOf ty scrutinee branches = .error fault ↔
      decl.branchesFault? result.name branches = some fault ∨
      (decl.branchesFault? result.name branches = none ∧
        Deps.union (scrutinee.deps :: branches.map fun b => b.2.deps) = .error fault) := by
  simp only [caseOf, get_eq_ok.2 hr, get_eq_ok.2 hd, Fault.bind_eq_error, Except.ok.injEq,
    reduceCtorEq, false_or, exists_eq_left']
  cases decl.branchesFault? result.name branches with
  | some found => simp
  | none => simp [Fault.bind_eq_error, pure, Except.pure]

theorem caseOf_eq_error (hR : R.Reachable) {decl : TypeDecl}
    (hd : R.types.get? scrutinee.ty = some decl) (ho : branches.Ordered) :
    R.caseOf ty scrutinee branches = .error fault ↔
      R.FirstCaseFault ty scrutinee branches fault := by
  cases hr : R.types.get? ty with
  | none =>
    -- The result type is looked up before anything else, so that no other fault counts here.
    have hundeclared : R.contains ty = false := by simp [contains, Table.contains, hr]
    have hunknown : R.caseOf ty scrutinee branches = .error (.unknownType ty) := by
      rw [caseOf, get, hr]
      rfl
    rw [hunknown, Except.error.injEq]
    constructor
    · rintro rfl
      exact .unknownType hundeclared
    · intro h
      cases h with
      | unknownType => rfl
      | branch declared => simp [declared] at hundeclared
      | extra declared => simp [declared] at hundeclared
      | conflict declared => simp [declared] at hundeclared
  | some result =>
    have hdeclared : R.contains ty = true := contains_iff.2 ⟨result, hr⟩
    rw [caseOf_eq_error_of_declared hr hd, (hR.name_eq hr).1, branchesFault?_eq_some hR hd ho,
      branchesFault?_eq_none_iff hR hd, Deps.union_eq_error]
    constructor
    · intro h
      rcases h with (⟨tag, here, least⟩ | ⟨covered, tag, ⟨key, unknown, least⟩, rfl⟩) |
        ⟨⟨covered, known⟩, name, first, second, hconflict, rfl⟩
      · exact .branch hdeclared here least
      · exact .extra hdeclared covered key unknown least
      · exact .conflict hdeclared covered known hconflict
    · intro h
      cases h with
      | unknownType undeclared => simp [undeclared] at hdeclared
      | branch _ here least => exact .inl (.inl ⟨_, here, least⟩)
      | extra _ covered key unknown least =>
        exact .inl (.inr ⟨covered, _, ⟨key, unknown, least⟩, rfl⟩)
      | conflict _ covered known hconflict =>
        exact .inr ⟨⟨covered, known⟩, _, _, _, hconflict, rfl⟩

/-- Over a built scrutinee a case analysis is built exactly if it is complete, and otherwise the
fault that is reported is the first one. -/
theorem caseOf_builds_or_reports_first_fault (hR : R.Reachable) (hs : scrutinee.Built R)
    (ho : branches.Ordered) (ty : Name) :
    ((∃ t, R.caseOf ty scrutinee branches = .ok t) ↔ R.CompleteCase ty scrutinee branches) ∧
    ∀ fault, R.caseOf ty scrutinee branches = .error fault ↔
      R.FirstCaseFault ty scrutinee branches fault := by
  obtain ⟨decl, hd⟩ := hs.ty_declared hR
  constructor
  · rw [caseOf_eq_ok_iff_complete hR ho]
    exact and_iff_right ⟨decl, hd⟩
  · intro fault
    exact caseOf_eq_error hR hd ho

/-- Branches over the natural numbers with three faults: one has no constructor, one takes other
arguments than its constructor, and that for zero is missing. -/
def wrongBranches : Entries Func :=
  [("later", .mk [] (.construct "Nat" "zero" [] .empty) .empty),
    ("next", .mk [] (.construct "Nat" "zero" [] .empty) .empty)]

theorem predecessor_is_complete_and_wrong_branches_fail_at_next :
    naturals.CompleteCase "Nat" (.free "n" "Nat") Func.predecessorBranches ∧
    naturals.FirstCaseFault "Nat" (.free "n" "Nat") wrongBranches
      (.branchSignatureMismatch "Nat" "next" ["Nat"] []) := by
  have hn : naturals.free "n" "Nat" = .ok (.free "n" "Nat") := rfl
  have hpredecessor : naturals.caseOf "Nat" (.free "n" "Nat") Func.predecessorBranches =
      .ok .predecessor := rfl
  have hwrong : naturals.caseOf "Nat" (.free "n" "Nat") wrongBranches =
      .error (.branchSignatureMismatch "Nat" "next" ["Nat"] []) := rfl
  constructor
  · have h := caseOf_builds_or_reports_first_fault naturals_reachable (.free hn)
      (by decide : Func.predecessorBranches.Ordered) "Nat"
    exact h.1.1 ⟨_, hpredecessor⟩
  · have h := caseOf_builds_or_reports_first_fault naturals_reachable (.free hn)
      (by decide : wrongBranches.Ordered) "Nat"
    exact (h.2 _).1 hwrong

end Registry

end DataCalculus
