import DataCalculus.Proofs.Inhabitants
import DataCalculus.Proofs.RegistryCheck
import Mathlib.Data.Set.Finite.Basic

/-!
# Dangling argument types

A constructor may take an argument of a type that is never declared. No function can take such an
argument, so that values of the type cannot be analysed, and no value is made with the constructor.
The other constructors of the type still make values. A type whose constructors take declared types
only can be analysed into any declared type, whatever the variables of the scrutinee are called.
-/

namespace DataCalculus

set_option autoImplicit false

namespace Name

/-- The name of `n + 1` underscores. -/
def underscores (n : Nat) : Name := String.ofList (List.replicate (n + 1) '_')

theorem underscores_injective : Function.Injective underscores := by
  intro m n h
  have hlength := congrArg String.length h
  simpa [underscores] using hlength

theorem isIdentifier_underscores (n : Nat) : (underscores n).isIdentifier = true := by
  rw [underscores, isIdentifier_ofList, isIdentifierChars_iff]
  refine ⟨by simp, fun c hc => ?_⟩
  rw [List.eq_of_mem_replicate hc]
  decide

theorem exists_underscores_not_mem (names : List Name) : ∃ n, underscores n ∉ names := by
  have hinfinite := Set.infinite_range_of_injective underscores_injective
  obtain ⟨_, ⟨n, rfl⟩, hn⟩ := hinfinite.exists_notMem_finset names.toFinset
  exact ⟨n, fun h => hn (List.mem_toFinset.2 h)⟩

end Name

/-- Parameters of the given types, named by underscores, of which there are more in each name than
in the one before. -/
def Param.numbered : Nat → List Name → List Param
  | _, [] => []
  | n, T :: signature => ⟨.underscores n, T⟩ :: numbered (n + 1) signature

namespace Param

theorem map_ty_numbered (n : Nat) (signature : List Name) :
    (numbered n signature).map ty = signature := by
  induction signature generalizing n with
  | nil => rfl
  | cons T signature ih => rw [numbered, List.map_cons, ih]

theorem exists_of_mem_numbered {n : Nat} {signature : List Name} {p : Param}
    (h : p ∈ numbered n signature) : ∃ m, n ≤ m ∧ p.name = .underscores m ∧ p.ty ∈ signature := by
  induction signature generalizing n with
  | nil => cases h
  | cons T signature ih =>
    rcases List.mem_cons.1 h with rfl | h
    · exact ⟨n, Nat.le_refl n, rfl, List.mem_cons_self⟩
    · obtain ⟨m, hm, hname, hty⟩ := ih h
      exact ⟨m, Nat.le_of_succ_le hm, hname, List.mem_cons_of_mem T hty⟩

/-- A name with fewer underscores is none of the parameters. -/
theorem underscores_not_mem_numbered {m n : Nat} (h : m < n) (signature : List Name) :
    .underscores m ∉ (numbered n signature).map name := by
  intro hmem
  obtain ⟨p, hp, hname⟩ := List.mem_map.1 hmem
  obtain ⟨k, hk, hname', _⟩ := exists_of_mem_numbered hp
  have hkm : k = m := Name.underscores_injective (hname'.symm.trans hname)
  omega

theorem nodup_numbered (n : Nat) (signature : List Name) :
    ((numbered n signature).map name).Nodup := by
  induction signature generalizing n with
  | nil => exact List.nodup_nil
  | cons T signature ih =>
    rw [numbered, List.map_cons, List.nodup_cons]
    exact ⟨underscores_not_mem_numbered (Nat.lt_succ_self n) signature, ih (n + 1)⟩

end Param

/-- A branch that leaves its result open: it takes arguments of the given types and gives a free
variable, whose name is none of its parameters. -/
def Func.postponed (n : Nat) (ty : Name) (signature : List Name) : Func :=
  .mk (Param.numbered (n + 1) signature) (.free (.underscores n) ty) (.single (.underscores n) ty)

variable {R : Registry}

theorem Func.signature_postponed (n : Nat) (ty : Name) (signature : List Name) :
    (postponed n ty signature).signature = signature := Param.map_ty_numbered (n + 1) signature

theorem Func.deps_postponed (n : Nat) (ty : Name) (signature : List Name) :
    (postponed n ty signature).deps = .single (.underscores n) ty := rfl

theorem Func.postponed_built (hR : R.Reachable) (n : Nat) {ty : Name} (hty : R.contains ty = true)
    {signature : List Name} (h : ∀ T ∈ signature, R.contains T = true) :
    (postponed n ty signature).Built R := by
  obtain ⟨result, hr⟩ := Registry.contains_iff.1 hty
  -- No parameter hides the variable of the body, which keeps it as its one dependency.
  have hunbound := Param.underscores_not_mem_numbered (Nat.lt_succ_self n) signature
  have hfree : R.free (.underscores n) ty = .ok (.free (.underscores n) ty) :=
    Registry.free_eq_ok.2 ⟨Name.isIdentifier_underscores n, result, hr, by rw [(hR.name_eq hr).1]⟩
  have hbuild : build (Param.numbered (n + 1) signature) (.free (.underscores n) ty) =
      .ok (postponed n ty signature) := by
    refine build_eq_ok.2 ⟨Param.nodup_numbered (n + 1) signature, ?_, ?_⟩
    · intro p hp T hT
      rw [Term.deps, Table.get?_single] at hT
      by_cases hname : p.name = .underscores n
      · exact absurd (hname ▸ List.mem_map_of_mem hp) hunbound
      · simp [hname] at hT
    · rw [postponed, Term.deps]
      congr 1
      apply Table.ext_get?
      intro x
      rw [Table.get?_without, Table.get?_single]
      by_cases hx : x = .underscores n
      · rw [hx, if_neg hunbound]
      · simp [hx]
  refine .mk ?_ (.free hfree) hbuild
  intro p hp
  obtain ⟨m, _, hname, hmem⟩ := Param.exists_of_mem_numbered hp
  obtain ⟨decl, hd⟩ := Registry.contains_iff.1 (h p.ty hmem)
  refine Registry.param_eq_ok.2 ⟨?_, decl, hd, ?_⟩
  · rw [hname]
    exact Name.isIdentifier_underscores m
  · rw [(hR.name_eq hd).1]

namespace TypeDecl

/-- A postponed branch for each constructor. -/
def postponedBranches (decl : TypeDecl) (n : Nat) (ty : Name) : Entries Func :=
  decl.constructors.entries.map fun c => (c.1, .postponed n ty c.2)

theorem coveredBy_postponedBranches (decl : TypeDecl) (n : Nat) (ty : Name) :
    decl.CoveredBy ty (decl.postponedBranches n ty) := by
  constructor
  · intro tag
    have hsignature : Func.signature ∘ Func.postponed n ty = id :=
      funext fun signature => Func.signature_postponed n ty signature
    rw [postponedBranches, Entries.get?_map (Func.postponed n ty), Option.map_map, hsignature,
      Option.map_id_fun, id, Table.get?]
  · intro b hb
    obtain ⟨c, _, rfl⟩ := List.mem_map.1 hb
    rfl

/-- The branches have one variable, and a scrutinee without it agrees with them. -/
theorem agree_postponedBranches {deps : Deps} {n : Nat} (h : .underscores n ∉ deps.keys)
    (decl : TypeDecl) (ty : Name) :
    Deps.Agree (deps :: (decl.postponedBranches n ty).map fun b => b.2.deps) := by
  have hunused : deps.get? (.underscores n) = none := Table.not_mem_keys_iff.1 h
  -- A variable of some part is one of the scrutinee or the one of all branches, never both.
  have hcases : ∀ x T, (∃ part ∈ deps :: (decl.postponedBranches n ty).map fun b => b.2.deps,
      part.get? x = some T) → deps.get? x = some T ∨ (x = .underscores n ∧ T = ty) := by
    intro x T hpart
    obtain ⟨part, hmem, hx⟩ := hpart
    rcases List.mem_cons.1 hmem with rfl | hmem
    · exact .inl hx
    · obtain ⟨b, hb, rfl⟩ := List.mem_map.1 hmem
      obtain ⟨c, _, rfl⟩ := List.mem_map.1 hb
      rw [Func.deps_postponed, Table.get?_eq_some_iff] at hx
      exact .inr (Prod.mk.inj (List.mem_singleton.1 hx))
  intro x T U hT hU
  rcases hcases x T hT with hT | ⟨rfl, rfl⟩
  · rcases hcases x U hU with hU | ⟨rfl, _⟩
    · exact Option.some.inj (hT.symm.trans hU)
    · rw [hunused] at hT
      cases hT
  · rcases hcases _ U hU with hU | ⟨_, rfl⟩
    · rw [hunused] at hU
      cases hU
    · rfl

end TypeDecl

namespace Registry

variable {T ty tag arg : Name} {args : List Name}

/-- All constructors of the type take arguments of declared types. -/
def ArgumentsDeclared (R : Registry) (T : Name) : Prop :=
  ∀ tag args, R.signature? T tag = some args → ∀ arg ∈ args, R.contains arg = true

theorem argumentsDeclared_of_check (hR : R.Reachable) (h : R.check = .ok ()) (T : Name) :
    R.ArgumentsDeclared T := by
  intro tag args hs
  obtain ⟨decl, hd, hs⟩ := signature?_eq_some.1 hs
  exact ((check_eq_ok hR).1 h T decl tag args hd hs).2

/-- Where all arguments are declared, postponed branches make a case analysis. -/
theorem exists_caseOf (hR : R.Reachable) {s : Term} (hs : s.Built R)
    (h : R.ArgumentsDeclared s.ty) (hty : R.contains ty = true) :
    ∃ branches t, branches.Ordered ∧ (∀ b ∈ branches, b.2.Built R) ∧
      R.caseOf ty s branches = .ok t := by
  obtain ⟨decl, hd⟩ := hs.ty_declared hR
  obtain ⟨result, hr⟩ := contains_iff.1 hty
  obtain ⟨n, hn⟩ := Name.exists_underscores_not_mem s.deps.keys
  obtain ⟨deps, hu⟩ := Deps.exists_union_iff.2 (TypeDecl.agree_postponedBranches hn decl ty)
  have ho : (decl.postponedBranches n ty).Ordered := List.pairwise_map.2 decl.constructors.ordered
  have hcovered : decl.CoveredBy result.name (decl.postponedBranches n ty) := by
    rw [(hR.name_eq hr).1]
    exact decl.coveredBy_postponedBranches n ty
  refine ⟨decl.postponedBranches n ty, _, ho, ?_,
    (caseOf_eq_ok ho).2 ⟨result, decl, deps, hr, hd, hcovered, hu, rfl⟩⟩
  intro b hb
  obtain ⟨c, hc, rfl⟩ := List.mem_map.1 hb
  refine Func.postponed_built hR n hty (h c.1 c.2 ?_)
  exact signature?_eq_some.2 ⟨decl, hd, Table.get?_eq_some_iff.2 hc⟩

/-- A branch for the constructor would need a parameter of the undeclared type. -/
theorem caseOf_ne_ok_of_dangling {s t : Term} (hs : R.signature? s.ty tag = some args)
    (ha : arg ∈ args) (hundeclared : R.contains arg = false) {branches : Entries Func}
    (ho : branches.Ordered) (hb : ∀ b ∈ branches, b.2.Built R) :
    R.caseOf ty s branches ≠ .ok t := by
  intro hok
  obtain ⟨_, decl, _, _, hd, hcovered, _, _⟩ := (caseOf_eq_ok ho).1 hok
  rw [signature?_of_get? hd, hcovered.signatures, Option.map_eq_some_iff] at hs
  obtain ⟨f, hf, rfl⟩ := hs
  obtain ⟨p, hp, rfl⟩ := List.mem_map.1 ha
  have hdeclared := ((hb (tag, f) (Entries.mem_of_get? hf)).checked.declared p hp).2
  rw [← contains_iff, hundeclared] at hdeclared
  cases hdeclared

end Registry

namespace Value

/-- Some node of the value is made by the constructor. -/
inductive HasNode (ty tag : Name) : Value → Prop where
  | here {args : List Value} : HasNode ty tag (.mk ty tag args)
  | inside {ty' tag' : Name} {args : List Value} {arg : Value} (part : arg ∈ args)
      (h : HasNode ty tag arg) : HasNode ty tag (.mk ty' tag' args)

/-- The arguments of a valid node are valid themselves, so that their types are declared. -/
theorem Valid.not_hasNode_of_dangling {v : Value} (h : v.Valid R) {T tag arg : Name}
    {args : List Name} (hs : R.signature? T tag = some args) (ha : arg ∈ args)
    (hundeclared : R.contains arg = false) : ¬ v.HasNode T tag := by
  induction h with
  | mk hd hs' valid ih =>
    intro hnode
    cases hnode with
    | here =>
      rw [Registry.signature?_of_get? hd, hs'] at hs
      obtain rfl := Option.some.inj hs
      obtain ⟨w, hw, rfl⟩ := List.mem_map.1 ha
      obtain ⟨hd', _, _⟩ := valid w hw
      rw [Value.ty_mk] at hundeclared
      rw [Registry.contains_iff.2 ⟨_, hd'⟩] at hundeclared
      cases hundeclared
    | inside part hnode => exact ih _ part hnode

end Value

/-- A type can be analysed into every declared type if the arguments of its constructors are
declared, as they are over a checked registry. If one of them is not, no case analysis of the type
is built, whatever its result and its branches, and no value that can be had has a node of the
constructor in it. -/
theorem dangling_argument_rules_out_analysis_and_values (hR : R.Reachable) (T : Name) :
    (R.check = .ok () → R.ArgumentsDeclared T) ∧
    (R.ArgumentsDeclared T → ∀ s : Term, s.Built R → s.ty = T → ∀ ty, R.contains ty = true →
      ∃ branches t, branches.Ordered ∧ (∀ b ∈ branches, b.2.Built R) ∧
        R.caseOf ty s branches = .ok t) ∧
    ∀ tag args arg, R.signature? T tag = some args → arg ∈ args → R.contains arg = false →
      (∀ ty (s : Term) branches, s.ty = T → branches.Ordered → (∀ b ∈ branches, b.2.Built R) →
        ∃ fault, R.caseOf ty s branches = .error fault) ∧
      ∀ v : Value, v.Obtainable R → ¬ v.HasNode T tag := by
  refine ⟨fun h => Registry.argumentsDeclared_of_check hR h T, ?_, ?_⟩
  · rintro h s hs rfl ty hty
    exact Registry.exists_caseOf hR hs h hty
  · intro tag args arg hsignature ha hundeclared
    constructor
    · rintro ty s branches rfl ho hb
      cases hcase : R.caseOf ty s branches with
      | error fault => exact ⟨fault, rfl⟩
      | ok t =>
        exact absurd hcase (Registry.caseOf_ne_ok_of_dangling hsignature ha hundeclared ho hb)
    · intro v hv
      exact (hv.valid hR).not_hasNode_of_dangling hsignature ha hundeclared

/-- Branches for the constructors of the muddled numbers. They take as many arguments as these do, all
of them numbers, since the other types are not declared. -/
def Registry.muddledBranches : Entries Func :=
  [("next", .postponed 0 "Nat" ["Nat", "Nat", "Nat"]), ("zero", .postponed 0 "Nat" ["Nat"])]

theorem Registry.muddledBranches_built : ∀ b ∈ muddledBranches, b.2.Built muddled := by
  have hbuilt : ∀ n, (Func.postponed 0 "Nat" (List.replicate n "Nat")).Built muddled := by
    intro n
    refine Func.postponed_built muddled_reachable 0 rfl fun T hT => ?_
    rw [List.eq_of_mem_replicate hT]
    rfl
  intro b hb
  simp only [muddledBranches, List.mem_cons, List.not_mem_nil, or_false] at hb
  rcases hb with rfl | rfl
  · exact hbuilt 3
  · exact hbuilt 1

theorem naturals_are_analysed_and_muddled_numbers_are_not :
    (∃ branches t, branches.Ordered ∧ (∀ b ∈ branches, b.2.Built .naturals) ∧
      Registry.naturals.caseOf "Nat" .predecessor branches = .ok t) ∧
    (∃ fault, Registry.muddled.caseOf "Nat" (.free "n" "Nat") Registry.muddledBranches =
      .error fault) ∧
    ¬ (Value.mk "Nat" "next"
      [.mk "Nat" "zero" [], .mk "Int" "one" [], .mk "Real" "one" []]).Obtainable .muddled := by
  constructor
  · have h := dangling_argument_rules_out_analysis_and_values Registry.naturals_reachable "Nat"
    exact h.2.1 (h.1 rfl) .predecessor Term.predecessor_built rfl "Nat" rfl
  · have h := (dangling_argument_rules_out_analysis_and_values Registry.muddled_reachable "Nat").2.2
      "next" ["Nat", "Int", "Real"] "Int" rfl (by decide) rfl
    refine ⟨h.1 "Nat" (.free "n" "Nat") Registry.muddledBranches rfl (by decide)
      Registry.muddledBranches_built, ?_⟩
    intro hv
    exact h.2 _ hv .here

end DataCalculus
