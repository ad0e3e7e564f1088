import DataCalculus.Registry

/-!
# Reachable registries

The registries that declaring types and adding constructors leads to. In them a declaration stands
under its own name, which is an identifier, and the index lists the names of the declarations; about
tags and argument types nothing is said.
-/

namespace DataCalculus.Registry

set_option autoImplicit false

/-- Made from the empty registry by declarations and additions that succeeded. -/
inductive Reachable : Registry → Prop where
  | empty : Reachable .empty
  | declare {R S : Registry} {name : Name} (h : Reachable R) (step : R.declare name = .ok S) :
      Reachable S
  | addConstructor {R S : Registry} {ty tag : Name} {args : List Name} (h : Reachable R)
      (step : R.addConstructor ty tag args = .ok S) : Reachable S

/-- A declaration stands under its own name, and the name is an identifier. -/
theorem Reachable.name_eq {R : Registry} (h : R.Reachable) {ty : Name} {decl : TypeDecl}
    (hd : R.types.get? ty = some decl) : decl.name = ty ∧ ty.isIdentifier = true := by
  induction h generalizing ty decl with
  | empty => simp [Registry.empty] at hd
  | @declare R S name _ step ih =>
    obtain ⟨hi, _, rfl⟩ := declare_eq_ok.1 step
    rw [Table.get?_insert] at hd
    split at hd
    · next he =>
      obtain rfl := Option.some.inj hd
      exact ⟨he.symm, he ▸ hi⟩
    · exact ih hd
  | @addConstructor R S ty' tag args _ step ih =>
    obtain ⟨decl', hd', rfl⟩ := addConstructor_eq_ok.1 step
    rw [Table.get?_insert] at hd
    split at hd
    · next he =>
      obtain rfl := Option.some.inj hd
      subst he
      obtain ⟨hn, hi⟩ := ih hd'
      exact ⟨hn, hi⟩
    · exact ih hd

/-- The index has the names of the declarations: declaring a type extends both, and adding a
constructor puts a declaration where there was one. -/
theorem Reachable.mem_index_iff {R : Registry} (h : R.Reachable) {ty : Name} :
    ty ∈ R.index.keys ↔ ty ∈ R.types.keys := by
  induction h with
  | empty => rfl
  | declare _ step ih =>
    obtain ⟨_, _, rfl⟩ := declare_eq_ok.1 step
    rw [Table.mem_keys_insert, Table.mem_keys_insert, ih]
  | @addConstructor R S ty' tag args _ step ih =>
    obtain ⟨decl, hd, rfl⟩ := addConstructor_eq_ok.1 step
    have hmem : ty' ∈ R.types.keys := Table.mem_keys_iff.2 ⟨decl, hd⟩
    rw [Table.mem_keys_insert, ih, or_iff_right_of_imp fun he => he ▸ hmem]

theorem Reachable.names_eq {R : Registry} (h : R.Reachable) : R.names = R.types.keys :=
  R.index.ordered.keys_eq R.types.ordered fun _ => h.mem_index_iff

/-- A listing passes over no declaration. -/
theorem Reachable.decls_eq {R : Registry} (h : R.Reachable) : R.decls = R.types.values := by
  rw [decls, h.names_eq, Table.filterMap_get?_keys]

end DataCalculus.Registry
