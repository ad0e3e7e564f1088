import DataCalculus.Proofs.BuiltTerms

/-!
# Dependencies are free variables

The dependencies that a built term stores, at every node and in every function, are exactly its
free variables with their types. The builders compute them by joining and removing names, and store
none for constants; the occurrences are counted on the term alone. Nothing is claimed of terms that
were put together in another way.
-/

namespace DataCalculus

set_option autoImplicit false

variable {R : Registry} {x T : Name}

namespace Term

theorem occurs_free {name ty : Name} : Occurs x T (.free name ty) ↔ x = name ∧ T = ty := by
  constructor
  · rintro ⟨⟩
    exact ⟨rfl, rfl⟩
  · rintro ⟨rfl, rfl⟩
    exact .free

theorem occurs_construct {ty tag : Name} {args : List Term} {deps : Deps} :
    Occurs x T (.construct ty tag args deps) ↔ ∃ arg ∈ args, Occurs x T arg := by
  constructor
  · rintro (_ | ⟨mem, h⟩)
    exact ⟨_, mem, h⟩
  · rintro ⟨arg, mem, h⟩
    exact .construct mem h

theorem occurs_func {f : Func} : Occurs x T (.func f) ↔ Func.Occurs x T f := by
  constructor
  · rintro (_ | _ | h)
    exact h
  · exact .func

theorem occurs_call {f : Func} {args : List Term} {deps : Deps} :
    Occurs x T (.call f args deps) ↔ Func.Occurs x T f ∨ ∃ arg ∈ args, Occurs x T arg := by
  constructor
  · rintro (_ | _ | _ | h | ⟨mem, h⟩)
    · exact .inl h
    · exact .inr ⟨_, mem, h⟩
  · rintro (h | ⟨arg, mem, h⟩)
    · exact .callFunc h
    · exact .callArg mem h

theorem occurs_caseOf {ty : Name} {t : Term} {branches : List (Name × Func)} {deps : Deps} :
    Occurs x T (.caseOf ty t branches deps) ↔
      Occurs x T t ∨ ∃ b ∈ branches, Func.Occurs x T b.2 := by
  constructor
  · rintro (_ | _ | _ | _ | _ | h | ⟨mem, h⟩)
    · exact .inl h
    · exact .inr ⟨_, mem, h⟩
  · rintro (h | ⟨b, mem, h⟩)
    · exact .scrutinee h
    · exact .branch mem h

end Term

theorem Func.occurs_mk {params : List Param} {body : Term} {deps : Deps} :
    Func.Occurs x T (.mk params body deps) ↔
      x ∉ params.map Param.name ∧ Term.Occurs x T body := by
  simp only [List.mem_map, not_exists, not_and]
  constructor
  · rintro ⟨unbound, h⟩
    exact ⟨unbound, h⟩
  · rintro ⟨unbound, h⟩
    exact .body unbound h

/-- Both statements are proved together, since a function is a part of a term and a term of a
function. -/
theorem get?_deps_iff_occurs (hR : R.Reachable) :
    (∀ t : Term, t.Built R → ∀ x T, t.deps.get? x = some T ↔ Term.Occurs x T t) ∧
      ∀ f : Func, f.Built R → ∀ x T, f.deps.get? x = some T ↔ Func.Occurs x T f := by
  refine Term.induct ?free ?construct ?func ?call ?caseOf ?mk
  case free =>
    intro name ty _ x T
    rw [Term.occurs_free, Term.deps, Table.get?_eq_some_iff]
    simp [Table.single]
  case construct =>
    intro ty tag args deps ih h x T
    obtain ⟨_, hargs, hu⟩ := h.checked hR
    rw [Term.occurs_construct, Term.deps, Deps.union_map_eq_ok.1 hu]
    exact exists_congr fun arg => and_congr_right fun ha => ih arg ha (hargs arg ha) x T
  case func =>
    intro f ih h x T
    rw [Term.occurs_func]
    exact ih (h.checked hR) x T
  case call =>
    intro f args deps ihf iha h x T
    obtain ⟨hf, hargs, _, hu⟩ := h.checked hR
    rw [Term.occurs_call, Term.deps, Deps.union_cons_map_eq_ok.1 hu, ihf hf]
    refine or_congr_right (exists_congr fun arg => and_congr_right fun ha => ?_)
    exact iha arg ha (hargs arg ha) x T
  case caseOf =>
    intro ty scrutinee branches deps iht ihb h x T
    obtain ⟨ht, hbranches, _, _, _, hu⟩ := h.checked hR
    rw [Term.occurs_caseOf, Term.deps, Deps.union_cons_map_eq_ok.1 hu, iht ht]
    refine or_congr_right (exists_congr fun b => and_congr_right fun hb => ?_)
    exact ihb b hb (hbranches b hb) x T
  case mk =>
    intro params body deps ih h x T
    have hc := h.checked
    have hdeps : deps = body.deps.without (params.map Param.name) := hc.deps_eq
    rw [Func.occurs_mk, Func.deps_mk, hdeps, Table.get?_without, ← ih hc.body x T]
    by_cases hx : x ∈ params.map Param.name
    · simp [hx]
    · simp [hx]

/-- The set lists the variables that occur, each once and at one type, by increasing name. -/
structure Deps.Lists (deps : Deps) (occurs : Name → Name → Prop) : Prop where
  mem_iff : ∀ x T, (x, T) ∈ deps.entries ↔ occurs x T
  one_type : ∀ x T U, (x, T) ∈ deps.entries → (x, U) ∈ deps.entries → T = U
  increasing : deps.keys.Pairwise (· < ·)

theorem Deps.lists_of_get? {deps : Deps} {occurs : Name → Name → Prop}
    (h : ∀ x T, deps.get? x = some T ↔ occurs x T) : deps.Lists occurs := by
  constructor
  · intro x T
    rw [← Table.get?_eq_some_iff, h]
  · intro x T U hT hU
    rw [← Table.get?_eq_some_iff] at hT hU
    rw [hT] at hU
    exact Option.some.inj hU
  · exact List.pairwise_map.2 deps.ordered

theorem Deps.Lists.isEmpty_iff {deps : Deps} {occurs : Name → Name → Prop} (h : deps.Lists occurs) :
    deps.isEmpty = true ↔ ∀ x T, ¬ occurs x T := by
  rw [Table.isEmpty, List.isEmpty_iff, List.eq_nil_iff_forall_not_mem]
  constructor
  · intro hn x T ho
    exact hn (x, T) ((h.mem_iff x T).2 ho)
  · intro hn e he
    exact hn e.1 e.2 ((h.mem_iff e.1 e.2).1 he)

/-- In a built term every subterm and every function stores its free variables and nothing else,
a parameter is used in the body at its own type only, and a subterm counts as closed when no
variable stands free in it. -/
theorem stored_deps_are_free_variables (hR : R.Reachable) {t : Term} (ht : t.Built R) :
    (∀ s ∈ t.subterms, s.deps.Lists (fun x T => Term.Occurs x T s) ∧
      (s.isClosed = true ↔ ∀ x T, ¬ Term.Occurs x T s)) ∧
    ∀ f ∈ t.functions, f.deps.Lists (fun x T => Func.Occurs x T f) ∧
      ∀ p ∈ f.params, ∀ T, Term.Occurs p.name T f.body → T = p.ty := by
  obtain ⟨hterm, hfunc⟩ := get?_deps_iff_occurs hR
  constructor
  · intro s hs
    have hlists := Deps.lists_of_get? (hterm s (ht.of_mem_subterms hR hs))
    exact ⟨hlists, hlists.isEmpty_iff⟩
  · intro f hf
    have hbuilt := ht.of_mem_functions hR hf
    refine ⟨Deps.lists_of_get? (hfunc f hbuilt), ?_⟩
    intro p hp T ho
    have hc := hbuilt.checked
    exact hc.used p hp T ((hterm f.body hc.body p.name T).2 ho)

theorem stored_deps_predecessor : Registry.naturals.Reachable ∧
    Term.predecessor.Built .naturals ∧ Term.Occurs "n" "Nat" .predecessor ∧
    ¬ Term.Occurs "m" "Nat" .predecessor := by
  have h := stored_deps_are_free_variables Registry.naturals_reachable Term.predecessor_built
  have hlists := (h.1 _ (Term.self_mem_subterms _)).1
  refine ⟨Registry.naturals_reachable, Term.predecessor_built, (hlists.mem_iff _ _).1 (by decide), ?_⟩
  intro hm
  exact absurd ((hlists.mem_iff _ _).2 hm) (by decide)

end DataCalculus
