import DataCalculus.Proofs.Reading
import DataCalculus.Proofs.Substitution

/-!
# Two ways to read values

A value is read directly from its surface form, or a term is read from it and evaluated. Both accept
the same trees as long as the term is made of constructors alone, and both give the same value. The
first checks each value as it is made, the second builds constructors over anything and leaves the
checks to evaluation. Which of several faults is reported plays no part here.
-/

namespace DataCalculus

set_option autoImplicit false

variable {R : Registry}

/-- Constructors over constructors, down to those without arguments. -/
inductive Term.ConstructorsOnly : Term → Prop where
  | construct {ty tag : Name} {args : List Term} {deps : Deps}
      (parts : ∀ arg ∈ args, ConstructorsOnly arg) : ConstructorsOnly (.construct ty tag args deps)

mutual

theorem Term.toJson_constant : ∀ v : Value, (constant v).toJson = v.toJson
  | .mk ty tag args => by rw [constant, toJson, toJsons_constants args, Value.toJson]

theorem Term.toJsons_constants : ∀ vs : List Value, toJsons (constants vs) = Value.toJsons vs
  | [] => rfl
  | v :: vs => by rw [constants, toJsons, toJson_constant v, toJsons_constants vs, Value.toJsons]

end

theorem forall_mem_of_forall₂ {α β : Type} {P : β → Prop} {as : List α} {bs : List β}
    (h : List.Forall₂ (fun _ b => P b) as bs) : ∀ b ∈ bs, P b := by
  induction h with
  | nil => exact fun b hb => absurd hb List.not_mem_nil
  | cons hb _ ih => exact List.forall_mem_cons.2 ⟨hb, ih⟩

theorem Value.toJsons_eq {items : List Json} {vs : List Value}
    (h : List.Forall₂ (fun j v => v.toJson = j) items vs) : toJsons vs = items := by
  induction h with
  | nil => rfl
  | cons hfirst _ ih => rw [toJsons, hfirst, ih]

namespace Registry

theorem readValues_eq_mapM (items : List Json) : R.readValues items = items.mapM R.readValue := by
  induction items with
  | nil => rfl
  | cons item items ih => rw [readValues, List.mapM_cons, ih]

theorem readValues_eq_ok {items : List Json} {vs : List Value} :
    R.readValues items = .ok vs ↔ List.Forall₂ (fun j v => R.readValue j = .ok v) items vs := by
  rw [readValues_eq_mapM, Fault.mapM_eq_ok]

/-- How a value is read. -/
theorem readValue_eq_ok {j : Json} {v : Value} :
    R.readValue j = .ok v ↔ ∃ head ty tag items args, j = .arr (.str head :: items) ∧
      Surface.SpellsHead head (.construct ty tag) ∧
      List.Forall₂ (fun j v => R.readValue j = .ok v) items args ∧
      R.value ty tag args = .ok v := by
  constructor
  · intro h
    cases j with
    | null | bool | num | str | obj => simp [readValue] at h
    | arr items =>
      cases items with
      | nil => simp [readValue] at h
      | cons first items =>
        cases first with
        | null | bool | num | arr | obj => simp [readValue] at h
        | str head =>
          rw [readValue] at h
          cases hs : Surface.typeAndTag? head with
          | none =>
            rw [hs] at h
            cases h
          | some parts =>
            rw [hs] at h
            obtain ⟨args, hargs, hv⟩ := Fault.bind_eq_ok.1 h
            exact ⟨head, parts.1, parts.2, items, args, rfl,
              Surface.typeAndTag?_eq_some_iff.1 hs, readValues_eq_ok.1 hargs, hv⟩
  · intro h
    obtain ⟨head, ty, tag, items, args, rfl, hs, hargs, hv⟩ := h
    rw [readValue, Surface.typeAndTag?_eq_some_iff.2 hs]
    exact Fault.bind_eq_ok.2 ⟨args, readValues_eq_ok.2 hargs, hv⟩

/-- Induction along successful reading of values. -/
theorem readValue_induct {P : Json → Value → Prop}
    (mk : ∀ head ty tag items args v, Surface.SpellsHead head (.construct ty tag) →
      List.Forall₂ P items args → R.value ty tag args = .ok v → P (.arr (.str head :: items)) v) :
    ∀ j v, R.readValue j = .ok v → P j v := by
  intro j
  induction j using Json.induct with
  | flat j hj =>
    intro v h
    obtain ⟨_, _, _, _, _, he, _⟩ := readValue_eq_ok.1 h
    exact absurd he (hj _)
  | arr items hitems _ =>
    intro v h
    obtain ⟨head, ty, tag, rest, args, he, hs, hargs, hv⟩ := readValue_eq_ok.1 h
    obtain rfl := Json.arr.inj he
    have hmem : ∀ j ∈ rest, ∀ v, R.readValue j = .ok v → P j v := fun j hj =>
      hitems j (List.mem_cons_of_mem _ hj)
    have hparts : List.Forall₂ P rest args :=
      ((List.forall₂_and_left _ _).2 ⟨hmem, hargs⟩).imp fun j v h => h.1 v h.2
    exact mk head ty tag rest args v hs hparts hv

/-- What is known of a value that was read from a tree. -/
structure ReadsAs (R : Registry) (j : Json) (v : Value) : Prop where
  valid : v.Valid R
  written : v.toJson = j
  constructors : (Term.constant v).ConstructorsOnly
  term : R.readTerm j = .ok (.constant v)

theorem construct_constants {ty tag : Name} {args : List Value} {v : Value}
    (ht : tag.isIdentifier = true) (hv : R.value ty tag args = .ok v) :
    R.construct ty tag (Term.constants args) = .ok (.constant v) := by
  obtain ⟨decl, hd, hs, rfl⟩ := value_eq_ok.1 hv
  exact construct_eq_ok.2 ⟨decl, _, .empty, hd, hs, ht, Term.union_deps_constants args, rfl⟩

theorem readsAs_of_readValue (hR : R.Reachable) :
    ∀ j v, R.readValue j = .ok v → R.ReadsAs j v := by
  refine readValue_induct ?_
  intro head ty tag items args v hs hargs hv
  obtain ⟨decl, hd, _, rfl⟩ := value_eq_ok.1 hv
  have hterms : List.Forall₂ (fun j t => R.readTerm j = .ok t) items (Term.constants args) := by
    rw [Term.constants_eq_map, List.forall₂_map_right_iff]
    exact hargs.imp fun j v h => h.term
  refine ⟨?_, ?_, ?_, ?_⟩
  · exact Value.valid_of_value hR hv (forall_mem_of_forall₂ (hargs.imp fun j v h => h.valid))
  · have hitems : Value.toJsons args = items := Value.toJsons_eq (hargs.imp fun j v h => h.written)
    rw [Value.toJson, (hR.name_eq hd).1, hitems, hs.spelled]
  · refine .construct ?_
    rw [Term.constants_eq_map]
    exact List.forall_mem_map.2 (forall_mem_of_forall₂ (hargs.imp fun j v h => h.constructors))
  · have hhead := Surface.Head.ofString?_eq_some_iff.2 hs
    exact (readForm_construct_eq_ok hhead).2 ⟨_, hterms, construct_constants hs.proper.2 hv⟩

end Registry

namespace Interpreter

variable {I : Interpreter} {env : Env} {depth : Nat}

theorem evalAll_eq_ok {ts : List Term} {vs : List Value} :
    I.evalAll ts env depth = .ok vs ↔
      List.Forall₂ (fun t v => I.eval t env depth = .ok v) ts vs := by
  have hmap : I.evalAll ts env depth = ts.mapM fun t => I.eval t env depth := by
    induction ts with
    | nil => rfl
    | cons t ts ih => rw [evalAll, List.mapM_cons, ih]
  rw [hmap, Fault.mapM_eq_ok]

theorem eval_construct_eq_ok {ty tag : Name} {args : List Term} {deps : Deps} {v : Value}
    (h : I.eval (.construct ty tag args deps) env depth = .ok v) :
    ∃ vs, List.Forall₂ (fun t v => I.eval t env (depth + 1) = .ok v) args vs ∧
      I.registry.value ty tag vs = .ok v := by
  simp only [eval, Fault.bind_eq_ok, evalAll_eq_ok] at h
  obtain ⟨_, _, vs, hvs, hv⟩ := h
  exact ⟨vs, hvs, hv⟩

/-- Trees that are read as terms with these values are read as the values. -/
theorem forall₂_readValue {items : List Json} {args : List Term} {vs : List Value}
    (hargs : List.Forall₂ (fun j t => t.ConstructorsOnly → ∀ depth v,
      I.eval t env depth = .ok v → R.readValue j = .ok v ∧ t = .constant v) items args)
    (hdata : ∀ arg ∈ args, arg.ConstructorsOnly)
    (hvs : List.Forall₂ (fun t v => I.eval t env depth = .ok v) args vs) :
    List.Forall₂ (fun j v => R.readValue j = .ok v) items vs ∧ args = Term.constants vs := by
  induction hargs generalizing vs with
  | nil =>
    cases hvs
    exact ⟨.nil, rfl⟩
  | cons hfirst _ ih =>
    cases hvs with
    | cons hv hvs =>
      obtain ⟨hdata₁, hdata₂⟩ := List.forall_mem_cons.1 hdata
      obtain ⟨hread, rfl⟩ := hfirst hdata₁ _ _ hv
      obtain ⟨hreads, rfl⟩ := ih hdata₂ hvs
      exact ⟨.cons hread hreads, rfl⟩

/-- A term of constructors that was read and has a value is the constant of this value, and the
value is what would have been read directly. -/
theorem readValue_of_eval {settings : Settings} (hR : R.Reachable) (env : Env) :
    ∀ j t, R.readTerm j = .ok t → t.ConstructorsOnly → ∀ depth v,
      eval ⟨R, settings⟩ t env depth = .ok v → R.readValue j = .ok v ∧ t = .constant v := by
  refine (Registry.read_induct (Q := fun _ _ => True) ?free ?construct ?func ?call ?caseOf ?mk).1
  case free =>
    intro s name ty t _ hbuild hdata
    obtain ⟨_, _, _, rfl⟩ := Registry.free_eq_ok.1 hbuild
    cases hdata
  case construct =>
    intro head ty tag items args t hhead hargs hbuild hdata depth v heval
    obtain ⟨decl, _, deps, hd, _, _, hu, rfl⟩ := Registry.construct_eq_ok.1 hbuild
    obtain ⟨hparts⟩ := hdata
    obtain ⟨vs, hvs, hv⟩ := eval_construct_eq_ok heval
    rw [(hR.name_eq hd).1] at hv ⊢
    obtain ⟨hitems, rfl⟩ := forall₂_readValue hargs hparts hvs
    have hs := Surface.Head.ofString?_eq_some_iff.1 hhead
    refine ⟨Registry.readValue_eq_ok.2 ⟨head, ty, tag, items, vs, rfl, hs, hitems, hv⟩, ?_⟩
    obtain ⟨decl', hd', _, rfl⟩ := Registry.value_eq_ok.1 hv
    obtain rfl : deps = .empty := by
      rw [Term.union_deps_constants] at hu
      exact (Except.ok.inj hu).symm
    rw [Term.constant, (hR.name_eq hd').1]
  case func =>
    intro j f _ hdata
    cases hdata
  case call =>
    intro head ty decl literal f items args t _ _ _ _ hbuild _ hdata
    obtain ⟨_, _, _, rfl⟩ := Func.call_eq_ok.1 hbuild
    cases hdata
  case caseOf =>
    intro head ty scrutinee s fields branches t _ _ _ hbuild hdata
    obtain ⟨_, _, _, _, _, _, _, rfl⟩ := Registry.caseOf_eq_ok_iff.1 hbuild
    cases hdata
  case mk =>
    intro params body ps b f _ _ _
    trivial

/-- A value is read from a tree exactly if a term of constructors alone is read from the tree and
evaluates to this value. The term is then the constant of the value, and both are written as the
tree. -/
theorem readValue_iff_readTerm_evaluate (hR : R.Reachable) (settings : Settings)
    (hlimit : settings.maxDepth = none) (j : Json) (v : Value) :
    (R.readValue j = .ok v ↔ ∃ t, R.readTerm j = .ok t ∧ t.ConstructorsOnly ∧
      evaluate ⟨R, settings⟩ t .empty = .ok v) ∧
    ∀ t, R.readTerm j = .ok t → t.ConstructorsOnly → evaluate ⟨R, settings⟩ t .empty = .ok v →
      t = .constant v ∧ t.toJson = v.toJson ∧ v.toJson = j := by
  have hback : ∀ t, R.readTerm j = .ok t → t.ConstructorsOnly →
      evaluate ⟨R, settings⟩ t .empty = .ok v → R.readValue j = .ok v ∧ t = .constant v := by
    intro t hread hdata heval
    obtain ⟨_, _, heval⟩ := Fault.bind_eq_ok.1 heval
    exact readValue_of_eval hR .empty j t hread hdata 0 v heval
  refine ⟨⟨?_, ?_⟩, ?_⟩
  · intro h
    have hv := Registry.readsAs_of_readValue hR j v h
    have hdeps : (Term.constant v).checkDeps .empty = .ok () := by
      rw [Term.checkDeps, Term.deps_constant]
      rfl
    refine ⟨.constant v, hv.term, hv.constructors, ?_⟩
    rw [evaluate_eq_eval hdeps]
    refine eval_constant hR hv.valid .empty ?_
    intro limit hl
    rw [hlimit] at hl
    cases hl
  · intro h
    obtain ⟨t, hread, hdata, heval⟩ := h
    exact (hback t hread hdata heval).1
  · intro t hread hdata heval
    obtain ⟨hvalue, rfl⟩ := hback t hread hdata heval
    exact ⟨rfl, Term.toJson_constant v, (Registry.readsAs_of_readValue hR j v hvalue).written⟩

/-- The number one is read in both ways; a successor of nothing is read as a term only. -/
theorem one_is_read_as_value_and_as_term :
    (∃ t, Registry.naturals.readTerm (.arr [.str "Nat.next", .arr [.str "Nat.zero"]]) = .ok t ∧
      evaluate ⟨.naturals, {}⟩ t .empty = .ok (.mk "Nat" "next" [.mk "Nat" "zero" []]) ∧
      t = .constant (.mk "Nat" "next" [.mk "Nat" "zero" []]) ∧
      t.toJson = .arr [.str "Nat.next", .arr [.str "Nat.zero"]]) ∧
    Registry.naturals.readValue (.arr [.str "Nat.next"]) ≠ .ok (.mk "Nat" "next" []) := by
  have hone : Registry.naturals.readValue (.arr [.str "Nat.next", .arr [.str "Nat.zero"]]) =
      .ok (.mk "Nat" "next" [.mk "Nat" "zero" []]) := rfl
  have hnext : Registry.naturals.readTerm (.arr [.str "Nat.next"]) =
      .ok (.construct "Nat" "next" [] .empty) := rfl
  refine ⟨?_, ?_⟩
  · obtain ⟨hiff, hunique⟩ := readValue_iff_readTerm_evaluate Registry.naturals_reachable
      {} rfl (.arr [.str "Nat.next", .arr [.str "Nat.zero"]]) (.mk "Nat" "next" [.mk "Nat" "zero" []])
    obtain ⟨t, hread, hdata, heval⟩ := hiff.1 hone
    obtain ⟨hconstant, hterm, hvalue⟩ := hunique t hread hdata heval
    exact ⟨t, hread, heval, hconstant, hterm.trans hvalue⟩
  · intro h
    obtain ⟨t, hread, _, heval⟩ := (readValue_iff_readTerm_evaluate Registry.naturals_reachable
      {} rfl (.arr [.str "Nat.next"]) (.mk "Nat" "next" [])).1.1 h
    rw [hnext] at hread
    obtain rfl := Except.ok.inj hread
    cases heval

end Interpreter

end DataCalculus
