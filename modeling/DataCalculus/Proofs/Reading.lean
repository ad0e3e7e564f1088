import DataCalculus.Proofs.Building
import DataCalculus.Proofs.Grammar
import DataCalculus.Proofs.RoundTrip
import Mathlib.Data.List.Forall2

/-!
# Successful reading

How a tree was read when reading it succeeded: induction over trees, and from it an induction over
trees together with the terms that were read from them, with one case for each surface form. Faults
play no part here.
-/

namespace DataCalculus

set_option autoImplicit false

/-- What holds of an array whenever it holds of the items, and of the members of objects among the
items, holds of every tree, if it holds of all trees that are no arrays. -/
theorem Json.induct {P : Json → Prop} (flat : ∀ j, (∀ items, j ≠ .arr items) → P j)
    (arr : ∀ items, (∀ item ∈ items, P item) →
      (∀ fields, .obj fields ∈ items → ∀ b ∈ fields, P b.2) → P (.arr items)) (j : Json) : P j := by
  -- Objects are no surface forms of their own, so that their members are kept beside them.
  have hboth : P j ∧ ∀ fields, j = .obj fields → ∀ b ∈ fields, P b.2 := by
    refine @Json.rec (fun j => P j ∧ ∀ fields, j = .obj fields → ∀ b ∈ fields, P b.2)
      (fun items => ∀ item ∈ items, P item ∧ ∀ fields, item = .obj fields → ∀ b ∈ fields, P b.2)
      (fun fields => ∀ b ∈ fields, P b.2) (fun b => P b.2)
      ?null ?bool ?num ?str ?arr ?obj ?nil ?cons ?noFields ?fields ?field j
    case null => exact ⟨flat _ (by simp), by simp⟩
    case bool => exact fun b => ⟨flat _ (by simp), by simp⟩
    case num => exact fun n => ⟨flat _ (by simp), by simp⟩
    case str => exact fun s => ⟨flat _ (by simp), by simp⟩
    case arr =>
      intro items ih
      refine ⟨arr items (fun item hi => (ih item hi).1) ?_, by simp⟩
      intro fields hf
      exact (ih _ hf).2 fields rfl
    case obj =>
      intro fields ih
      refine ⟨flat _ (by simp), ?_⟩
      intro fields' he
      obtain rfl := Json.obj.inj he
      exact ih
    case nil => exact fun item hi => absurd hi List.not_mem_nil
    case cons => exact fun item items hitem hitems => List.forall_mem_cons.2 ⟨hitem, hitems⟩
    case noFields => exact fun b hb => absurd hb List.not_mem_nil
    case fields => exact fun b fields hb hfields => List.forall_mem_cons.2 ⟨hb, hfields⟩
    case field => exact fun key value hv => hv.1
  exact hboth.1

/-- A list of steps succeeds when each of them does. -/
theorem Fault.mapM_eq_ok {α β : Type} {f : α → Except Fault β} {as : List α} {bs : List β} :
    as.mapM f = .ok bs ↔ List.Forall₂ (fun a b => f a = .ok b) as bs := by
  induction as generalizing bs with
  | nil => simp [pure, Except.pure, eq_comm]
  | cons a as ih =>
    simp only [List.mapM_cons, bind_eq_ok, pure_eq_ok, ih, List.forall₂_cons_left_iff,
      exists_and_left]

theorem TypeDecl.hasConstructor_iff {decl : TypeDecl} {tag : Name} :
    decl.hasConstructor tag = true ↔ ∃ signature, decl.constructors.get? tag = some signature :=
  Option.isSome_iff_exists

namespace Registry

variable {R : Registry}

theorem readParam_eq_ok (hR : R.Reachable) {j : Json} {p : Param} :
    R.readParam j = .ok p ↔ Surface.SpellsParam j p ∧ R.contains p.ty = true := by
  cases j with
  | null | bool | num | arr | obj => simp [readParam, Surface.SpellsParam]
  | str s =>
    rw [readParam, contains_iff]
    constructor
    · intro h
      cases hs : Surface.typedName? s with
      | none =>
        rw [hs] at h
        cases h
      | some parts =>
        rw [hs] at h
        obtain ⟨_, decl, hd, rfl⟩ := param_eq_ok.1 h
        have hv := Surface.typedName?_eq_some_iff.1 hs
        rw [(hR.name_eq hd).1]
        exact ⟨⟨s, rfl, hv⟩, decl, hd⟩
    · intro h
      obtain ⟨⟨s', he, hv⟩, decl, hd⟩ := h
      obtain rfl := Json.str.inj he
      rw [Surface.typedName?_eq_some_iff.2 hv]
      refine param_eq_ok.2 ⟨hv.name_identifier, decl, hd, ?_⟩
      rw [(hR.name_eq hd).1]

theorem readTerms_eq_mapM (items : List Json) : R.readTerms items = items.mapM R.readTerm := by
  induction items with
  | nil => rfl
  | cons item items ih => rw [readTerms, List.mapM_cons, ih]

theorem readTerms_eq_ok {items : List Json} {ts : List Term} :
    R.readTerms items = .ok ts ↔ List.Forall₂ (fun j t => R.readTerm j = .ok t) items ts := by
  rw [readTerms_eq_mapM, Fault.mapM_eq_ok]

theorem readBranches_eq_mapM (fields : List (String × Json)) : R.readBranches fields =
    fields.mapM fun a => R.readLiteral a.2 >>= fun f => pure (a.1, f) := by
  induction fields with
  | nil => rfl
  | cons a fields ih => simp only [readBranches, List.mapM_cons, ih, bind_assoc, pure_bind]

theorem readBranches_eq_ok {fields : List (String × Json)} {branches : Entries Func} :
    R.readBranches fields = .ok branches ↔
      List.Forall₂ (fun a b => a.1 = b.1 ∧ R.readLiteral a.2 = .ok b.2) fields branches := by
  have hstep : ∀ (a : String × Json) (b : Name × Func),
      (R.readLiteral a.2 >>= fun f => pure (a.1, f)) = .ok b ↔
        a.1 = b.1 ∧ R.readLiteral a.2 = .ok b.2 := by
    intro a b
    simp only [Fault.bind_eq_ok, Fault.pure_eq_ok]
    constructor
    · intro h
      obtain ⟨f, hf, hb⟩ := h
      subst hb
      exact ⟨rfl, hf⟩
    · intro h
      obtain ⟨htag, hf⟩ := h
      exact ⟨b.2, hf, by rw [htag]⟩
  simp only [readBranches_eq_mapM, Fault.mapM_eq_ok, hstep]

theorem readFunc_eq_ok {params items : List Json} {f : Func} :
    R.readFunc params items = .ok f ↔ ∃ body ps b, items = [body] ∧
      List.Forall₂ (fun p q => R.readParam p = .ok q) params ps ∧ R.readTerm body = .ok b ∧
      Func.build ps b = .ok f := by
  match items with
  | [] => simp [readFunc]
  | [body] =>
    simp only [readFunc, Fault.bind_eq_ok, Fault.mapM_eq_ok, List.cons.injEq, and_true,
      exists_and_left, exists_eq_left']
  | _ :: _ :: _ => simp [readFunc]

/-- How a function literal is read. -/
theorem readLiteral_eq_ok {j : Json} {f : Func} :
    R.readLiteral j = .ok f ↔ ∃ params body ps b, j = .arr [.arr params, body] ∧
      List.Forall₂ (fun p q => R.readParam p = .ok q) params ps ∧ R.readTerm body = .ok b ∧
      Func.build ps b = .ok f := by
  constructor
  · intro h
    rw [readLiteral.eq_def] at h
    split at h
    · obtain ⟨body, ps, b, rfl, hps, hb, hf⟩ := readFunc_eq_ok.1 h
      exact ⟨_, body, ps, b, rfl, hps, hb, hf⟩
    · cases h
  · intro h
    obtain ⟨params, body, ps, b, hj, hps, hb, hf⟩ := h
    rw [hj, readLiteral, readFunc_eq_ok]
    exact ⟨body, ps, b, rfl, hps, hb, hf⟩

/-- A function literal stands as a term of its own. -/
theorem readTerm_literal (params items : List Json) :
    R.readTerm (.arr (.arr params :: items)) =
      R.readLiteral (.arr (.arr params :: items)) >>= fun f => pure (.func f) := by
  rw [readTerm, readForm, readLiteral]

section Forms

variable {head : String} {ty tag : Name} {items : List Json} {t : Term}

theorem readForm_construct_eq_ok (h : Surface.Head.ofString? head = some (.construct ty tag)) :
    R.readForm (.str head :: items) = .ok t ↔
      ∃ args, List.Forall₂ (fun j t => R.readTerm j = .ok t) items args ∧
        R.construct ty tag args = .ok t := by
  rw [readForm_construct h, Fault.bind_eq_ok]
  simp only [readTerms_eq_ok]

theorem readForm_call_eq_ok (h : Surface.Head.ofString? head = some (.call ty)) :
    R.readForm (.str head :: items) = .ok t ↔
      ∃ literal rest decl f args, items = literal :: rest ∧ R.types.get? ty = some decl ∧
        R.readLiteral literal = .ok f ∧
        List.Forall₂ (fun j t => R.readTerm j = .ok t) rest args ∧ f.call args = .ok t ∧
        t.ty = decl.name := by
  match items with
  | [] =>
    rw [readForm.eq_def]
    simp [h]
  | literal :: rest =>
    cases hd : R.types.get? ty with
    | none =>
      rw [readForm.eq_def]
      simp [h, get, hd, bind, Except.bind]
    | some decl =>
      rw [readForm_call h hd]
      simp only [Fault.bind_eq_ok, readTerms_eq_ok]
      constructor
      · intro hr
        obtain ⟨f, hf, args, hargs, u, hu, hresult⟩ := hr
        by_cases hty : u.ty = decl.name
        · rw [if_pos hty] at hresult
          obtain rfl := Fault.pure_eq_ok.1 hresult
          exact ⟨literal, rest, decl, f, args, rfl, rfl, hf, hargs, hu, hty⟩
        · rw [if_neg hty] at hresult
          cases hresult
      · intro hr
        obtain ⟨_, _, decl', f, args, he, hd', hf, hargs, hu, hty⟩ := hr
        obtain ⟨rfl, rfl⟩ := List.cons.inj he
        obtain rfl := Option.some.inj hd'
        exact ⟨f, hf, args, hargs, t, hu, if_pos hty⟩

theorem readForm_caseOf_eq_ok (h : Surface.Head.ofString? head = some (.caseOf ty)) :
    R.readForm (.str head :: items) = .ok t ↔
      ∃ scrutinee fields s branches, items = [scrutinee, .obj fields] ∧
        R.readTerm scrutinee = .ok s ∧
        List.Forall₂ (fun a b => a.1 = b.1 ∧ R.readLiteral a.2 = .ok b.2) fields branches ∧
        R.caseOf ty s branches = .ok t := by
  constructor
  · intro hr
    rw [readForm.eq_def] at hr
    simp only [h] at hr
    split at hr
    · next heq => cases heq
    · next heq => cases heq
    · next scrutinee fields heq =>
      obtain rfl : ty = _ := Surface.Head.caseOf.inj (Option.some.inj heq)
      simp only [Fault.bind_eq_ok, readBranches_eq_ok] at hr
      obtain ⟨s, hs, branches, hbranches, ht⟩ := hr
      exact ⟨scrutinee, fields, s, branches, rfl, hs, hbranches, ht⟩
    · cases hr
    · cases hr
  · intro hr
    obtain ⟨scrutinee, fields, s, branches, he, hs, hbranches, ht⟩ := hr
    rw [he, readForm_caseOf h, hs, readBranches_eq_ok.2 hbranches]
    exact ht

end Forms

/-- An array that is read begins with parameters or with a head. -/
theorem readForm_ok_cases {items : List Json} {t : Term} (h : R.readForm items = .ok t) :
    (∃ params rest, items = .arr params :: rest) ∨
      ∃ s head rest, items = .str s :: rest ∧ Surface.Head.ofString? s = some head := by
  match items with
  | [] => simp [readForm] at h
  | first :: rest =>
    cases first with
    | null | bool | num | obj => simp [readForm] at h
    | arr params => exact .inl ⟨params, rest, rfl⟩
    | str s =>
      cases hs : Surface.Head.ofString? s with
      | none =>
        rw [readForm_unknown hs] at h
        cases h
      | some head => exact .inr ⟨s, head, rest, rfl, hs⟩

theorem readTerm_flat {j : Json} (hj : ∀ items, j ≠ .arr items) {t : Term}
    (h : R.readTerm j = .ok t) :
    ∃ s name ty, j = .str s ∧ Surface.typedName? s = some (name, ty) ∧ R.free name ty = .ok t := by
  cases j with
  | null | bool | num | obj => cases h
  | arr items => exact absurd rfl (hj items)
  | str s =>
    rw [readTerm] at h
    cases hs : Surface.typedName? s with
    | none =>
      rw [hs] at h
      cases h
    | some parts =>
      rw [hs] at h
      exact ⟨s, parts.1, parts.2, rfl, hs, h⟩

/-- Induction along successful reading, with one case for each form. -/
theorem read_induct {P : Json → Term → Prop} {Q : Json → Func → Prop}
    (free : ∀ s name ty t, Surface.typedName? s = some (name, ty) → R.free name ty = .ok t →
      P (.str s) t)
    (construct : ∀ head ty tag items args t,
      Surface.Head.ofString? head = some (.construct ty tag) → List.Forall₂ P items args →
      R.construct ty tag args = .ok t → P (.arr (.str head :: items)) t)
    (func : ∀ j f, Q j f → P j (.func f))
    (call : ∀ head ty decl literal f items args t,
      Surface.Head.ofString? head = some (.call ty) → R.types.get? ty = some decl → Q literal f →
      List.Forall₂ P items args → f.call args = .ok t → t.ty = decl.name →
      P (.arr (.str head :: literal :: items)) t)
    (caseOf : ∀ head ty scrutinee s fields branches t,
      Surface.Head.ofString? head = some (.caseOf ty) → P scrutinee s →
      List.Forall₂ (fun a b => a.1 = b.1 ∧ Q a.2 b.2) fields branches →
      R.caseOf ty s branches = .ok t → P (.arr [.str head, scrutinee, .obj fields]) t)
    (mk : ∀ params body ps b f, List.Forall₂ (fun p q => R.readParam p = .ok q) params ps →
      P body b → Func.build ps b = .ok f → Q (.arr [.arr params, body]) f) :
    (∀ j t, R.readTerm j = .ok t → P j t) ∧ ∀ j f, R.readLiteral j = .ok f → Q j f := by
  have hboth : ∀ j, (∀ t, R.readTerm j = .ok t → P j t) ∧ ∀ f, R.readLiteral j = .ok f → Q j f := by
    refine Json.induct ?flat ?arr
    case flat =>
      intro j hj
      constructor
      · intro t ht
        obtain ⟨s, name, ty, rfl, hs, hfree⟩ := readTerm_flat hj ht
        exact free s name ty t hs hfree
      · intro f hf
        obtain ⟨params, body, _, _, rfl, _⟩ := readLiteral_eq_ok.1 hf
        exact absurd rfl (hj _)
    case arr =>
      intro items hitems hfields
      have hliteral : ∀ f, R.readLiteral (.arr items) = .ok f → Q (.arr items) f := by
        intro f hf
        obtain ⟨params, body, ps, b, he, hps, hb, hbuild⟩ := readLiteral_eq_ok.1 hf
        obtain rfl := Json.arr.inj he
        exact mk params body ps b f hps ((hitems body (by simp)).1 b hb) hbuild
      have hterms : ∀ {rest args}, (∀ j ∈ rest, j ∈ items) →
          List.Forall₂ (fun j t => R.readTerm j = .ok t) rest args → List.Forall₂ P rest args := by
        intro rest args hsub hargs
        have hmem : ∀ j ∈ rest, ∀ t, R.readTerm j = .ok t → P j t := fun j hj =>
          (hitems j (hsub j hj)).1
        exact ((List.forall₂_and_left _ _).2 ⟨hmem, hargs⟩).imp fun j t h => h.1 t h.2
      refine ⟨?_, hliteral⟩
      intro t ht
      rcases readForm_ok_cases ht with ⟨params, rest, rfl⟩ | ⟨s, head, rest, rfl, hs⟩
      · rw [readTerm_literal, Fault.bind_eq_ok] at ht
        obtain ⟨f, hf, hpure⟩ := ht
        obtain rfl := Fault.pure_eq_ok.1 hpure
        exact func _ f (hliteral f hf)
      · cases head with
        | construct ty tag =>
          obtain ⟨args, hargs, hbuild⟩ := (readForm_construct_eq_ok hs).1 ht
          have hparts := hterms (fun j hj => List.mem_cons_of_mem _ hj) hargs
          exact construct s ty tag rest args t hs hparts hbuild
        | call ty =>
          obtain ⟨literal, rest, decl, f, args, rfl, hd, hf, hargs, hbuild, hty⟩ :=
            (readForm_call_eq_ok hs).1 ht
          have hcallee := (hitems literal (by simp)).2 f hf
          have hparts := hterms (fun j hj => by simp [hj]) hargs
          exact call s ty decl literal f rest args t hs hd hcallee hparts hbuild hty
        | caseOf ty =>
          obtain ⟨scrutinee, fields, u, branches, rfl, hu, hbranches, hbuild⟩ :=
            (readForm_caseOf_eq_ok hs).1 ht
          have hscrutinee := (hitems scrutinee (by simp)).1 u hu
          have hmem : ∀ a ∈ fields, ∀ f, R.readLiteral a.2 = .ok f → Q a.2 f := fun a ha =>
            (hfields fields (by simp) a ha).2
          have hparts : List.Forall₂ (fun a b => a.1 = b.1 ∧ Q a.2 b.2) fields branches :=
            ((List.forall₂_and_left _ _).2 ⟨hmem, hbranches⟩).imp fun a b h =>
              ⟨h.2.1, h.1 b.2 h.2.2⟩
          exact caseOf s ty scrutinee u fields branches t hs hscrutinee hparts hbuild
  exact ⟨fun j => (hboth j).1, fun j => (hboth j).2⟩

end Registry

end DataCalculus
