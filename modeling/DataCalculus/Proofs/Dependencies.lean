import DataCalculus.Deps

/-!
# Joining and checking dependencies

A join succeeds with a set exactly when the lookups of that set are those of the parts together, so
that a join never has to be computed to be used. Checking a set against an environment is stated by
lookups as well, with the fault that is reported when it fails.
-/

namespace DataCalculus

set_option autoImplicit false

namespace Deps

theorem ok_eq_ok_iff {deps out : Deps} :
    (.ok deps : Except Fault Deps) = .ok out ↔ ∀ x T, out.get? x = some T ↔ deps.get? x = some T := by
  constructor
  · intro h x T
    rw [Except.ok.inj h]
  · intro h
    have he : deps = out := by
      apply Table.ext_get?
      intro x
      apply Option.ext
      intro T
      rw [h]
    rw [he]

theorem add_eq_ok {deps out : Deps} {name ty : Name} :
    deps.add name ty = .ok out ↔
      ∀ x T, out.get? x = some T ↔ deps.get? x = some T ∨ (x = name ∧ T = ty) := by
  unfold add
  cases hg : deps.get? name with
  | none =>
    have hinsert : ∀ x T, (deps.insert name ty).get? x = some T ↔
        deps.get? x = some T ∨ (x = name ∧ T = ty) := by
      intro x T
      rw [Table.get?_insert]
      by_cases hx : x = name
      · subst hx
        simp [hg, eq_comm]
      · simp [hx]
    simp only [ok_eq_ok_iff, hinsert]
  | some first =>
    by_cases hf : first = ty
    · subst hf
      have hdeps : ∀ x T, deps.get? x = some T ∨ (x = name ∧ T = first) ↔
          deps.get? x = some T := by
        intro x T
        refine or_iff_left_of_imp ?_
        rintro ⟨rfl, rfl⟩
        exact hg
      simp only [↓reduceIte, ok_eq_ok_iff, hdeps]
    · simp only [hf, ↓reduceIte, reduceCtorEq, false_iff]
      intro h
      have h₁ := (h name first).2 (.inl hg)
      have h₂ := (h name ty).2 (.inr ⟨rfl, rfl⟩)
      rw [h₁] at h₂
      exact hf (Option.some.inj h₂)

/-- Adding succeeds below any set that has the old variables and the new one. -/
theorem exists_add {deps out : Deps} {name ty : Name}
    (hold : ∀ T, deps.get? name = some T → out.get? name = some T)
    (hnew : out.get? name = some ty) : ∃ mid, deps.add name ty = .ok mid := by
  unfold add
  cases hg : deps.get? name with
  | none => exact ⟨_, rfl⟩
  | some first =>
    have hf := hold first hg
    rw [hnew] at hf
    obtain rfl := Option.some.inj hf
    exact ⟨deps, by simp⟩

theorem addAll_cons_eq_ok {deps out : Deps} {name ty : Name} {es : Entries Name} :
    deps.addAll ((name, ty) :: es) = .ok out ↔
      ∃ mid, deps.add name ty = .ok mid ∧ mid.addAll es = .ok out := by
  simp only [addAll, List.foldlM_cons, Fault.bind_eq_ok]

theorem addAll_eq_ok {deps out : Deps} {es : Entries Name} :
    deps.addAll es = .ok out ↔ ∀ x T, out.get? x = some T ↔ deps.get? x = some T ∨ (x, T) ∈ es := by
  induction es generalizing deps with
  | nil =>
    simp only [List.not_mem_nil, or_false]
    exact ok_eq_ok_iff
  | cons e es ih =>
    obtain ⟨name, ty⟩ := e
    rw [addAll_cons_eq_ok]
    constructor
    · rintro ⟨mid, hadd, hrest⟩ x T
      rw [ih.1 hrest, add_eq_ok.1 hadd, List.mem_cons, Prod.mk.injEq, or_assoc]
    · intro h
      obtain ⟨mid, hadd⟩ : ∃ mid, deps.add name ty = .ok mid :=
        exists_add (fun T hT => (h name T).2 (.inl hT)) ((h name ty).2 (.inr (by simp)))
      refine ⟨mid, hadd, ih.2 fun x T => ?_⟩
      rw [h, add_eq_ok.1 hadd, List.mem_cons, Prod.mk.injEq, or_assoc]

theorem foldlM_addAll (parts : List Deps) (deps : Deps) :
    parts.foldlM (fun deps part => deps.addAll part.entries) deps =
      deps.addAll (parts.flatMap Table.entries) := by
  induction parts generalizing deps with
  | nil => rfl
  | cons part parts ih =>
    have hsplit : deps.addAll (part.entries ++ parts.flatMap Table.entries) =
        deps.addAll part.entries >>= fun mid => mid.addAll (parts.flatMap Table.entries) :=
      List.foldlM_append
    rw [List.foldlM_cons, List.flatMap_cons, hsplit]
    exact bind_congr fun mid => ih mid

/-- A join is a set with exactly the variables of the parts, and there is one unless two parts
disagree about a variable. -/
theorem union_eq_ok {parts : List Deps} {deps : Deps} :
    union parts = .ok deps ↔ ∀ x T, deps.get? x = some T ↔ ∃ part ∈ parts, part.get? x = some T := by
  have hempty : ∀ x T, (Table.empty : Deps).get? x = some T ↔ False := by
    intro x T
    simp
  rw [union, foldlM_addAll, addAll_eq_ok]
  simp only [hempty, false_or, List.mem_flatMap, Table.get?_eq_some_iff]

/-- Entries can be added one by one if they agree with each other and with what is there. -/
theorem exists_addAll {deps : Deps} {es : Entries Name}
    (h : ∀ x T U, (deps.get? x = some T ∨ (x, T) ∈ es) → (deps.get? x = some U ∨ (x, U) ∈ es) →
      T = U) : ∃ out, deps.addAll es = .ok out := by
  induction es generalizing deps with
  | nil => exact ⟨deps, rfl⟩
  | cons e es ih =>
    obtain ⟨name, ty⟩ := e
    have hnew : deps.get? name = some ty ∨ (name, ty) ∈ (name, ty) :: es := .inr (by simp)
    obtain ⟨mid, hadd⟩ : ∃ mid, deps.add name ty = .ok mid := by
      unfold add
      cases hg : deps.get? name with
      | none => exact ⟨_, rfl⟩
      | some first =>
        obtain rfl := h name first ty (.inl hg) hnew
        exact ⟨deps, if_pos rfl⟩
    have hmid : ∀ x T, mid.get? x = some T ∨ (x, T) ∈ es ↔
        deps.get? x = some T ∨ (x, T) ∈ (name, ty) :: es := by
      intro x T
      rw [add_eq_ok.1 hadd, List.mem_cons, Prod.mk.injEq, or_assoc]
    obtain ⟨out, hout⟩ := ih fun x T U hT hU => h x T U ((hmid x T).1 hT) ((hmid x U).1 hU)
    exact ⟨out, addAll_cons_eq_ok.2 ⟨mid, hadd, hout⟩⟩

/-- No variable has two types in the parts. -/
def Agree (parts : List Deps) : Prop :=
  ∀ x T U, (∃ part ∈ parts, part.get? x = some T) → (∃ part ∈ parts, part.get? x = some U) → T = U

/-- Sets can be joined exactly when no two of them disagree about a variable. -/
theorem exists_union_iff {parts : List Deps} :
    (∃ deps, union parts = .ok deps) ↔ Agree parts := by
  constructor
  · intro hu x T U hT hU
    obtain ⟨deps, hu⟩ := hu
    rw [← union_eq_ok.1 hu] at hT hU
    rw [hT] at hU
    exact Option.some.inj hU
  · intro h
    rw [union, foldlM_addAll]
    refine exists_addAll ?_
    simp only [Table.get?_empty, reduceCtorEq, false_or, List.mem_flatMap, ← Table.get?_eq_some_iff]
    exact h

theorem exists_part_map {α : Type} {f : α → Deps} {as : List α} {x T : Name} :
    (∃ part ∈ as.map f, part.get? x = some T) ↔ ∃ a ∈ as, (f a).get? x = some T := by
  constructor
  · rintro ⟨part, hp, h⟩
    obtain ⟨a, ha, rfl⟩ := List.mem_map.1 hp
    exact ⟨a, ha, h⟩
  · rintro ⟨a, ha, h⟩
    exact ⟨f a, List.mem_map_of_mem ha, h⟩

theorem union_map_eq_ok {α : Type} {f : α → Deps} {as : List α} {deps : Deps} :
    union (as.map f) = .ok deps ↔
      ∀ x T, deps.get? x = some T ↔ ∃ a ∈ as, (f a).get? x = some T := by
  simp only [union_eq_ok, exists_part_map]

theorem union_cons_map_eq_ok {α : Type} {f : α → Deps} {first : Deps} {as : List α} {deps : Deps} :
    union (first :: as.map f) = .ok deps ↔
      ∀ x T, deps.get? x = some T ↔ first.get? x = some T ∨ ∃ a ∈ as, (f a).get? x = some T := by
  simp only [union_eq_ok, List.mem_cons, or_and_right, exists_or, exists_eq_left, exists_part_map]

end Deps

namespace Env

theorem read_eq_ok {env : Env} {name ty : Name} {v : Value} :
    env.read name ty = .ok v ↔ env.get? name = some v ∧ v.ty = ty := by
  unfold read
  cases hg : env.get? name with
  | none => simp
  | some w =>
    by_cases hw : w.ty = ty
    · simp only [hw, ↓reduceIte, Except.ok.injEq, Option.some.injEq]
      constructor
      · rintro rfl
        exact ⟨rfl, hw⟩
      · exact And.left
    · simp only [hw, ↓reduceIte, reduceCtorEq, Option.some.injEq, false_iff]
      rintro ⟨rfl, h⟩
      exact hw h

/-- A failed read tells what is there in place of the value that was expected. -/
theorem read_eq_error {env : Env} {name ty : Name} {fault : Fault}
    (h : env.read name ty = .error fault) :
    fault = .unsatisfiedDependency name ty ((env.get? name).map Value.ty) := by
  unfold read at h
  cases hg : env.get? name with
  | none =>
    rw [hg] at h
    exact (Except.error.inj h).symm
  | some w =>
    rw [hg] at h
    by_cases hw : w.ty = ty
    · simp [hw] at h
    · simp only [hw, ↓reduceIte, Except.error.injEq] at h
      exact h.symm

theorem extend_cons (env : Env) (name : Name) (names : List Name) (v : Value) (vs : List Value) :
    env.extend (name :: names) (v :: vs) = (env.bind name v).extend names vs := rfl

/-- Under distinct names the extension is looked up before what it extends. -/
theorem get?_extend {names : List Name} (hn : names.Nodup) (env : Env) (vs : List Value) (x : Name) :
    (env.extend names vs).get? x = (Entries.get? (names.zip vs) x).or (env.get? x) := by
  induction names generalizing env vs with
  | nil => rfl
  | cons name names ih =>
    obtain ⟨hname, hnames⟩ := List.nodup_cons.1 hn
    cases vs with
    | nil => rfl
    | cons v vs =>
      rw [extend_cons, ih hnames, bind, Table.get?_insert, List.zip_cons_cons, Entries.get?]
      by_cases hx : x = name
      · -- A name that is bound first is not bound again.
        have hnone : Entries.get? (names.zip vs) x = none := by
          cases hg : Entries.get? (names.zip vs) x with
          | none => rfl
          | some w =>
            have hmem := List.of_mem_zip (Entries.mem_of_get? hg)
            exact absurd (hx ▸ hmem.1) hname
        simp [hx, hx ▸ hnone]
      · simp [hx]

end Env

namespace Deps

/-- The environment has a value of the right type for every variable. -/
def Satisfied (deps : Deps) (env : Env) : Prop :=
  ∀ x T, deps.get? x = some T → ∃ v, env.get? x = some v ∧ v.ty = T

/-- The check of one variable. -/
def checkOne (env : Env) (e : Name × Name) : Except Fault Unit := (env.read e.1 e.2).map fun _ => ()

theorem forM_checkOne_cons (env : Env) (e : Name × Name) (es : Entries Name) :
    (e :: es).forM (checkOne env) = checkOne env e >>= fun _ => es.forM (checkOne env) := rfl

theorem checkOne_eq_ok {env : Env} {e : Name × Name} :
    checkOne env e = .ok () ↔ ∃ v, env.get? e.1 = some v ∧ v.ty = e.2 := by
  simp only [checkOne, ← Env.read_eq_ok]
  cases env.read e.1 e.2 <;> simp [Except.map]

theorem checkOne_eq_error {env : Env} {e : Name × Name} {fault : Fault}
    (h : checkOne env e = .error fault) :
    fault = .unsatisfiedDependency e.1 e.2 ((env.get? e.1).map Value.ty) := by
  apply Env.read_eq_error
  unfold checkOne at h
  cases hr : env.read e.1 e.2 with
  | ok v => simp [hr, Except.map] at h
  | error f =>
    simp only [hr, Except.map, Except.error.injEq] at h
    rw [h]

theorem forM_checkOne_eq_ok {env : Env} {es : Entries Name} :
    es.forM (checkOne env) = .ok () ↔ ∀ e ∈ es, checkOne env e = .ok () := by
  induction es with
  | nil => exact ⟨fun _ e he => absurd he List.not_mem_nil, fun _ => rfl⟩
  | cons e es ih =>
    rw [forM_checkOne_cons, Fault.bind_eq_ok, List.forall_mem_cons, ← ih]
    exact ⟨fun ⟨_, he, hes⟩ => ⟨he, hes⟩, fun ⟨he, hes⟩ => ⟨(), he, hes⟩⟩

theorem check_eq_ok {deps : Deps} {env : Env} : deps.check env = .ok () ↔ deps.Satisfied env := by
  have hcheck : deps.check env = .ok () ↔ ∀ e ∈ deps.entries, checkOne env e = .ok () :=
    forM_checkOne_eq_ok
  rw [hcheck]
  simp only [Satisfied, Table.get?_eq_some_iff, checkOne_eq_ok]
  exact ⟨fun h x T hm => h (x, T) hm, fun h e hm => h e.1 e.2 hm⟩

/-- In ordered entries the check stops at the least name that is not satisfied. -/
theorem forM_checkOne_eq_error {env : Env} {es : Entries Name} (ho : es.Ordered) {fault : Fault}
    (h : es.forM (checkOne env) = .error fault) :
    ∃ e ∈ es, checkOne env e = .error fault ∧ ∀ d ∈ es, d.1 < e.1 → checkOne env d = .ok () := by
  induction es with
  | nil => cases h
  | cons e es ih =>
    obtain ⟨hlt, hes⟩ := List.pairwise_cons.1 ho
    rw [forM_checkOne_cons] at h
    cases he : checkOne env e with
    | error f =>
      rw [he] at h
      obtain rfl : f = fault := Except.error.inj h
      refine ⟨e, List.mem_cons_self, he, ?_⟩
      intro d hd hde
      rcases List.mem_cons.1 hd with rfl | hd
      · exact absurd hde (String.lt_irrefl d.1)
      · exact absurd (String.lt_trans hde (hlt d hd)) (String.lt_irrefl d.1)
    | ok u =>
      rw [he] at h
      obtain ⟨f, hf, hfault, hbefore⟩ := ih hes h
      refine ⟨f, List.mem_cons_of_mem e hf, hfault, ?_⟩
      intro d hd hdf
      rcases List.mem_cons.1 hd with rfl | hd
      · exact he
      · exact hbefore d hd hdf

/-- A failed check reports the least variable that has no value of its type. -/
theorem check_eq_error {deps : Deps} {env : Env} {fault : Fault}
    (h : deps.check env = .error fault) :
    ∃ name ty, deps.get? name = some ty ∧ (¬ ∃ v, env.get? name = some v ∧ v.ty = ty) ∧
      (∀ x T, deps.get? x = some T → x < name → ∃ v, env.get? x = some v ∧ v.ty = T) ∧
      fault = .unsatisfiedDependency name ty ((env.get? name).map Value.ty) := by
  obtain ⟨⟨name, ty⟩, hm, hfault, hbefore⟩ := forM_checkOne_eq_error deps.ordered h
  refine ⟨name, ty, Table.get?_eq_some_iff.2 hm, ?_, ?_, checkOne_eq_error hfault⟩
  · intro hv
    rw [checkOne_eq_ok.2 hv] at hfault
    cases hfault
  · intro x T hx hlt
    exact checkOne_eq_ok.1 (hbefore (x, T) (Table.get?_eq_some_iff.1 hx) hlt)

end Deps

end DataCalculus
