import DataCalculus.Proofs.Dependencies

/-!
# Conflicts between dependencies

A join that fails reports the first variable that turns out to have two types, going through the
parts from left to right and through the variables of a part by name. Whether a join fails does not
depend on the order of the parts; what it reports does.
-/

namespace DataCalculus

set_option autoImplicit false

/-- A fold fails at the first step that fails, and never gets to what comes after it. -/
theorem Fault.foldlM_eq_error {α β : Type} {step : α → β → Except Fault α} {bs : List β} {a : α}
    {fault : Fault} : bs.foldlM step a = .error fault ↔
      ∃ front b rest mid, bs = front ++ b :: rest ∧ front.foldlM step a = .ok mid ∧
        step mid b = .error fault := by
  induction bs generalizing a with
  | nil =>
    refine iff_of_false (fun h => by cases h) ?_
    rintro ⟨front, b, rest, _, h, _⟩
    simp at h
  | cons b bs ih =>
    rw [List.foldlM_cons, bind_eq_error]
    constructor
    · intro h
      rcases h with h | ⟨next, hnext, h⟩
      · exact ⟨[], b, bs, a, rfl, rfl, h⟩
      · obtain ⟨front, c, rest, mid, rfl, hmid, hc⟩ := ih.1 h
        refine ⟨b :: front, c, rest, mid, rfl, ?_, hc⟩
        rw [List.foldlM_cons, bind_eq_ok]
        exact ⟨next, hnext, hmid⟩
    · intro h
      obtain ⟨front, c, rest, mid, he, hmid, hc⟩ := h
      cases front with
      | nil =>
        cases he
        cases hmid
        exact .inl hc
      | cons d front =>
        cases he
        rw [List.foldlM_cons, bind_eq_ok] at hmid
        obtain ⟨next, hnext, hmid⟩ := hmid
        exact .inr ⟨next, hnext, ih.2 ⟨front, c, rest, mid, rfl, hmid, hc⟩⟩

namespace Deps

variable {deps part : Deps} {parts : List Deps} {name ty : Name} {fault : Fault}

theorem add_eq_error : deps.add name ty = .error fault ↔
    ∃ first, deps.get? name = some first ∧ first ≠ ty ∧
      fault = .inconsistentVariable name first ty := by
  unfold add
  cases deps.get? name with
  | none => simp
  | some first =>
    by_cases hf : first = ty
    · simp [hf]
    · simp [hf, eq_comm (a := fault)]

/-- A part cannot be added if it has another type for some variable, and the least such variable is
reported. -/
theorem addAll_entries_eq_error : deps.addAll part.entries = .error fault ↔
    ∃ name first second, deps.get? name = some first ∧ part.get? name = some second ∧
      first ≠ second ∧ fault = .inconsistentVariable name first second ∧
      ∀ x T U, x < name → deps.get? x = some T → part.get? x = some U → T = U := by
  rw [addAll, Fault.foldlM_eq_error]
  constructor
  · intro h
    obtain ⟨front, ⟨name, second⟩, rest, mid, he, hmid, hfault⟩ := h
    obtain ⟨first, hfirst, hdiffer, rfl⟩ := add_eq_error.1 hfault
    have hget := addAll_eq_ok.1 hmid
    have hsecond : part.get? name = some second := by
      rw [Table.get?_eq_some_iff, he]
      exact List.mem_append_right _ List.mem_cons_self
    refine ⟨name, first, second, ?_, hsecond, hdiffer, rfl, ?_⟩
    · rcases (hget name first).1 hfirst with hold | hnew
      · exact hold
      · -- A part has a name once, so that the other type was there before.
        exact absurd ((Table.mem_front_iff he).1 hnew).2 (String.lt_irrefl name)
    · intro x T U hlt hT hU
      have hmidT := (hget x T).2 (.inl hT)
      have hmidU := (hget x U).2 (.inr ((Table.mem_front_iff he).2 ⟨hU, hlt⟩))
      rw [hmidT] at hmidU
      exact Option.some.inj hmidU
  · intro h
    obtain ⟨name, first, second, hfirst, hsecond, hdiffer, rfl, hleast⟩ := h
    obtain ⟨front, rest, he⟩ := List.append_of_mem (Table.get?_eq_some_iff.1 hsecond)
    have hfront : ∀ x T, (x, T) ∈ front → part.get? x = some T ∧ x < name := fun x T hx =>
      (Table.mem_front_iff he).1 hx
    obtain ⟨mid, hmid⟩ : ∃ mid, deps.addAll front = .ok mid := by
      refine exists_addAll fun x T U hT hU => ?_
      rcases hT with hT | hT <;> rcases hU with hU | hU
      · exact Option.some.inj (hT.symm.trans hU)
      · exact hleast x T U (hfront x U hU).2 hT (hfront x U hU).1
      · exact (hleast x U T (hfront x T hT).2 hU (hfront x T hT).1).symm
      · exact Option.some.inj ((hfront x T hT).1.symm.trans (hfront x U hU).1)
    refine ⟨front, (name, second), rest, mid, he, hmid, add_eq_error.2 ⟨first, ?_, hdiffer, rfl⟩⟩
    exact (addAll_eq_ok.1 hmid name first).2 (.inl hfirst)

/-- A variable of a part that has another type in the parts before it, while these agree with each
other and with all variables of the part that come before this one. -/
structure Conflict (before : List Deps) (part : Deps) (name first second : Name) : Prop where
  agree : Agree before
  earlier : ∃ d ∈ before, d.get? name = some first
  here : part.get? name = some second
  differ : first ≠ second
  least : ∀ x T U, x < name → (∃ d ∈ before, d.get? x = some T) → part.get? x = some U → T = U

/-- The conflict that is met first when the parts are taken from left to right. -/
def FirstConflict (parts : List Deps) (name first second : Name) : Prop :=
  ∃ before part after, parts = before ++ part :: after ∧ Conflict before part name first second

/-- A failed join reports the first conflict. -/
theorem union_eq_error : union parts = .error fault ↔
    ∃ name first second, FirstConflict parts name first second ∧
      fault = .inconsistentVariable name first second := by
  rw [union, Fault.foldlM_eq_error]
  constructor
  · intro h
    obtain ⟨before, part, after, mid, rfl, hmid, hfault⟩ := h
    have hget : ∀ x T, mid.get? x = some T ↔ ∃ d ∈ before, d.get? x = some T := union_eq_ok.1 hmid
    obtain ⟨name, first, second, hfirst, hsecond, hdiffer, rfl, hleast⟩ :=
      addAll_entries_eq_error.1 hfault
    refine ⟨name, first, second, ⟨before, part, after, rfl, ?_⟩, rfl⟩
    refine ⟨exists_union_iff.1 ⟨mid, hmid⟩, (hget name first).1 hfirst, hsecond, hdiffer, ?_⟩
    intro x T U hlt hT hU
    exact hleast x T U hlt ((hget x T).2 hT) hU
  · intro h
    obtain ⟨name, first, second, ⟨before, part, after, rfl, hconflict⟩, rfl⟩ := h
    obtain ⟨mid, hmid⟩ := exists_union_iff.2 hconflict.agree
    have hget := union_eq_ok.1 hmid
    refine ⟨before, part, after, mid, rfl, hmid, addAll_entries_eq_error.2 ?_⟩
    refine ⟨name, first, second, (hget name first).2 hconflict.earlier, hconflict.here,
      hconflict.differ, rfl, ?_⟩
    intro x T U hlt hT hU
    exact hconflict.least x T U hlt ((hget x T).1 hT) hU

end Deps

end DataCalculus
