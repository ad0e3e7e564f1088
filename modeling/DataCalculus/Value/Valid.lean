import DataCalculus.Registry.Reachable
import DataCalculus.Value

/-!
# Valid values

A value is valid over a registry when every node in it names a declared type, a constructor of
that type, and arguments of the types that the constructor takes. `Registry.value` itself looks at
one level only; the values that it makes from values of its own are the valid ones. The height of a
value and the tags in it are those of the value alone.
-/

namespace DataCalculus

set_option autoImplicit false

namespace Value

/-- Every node of the value agrees with the registry. -/
inductive Valid (R : Registry) : Value → Prop where
  | mk {ty tag : Name} {args : List Value} {decl : TypeDecl}
      (declared : R.types.get? ty = some decl)
      (signature : decl.constructors.get? tag = some (args.map Value.ty))
      (valid : ∀ arg ∈ args, Valid R arg) : Valid R (.mk ty tag args)

/-- Building over valid arguments gives a valid value. -/
theorem valid_of_value {R : Registry} (hR : R.Reachable) {ty tag : Name} {args : List Value}
    {v : Value} (h : R.value ty tag args = .ok v) (ha : ∀ arg ∈ args, Valid R arg) :
    Valid R v := by
  obtain ⟨decl, hd, hs, rfl⟩ := Registry.value_eq_ok.1 h
  rw [(hR.name_eq hd).1]
  exact .mk hd hs ha

/-- A valid value is what building it again gives. -/
theorem Valid.value_eq {R : Registry} (hR : R.Reachable) {v : Value} (h : Valid R v) :
    R.value v.ty v.tag v.args = .ok v := by
  obtain ⟨hd, hs, _⟩ := h
  exact Registry.value_eq_ok.2 ⟨_, hd, hs, by simp [(hR.name_eq hd).1]⟩

/-- Made by the registry, from values that it made. -/
inductive Built (R : Registry) : Value → Prop where
  | mk {ty tag : Name} {args : List Value} {v : Value} (parts : ∀ arg ∈ args, Built R arg)
      (step : R.value ty tag args = .ok v) : Built R v

theorem Built.valid {R : Registry} (hR : R.Reachable) {v : Value} (h : Built R v) :
    Valid R v := by
  induction h with
  | mk _ step ih => exact valid_of_value hR step ih

theorem Valid.built {R : Registry} (hR : R.Reachable) {v : Value} (h : Valid R v) :
    Built R v := by
  induction h with
  | @mk ty tag args decl hd hs _ ih =>
    have step : R.value ty tag args = .ok (.mk decl.name tag args) :=
      Registry.value_eq_ok.2 ⟨decl, hd, hs, rfl⟩
    rw [(hR.name_eq hd).1] at step
    exact .mk ih step

mutual

/-- The number of levels below the root. -/
def height : Value → Nat
  | .mk _ _ args => heightAll args

/-- One more than the greatest height, and zero for no values. -/
def heightAll : List Value → Nat
  | [] => 0
  | arg :: args => max (arg.height + 1) (heightAll args)

end

theorem heightAll_le_iff {args : List Value} {n : Nat} :
    heightAll args ≤ n ↔ ∀ arg ∈ args, arg.height < n := by
  induction args with
  | nil => simp [heightAll]
  | cons arg args ih => rw [heightAll, Nat.max_le, List.forall_mem_cons, ih, Nat.succ_le_iff]

/-- Every tag in the value satisfies `p`. -/
inductive AllTags (p : Name → Prop) : Value → Prop where
  | mk {ty tag : Name} {args : List Value} (here : p tag) (below : ∀ arg ∈ args, AllTags p arg) :
      AllTags p (.mk ty tag args)

end Value

end DataCalculus
