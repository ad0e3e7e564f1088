import DataCalculus.Registry

/-!
# Values

A value is a constructor of a type over argument values. A registry builds values one level at a
time: it compares the arguments with the signature by the names of their types.
-/

namespace DataCalculus

set_option autoImplicit false

/-- A constructor of a type, applied to values. -/
inductive Value where
  | mk (ty tag : Name) (args : List Value)
  deriving Inhabited

namespace Value

def ty : Value → Name
  | .mk ty _ _ => ty

def tag : Value → Name
  | .mk _ tag _ => tag

def args : Value → List Value
  | .mk _ _ args => args

@[simp] theorem ty_mk (ty tag : Name) (args : List Value) : (mk ty tag args).ty = ty := rfl

@[simp] theorem tag_mk (ty tag : Name) (args : List Value) : (mk ty tag args).tag = tag := rfl

@[simp] theorem args_mk (ty tag : Name) (args : List Value) : (mk ty tag args).args = args := rfl

def isMadeBy (v : Value) (ty tag : Name) : Bool := v.ty == ty && v.tag == tag

mutual

def decEq : (v w : Value) → Decidable (v = w)
  | .mk ty tag args, .mk ty' tag' args' =>
    if h : ty = ty' ∧ tag = tag' then match decEqAll args args' with
      | isTrue ha => isTrue (by rw [h.1, h.2, ha])
      | isFalse ha => isFalse (by simp [ha])
    else isFalse fun he => by
      injection he with h₁ h₂
      exact h ⟨h₁, h₂⟩

def decEqAll : (vs ws : List Value) → Decidable (vs = ws)
  | [], [] => isTrue rfl
  | [], _ :: _ | _ :: _, [] => isFalse (by simp)
  | v :: vs, w :: ws => match decEq v w with
    | isFalse h => isFalse (by simp [h])
    | isTrue h => match decEqAll vs ws with
      | isTrue hs => isTrue (by rw [h, hs])
      | isFalse hs => isFalse (by simp [hs])

end

instance : DecidableEq Value := decEq

mutual

/-- Writes a value in front of `rest`. -/
def write : Value → List Char → List Char
  | .mk ty tag [], rest => ty.toList ++ '.' :: tag.toList ++ rest
  | .mk ty tag (arg :: args), rest =>
    ty.toList ++ '.' :: tag.toList ++ '<' :: write arg (writeArgs args ('>' :: rest))

def writeArgs : List Value → List Char → List Char
  | [], rest => rest
  | arg :: args, rest => ',' :: ' ' :: write arg (writeArgs args rest)

end

/-- The value as a term over its constructors, such as `Nat.next<Nat.zero>`. -/
def display (v : Value) : String := String.ofList (v.write [])

/-- The value as it is named in listings. -/
def describe (v : Value) : String := "Value(" ++ v.display ++ ")"

end Value

/-- The first position, counted from `index`, at which two lists of type names differ. -/
def firstMismatch (index : Nat) : List Name → List Name → Option (Nat × Name × Name)
  | expected :: signature, got :: types =>
    if got = expected then firstMismatch (index + 1) signature types
    else some (index, expected, got)
  | _, _ => none

theorem firstMismatch_eq_none {index : Nat} {signature types : List Name}
    (h : types.length = signature.length) :
    firstMismatch index signature types = none ↔ types = signature := by
  induction signature generalizing index types with
  | nil => simp_all [firstMismatch]
  | cons expected signature ih =>
    cases types with
    | nil => simp at h
    | cons got types =>
      have hl : types.length = signature.length := by simpa using h
      by_cases hg : got = expected <;> simp [firstMismatch, hg, ih hl]

/-- The value of a declared constructor over arguments of the declared number and types. -/
def Registry.value (R : Registry) (ty tag : Name) (args : List Value) : Except Fault Value := do
  let decl ← R.get ty
  let signature ← decl.signature tag
  if args.length ≠ signature.length then
    .error (.arityMismatch decl.name tag signature.length args.length)
  else match firstMismatch 0 signature (args.map Value.ty) with
    | some (index, expected, got) =>
      .error (.argumentTypeMismatch decl.name tag index expected got)
    | none => .ok (.mk decl.name tag args)

theorem Registry.value_eq_ok {R : Registry} {ty tag : Name} {args : List Value} {v : Value} :
    R.value ty tag args = .ok v ↔ ∃ decl, R.types.get? ty = some decl ∧
      decl.constructors.get? tag = some (args.map Value.ty) ∧ v = .mk decl.name tag args := by
  simp only [Registry.value, Fault.bind_eq_ok, Registry.get_eq_ok, TypeDecl.signature_eq_ok]
  refine exists_congr fun decl => and_congr_right fun _ => ?_
  constructor
  · rintro ⟨signature, hs, h⟩
    split at h
    · simp at h
    · next hl =>
      have hm : (args.map Value.ty).length = signature.length := by simpa using hl
      split at h
      · simp at h
      · next hn =>
        rw [(firstMismatch_eq_none hm).1 hn]
        exact ⟨hs, by simpa [eq_comm] using h⟩
  · rintro ⟨hs, rfl⟩
    have hn : firstMismatch 0 (args.map Value.ty) (args.map Value.ty) = none :=
      (firstMismatch_eq_none rfl).2 rfl
    exact ⟨_, hs, by simp [hn]⟩

/-- What can be wrong with a value that is not made, in the order in which it is looked for. -/
theorem Registry.value_eq_error {R : Registry} {ty tag : Name} {args : List Value} {fault : Fault}
    (h : R.value ty tag args = .error fault) :
    fault = .unknownType ty ∨ (∃ name, fault = .unknownConstructor name tag) ∨
      (∃ name expected got, fault = .arityMismatch name tag expected got) ∨
      ∃ name index expected got, fault = .argumentTypeMismatch name tag index expected got := by
  rw [value, get] at h
  cases hd : R.types.get? ty with
  | none =>
    rw [hd] at h
    exact .inl (Except.error.inj h).symm
  | some decl =>
    rw [hd] at h
    change decl.signature tag >>= _ = _ at h
    rw [TypeDecl.signature] at h
    cases hs : decl.constructors.get? tag with
    | none =>
      rw [hs] at h
      exact .inr (.inl ⟨_, (Except.error.inj h).symm⟩)
    | some signature =>
      rw [hs] at h
      change (if _ then _ else _) = _ at h
      by_cases hl : args.length = signature.length
      · rw [if_neg (not_not_intro hl)] at h
        cases hm : firstMismatch 0 signature (args.map Value.ty) with
        | none =>
          rw [hm] at h
          cases h
        | some mismatch =>
          rw [hm] at h
          exact .inr (.inr (.inr ⟨_, _, _, _, (Except.error.inj h).symm⟩))
      · rw [if_pos hl] at h
        exact .inr (.inr (.inl ⟨_, _, _, (Except.error.inj h).symm⟩))

end DataCalculus
