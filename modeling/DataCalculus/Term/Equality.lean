import DataCalculus.Term.Basic

/-!
# Equality of terms

Terms are equal when their shapes, names, types and stored dependencies are.
-/

namespace DataCalculus

set_option autoImplicit false

mutual

def Term.decEq : (t u : Term) → Decidable (t = u)
  | .free name ty, .free name' ty' =>
    decidable_of_iff (name = name' ∧ ty = ty') (by simp)
  | .construct ty tag args deps, .construct ty' tag' args' deps' =>
    if h : ty = ty' ∧ tag = tag' ∧ deps = deps' then match Term.decEqAll args args' with
      | isTrue ha => isTrue (by rw [h.1, h.2.1, h.2.2, ha])
      | isFalse ha => isFalse (by simp [ha])
    else isFalse fun he => by
      injection he with h₁ h₂ _ h₃
      exact h ⟨h₁, h₂, h₃⟩
  | .func f, .func f' => match Func.decEq f f' with
    | isTrue h => isTrue (by rw [h])
    | isFalse h => isFalse (by simp [h])
  | .call f args deps, .call f' args' deps' =>
    if h : deps = deps' then match Func.decEq f f' with
      | isFalse hf => isFalse (by simp [hf])
      | isTrue hf => match Term.decEqAll args args' with
        | isTrue ha => isTrue (by rw [h, hf, ha])
        | isFalse ha => isFalse (by simp [ha])
    else isFalse (by simp [h])
  | .caseOf ty t bs deps, .caseOf ty' t' bs' deps' =>
    if h : ty = ty' ∧ deps = deps' then match Term.decEq t t' with
      | isFalse ht => isFalse (by simp [ht])
      | isTrue ht => match Func.decEqBranches bs bs' with
        | isTrue hb => isTrue (by rw [h.1, h.2, ht, hb])
        | isFalse hb => isFalse (by simp [hb])
    else isFalse fun he => by
      injection he with h₁ _ _ h₂
      exact h ⟨h₁, h₂⟩
  | .free .., .construct .. | .free .., .func .. | .free .., .call .. | .free .., .caseOf ..
  | .construct .., .free .. | .construct .., .func .. | .construct .., .call ..
  | .construct .., .caseOf ..
  | .func .., .free .. | .func .., .construct .. | .func .., .call .. | .func .., .caseOf ..
  | .call .., .free .. | .call .., .construct .. | .call .., .func .. | .call .., .caseOf ..
  | .caseOf .., .free .. | .caseOf .., .construct .. | .caseOf .., .func ..
  | .caseOf .., .call .. => isFalse (by simp)

def Term.decEqAll : (ts us : List Term) → Decidable (ts = us)
  | [], [] => isTrue rfl
  | [], _ :: _ | _ :: _, [] => isFalse (by simp)
  | t :: ts, u :: us => match Term.decEq t u with
    | isFalse h => isFalse (by simp [h])
    | isTrue h => match Term.decEqAll ts us with
      | isTrue hs => isTrue (by rw [h, hs])
      | isFalse hs => isFalse (by simp [hs])

def Func.decEq : (f g : Func) → Decidable (f = g)
  | .mk params body deps, .mk params' body' deps' =>
    if h : params = params' ∧ deps = deps' then match Term.decEq body body' with
      | isTrue hb => isTrue (by rw [h.1, h.2, hb])
      | isFalse hb => isFalse (by simp [hb])
    else isFalse fun he => by
      injection he with h₁ _ h₂
      exact h ⟨h₁, h₂⟩

def Func.decEqBranches : (as bs : List (Name × Func)) → Decidable (as = bs)
  | [], [] => isTrue rfl
  | [], _ :: _ | _ :: _, [] => isFalse (by simp)
  | (k, f) :: as, (l, g) :: bs =>
    if hk : k = l then match Func.decEq f g with
      | isFalse h => isFalse (by simp [h])
      | isTrue h => match Func.decEqBranches as bs with
        | isTrue hs => isTrue (by rw [hk, h, hs])
        | isFalse hs => isFalse (by simp [hs])
    else isFalse (by simp [hk])

end

instance : DecidableEq Term := Term.decEq

instance : DecidableEq Func := Func.decEq

end DataCalculus
