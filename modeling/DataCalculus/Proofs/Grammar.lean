import DataCalculus.Proofs.Lexing
import DataCalculus.Json.Basic
import DataCalculus.Term.Basic
import Mathlib.Data.List.Forall2

/-!
# The surface language

Free variables, static types and well-formedness of trees, stated on the trees alone: no term is
built and nothing is looked up but the declarations. A head decides the form of its array, and the
static type of every form but a function literal is written in its first string.
-/

namespace DataCalculus.Surface

set_option autoImplicit false

/-- The type that a head begins with. -/
def Head.ty : Head → Name
  | .construct ty _ | .call ty | .caseOf ty => ty

/-- The tree is a string that spells the parameter. -/
def SpellsParam (j : Json) (p : Param) : Prop := ∃ s, j = .str s ∧ SpellsVariable s p.name p.ty

/-- The variable occurs in the tree at the type, and no function literal around the occurrence has a
parameter of its name. The first string of an array is a head and no occurrence. -/
inductive FreeIn (x T : Name) : Json → Prop where
  | occurrence {s : String} (spelled : SpellsVariable s x T) : FreeIn x T (.str s)
  | item {s : String} {items : List Json} {item : Json} (mem : item ∈ items)
      (h : FreeIn x T item) : FreeIn x T (.arr (.str s :: items))
  | member {fields : List (String × Json)} {b : String × Json} (mem : b ∈ fields)
      (h : FreeIn x T b.2) : FreeIn x T (.obj fields)
  | body {params : List Json} {body : Json} (unbound : ∀ p ∈ params, ∀ U, ¬ SpellsParam p ⟨x, U⟩)
      (h : FreeIn x T body) : FreeIn x T (.arr [.arr params, body])

/-- No variable stands free in the tree at two types. -/
def Consistent (j : Json) : Prop := ∀ x T U, FreeIn x T j → FreeIn x U j → T = U

/-- The static type of a tree; that of a function literal is the type of its body. -/
inductive HasType : Json → Name → Prop where
  | free {s : String} {x T : Name} (spelled : SpellsVariable s x T) : HasType (.str s) T
  | headed {s : String} {head : Head} {items : List Json} (spelled : SpellsHead s head) :
      HasType (.arr (.str s :: items)) head.ty
  | body {params : List Json} {body : Json} {T : Name} (h : HasType body T) :
      HasType (.arr [.arr params, body]) T

/-- The tree is a function literal with parameters of the types in the signature, in their order,
and a body of type `result`. -/
def HasSignature (j : Json) (signature : List Name) (result : Name) : Prop :=
  ∃ params body ps, j = .arr [.arr params, body] ∧ List.Forall₂ SpellsParam params ps ∧
    ps.map Param.ty = signature ∧ HasType body result

/-- The tree is an array of parameters and a body. -/
def IsLiteral (j : Json) : Prop := ∃ params body, j = .arr [.arr params, body]

/-- The terms of the surface language over a registry. -/
inductive WellFormed (R : Registry) : Json → Prop where
  | free {s : String} {x T : Name} (spelled : SpellsVariable s x T)
      (declared : R.contains T = true) : WellFormed R (.str s)
  | construct {s : String} {T tag : Name} {args : List Json} {decl : TypeDecl}
      (spelled : SpellsHead s (.construct T tag)) (declared : R.types.get? T = some decl)
      (known : decl.hasConstructor tag = true) (parts : ∀ arg ∈ args, WellFormed R arg)
      (consistent : Consistent (.arr (.str s :: args))) : WellFormed R (.arr (.str s :: args))
  | literal {params : List Json} {body : Json} {ps : List Param}
      (spelled : List.Forall₂ SpellsParam params ps)
      (declared : ∀ p ∈ ps, R.contains p.ty = true) (distinct : (ps.map Param.name).Nodup)
      (used : ∀ p ∈ ps, ∀ T, FreeIn p.name T body → T = p.ty) (part : WellFormed R body) :
      WellFormed R (.arr [.arr params, body])
  | call {s : String} {T : Name} {callee : Json} {args : List Json} {signature : List Name}
      (spelled : SpellsHead s (.call T)) (declared : R.contains T = true)
      (first : WellFormed R callee) (parts : ∀ arg ∈ args, WellFormed R arg)
      (returns : HasSignature callee signature T) (takes : List.Forall₂ HasType args signature)
      (consistent : Consistent (.arr (.str s :: callee :: args))) :
      WellFormed R (.arr (.str s :: callee :: args))
  | caseOf {s : String} {T U : Name} {scrutinee : Json} {branches : Entries Json} {decl : TypeDecl}
      (spelled : SpellsHead s (.caseOf T)) (declared : R.contains T = true)
      (first : WellFormed R scrutinee) (typed : HasType scrutinee U)
      (analysed : R.types.get? U = some decl)
      (literals : ∀ b ∈ branches, IsLiteral b.2) (parts : ∀ b ∈ branches, WellFormed R b.2)
      (covered : ∀ tag, tag ∈ branches.keys ↔ decl.hasConstructor tag = true)
      (returns : ∀ tag branch signature, branches.get? tag = some branch →
        decl.constructors.get? tag = some signature → HasSignature branch signature T)
      (consistent : Consistent (.arr [.str s, scrutinee, .obj branches])) :
      WellFormed R (.arr [.str s, scrutinee, .obj branches])

variable {x T : Name} {s : String} {params items : List Json} {body : Json}

theorem freeIn_str : FreeIn x T (.str s) ↔ SpellsVariable s x T := by
  constructor
  · intro h
    cases h with
    | occurrence spelled => exact spelled
  · exact .occurrence

theorem freeIn_headed : FreeIn x T (.arr (.str s :: items)) ↔ ∃ item ∈ items, FreeIn x T item := by
  constructor
  · intro h
    cases h with
    | item mem h => exact ⟨_, mem, h⟩
  · intro h
    obtain ⟨item, mem, h⟩ := h
    exact .item mem h

theorem freeIn_obj {fields : List (String × Json)} :
    FreeIn x T (.obj fields) ↔ ∃ b ∈ fields, FreeIn x T b.2 := by
  constructor
  · intro h
    cases h with
    | member mem h => exact ⟨_, mem, h⟩
  · intro h
    obtain ⟨b, mem, h⟩ := h
    exact .member mem h

theorem freeIn_literal : FreeIn x T (.arr [.arr params, body]) ↔
    (∀ p ∈ params, ∀ U, ¬ SpellsParam p ⟨x, U⟩) ∧ FreeIn x T body := by
  constructor
  · intro h
    cases h with
    | body unbound h => exact ⟨unbound, h⟩
  · intro h
    obtain ⟨unbound, h⟩ := h
    exact .body unbound h

theorem hasType_str : HasType (.str s) T ↔ ∃ x, SpellsVariable s x T := by
  constructor
  · intro h
    cases h with
    | free spelled => exact ⟨_, spelled⟩
  · intro h
    obtain ⟨x, spelled⟩ := h
    exact .free spelled

theorem hasType_headed {head : Head} (hs : SpellsHead s head) :
    HasType (.arr (.str s :: items)) T ↔ T = head.ty := by
  constructor
  · intro h
    cases h with
    | headed spelled => rw [spelled.unique hs]
  · intro h
    rw [h]
    exact .headed hs

theorem hasType_literal : HasType (.arr [.arr params, body]) T ↔ HasType body T := by
  constructor
  · intro h
    cases h with
    | body h => exact h
  · exact .body

end DataCalculus.Surface
