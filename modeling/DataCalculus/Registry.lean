import DataCalculus.Fault

/-!
# Declared types

A registry holds the declared types, each with its constructors and the types of their arguments.
Declaring checks the name of the type only. Tags and argument types are checked by
`Registry.check`, which not every user of a registry asks for, so that an argument type may be
undeclared and a tag may be no identifier.
-/

namespace DataCalculus

set_option autoImplicit false

/-- A type with the argument types of its constructors. -/
structure TypeDecl where
  name : Name
  constructors : Table (List Name)
  deriving DecidableEq

namespace TypeDecl

/-- Adds a constructor, or replaces the one with this tag. -/
def addConstructor (decl : TypeDecl) (tag : Name) (args : List Name) : TypeDecl :=
  { decl with constructors := decl.constructors.insert tag args }

def hasConstructor (decl : TypeDecl) (tag : Name) : Bool := decl.constructors.contains tag

def signature (decl : TypeDecl) (tag : Name) : Except Fault (List Name) :=
  match decl.constructors.get? tag with
  | some args => .ok args
  | none => .error (.unknownConstructor decl.name tag)

theorem signature_eq_ok {decl : TypeDecl} {tag : Name} {args : List Name} :
    decl.signature tag = .ok args ↔ decl.constructors.get? tag = some args := by
  unfold signature
  cases decl.constructors.get? tag <;> simp

end TypeDecl

/-- The declared types. Lookups go to the declarations, listings follow the index of names. -/
structure Registry where
  /-- The declarations by name. -/
  types : Table TypeDecl
  /-- The declared names once more. -/
  index : Table Unit
  deriving DecidableEq

namespace Registry

def empty : Registry := ⟨.empty, .empty⟩

instance : Inhabited Registry := ⟨empty⟩

def contains (R : Registry) (ty : Name) : Bool := R.types.contains ty

/-- The declared names in increasing order. -/
def names (R : Registry) : List Name := R.index.keys

/-- The declarations in the order of their names. A name without a declaration is passed over. -/
def decls (R : Registry) : List TypeDecl := R.names.filterMap R.types.get?

def size (R : Registry) : Nat := R.index.size

def isEmpty (R : Registry) : Bool := R.index.isEmpty

def get (R : Registry) (ty : Name) : Except Fault TypeDecl :=
  match R.types.get? ty with
  | some decl => .ok decl
  | none => .error (.unknownType ty)

/-- The arguments of a constructor, if the type and the constructor are there. -/
def signature? (R : Registry) (ty tag : Name) : Option (List Name) :=
  (R.types.get? ty).bind fun decl => decl.constructors.get? tag

/-- Declares a type without constructors. -/
def declare (R : Registry) (name : Name) : Except Fault Registry :=
  if !name.isIdentifier then .error (.invalidName name)
  else if R.contains name then .error (.duplicateType name)
  else .ok ⟨R.types.insert name ⟨name, .empty⟩, R.index.insert name ()⟩

/-- Adds a constructor to a declared type, or replaces the one with this tag. -/
def addConstructor (R : Registry) (ty tag : Name) (args : List Name) : Except Fault Registry := do
  let decl ← R.get ty
  return { R with types := R.types.insert ty (decl.addConstructor tag args) }

/-- Declares a type with constructors. -/
def declareWith (R : Registry) (name : Name) (constructors : List (Name × List Name)) :
    Except Fault Registry := do
  let R ← R.declare name
  constructors.foldlM (fun R c => R.addConstructor name c.1 c.2) R

/-- Declares types with constructors one after another. -/
def ofDecls (decls : List (Name × List (Name × List Name))) : Except Fault Registry :=
  decls.foldlM (fun R d => R.declareWith d.1 d.2) empty

/-- The faults of a constructor: its tag, if that is no identifier, and its undeclared argument
types in their order. -/
def constructorFaults (R : Registry) (ty tag : Name) (args : List Name) : List Fault :=
  (if tag.isIdentifier then [] else [.invalidName tag]) ++
    args.zipIdx.filterMap fun arg =>
      if R.contains arg.1 then none else some (.unknownArgumentType ty tag arg.2 arg.1)

/-- All faults of the declarations, in the order of type names and tags. -/
def faults (R : Registry) : List Fault :=
  R.decls.flatMap fun decl =>
    decl.constructors.entries.flatMap fun c => R.constructorFaults decl.name c.1 c.2

/-- Every tag is an identifier and every argument type is declared, or the first fault. -/
def check (R : Registry) : Except Fault Unit :=
  match R.faults with
  | [] => .ok ()
  | fault :: _ => .error fault

theorem contains_iff {R : Registry} {ty : Name} :
    R.contains ty = true ↔ ∃ decl, R.types.get? ty = some decl := Option.isSome_iff_exists

theorem get_eq_ok {R : Registry} {ty : Name} {decl : TypeDecl} :
    R.get ty = .ok decl ↔ R.types.get? ty = some decl := by
  unfold get
  cases R.types.get? ty <;> simp

theorem signature?_eq_some {R : Registry} {ty tag : Name} {args : List Name} :
    R.signature? ty tag = some args ↔
      ∃ decl, R.types.get? ty = some decl ∧ decl.constructors.get? tag = some args :=
  Option.bind_eq_some_iff

theorem contains_of_signature? {R : Registry} {ty tag : Name} {args : List Name}
    (h : R.signature? ty tag = some args) : R.contains ty = true := by
  obtain ⟨decl, hd, _⟩ := signature?_eq_some.1 h
  exact contains_iff.2 ⟨decl, hd⟩

theorem signature?_of_get? {R : Registry} {ty : Name} {decl : TypeDecl}
    (h : R.types.get? ty = some decl) (tag : Name) :
    R.signature? ty tag = decl.constructors.get? tag := by
  rw [signature?, h, Option.bind_some]

theorem declare_eq_ok {R S : Registry} {name : Name} :
    R.declare name = .ok S ↔ name.isIdentifier = true ∧ R.types.get? name = none ∧
      S = ⟨R.types.insert name ⟨name, .empty⟩, R.index.insert name ()⟩ := by
  unfold declare contains Table.contains
  cases name.isIdentifier <;> cases R.types.get? name <;> simp [eq_comm]

theorem declare_eq_error {R : Registry} {name : Name} {fault : Fault} :
    R.declare name = .error fault ↔ (name.isIdentifier = false ∧ fault = .invalidName name) ∨
      (name.isIdentifier = true ∧ R.contains name = true ∧ fault = .duplicateType name) := by
  unfold declare
  cases name.isIdentifier <;> cases R.contains name <;> simp [eq_comm]

theorem addConstructor_eq_ok {R S : Registry} {ty tag : Name} {args : List Name} :
    R.addConstructor ty tag args = .ok S ↔ ∃ decl, R.types.get? ty = some decl ∧
      S = ⟨R.types.insert ty (decl.addConstructor tag args), R.index⟩ := by
  simp only [addConstructor, Fault.bind_eq_ok, get_eq_ok, pure, Except.pure, Except.ok.injEq]
  exact exists_congr fun decl => and_congr_right fun _ => eq_comm

theorem addConstructor_eq_error {R : Registry} {ty tag : Name} {args : List Name} {fault : Fault} :
    R.addConstructor ty tag args = .error fault ↔
      R.contains ty = false ∧ fault = .unknownType ty := by
  unfold addConstructor get contains Table.contains
  cases R.types.get? ty <;> simp [bind, Except.bind, pure, Except.pure, eq_comm]

end Registry

end DataCalculus
