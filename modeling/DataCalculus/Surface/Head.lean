import DataCalculus.Name
import DataCalculus.Text

/-!
# Heads of surface forms

The strings of the surface language: a typed name `name : Type`, in which blanks may surround the
colon, and the heads `Type.tag`, `Type<-apply` and `Type<-match` of arrays, in which they may not.
-/

namespace DataCalculus.Surface

set_option autoImplicit false

/-- Both parts as names, if they are identifiers. -/
def identifiers? (parts : List Char × List Char) : Option (Name × Name) :=
  if Name.isIdentifierChars parts.1 && Name.isIdentifierChars parts.2 then
    some (String.ofList parts.1, String.ofList parts.2)
  else none

/-- A name and a type, divided by the first colon. -/
def typedName? (s : String) : Option (Name × Name) :=
  (Text.splitOnce [':'] s.toList).bind fun parts =>
    identifiers? (Text.trimEnd parts.1, Text.trimStart parts.2)

/-- A type and a tag, divided by the first point. -/
def typeAndTag? (s : String) : Option (Name × Name) :=
  (Text.splitOnce ['.'] s.toList).bind identifiers?

inductive Head where
  | construct (ty tag : Name)
  | call (ty : Name)
  | caseOf (ty : Name)
  deriving DecidableEq

namespace Head

/-- The form that the word after the arrow names. -/
def ofWord? (ty : Name) (word : List Char) : Option Head :=
  if word = "apply".toList then some (.call ty)
  else if word = "match".toList then some (.caseOf ty)
  else none

/-- The head that a string spells. A string with an arrow is never a constructor. -/
def ofString? (s : String) : Option Head :=
  match Text.splitOnce ['<', '-'] s.toList with
  | some (ty, word) =>
    if Name.isIdentifierChars ty then ofWord? (String.ofList ty) word else none
  | none => (typeAndTag? s).map fun parts => .construct parts.1 parts.2

def spelling : Head → String
  | .construct ty tag => ty ++ "." ++ tag
  | .call ty => ty ++ "<-apply"
  | .caseOf ty => ty ++ "<-match"

end Head

end DataCalculus.Surface
