/-!
# Names

Type names, constructor tags and variable names are strings, ordered by code point. Only some of
them are identifiers; which operations insist on one is said where they are defined.
-/

namespace DataCalculus

set_option autoImplicit false

/-- A name of a type, a constructor or a variable. -/
abbrev Name := String

namespace Name

/-- The characters of identifiers: ASCII letters, ASCII digits and the underscore. -/
def isWordChar (c : Char) : Bool := c.isAlphanum || c == '_'

/-- At least one character, and word characters only. -/
def isIdentifierChars (cs : List Char) : Bool := !cs.isEmpty && cs.all isWordChar

def isIdentifier (name : Name) : Bool := isIdentifierChars name.toList

theorem isIdentifierChars_iff {cs : List Char} :
    isIdentifierChars cs = true ↔ cs ≠ [] ∧ ∀ c ∈ cs, isWordChar c = true := by
  cases cs <;> simp [isIdentifierChars]

theorem isIdentifier_ofList (cs : List Char) :
    isIdentifier (String.ofList cs) = isIdentifierChars cs := by
  simp [isIdentifier]

end Name

end DataCalculus
