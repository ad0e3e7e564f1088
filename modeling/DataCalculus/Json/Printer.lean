import DataCalculus.Json.Basic

/-!
# Compact JSON text

Trees are written without blanks. In strings the quote, the backslash and the characters below
U+0020 are escaped, and nothing else. Writing puts the text in front of a rest, so that nested
trees cost one pass.
-/

namespace DataCalculus.Json

set_option autoImplicit false

def hexDigit (n : Nat) : Char := Nat.digitChar (n % 16)

/-- How a character stands inside a string. -/
def escaped (c : Char) : List Char :=
  match c with
  | '"' => ['\\', '"']
  | '\\' => ['\\', '\\']
  | '\x08' => ['\\', 'b']
  | '\t' => ['\\', 't']
  | '\n' => ['\\', 'n']
  | '\x0c' => ['\\', 'f']
  | '\r' => ['\\', 'r']
  | c =>
    if c.toNat < 0x20 then ['\\', 'u', '0', '0', hexDigit (c.toNat / 16), hexDigit c.toNat]
    else [c]

def writeString (s : String) (rest : List Char) : List Char :=
  '"' :: s.toList.foldr (fun c tail => escaped c ++ tail) ('"' :: rest)

mutual

/-- Writes a tree in front of `rest`. -/
def write : Json → List Char → List Char
  | .null, rest => "null".toList ++ rest
  | .bool true, rest => "true".toList ++ rest
  | .bool false, rest => "false".toList ++ rest
  | .num n, rest => n.chars ++ rest
  | .str s, rest => writeString s rest
  | .arr [], rest => '[' :: ']' :: rest
  | .arr (item :: items), rest => '[' :: write item (writeItems items (']' :: rest))
  | .obj [], rest => '\x7b' :: '\x7d' :: rest
  | .obj ((key, value) :: fields), rest =>
    '\x7b' :: writeString key (':' :: write value (writeFields fields ('\x7d' :: rest)))

def writeItems : List Json → List Char → List Char
  | [], rest => rest
  | item :: items, rest => ',' :: write item (writeItems items rest)

def writeFields : List (String × Json) → List Char → List Char
  | [], rest => rest
  | (key, value) :: fields, rest =>
    ',' :: writeString key (':' :: write value (writeFields fields rest))

end

def text (j : Json) : String := String.ofList (j.write [])

/-- A string as it is, and any other tree by its compact text. -/
def plain : Json → String
  | .str s => s
  | j => j.text

end DataCalculus.Json
