import DataCalculus.Json.Number

/-!
# JSON tokens

A text is cut into punctuation, words, numbers and strings by a machine that sees one character
at a time. A word or a number ends at the first character that cannot belong to it. Whether the
tokens form a tree is not looked at here.
-/

namespace DataCalculus.Json

set_option autoImplicit false

inductive Token where
  | openArray
  | closeArray
  | openObject
  | closeObject
  | comma
  | colon
  | null
  | bool (b : Bool)
  | num (n : Number)
  | str (s : String)
  deriving DecidableEq

namespace Token

/-- What the machine is in the middle of. Characters seen so far are kept in reverse. -/
inductive Mode where
  | between
  | word (seen : List Char)
  | number (seen : List Char)
  | quoted (seen : List Char)
  | escape (seen : List Char)
  /-- In a code of four hexadecimal digits, of which `left` are still to come. A high surrogate
  that it has to complete is in `high`. -/
  | code (seen : List Char) (high : Option Nat) (left value : Nat)
  /-- After a high surrogate, which has to be followed by a code. -/
  | paired (seen : List Char) (high : Nat)
  /-- After a high surrogate and a backslash. -/
  | pairedEscape (seen : List Char) (high : Nat)
  deriving DecidableEq

/-- The machine: its mode, and the tokens so far in reverse. -/
structure Scanner where
  mode : Mode
  tokens : List Token
  deriving DecidableEq

/-- The four characters that may stand between tokens. -/
def isSpace (c : Char) : Bool := c == ' ' || c == '\t' || c == '\n' || c == '\r'

def isLetter (c : Char) : Bool := c.isLower

/-- The characters that a number goes on with. -/
def isNumberChar (c : Char) : Bool :=
  c.isDigit || c == '+' || c == '-' || c == '.' || c == 'e' || c == 'E'

def ofWord? (cs : List Char) : Option Token :=
  if cs = "null".toList then some .null
  else if cs = "true".toList then some (.bool true)
  else if cs = "false".toList then some (.bool false)
  else none

def punctuation? (c : Char) : Option Token :=
  match c with
  | '[' => some .openArray
  | ']' => some .closeArray
  | '\x7b' => some .openObject
  | '\x7d' => some .closeObject
  | ',' => some .comma
  | ':' => some .colon
  | _ => none

/-- The character that a one-letter escape stands for. -/
def unescaped? (c : Char) : Option Char :=
  match c with
  | '"' => some '"'
  | '\\' => some '\\'
  | '/' => some '/'
  | 'b' => some '\x08'
  | 'f' => some '\x0c'
  | 'n' => some '\n'
  | 'r' => some '\r'
  | 't' => some '\t'
  | _ => none

/-- The value of a hexadecimal digit of either case. -/
def hexValue? (c : Char) : Option Nat :=
  if c.isDigit then some (c.toNat - '0'.toNat)
  else if 'a' ≤ c && c ≤ 'f' then some (c.toNat - 'a'.toNat + 10)
  else if 'A' ≤ c && c ≤ 'F' then some (c.toNat - 'A'.toNat + 10)
  else none

def isHighSurrogate (n : Nat) : Bool := 0xD800 ≤ n && n < 0xDC00

def isLowSurrogate (n : Nat) : Bool := 0xDC00 ≤ n && n < 0xE000

/-- Continues after a complete code: a high surrogate waits for a low one, and a low one is only
good for completing a high one. -/
def afterCode? (seen : List Char) (high : Option Nat) (value : Nat) : Option Mode :=
  match high with
  | some h =>
    if isLowSurrogate value then
      some (.quoted (Char.ofNat (0x10000 + (h - 0xD800) * 0x400 + (value - 0xDC00)) :: seen))
    else none
  | none =>
    if isHighSurrogate value then some (.paired seen value)
    else if isLowSurrogate value then none
    else some (.quoted (Char.ofNat value :: seen))

/-- Takes a character that does not continue a word or a number. -/
def start? (tokens : List Token) (c : Char) : Option Scanner :=
  if isSpace c then some ⟨.between, tokens⟩
  else if c == '"' then some ⟨.quoted [], tokens⟩
  else if c.isDigit || c == '-' then some ⟨.number [c], tokens⟩
  else if isLetter c then some ⟨.word [c], tokens⟩
  else (punctuation? c).map fun t => ⟨.between, t :: tokens⟩

def step? (s : Scanner) (c : Char) : Option Scanner :=
  match s.mode with
  | .between => start? s.tokens c
  | .word seen =>
    if isLetter c then some ⟨.word (c :: seen), s.tokens⟩
    else (ofWord? seen.reverse).bind fun t => start? (t :: s.tokens) c
  | .number seen =>
    if isNumberChar c then some ⟨.number (c :: seen), s.tokens⟩
    else (Number.ofChars? seen.reverse).bind fun n => start? (.num n :: s.tokens) c
  | .quoted seen =>
    if c == '"' then some ⟨.between, .str (String.ofList seen.reverse) :: s.tokens⟩
    else if c == '\\' then some ⟨.escape seen, s.tokens⟩
    else if c.toNat < 0x20 then none
    else some ⟨.quoted (c :: seen), s.tokens⟩
  | .escape seen =>
    if c == 'u' then some ⟨.code seen none 4 0, s.tokens⟩
    else (unescaped? c).map fun d => ⟨.quoted (d :: seen), s.tokens⟩
  | .code seen high left value =>
    (hexValue? c).bind fun d =>
      if left ≤ 1 then (afterCode? seen high (16 * value + d)).map fun mode => ⟨mode, s.tokens⟩
      else some ⟨.code seen high (left - 1) (16 * value + d), s.tokens⟩
  | .paired seen high => if c == '\\' then some ⟨.pairedEscape seen high, s.tokens⟩ else none
  | .pairedEscape seen high =>
    if c == 'u' then some ⟨.code seen (some high) 4 0, s.tokens⟩ else none

def finish? (s : Scanner) : Option (List Token) :=
  match s.mode with
  | .between => some s.tokens.reverse
  | .word seen => (ofWord? seen.reverse).map fun t => (t :: s.tokens).reverse
  | .number seen => (Number.ofChars? seen.reverse).map fun n => (.num n :: s.tokens).reverse
  | _ => none

def run? (s : Scanner) (cs : List Char) : Option Scanner := cs.foldlM step? s

def scan? (cs : List Char) : Option (List Token) := (run? ⟨.between, []⟩ cs).bind finish?

end Token

end DataCalculus.Json
