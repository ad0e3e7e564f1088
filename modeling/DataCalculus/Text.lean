/-!
# Text

Blank characters, which are the twenty-five code points with the Unicode property White_Space, and
texts without them at either end; texts cut at the first occurrence of a separator, which belongs to
neither part; and ASCII text between double quotes. Text beyond ASCII has no quoted form here.
-/

namespace DataCalculus.Text

set_option autoImplicit false

/-- First and last code point of each range of blank characters, in increasing order. -/
def blankRanges : List (Nat × Nat) :=
  [(0x9, 0xD), (0x20, 0x20), (0x85, 0x85), (0xA0, 0xA0), (0x1680, 0x1680),
   (0x2000, 0x200A), (0x2028, 0x2029), (0x202F, 0x202F), (0x205F, 0x205F), (0x3000, 0x3000)]

def isBlank (c : Char) : Bool :=
  blankRanges.any fun range => range.1 ≤ c.toNat && c.toNat ≤ range.2

def trimStart (cs : List Char) : List Char := cs.dropWhile isBlank

def trimEnd (cs : List Char) : List Char := (cs.reverse.dropWhile isBlank).reverse

/-- The parts before and after the first occurrence of `sep`, if there is one. -/
def splitOnce (sep : List Char) : List Char → Option (List Char × List Char)
  | [] => if sep.isEmpty then some ([], []) else none
  | c :: cs =>
    if sep.isPrefixOf (c :: cs) then some ([], (c :: cs).drop sep.length)
    else (splitOnce sep cs).map fun parts => (c :: parts.1, parts.2)

/-- The parts and the separator between them make up the text. -/
theorem append_of_splitOnce {sep cs before after : List Char}
    (h : splitOnce sep cs = some (before, after)) : before ++ sep ++ after = cs := by
  induction cs generalizing before with
  | nil =>
    simp only [splitOnce] at h
    split at h <;> simp_all
  | cons c cs ih =>
    rw [splitOnce] at h
    split at h
    · next hp =>
      obtain ⟨rfl, rfl⟩ := by simpa using h
      obtain ⟨t, ht⟩ := List.isPrefixOf_iff_prefix.1 hp
      simp [← ht]
    · obtain ⟨parts, hs, he⟩ := Option.map_eq_some_iff.1 h
      obtain ⟨rfl, rfl⟩ := by simpa using he
      simp [← ih hs]

/-- A control character by its code: lower-case hexadecimal digits between braces. -/
def quotedCode (c : Char) : List Char :=
  "\\u\x7b".toList ++ Nat.toDigits 16 c.toNat ++ ['\x7d']

/-- How one ASCII character stands inside quotes. Those without a short escape that are control
characters are given by their code. -/
def quotedChar (c : Char) : List Char :=
  match c with
  | '\x00' => ['\\', '0']
  | '\t' => ['\\', 't']
  | '\r' => ['\\', 'r']
  | '\n' => ['\\', 'n']
  | '"' => ['\\', '"']
  | '\\' => ['\\', '\\']
  | c => if c.toNat < 0x20 || c.toNat = 0x7F then quotedCode c else [c]

/-- The text in quotes, if it is ASCII. -/
def quoted? (s : String) : Option String :=
  if s.toList.all (·.toNat < 0x80) then
    some (String.ofList ('"' :: s.toList.flatMap quotedChar ++ ['"']))
  else none

end DataCalculus.Text
