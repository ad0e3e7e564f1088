import DataCalculus.Decimal.Shortest

/-!
# JSON numbers

A number is an integer, if it was written as one and fits into 64 bits, and otherwise a number of
the 64-bit binary format. Reading keeps as many leading digits as fit into 64 bits and scales
them by a power of ten; it is therefore not always the nearest binary number that is read.
-/

namespace DataCalculus.Json

set_option autoImplicit false

/-- A number in a JSON tree; binary numbers are given by their bit pattern. -/
inductive Number where
  | int (n : Int)
  | binary64 (bits : UInt64)
  deriving DecidableEq

/-- The parts of a number as it is written. `fraction` is empty when there is no point, and
`exponent` is absent when there is no exponent mark. -/
structure NumberLiteral where
  negative : Bool
  whole : List Char
  fraction : List Char
  exponent : Option Int
  deriving DecidableEq

/-- Two to the power 64. -/
def wordBound : Nat := 0x10000000000000000

/-- Two to the power 63. -/
def signBound : Nat := 0x8000000000000000

/-- Two to the power 52, the leading bit of a significand. -/
def leadingBit : Nat := 0x10000000000000

namespace NumberLiteral

def natOfDigits (ds : List Char) : Nat := ds.foldl (fun n d => 10 * n + (d.toNat - '0'.toNat)) 0

/-- At least one digit, and no zero in front of other digits. -/
def isWhole (ds : List Char) : Bool :=
  match ds with
  | [] => false
  | ['0'] => true
  | d :: _ => d != '0'

def sign (cs : List Char) : Bool × List Char :=
  match cs with
  | '-' :: rest => (true, rest)
  | cs => (false, cs)

/-- Splits off a fraction, which needs a digit after its point. -/
def fraction? (cs : List Char) : Option (List Char × List Char) :=
  match cs with
  | '.' :: rest =>
    if (rest.takeWhile Char.isDigit).isEmpty then none
    else some (rest.takeWhile Char.isDigit, rest.dropWhile Char.isDigit)
  | cs => some ([], cs)

/-- The value of an exponent after its mark: an optional sign and at least one digit. -/
def exponentValue? (cs : List Char) : Option Int :=
  let magnitude? (ds : List Char) : Option Nat :=
    if ds.isEmpty || !ds.all Char.isDigit then none else some (natOfDigits ds)
  match cs with
  | '-' :: ds => (magnitude? ds).map fun n => -(n : Int)
  | '+' :: ds => (magnitude? ds).map fun n => (n : Int)
  | ds => (magnitude? ds).map fun n => (n : Int)

/-- The exponent that makes up the rest of the literal, if there is a rest. -/
def exponent? (cs : List Char) : Option (Option Int) :=
  match cs with
  | [] => some none
  | c :: rest => if c == 'e' || c == 'E' then (exponentValue? rest).map some else none

/-- The parts of a literal that follows the grammar of JSON numbers. -/
def ofChars? (cs : List Char) : Option NumberLiteral := do
  let (negative, unsigned) := sign cs
  let whole := unsigned.takeWhile Char.isDigit
  if isWhole whole then
    let (fraction, rest) ← fraction? (unsigned.dropWhile Char.isDigit)
    let exponent ← exponent? rest
    return { negative, whole, fraction, exponent }
  else none

/-- Appends digits to `n` while the result fits into 64 bits, and counts those left over. -/
def gather (n : Nat) : List Char → Nat × Nat
  | [] => (n, 0)
  | d :: ds =>
    let next := 10 * n + (d.toNat - '0'.toNat)
    if next < wordBound then gather next ds else (n, ds.length + 1)

/-- The significand that is kept, and the power of ten that belongs to it. -/
def scaled (l : NumberLiteral) : Decimal.Scaled :=
  let (whole, skipped) := gather 0 l.whole
  let (digits, dropped) := gather whole l.fraction
  ⟨digits, (skipped : Int) - ((l.fraction.length - dropped : Nat) : Int) + l.exponent.getD 0⟩

/-- The greatest power of ten in the binary format. -/
def greatestPower : Nat := 308

def powerOfTen (k : Nat) : Float := Float.ofScientific 1 false k

/-- Divides by ten to the power `k`, in steps that stay within the binary format. -/
def scaleDown (x : Float) (k : Nat) : Float :=
  if greatestPower < k then
    if x == 0 then x else scaleDown (x / powerOfTen greatestPower) (k - greatestPower)
  else x / powerOfTen k
termination_by k
decreasing_by simp_all [greatestPower]; omega

/-- The binary number for a significand and a power of ten, unless it is too large. -/
def toFloat? (s : Decimal.Scaled) : Option Float :=
  let x := s.digits.toUInt64.toFloat
  if s.exponent < 0 then some (scaleDown x s.exponent.natAbs)
  else if s.exponent.toNat ≤ greatestPower then
    let y := x * powerOfTen s.exponent.toNat
    if y.isInf then none else some y
  else if x == 0 then some x
  else none

/-- The binary number that the literal stands for, unless it is too large. -/
def binary64? (l : NumberLiteral) : Option Number :=
  (toFloat? l.scaled).map fun x => .binary64 (if l.negative then -x else x).toBits

/-- Integers between `-2 ^ 63` and `2 ^ 64 - 1` are kept as such, except for `-0`. -/
def isInteger (l : NumberLiteral) : Bool :=
  l.fraction.isEmpty && l.exponent.isNone &&
    if l.negative then 0 < natOfDigits l.whole && natOfDigits l.whole ≤ signBound
    else natOfDigits l.whole < wordBound

def number? (l : NumberLiteral) : Option Number :=
  if l.isInteger then
    some (.int (if l.negative then -(natOfDigits l.whole : Int) else natOfDigits l.whole))
  else l.binary64?

end NumberLiteral

namespace Number

def ofChars? (cs : List Char) : Option Number := (NumberLiteral.ofChars? cs).bind (·.number?)

/-- The magnitude of a finite binary number other than zero. -/
def binaryOfBits (bits : UInt64) : Decimal.Binary :=
  let fraction := bits.toNat % leadingBit
  let exponent := bits.toNat / leadingBit % 2048
  if exponent = 0 then ⟨fraction, -1074, false⟩
  else ⟨leadingBit + fraction, (exponent : Int) - 1075, fraction = 0 && 1 < exponent⟩

/-- Digits are written with a point among them as long as it stands after at most sixteen digits
and has fewer than five zeros behind it. -/
def isPositional (point : Int) : Bool := -5 < point && point ≤ 16

/-- An exponent always shows its sign. -/
def exponentChars (exponent : Int) : List Char :=
  'e' :: (if exponent < 0 then '-' else '+') :: Nat.toDigits 10 exponent.natAbs

/-- Writes a decimal, with at least one digit behind a point, or with an exponent. -/
def scaledChars (s : Decimal.Scaled) : List Char :=
  let digits := Nat.toDigits 10 s.digits
  let point : Int := digits.length + s.exponent
  if isPositional point then
    if 0 ≤ s.exponent then digits ++ List.replicate s.exponent.toNat '0' ++ ['.', '0']
    else if 0 < point then digits.take point.toNat ++ '.' :: digits.drop point.toNat
    else '0' :: '.' :: List.replicate (-point).toNat '0' ++ digits
  else
    match digits with
    | d :: e :: rest => d :: '.' :: e :: rest ++ exponentChars (point - 1)
    | digits => digits ++ exponentChars (point - 1)

/-- Writes the binary number with the given bits by its shortest decimal. -/
def binary64Chars (bits : UInt64) : List Char :=
  let sign := if bits.toNat < signBound then [] else ['-']
  let magnitude := bits.toNat % signBound
  if magnitude = 0 then sign ++ "0.0".toList
  else if leadingBit * 2047 ≤ magnitude then "null".toList
  else sign ++ scaledChars (binaryOfBits bits).shortest

def chars : Number → List Char
  | .int n => (toString n).toList
  | .binary64 bits => binary64Chars bits

end Number

end DataCalculus.Json
