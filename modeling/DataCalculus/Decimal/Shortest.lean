/-!
# Shortest decimals

The decimal with the fewest digits among those that are nearer to a given binary number than to
any other of its format. Grids of powers of ten are tried from coarse to fine, and on each grid
only the two neighbours of the number, in exact arithmetic. Zero and the sign are left to callers.
-/

namespace DataCalculus.Decimal

set_option autoImplicit false

/-- The number `digits · 10 ^ exponent`. -/
structure Scaled where
  digits : Nat
  exponent : Int
  deriving DecidableEq

/-- The positive number `significand · 2 ^ exponent` of a binary format. It is `narrow` when its
lower neighbour is only half as far away as its upper one. -/
structure Binary where
  significand : Nat
  exponent : Int
  narrow : Bool
  deriving DecidableEq

namespace Binary

/-- Four times the significand, in units of `2 ^ (exponent - 2)`. -/
def centre (b : Binary) : Nat := 4 * b.significand

/-- The lower end of the interval that rounds to the number, in the same units. -/
def lower (b : Binary) : Nat := b.centre - if b.narrow then 1 else 2

/-- The upper end of the interval that rounds to the number, in the same units. -/
def upper (b : Binary) : Nat := b.centre + 2

/-- The unit is `2 ^ (exponent - 2)`, given as a quotient. -/
def unit (b : Binary) : Nat × Nat :=
  (Nat.pow 2 (b.exponent - 2).toNat, Nat.pow 2 (2 - b.exponent).toNat)

/-- Whether `x` lies in the interval scaled by `scale`; the ends belong to even significands. -/
def reads (b : Binary) (scale x : Nat) : Bool :=
  if b.significand % 2 = 0 then b.lower * scale ≤ x && x ≤ b.upper * scale
  else b.lower * scale < x && x < b.upper * scale

/-- The neighbour of the number on the grid of multiples of `10 ^ t` that reads back, the nearer
one of two, and of two equally near ones the even one. -/
def onGrid? (b : Binary) (t : Int) : Option Nat :=
  let step := b.unit.2 * Nat.pow 10 t.toNat
  let scale := b.unit.1 * Nat.pow 10 (-t).toNat
  let below := b.centre * scale / step
  let left := b.centre * scale - below * step
  let right := (below + 1) * step - b.centre * scale
  match b.reads scale (below * step), b.reads scale ((below + 1) * step) with
  | true, true =>
    if left < right || (left = right && below % 2 = 0) then some below else some (below + 1)
  | true, false => some below
  | false, true => some (below + 1)
  | false, false => none

/-- The number is below ten to this power. -/
def magnitude (b : Binary) : Int :=
  let whole := b.centre * b.unit.1 / b.unit.2
  if whole = 0 then 2 - (Nat.toDigits 10 (b.unit.2 / (b.centre * b.unit.1))).length
  else (Nat.toDigits 10 whole).length

/-- How many grids are tried: more than the seventeen digits that any number of the 64-bit format
needs. -/
def gridCount : Nat := 20

/-- The shortest decimal that reads back as the number. -/
def shortest (b : Binary) : Scaled :=
  let grids := (List.range gridCount).map fun (i : Nat) => b.magnitude - i
  match grids.findSome? fun t => (b.onGrid? t).map fun d => Scaled.mk d t with
  | some decimal => decimal
  | none => ⟨0, 0⟩

end Binary

end DataCalculus.Decimal
