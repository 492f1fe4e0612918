/-! The fewest decimal digits that read back. A binary magnitude stands for every real that rounds
to it, and of the decimals in that interval the ones with the fewest digits are looked for, the
nearest first. Everything is compared exactly, as naturals in one small unit. -/

namespace MultiSwap.Decimal

/-- A positive magnitude as a multiple of the least positive double, 2^-1074. The neighbour above is
`gap` away, the one below too, or half as far if `narrow`. A magnitude whose significand is even
owns the two ends of its interval. -/
structure Magnitude where
  units : Nat
  gap : Nat
  narrow : Bool
  ownsEnds : Bool
  deriving DecidableEq, Repr

/-- The value 0.d₁d₂… · 10^point. -/
structure Digits where
  digits : List Char
  point : Int
  deriving DecidableEq, Repr

namespace Magnitude

/-- Powers of ten from 10^-floor on are whole multiples of the unit of comparison. -/
def floor : Nat := 400

/-- A quarter of the least positive double, in the unit of comparison. -/
def quarter : Nat := Nat.pow 10 floor

def quartersInOne : Nat := Nat.pow 2 1076

def scaled (x : Magnitude) : Nat := 4 * x.units * quarter

def lowerEnd (x : Magnitude) : Nat :=
  (4 * x.units - (if x.narrow then x.gap else 2 * x.gap)) * quarter

def upperEnd (x : Magnitude) : Nat := (4 * x.units + 2 * x.gap) * quarter

def power (e : Int) : Nat := Nat.pow 10 (e + floor).toNat * quartersInOne

/-- Does a real, in the unit of comparison, round to `x`? -/
def readsBack (x : Magnitude) (y : Nat) : Bool :=
  (x.lowerEnd < y && y < x.upperEnd) || (x.ownsEnds && (y == x.lowerEnd || y == x.upperEnd))

def scale (x : Magnitude) : Int :=
  ((Nat.toDigits 10 (x.scaled / quartersInOne)).length : Int) - floor

/-- A multiple of `grid` that reads back. One of the two neighbours of `x` does if any does; the
nearer one is taken if both do, and the greater one if they are equally near. -/
def onGrid? (x : Magnitude) (grid : Nat) : Option Nat :=
  let below := x.scaled / grid
  let above := below + 1
  match x.readsBack (below * grid), x.readsBack (above * grid) with
  | true, true => some (if 2 * x.scaled < (below + above) * grid then below else above)
  | true, false => some below
  | false, true => some above
  | false, false => none

def digitsOf (c : Nat) (e : Int) : Digits :=
  let ds := Nat.toDigits 10 c
  ⟨(ds.reverse.dropWhile (· == '0')).reverse, ds.length + e⟩

/-- Grids of one digit, two digits and so on are tried up to the seventeen that always suffice. -/
def shortest (x : Magnitude) : Digits :=
  let hit := (List.range 17).findSome? fun n =>
    let e := x.scale - (n + 1 : Nat)
    (x.onGrid? (power e)).map fun c => digitsOf c e
  hit.getD (digitsOf (x.units * Nat.pow 5 1074) (-1074))

end Magnitude

end MultiSwap.Decimal
