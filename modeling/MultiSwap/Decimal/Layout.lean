import MultiSwap.Decimal.Shortest

/-! How digits are laid out. Values from 10^-4 up to 10^16 are written positionally and keep a digit
behind the point. Others get an exponent, without a plus sign and without padding. -/

namespace MultiSwap.Decimal

structure Layout where
  /-- The least exponent of a leading digit that is written positionally. -/
  plainFrom : Int
  /-- The least exponent of a leading digit beyond those. -/
  plainBelow : Int
  deriving DecidableEq, Repr

def layout : Layout where
  plainFrom := -4
  plainBelow := 16

namespace Digits

def zeros (n : Nat) : List Char := List.replicate n '0'

def positional (d : Digits) : String :=
  let len : Int := d.digits.length
  String.ofList <|
    if d.point ≤ 0 then '0' :: '.' :: (zeros (-d.point).toNat ++ d.digits)
    else if len ≤ d.point then d.digits ++ zeros (d.point - len).toNat ++ ['.', '0']
    else d.digits.take d.point.toNat ++ '.' :: d.digits.drop d.point.toNat

def scientific (d : Digits) : String :=
  let significand := match d.digits with
    | lead :: next :: rest => lead :: '.' :: next :: rest
    | digits => digits
  String.ofList significand ++ "e" ++ toString (d.point - 1)

def text (d : Digits) (form : Layout) : String :=
  if form.plainFrom ≤ d.point - 1 ∧ d.point - 1 < form.plainBelow then d.positional
  else d.scientific

end Digits

end MultiSwap.Decimal
