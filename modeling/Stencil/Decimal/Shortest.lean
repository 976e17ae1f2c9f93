import Stencil.Decimal.Double

/-!
# Shortest decimals

The decimal with the fewest digits that reads back as a given double, and among those the one
nearest to it; and the two ways to write a decimal, by position and with an exponent.
-/

namespace Stencil.DoubleBits

/-- The number of digits of `num / den` before the point; with a point and zeros before its first
digit, the number of those zeros, negated. -/
def order (num den : Nat) : Int :=
  let guess : Int := (Nat.toDigits 10 num).length - (Nat.toDigits 10 den).length
  if den * Nat.pow 10 guess.toNat ≤ num * Nat.pow 10 (-guess).toNat then guess + 1 else guess

/-- A decimal of `count` digits that reads back as the double: of the two on either side of the
double the nearer one, and the even one where both are equally near. An upper one with a digit too
many is a power of ten, which has one digit. -/
def ofCount? (bits : DoubleBits) (count : Nat) : Option Decimal :=
  let (num, den) := ratio bits
  let power := order num den - count
  let scaled := num * Nat.pow 10 (-power).toNat
  let unit := den * Nat.pow 10 power.toNat
  let lower := scaled / unit
  let twice := 2 * (scaled % unit)
  let below : Decimal := ⟨false, lower, power⟩
  let above : Decimal :=
    if lower + 1 = Nat.pow 10 count then ⟨false, 1, power + count⟩ else ⟨false, lower + 1, power⟩
  let nearFirst :=
    if twice < unit || (twice = unit && lower % 2 = 0) then [below, above] else [above, below]
  nearFirst.find? fun d => ofDecimal d = bits

/-- The shortest decimal that reads back as a finite double; 17 digits always do. -/
def shortest (bits : DoubleBits) : Decimal :=
  let magnitude := bits % signBit
  let d :=
    if magnitude = 0 then ⟨false, 0, 0⟩
    else ((List.range 17).findSome? fun n => ofCount? magnitude (n + 1)).getD ⟨false, 0, 0⟩
  { d with negative := signBit ≤ bits }

end Stencil.DoubleBits

namespace Stencil.Decimal

/-- The sign before the digits of a decimal. -/
def signText (d : Decimal) : String := if d.negative then "-" else ""

/-- The exponent of the first digit: the power of ten that the digit counts. -/
def leading (d : Decimal) : Int := (Nat.toDigits 10 d.digits).length + d.power - 1

/-- A decimal written by position. A whole number has one zero after the point. -/
def positional (d : Decimal) : String :=
  let ds := Nat.toDigits 10 d.digits
  let body :=
    if 0 ≤ d.power then ds ++ List.replicate d.power.toNat '0' ++ ['.', '0']
    else
      let places := (-d.power).toNat
      let ds := List.replicate (places + 1 - ds.length) '0' ++ ds
      ds.take (ds.length - places) ++ '.' :: ds.drop (ds.length - places)
  d.signText ++ String.ofList body

/-- A decimal written with an exponent, which always has a sign. One digit stands before the point,
and a single digit has no point. -/
def scientific (d : Decimal) : String :=
  let body :=
    match Nat.toDigits 10 d.digits with
    | c :: e :: ds => c :: '.' :: e :: ds
    | ds => ds
  d.signText ++ String.ofList body ++ (if d.leading < 0 then "e-" else "e+")
    ++ toString d.leading.natAbs

end Stencil.Decimal
