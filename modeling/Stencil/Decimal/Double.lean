/-!
# Decimals and doubles

The value of a decimal numeral, the double nearest to it, and the products and quotients of doubles.
A double is given by its 64 bits, so that nothing here depends on how floating point arithmetic is
carried out.
-/

namespace Stencil

/-- A decimal number: `digits · 10 ^ power`, or its negative. -/
structure Decimal where
  negative : Bool
  digits : Nat
  power : Int
deriving DecidableEq, Repr

namespace Decimal

/-- The number that some digits write. -/
def natValue (ds : List Char) : Nat := ds.foldl (fun n c => 10 * n + (c.toNat - '0'.toNat)) 0

/-- Takes an optional sign off some text: whether it is a minus, and the text after it. -/
def takeSign : List Char → Bool × List Char
  | '-' :: s => (true, s)
  | '+' :: s => (false, s)
  | s => (false, s)

/-- The whole number that some text writes: an optional sign and digits. -/
def intValue (s : List Char) : Int :=
  let (negative, ds) := takeSign s
  if negative then -(natValue ds : Int) else natValue ds

/-- A number as it is written, taken apart. -/
structure Parts where
  negative : Bool
  /-- The digits before the point. -/
  whole : List Char
  /-- The digits after the point. -/
  fraction : List Char
  exponent : Int
deriving DecidableEq, Repr

/-- Takes a written number apart: an optional sign, digits, perhaps a point and digits, perhaps the
letter `e` and a whole number. -/
def partsOf (s : List Char) : Parts :=
  let (negative, s) := takeSign s
  let whole := s.takeWhile Char.isDigit
  let s := s.dropWhile Char.isDigit
  let (fraction, s) :=
    match s with
    | '.' :: s => (s.takeWhile Char.isDigit, s.dropWhile Char.isDigit)
    | s => ([], s)
  ⟨negative, whole, fraction, intValue (s.drop 1)⟩

/-- The number that some text writes. -/
def ofText (s : List Char) : Decimal :=
  let p := partsOf s
  ⟨p.negative, natValue (p.whole ++ p.fraction), p.exponent - p.fraction.length⟩

end Decimal

/-- A double, by its bits. -/
abbrev DoubleBits := Nat

namespace DoubleBits

/-- The bits of positive infinity. -/
def infinity : DoubleBits := 0x7ff0000000000000

/-- The number of doubles of one exponent: there are so many from a power of two to the next. -/
def perExponent : Nat := 0x10000000000000

/-- The bit that makes a double negative. -/
def signBit : DoubleBits := 0x8000000000000000

/-- The whole number nearest to `num / den`; of two the even one. -/
def roundDiv (num den : Nat) : Nat :=
  let q := num / den
  let twice := 2 * (num % den)
  if den < twice || (twice = den && q % 2 = 1) then q + 1 else q

/-- The double nearest to `num / den`, which is not negative. With the exponent `e` chosen so that
the number is at least `2 ^ 52` and less than `2 ^ 53` units of `2 ^ e`, or the least exponent
there is, the bits are the number of units above the exponent's first double; rounding up to
`2 ^ 53` units then gives the first double of the next exponent. -/
def ofRatio (num den : Nat) : DoubleBits :=
  if num = 0 then 0
  else
    -- The lengths in bits give the exponent, or one too many.
    let guess : Int := (num.log2 : Int) - den.log2 - 52
    let below (e : Int) : Bool :=
      num <<< (-e).toNat < (den * perExponent) <<< e.toNat
    let e := max (if below guess then guess - 1 else guess) (-1074)
    let units := roundDiv (num <<< (-e).toNat) (den <<< e.toNat)
    min ((e + 1074).toNat * perExponent + units) infinity

/-- A double that is finite and not negative, as a quotient of whole numbers. -/
def ratio (bits : DoubleBits) : Nat × Nat :=
  let exponent := bits / perExponent
  let units := bits % perExponent
  if exponent = 0 then (units, 1 <<< 1074)
  else ((perExponent + units) <<< (exponent - 1075), 1 <<< (1075 - exponent))

/-- The double nearest to the product of two doubles that are not negative. -/
def mul (a b : DoubleBits) : DoubleBits :=
  ofRatio (a.ratio.1 * b.ratio.1) (a.ratio.2 * b.ratio.2)

/-- The double nearest to the quotient of two doubles that are not negative. -/
def div (a b : DoubleBits) : DoubleBits :=
  ofRatio (a.ratio.1 * b.ratio.2) (a.ratio.2 * b.ratio.1)

/-- The double nearest to a decimal. Powers of ten far out of the range of doubles are not
computed. -/
def ofDecimal (d : Decimal) : DoubleBits :=
  let magnitude :=
    let order := (Nat.toDigits 10 d.digits).length + d.power
    if d.digits = 0 || order < -330 then 0
    else if 310 < order then infinity
    else ofRatio (d.digits * Nat.pow 10 d.power.toNat) (Nat.pow 10 (-d.power).toNat)
  if d.negative then signBit + magnitude else magnitude

end DoubleBits

end Stencil
