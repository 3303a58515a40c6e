import EffectShader.Text.Basic

/-!
# Shortest decimals

The decimal text of a floating point number has the fewest digits that read
back to the same number, and of those decimals the nearest.  The search is done
in exact arithmetic: the number and the two ends of the interval of reals that
round to it are multiples of one small unit, and for each count of digits the
two neighbours of the number on the decimal grid are tried.
-/

namespace EffectShader

/-- The number `0.d₁d₂… · 10 ^ point`, without trailing zeros; zero has no digits. -/
structure Decimal where
  digits : Text
  point : Int
  deriving DecidableEq, Repr

namespace Decimal

def twoTo (n : Nat) : Nat := Nat.pow 2 n

def tenTo (n : Nat) : Nat := Nat.pow 10 n

def bitsFrom (bits : UInt64) (first : Nat) : Nat :=
  bits.toNat / twoTo first

def fractionBits (bits : UInt64) : Nat :=
  bits.toNat % twoTo 52

def exponentBits (bits : UInt64) : Nat :=
  bitsFrom bits 52 % twoTo 11

structure Binary where
  mantissa : Nat
  exponent : Nat
  deriving DecidableEq, Repr

def Binary.ofBits (bits : UInt64) : Binary :=
  if exponentBits bits = 0 then ⟨fractionBits bits, 0⟩
  else ⟨twoTo 52 + fractionBits bits, exponentBits bits - 1⟩

/-- Decimal exponents are shifted by this to make every grid point a whole number of units. -/
def shift : Nat := 345

/-- The unit of the search is `2 ^ (-1076) · 10 ^ (-shift)`; this many units make `10 ^
(-shift)`. -/
def binaryUnits : Nat := twoTo 1076

/-- A quarter of the number's last place, times `quarters`, in units. -/
def Binary.units (x : Binary) (quarters : Nat) : Nat :=
  quarters * twoTo x.exponent * tenTo shift

/-- The least and the greatest real that round to the number, in units.  Below a power of two the
gap to the next number is half as wide. -/
def Binary.interval (x : Binary) : Nat × Nat :=
  let below := if x.mantissa = twoTo 52 && 0 < x.exponent then 1 else 2
  (x.units (4 * x.mantissa - below), x.units (4 * x.mantissa + 2))

/-- The ends of the interval round to the number exactly if its mantissa is even. -/
def Binary.covers (x : Binary) (units : Nat) : Bool :=
  let (low, high) := x.interval
  if x.mantissa % 2 = 0 then low ≤ units && units ≤ high else low < units && units < high

def stripZeros (digits : Text) : Text × Nat :=
  let kept := Text.dropEndWhile (· == Byte.zero) digits
  (kept, digits.length - kept.length)

def ofScaled (coefficient : Nat) (scale : Int) : Decimal :=
  let numeral := Text.ofNat coefficient
  ⟨(stripZeros numeral).1, scale + numeral.length⟩

/-- The nearer of the neighbours `c` and `c + 1` on the grid of step `grid` that read back; halfway
between them it is the even one. -/
def Binary.neighbour? (x : Binary) (grid : Nat) : Option Nat :=
  let value := x.units (4 * x.mantissa)
  let c := value / grid
  let low := x.covers (c * grid)
  let high := x.covers ((c + 1) * grid)
  if low && high then
    let fromLow := value - c * grid
    let fromHigh := (c + 1) * grid - value
    some (if fromLow < fromHigh || (fromLow = fromHigh && c % 2 = 0) then c else c + 1)
  else if low then some c
  else if high then some (c + 1)
  else none

/-- Tries `digits` digits, then more, at most `tries` times; `magnitude` is the shifted exponent of
the first digit. -/
def Binary.search (x : Binary) (magnitude : Nat) : (tries digits : Nat) -> Decimal
  | 0, digits =>
      let scale := magnitude + 1 - digits
      ofScaled (x.units (4 * x.mantissa) / (binaryUnits * tenTo scale)) ((scale : Int) - shift)
  | tries + 1, digits =>
      let scale := magnitude + 1 - digits
      match x.neighbour? (binaryUnits * tenTo scale) with
      | some c => ofScaled c ((scale : Int) - shift)
      | none => x.search magnitude tries (digits + 1)

def Binary.shortest (x : Binary) : Decimal :=
  if x.mantissa = 0 then ⟨[], 0⟩
  else
    let magnitude := (Text.ofNat (x.units (4 * x.mantissa) / binaryUnits)).length - 1
    x.search magnitude 17 1

end Decimal

/-!
# Writing floating point numbers

A number is written in positional or in scientific form.  Which one, and how
the exponent looks, is the decision of the place that writes it, given as a
`NumberFormat`.
-/

namespace Decimal

def positional (d : Decimal) : Text :=
  if d.digits.isEmpty then [Byte.zero]
  else if d.point ≤ 0 then
    [Byte.zero, Byte.dot] ++ List.replicate (-d.point).toNat Byte.zero ++ d.digits
  else
    let whole := d.point.toNat
    if d.digits.length ≤ whole then
      d.digits ++ List.replicate (whole - d.digits.length) Byte.zero
    else d.digits.take whole ++ [Byte.dot] ++ d.digits.drop whole

def exponent (d : Decimal) : Int :=
  if d.digits.isEmpty then 0 else d.point - 1

def exponentText (width : Nat) (e : Int) : Text :=
  let numeral := Text.ofNat e.natAbs
  (if e < 0 then Byte.minus else Byte.plus) ::
    (List.replicate (width - numeral.length) Byte.zero ++ numeral)

def scientific (width : Nat) (d : Decimal) : Text :=
  let mantissa :=
    match d.digits with
    | [] => [Byte.zero]
    | [b] => [b]
    | b :: s => b :: Byte.dot :: s
  mantissa ++ [Byte.of 'e'] ++ exponentText width d.exponent

end Decimal

/-- How a place writes its numbers: positional from exponent `least` up to `most`, scientific
otherwise, with at least `width` digits in the exponent. -/
structure NumberFormat where
  least : Int
  most : Int
  width : Nat
  deriving DecidableEq, Repr

/-- Numbers in conditions, messages and define values: positional up to six digits. -/
def NumberFormat.general : NumberFormat := ⟨-4, 5, 2⟩

/-- Numbers that are never written in scientific form. -/
def NumberFormat.plain : NumberFormat := ⟨-400, 400, 2⟩

namespace FloatText

def isSpecial (bits : UInt64) : Bool :=
  Decimal.exponentBits bits = 2047

def isNegative (bits : UInt64) : Bool :=
  Decimal.bitsFrom bits 63 = 1

def write (format : NumberFormat) (f : Float) : Text :=
  let bits := f.toBits
  if isSpecial bits then
    if Decimal.fractionBits bits ≠ 0 then "NaN"
    else if isNegative bits then "-Inf"
    else "+Inf"
  else
    let d := (Decimal.Binary.ofBits bits).shortest
    let text :=
      if format.least ≤ d.exponent && d.exponent ≤ format.most then d.positional
      else d.scientific format.width
    if isNegative bits then Byte.minus :: text else text

def general (f : Float) : Text :=
  write NumberFormat.general f

end FloatText

end EffectShader
