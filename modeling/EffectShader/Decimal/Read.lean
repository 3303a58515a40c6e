import EffectShader.Numeral

/-!
# Reading floating point numbers

A decimal literal is digits with at most one point among them, and an optional
exponent.  The nearest number is taken; one that is too large is refused.
-/

namespace EffectShader

namespace Decimal

structure Literal where
  coefficient : Nat
  places : Nat
  exponent : Int
  deriving DecidableEq, Repr

def exponent? : Text -> Option Int
  | [] => some 0
  | e :: s =>
      if e == Byte.of 'e' || e == Byte.of 'E' then
        let (negative, digits) := Numeral.splitSign s
        if digits.isEmpty then none
        else (Numeral.digitsFrom? 10 0 digits).map (Numeral.signed negative)
      else none

def literal? (s : Text) : Option Literal :=
  let whole := s.takeWhile Byte.isDigit
  let (fraction, rest) :=
    match s.dropWhile Byte.isDigit with
    | Byte.dot :: r => (r.takeWhile Byte.isDigit, r.dropWhile Byte.isDigit)
    | r => ([], r)
  if whole.isEmpty && fraction.isEmpty then none
  else
    (exponent? rest).map fun e =>
      ⟨Text.digitsValue (whole ++ fraction), fraction.length, e⟩

def Literal.magnitude (l : Literal) : Int :=
  (Text.ofNat l.coefficient).length + l.exponent - l.places

/-- The nearest floating point number; magnitudes far outside the range are settled without
computing the power of ten. -/
def Literal.toFloat (l : Literal) : Float :=
  if l.coefficient = 0 then 0
  else if 400 < l.magnitude then 1 / 0
  else if l.magnitude < -400 then 0
  else
    let e := l.exponent - l.places
    Float.ofScientific l.coefficient (e < 0) e.natAbs

/-- A number written without a sign; `none` if it is malformed or too large. -/
def unsigned? (s : Text) : Option Float :=
  (literal? s).bind fun l =>
    let f := l.toFloat
    if f.isInf then none else some f

def signed? (s : Text) : Option Float :=
  let (negative, digits) := Numeral.splitSign s
  (unsigned? digits).map fun f => if negative then -f else f

end Decimal

end EffectShader
