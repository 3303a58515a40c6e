import EffectShader.Text.Basic

/-!
# Integer numerals

Integers are written in decimal, hexadecimal, octal or binary; the base is read
off the first characters.  Values are held in 64 bits.
-/

namespace EffectShader

namespace Numeral

def digit? (b : UInt8) : Option Nat :=
  if Byte.isDigit b then some (b.toNat - 48)
  else if Byte.isLower b then some (b.toNat - 97 + 10)
  else if Byte.isUpper b then some (b.toNat - 65 + 10)
  else none

def digitsFrom? (base : Nat) : (value : Nat) -> Text -> Option Nat
  | value, [] => some value
  | value, b :: s =>
      match digit? b with
      | some d => if d < base then digitsFrom? base (base * value + d) s else none
      | none => none

def splitBase : Text -> Nat × Text
  | Byte.zero :: mark :: d :: s =>
      if mark == Byte.of 'x' || mark == Byte.of 'X' then (16, d :: s)
      else if mark == Byte.of 'o' || mark == Byte.of 'O' then (8, d :: s)
      else if mark == Byte.of 'b' || mark == Byte.of 'B' then (2, d :: s)
      else (8, mark :: d :: s)
  | Byte.zero :: s => (8, s)
  | s => (10, s)

def natural? (s : Text) : Option Nat :=
  if s.isEmpty then none
  else
    let (base, digits) := splitBase s
    digitsFrom? base 0 digits

def splitSign : Text -> Bool × Text
  | Byte.minus :: s => (true, s)
  | Byte.plus :: s => (false, s)
  | s => (false, s)

def signed (negative : Bool) (n : Nat) : Int :=
  if negative then -(n : Int) else n

def fits (n : Int) : Bool :=
  -9223372036854775808 ≤ n && n ≤ 9223372036854775807

def integer? (s : Text) : Option Int :=
  let (negative, digits) := splitSign s
  (natural? digits).bind fun n =>
    if fits (signed negative n) then some (signed negative n) else none

def wordSize : Nat := 18446744073709551616

def unsigned? (s : Text) : Option Nat :=
  (natural? s).bind fun n => if n < wordSize then some n else none

def inBase? (base : Nat) (s : Text) : Option Int :=
  let (negative, digits) := splitSign s
  if digits.isEmpty then none
  else
    (digitsFrom? base 0 digits).bind fun n =>
      if fits (signed negative n) then some (signed negative n) else none

def decimal? (s : Text) : Option Int :=
  inBase? 10 s

end Numeral

end EffectShader
