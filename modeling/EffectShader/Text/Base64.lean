import EffectShader.Text.Basic

/-!
# Base 64

Three bytes are written as four letters of an alphabet of sixty-four; equals
signs fill up the last group.
-/

namespace EffectShader

namespace Base64

def letter (n : Nat) : UInt8 :=
  if n < 26 then Byte.of 'A' + n.toUInt8
  else if n < 52 then Byte.of 'a' + (n - 26).toUInt8
  else if n < 62 then Byte.zero + (n - 52).toUInt8
  else if n == 62 then Byte.plus
  else Byte.slash

def value? (b : UInt8) : Option Nat :=
  if Byte.isUpper b then some (b.toNat - 65)
  else if Byte.isLower b then some (b.toNat - 97 + 26)
  else if Byte.isDigit b then some (b.toNat - 48 + 52)
  else if b == Byte.plus then some 62
  else if b == Byte.slash then some 63
  else none

def encode : Text -> Text
  | a :: b :: c :: s =>
      let n := (a.toNat * 256 + b.toNat) * 256 + c.toNat
      [letter (n / 262144), letter (n / 4096 % 64), letter (n / 64 % 64), letter (n % 64)] ++
      encode s
  | [a, b] =>
      let n := (a.toNat * 256 + b.toNat) * 4
      [letter (n / 4096), letter (n / 64 % 64), letter (n % 64), Byte.equals]
  | [a] =>
      let n := a.toNat * 16
      [letter (n / 64), letter (n % 64), Byte.equals, Byte.equals]
  | [] => []

def decodeGroups? : Text -> Option Text
  | [] => some []
  | a :: b :: Byte.equals :: [Byte.equals] => do
      let n := (← value? a) * 64 + (← value? b)
      return [(n / 16).toUInt8]
  | a :: b :: c :: [Byte.equals] => do
      let n := ((← value? a) * 64 + (← value? b)) * 64 + (← value? c)
      return [(n / 1024).toUInt8, (n / 4).toUInt8]
  | a :: b :: c :: d :: s => do
      let n := (((← value? a) * 64 + (← value? b)) * 64 + (← value? c)) * 64 + (← value? d)
      let more <- decodeGroups? s
      return [(n / 65536).toUInt8, (n / 256).toUInt8, n.toUInt8] ++ more
  | _ => none

def decode? (s : Text) : Option Text :=
  decodeGroups? (s.filter fun b => b != Byte.newline && b != Byte.carriage)

end Base64

end EffectShader
