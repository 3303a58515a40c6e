import EffectShader.Numeral

/-!
# TOML

A file is a list of statements: headers that open a table or a new entry of an
array of tables, and assignments to keys of the open table.
-/

namespace EffectShader

namespace Toml

abbrev Key := List Text

inductive Value where
  | text (s : Text)
  /-- An integer as it is written; its value is looked at where one is needed. -/
  | integer (spelling : Text)
  | boolean (b : Bool)
  /-- A number with a fraction or an exponent, or a point in time. -/
  | scalar (spelling : Text)
  | array (items : List Value)
  | table (entries : List (Key × Value))

inductive Statement where
  | table (key : Key)
  | arrayTable (key : Key)
  | assign (key : Key) (value : Value)

/-- Where a file cannot be read, and why. -/
structure Malformed where
  row : Nat
  column : Nat
  message : Text
  deriving DecidableEq, Repr

/-- What can be read of a file: the statements before the first mistake, and the mistake. -/
structure File where
  statements : List Statement
  mistake : Option Malformed

structure Stop where
  rest : Text
  message : Text

abbrev Read (α : Type) := Except Stop (α × Text)

def stop {α : Type} (rest : Text) (message : Text) : Read α :=
  .error ⟨rest, message⟩

end Toml

/-!
# Numbers and points in time

How far a number or a point in time reaches is told by its characters alone.
Whether an integer is well written is looked at where its value is needed.
-/

namespace Toml

/-!
# Extent
-/

/-- How many bytes a point in time has.  One blank may stand between the date and the time; the
byte after the first digit of the time belongs to it, whatever it is. -/
def momentLength (spaced : Bool) (s : Text) : Nat :=
  match s with
  | [] => 0
  | b :: s =>
      if b == Byte.space then
        if !spaced && s.head?.any Byte.isDigit then
          1 + (s.take 2).length + momentLength true (s.drop 2)
        else 0
      else if Byte.isDigit b || (Text.ofString "-+Tt:.Zz").contains b then
        1 + momentLength spaced s
      else 0
  termination_by s.length
  decreasing_by all_goals (simp only [List.length_drop, List.length_cons]; omega)

def startsMoment (s : Text) : Bool :=
  let digits := s.takeWhile Byte.isDigit
  let next := s[digits.length]?
  (digits.length == 2 && next == some Byte.colon) || (digits.length == 4 && next == some Byte.minus)

def afterWord? (s : Text) : Option Text :=
  (Text.afterPrefix? "inf" s).or (Text.afterPrefix? "nan" s)

/-- The number has a base of its own: the digits of that base, with underscores. -/
def baseDigit? : Text -> Option (UInt8 -> Bool)
  | Byte.zero :: mark :: _ =>
      if mark == Byte.of 'x' then some Byte.isHexDigit
      else if mark == Byte.of 'o' then some fun b => Byte.zero ≤ b && b ≤ Byte.of '7'
      else if mark == Byte.of 'b' then some fun b => Byte.zero ≤ b && b ≤ Byte.of '1'
      else none
  | _ => none

def isPointOrExponent (b : UInt8) : Bool :=
  b == Byte.dot || b == Byte.of 'e' || b == Byte.of 'E'

def isDecimalByte (b : UInt8) : Bool :=
  Byte.isDigit b || b == Byte.plus || b == Byte.minus || b == Byte.underscore || isPointOrExponent b

def decimal (s : Text) : Read Value :=
  let spelling := s.takeWhile isDecimalByte
  let rest := s.drop spelling.length
  match afterWord? rest with
  | some after => .ok (.scalar (s.take (spelling.length + 3)), after)
  | none =>
      if rest.head? == some (Byte.of 'i') || rest.head? == some (Byte.of 'n') then
        stop rest "unexpected character in a number"
      else if spelling.isEmpty then stop s "expected a value"
      else if spelling.any isPointOrExponent then .ok (.scalar spelling, rest)
      else .ok (.integer spelling, rest)

def number (s : Text) : Read Value :=
  match s with
  | Byte.zero :: mark :: _ :: _ =>
      if isPointOrExponent mark then decimal s
      else
        match baseDigit? s with
        | some isBaseDigit =>
            let digits := (s.drop 2).takeWhile fun b => isBaseDigit b || b == Byte.underscore
            .ok (.integer (s.take (2 + digits.length)), s.drop (2 + digits.length))
        | none => .ok (.integer (s.take 1), s.drop 1)
  | s => decimal s

def numberOrMoment (s : Text) : Read Value :=
  if startsMoment s then
    let length := momentLength false s
    .ok (.scalar (s.take length), s.drop length)
  else number s

/-!
# Values
-/

def hasGoodUnderscores (digits : Text) : Bool :=
  (Text.splitByte Byte.underscore digits).all fun part => !part.isEmpty

def basedDigits? : Text -> Option (Nat × Text)
  | Byte.zero :: mark :: digits =>
      if mark == Byte.of 'x' then some (16, digits)
      else if mark == Byte.of 'o' then some (8, digits)
      else if mark == Byte.of 'b' then some (2, digits)
      else none
  | _ => none

/-- The value of an integer in 64 bits; a decimal one has no zeros in front. -/
def integerValue? (spelling : Text) : Option Int :=
  let value (base : Nat) (digits : Text) :=
    if hasGoodUnderscores digits then
      Numeral.digitsFrom? base 0 (digits.filter (· != Byte.underscore))
    else none
  let fitting (n : Int) := if Numeral.fits n then some n else none
  match basedDigits? spelling with
  | some (base, digits) => (value base digits).bind fun n => fitting n
  | none =>
      let (negative, digits) := Numeral.splitSign spelling
      if Text.startsWith digits "0" && 1 < digits.length then none
      else (value 10 digits).bind fun n => fitting (Numeral.signed negative n)

end Toml

end EffectShader
