import EffectShader.Decimal.Shortest

/-!
# Conditions

The constant expressions of conditional directives: numbers, truth values,
macro names and the test whether a macro is defined, combined by the operators
of the preprocessor.
-/

namespace EffectShader

/-- What a condition evaluates to.  Integers have 64 bits and wrap around. -/
inductive Value where
  | int (n : Int64)
  | float (f : Float)
  | bool (b : Bool)

namespace Value

def truthy : Value -> Bool
  | .int n => n != 0
  | .float f => f != 0
  | .bool b => b

def bit (b : Bool) : Int64 :=
  if b then 1 else 0

/-- The whole part of a number; outside the range of 64 bits there is none, and the least integer
stands for it. -/
def truncate (f : Float) : Int64 :=
  if f.abs < 9223372036854775808 then f.toInt64 else Int64.minValue

def toInt : Value -> Int64
  | .int n => n
  | .float f => truncate f
  | .bool b => bit b

def toFloat : Value -> Float
  | .int n => n.toFloat
  | .float f => f
  | .bool b => (bit b).toFloat

def isFloat : Value -> Bool
  | .float _ => true
  | _ => false

def render : Value -> Text
  | .int n => Text.ofInt n.toInt
  | .float f => FloatText.general f
  | .bool true => "true"
  | .bool false => "false"

end Value

/-!
# Operators
-/

inductive UnaryOp where
  | not
  | neg
  | plus
  deriving DecidableEq, Repr

def UnaryOp.symbol : UnaryOp -> Text
  | .not => "!"
  | .neg => "-"
  | .plus => "+"

inductive BinaryOp where
  | or
  | and
  | eq
  | ne
  | lt
  | le
  | gt
  | ge
  | add
  | sub
  | mul
  | div
  | mod
  deriving DecidableEq, Repr

def BinaryOp.symbol : BinaryOp -> Text
  | .or => "||"
  | .and => "&&"
  | .eq => "=="
  | .ne => "!="
  | .lt => "<"
  | .le => "<="
  | .gt => ">"
  | .ge => ">="
  | .add => "+"
  | .sub => "-"
  | .mul => "*"
  | .div => "/"
  | .mod => "%"

inductive Condition where
  | literal (v : Value)
  | ident (n : Text)
  | defined (n : Text)
  | unary (op : UnaryOp) (x : Condition)
  | binary (op : BinaryOp) (left right : Condition)

namespace Condition

def occurrences : Condition -> List Text
  | .literal _ => []
  | .ident n => [n]
  | .defined n => [n]
  | .unary _ x => x.occurrences
  | .binary _ l r => l.occurrences ++ r.occurrences

def names (c : Condition) : List Text :=
  c.occurrences.foldl (fun seen n => if seen.contains n then seen else seen ++ [n]) []

end Condition

end EffectShader
