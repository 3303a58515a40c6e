import EffectShader.Condition.Basic

/-!
# Evaluating conditions

Evaluation is three-valued: a name that the environment does not resolve is
unknown, and an unknown operand makes the result unknown unless the other side
of a conjunction or disjunction decides it.  Both sides are always evaluated,
so a division by zero is an error wherever it stands.
-/

namespace EffectShader

/-- What is known about the macros: a value for each defined name. -/
abbrev Environment := Text -> Option Value

inductive EvalError where
  | unknownName (n : Text)
  | divisionByZero
  deriving DecidableEq, Repr

def EvalError.message : EvalError -> Text
  | .unknownName n => "unknown identifier '" ++ n ++ "'"
  | .divisionByZero => "division by zero"

/-!
# Remainders of floating point numbers

The remainder has the sign of the dividend and is computed exactly: it is a
whole multiple of the smaller of the two last places.
-/

namespace FloatRemainder

def ofBinary (x y : Decimal.Binary) : Float :=
  let least := min x.exponent y.exponent
  let a := x.mantissa * Decimal.twoTo (x.exponent - least)
  let b := y.mantissa * Decimal.twoTo (y.exponent - least)
  Float.scaleB (Float.ofNat (a % b)) ((least : Int) - 1074)

def isNegative (f : Float) : Bool :=
  FloatText.isNegative f.toBits

/-- The remainder of a division; undefined for an infinite dividend and for operands that are not
numbers. -/
def remainder (a b : Float) : Float :=
  if a.isNaN || b.isNaN || a.isInf then 0 / 0
  else if b.isInf then a
  else
    let r := ofBinary (Decimal.Binary.ofBits a.toBits) (Decimal.Binary.ofBits b.toBits)
    if isNegative a then -r else r

end FloatRemainder

namespace Condition

def compare (op : BinaryOp) (less equal : Bool) : Value :=
  match op with
  | .lt => .bool less
  | .le => .bool (less || equal)
  | .gt => .bool (!less && !equal)
  | .ge => .bool (!less)
  | .eq => .bool equal
  | _ => .bool (!equal)

def arithFloat (op : BinaryOp) (a b : Float) : Except EvalError Value :=
  match op with
  | .add => .ok (.float (a + b))
  | .sub => .ok (.float (a - b))
  | .mul => .ok (.float (a * b))
  | .div => if b == 0 then .error .divisionByZero else .ok (.float (a / b))
  | .mod => if b == 0 then .error .divisionByZero else .ok (.float (FloatRemainder.remainder a b))
  | _ => .ok (compare op (a < b) (a == b))

def arithInt (op : BinaryOp) (a b : Int64) : Except EvalError Value :=
  match op with
  | .add => .ok (.int (a + b))
  | .sub => .ok (.int (a - b))
  | .mul => .ok (.int (a * b))
  | .div => if b == 0 then .error .divisionByZero else .ok (.int (a / b))
  | .mod => if b == 0 then .error .divisionByZero else .ok (.int (a % b))
  | _ => .ok (compare op (a < b) (a == b))

/-- Arithmetic and comparison of known values; one floating point side makes both so. -/
def arith (op : BinaryOp) (l r : Value) : Except EvalError Value :=
  if l.isFloat || r.isFloat then arithFloat op l.toFloat r.toFloat
  else arithInt op l.toInt r.toInt

def applyUnary (op : UnaryOp) (x : Value) : Value :=
  match op, x with
  | .not, x => .bool (!x.truthy)
  | .neg, .float f => .float (-f)
  | .neg, x => .int (-x.toInt)
  | .plus, .bool b => .int (Value.bit b)
  | .plus, x => x

def isFalse (v : Option Value) : Bool :=
  v.any fun v => !v.truthy

def isTrue (v : Option Value) : Bool :=
  v.any Value.truthy

def applyBinary (op : BinaryOp) (l r : Option Value) : Except EvalError (Option Value) :=
  match op with
  | .and =>
      if isFalse l || isFalse r then .ok (some (.bool false))
      else if l.isSome && r.isSome then .ok (some (.bool true))
      else .ok none
  | .or =>
      if isTrue l || isTrue r then .ok (some (.bool true))
      else if l.isSome && r.isSome then .ok (some (.bool false))
      else .ok none
  | _ =>
      match l, r with
      | some l, some r => (arith op l r).map some
      | _, _ => .ok none

/-- The value as far as the environment determines it; `none` is unknown. -/
def known (env : Environment) : Condition -> Except EvalError (Option Value)
  | .literal v => .ok (some v)
  | .ident n => .ok (env n)
  | .defined n => .ok ((env n).map fun _ => .bool true)
  | .unary op x =>
      match known env x with
      | .error e => .error e
      | .ok v => .ok (v.map (applyUnary op))
  | .binary op left right =>
      match known env left with
      | .error e => .error e
      | .ok l =>
          match known env right with
          | .error e => .error e
          | .ok r => applyBinary op l r

/-- The value of a condition all of whose deciding names are resolved. -/
def eval (env : Environment) (c : Condition) : Except EvalError Value :=
  match known env c with
  | .error e => .error e
  | .ok (some v) => .ok v
  | .ok none => .error (.unknownName ((c.occurrences.find? fun n => (env n).isNone).getD []))

end Condition

end EffectShader
