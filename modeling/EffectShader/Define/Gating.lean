import EffectShader.Condition.Basic
import EffectShader.Define.Basic

/-!
# Gating macros

A line inside conditionals is gated by the macros that must be on, or off, for
it to be compiled.  Every open conditional is a level: the conditions of the
branches that were passed, negated, and the conditions of the current branch.
-/

namespace EffectShader

namespace Gating

/-- The language implementation provides the macro. -/
def isReserved (name : Text) : Bool :=
  (Text.words "__VERSION__ __LINE__ __FILE__ defined GL_ES").contains name ||
    Text.startsWith name "GL_"

/-- A gate holds for a macro that is on; an exclamation mark stands for one that is off. -/
abbrev Gate := Text

def negation : UInt8 := Byte.of '!'

def Gate.negate : Gate -> Gate
  | [] => [negation]
  | b :: s => if b == negation then s else negation :: b :: s

def Gate.macroName : Gate -> Text
  | [] => []
  | b :: s => if b == negation then s else b :: s

structure Level where
  passed : List Gate
  current : List Gate
  deriving DecidableEq, Repr

namespace Level

def opened (gates : List Gate) : Level := ⟨[], gates⟩

/-- Moves to the next branch: the conditions of the branch just left are negated. -/
def flip (l : Level) : Level :=
  ⟨l.passed ++ l.current.map Gate.negate, []⟩

def gates (l : Level) : List Gate :=
  l.passed ++ l.current

end Level

/-- The gates of all open levels, outermost first; the innermost level is the head. -/
def chain (stack : List Level) : List Gate :=
  stack.reverse.flatMap Level.gates

/-!
# What a condition says about its macros
-/

def isComparison : BinaryOp -> Bool
  | .lt | .le | .gt | .ge | .eq | .ne => true
  | _ => false

def isOrdering : BinaryOp -> Bool
  | .lt | .le | .gt | .ge => true
  | _ => false

def bareName : Condition -> List Text
  | .ident n => [n]
  | _ => []

/-- The gates that must hold for a condition to be true; disjunctions contribute none. -/
def conjuncts : Condition -> List Gate
  | .ident n => [n]
  | .defined n => [n]
  | .unary .not (.ident n) => [negation :: n]
  | .unary .not (.defined n) => [negation :: n]
  | .binary .and l r => conjuncts l ++ conjuncts r
  | .binary op l r => if isComparison op then bareName l ++ bareName r else []
  | _ => []

def isBeyondBool : Condition -> Bool
  | .literal (.bool _) => false
  | .literal v => 1 < v.toFloat || v.toFloat < 0
  | _ => false

def numericNames : Condition -> List Text
  | .unary _ x => numericNames x
  | .binary op l r =>
      let numeric :=
        isOrdering op || ((op == .eq || op == .ne) && (isBeyondBool l || isBeyondBool r))
      (if numeric then bareName l ++ bareName r else []) ++ numericNames l ++ numericNames r
  | _ => []

end Gating

end EffectShader
