import EffectShader.Condition.Basic
import EffectShader.Decimal.Read
import EffectShader.Text.Quoted
import EffectShader.Token.Lexer
import EffectShader.Token.Stream

/-!
# Reading conditions

Six levels of left-associative operators, from disjunction down to products,
then prefix operators, then primaries.  Every parser returns what it read
together with a remainder that is shorter than its input, which is why the
recursion ends.
-/

namespace EffectShader

namespace Condition

inductive Problem where
  | empty
  | unexpected (text : Text)
  | unexpectedEnd
  | missingName
  | missingCloseAfter (name : Text)
  | missingClose
  | badFloat (text : Text)
  | badInteger (text : Text)
  deriving DecidableEq, Repr

def Problem.message : Problem -> Text
  | .empty => "empty expression"
  | .unexpected text => "unexpected " ++ Text.quoted text
  | .unexpectedEnd => "unexpected end of expression"
  | .missingName => "expected macro name after defined"
  | .missingCloseAfter name => "expected ')' after defined(" ++ name
  | .missingClose => "expected ')'"
  | .badFloat text => "invalid float literal " ++ Text.quoted text
  | .badInteger text => "invalid integer literal " ++ Text.quoted text

structure Malformed where
  problem : Problem
  column : Nat
  deriving DecidableEq, Repr

def Malformed.message (e : Malformed) : Text :=
  "column " ++ Text.ofNat e.column ++ ": " ++ e.problem.message

structure Parsed (ts : List Token) where
  value : Condition
  rest : List Token
  shorter : rest.length < ts.length

structure Extended (ts : List Token) where
  value : Condition
  rest : List Token
  noLonger : rest.length ≤ ts.length

/-!
Each part of a condition leaves fewer tokens than it was given.
-/

theorem length_le_same (ts : List Token) : ts.length ≤ ts.length :=
  Nat.le_refl _

theorem length_lt_cons (t : Token) (ts : List Token) : ts.length < (t :: ts).length :=
  Nat.lt_succ_self _

theorem length_le_cons (t : Token) (ts : List Token) : ts.length ≤ (t :: ts).length :=
  Nat.le_succ _

theorem length_le_three (a b c : Token) (ts : List Token) :
    ts.length ≤ (a :: b :: c :: ts).length :=
  Nat.le_add_right _ 3

theorem lt_cons_of_lt (t : Token) {ts us : List Token} (h : us.length < ts.length) :
    us.length < (t :: ts).length :=
  Nat.lt_succ_of_lt h

theorem lt_cons_of_le (t : Token) {ts us : List Token} (h : us.length ≤ ts.length) :
    us.length < (t :: ts).length :=
  Nat.lt_succ_of_le h

theorem lt_cons_of_cons_lt (t u : Token) {ts us : List Token} (h : (u :: us).length < ts.length) :
    us.length < (t :: ts).length :=
  Nat.lt_succ_of_lt (Nat.lt_of_succ_lt h)

theorem lt_of_le_of_lt {ts us vs : List Token} (h : us.length < ts.length)
    (h' : vs.length ≤ us.length) : vs.length < ts.length :=
  Nat.lt_of_le_of_lt h' h

theorem le_cons_of_le_of_lt (t : Token) {ts us vs : List Token} (h : us.length < ts.length)
    (h' : vs.length ≤ us.length) : vs.length ≤ (t :: ts).length :=
  Nat.le_of_lt (Nat.lt_succ_of_lt (Nat.lt_of_le_of_lt h' h))

def Extended.same (value : Condition) (ts : List Token) : Extended ts :=
  ⟨value, ts, length_le_same ts⟩

def fail {α : Type} (ts : List Token) (p : Problem) : Except Malformed α :=
  .error ⟨p, (Stream.peek ts).start.column⟩

/-!
# Literals
-/

def isFloatSuffix (b : UInt8) : Bool :=
  Lexer.isF b || Lexer.isL b

/-- The value of an integer literal; one beyond the signed range wraps around. -/
def integerValue? (text : Text) : Option Value :=
  (Numeral.unsigned? (Text.dropEndWhile Lexer.isU text)).map fun n => .int (Int64.ofNat n)

def floatValue? (text : Text) : Option Value :=
  (Decimal.unsigned? (Text.dropEndWhile isFloatSuffix text)).map .float

def number (t : Token) : Except Malformed Value :=
  if t.kind == .float then
    match floatValue? t.text with
    | some v => .ok v
    | none => .error ⟨.badFloat t.text, t.start.column⟩
  else
    match integerValue? t.text with
    | some v => .ok v
    | none => .error ⟨.badInteger t.text, t.start.column⟩

/-!
# The grammar
-/

def levelOps : Nat -> List BinaryOp
  | 0 => [.or]
  | 1 => [.and]
  | 2 => [.eq, .ne]
  | 3 => [.lt, .le, .gt, .ge]
  | 4 => [.add, .sub]
  | 5 => [.mul, .div, .mod]
  | _ => []

def unaryOps : List UnaryOp := [.not, .neg, .plus]

def unaryOf? (t : Token) : Option UnaryOp :=
  unaryOps.find? fun op => t.isOp op.symbol

def binaryOf? (level : Nat) (t : Token) : Option BinaryOp :=
  (levelOps level).find? fun op => t.isOp op.symbol

/-- The operand of `defined`, with or without parentheses, after that word. -/
def definedName (ts : List Token) : Except Malformed (Extended ts) :=
  match ts with
  | [] => fail ts .missingName
  | t :: rest =>
      if t.isOp "(" then
        match rest with
        | [] => fail rest .missingName
        | name :: after =>
            if !name.isWord then fail rest .missingName
            else
              match after with
              | [] => fail after (.missingCloseAfter name.text)
              | close :: after' =>
                  if close.isOp ")" then
                    .ok ⟨.defined name.text, after', length_le_three t name close after'⟩
                  else fail after (.missingCloseAfter name.text)
      else if t.isWord then .ok ⟨.defined t.text, rest, length_le_cons t rest⟩
      else fail ts .missingName

mutual

def parseLevel (level : Nat) (ts : List Token) : Except Malformed (Parsed ts) :=
  if 6 ≤ level then parseUnary ts
  else
    match parseLevel (level + 1) ts with
    | .error e => .error e
    | .ok ⟨left, rest, h⟩ =>
        match parseChain level left rest with
        | .error e => .error e
        | .ok ⟨value, rest', h'⟩ => .ok ⟨value, rest', lt_of_le_of_lt h h'⟩
  termination_by (ts.length, 6 - level + 2)

def parseChain (level : Nat) (left : Condition) (ts : List Token) :
    Except Malformed (Extended ts) :=
  match ts with
  | [] => .ok (Extended.same left [])
  | t :: rest =>
      match binaryOf? level t with
      | none => .ok (Extended.same left (t :: rest))
      | some op =>
          match parseLevel (level + 1) rest with
          | .error e => .error e
          | .ok ⟨right, rest', h⟩ =>
              match parseChain level (.binary op left right) rest' with
              | .error e => .error e
              | .ok ⟨value, rest'', h'⟩ =>
                  .ok ⟨value, rest'', le_cons_of_le_of_lt t h h'⟩
  termination_by (ts.length, 0)

def parseUnary (ts : List Token) : Except Malformed (Parsed ts) :=
  match ts with
  | [] => fail ts .unexpectedEnd
  | t :: rest =>
      match unaryOf? t with
      | some op =>
          match parseUnary rest with
          | .error e => .error e
          | .ok ⟨x, rest', h⟩ =>
              .ok ⟨.unary op x, rest', lt_cons_of_lt t h⟩
      | none => parsePrimary t rest
  termination_by (ts.length, 1)

def parsePrimary (t : Token) (rest : List Token) : Except Malformed (Parsed (t :: rest)) :=
  if t.kind == .integer || t.kind == .float then
    match number t with
    | .error e => .error e
    | .ok v => .ok ⟨.literal v, rest, length_lt_cons t rest⟩
  else if t.kind == .keyword && t.text == ("true" : Text) then
    .ok ⟨.literal (.bool true), rest, length_lt_cons t rest⟩
  else if t.kind == .keyword && t.text == ("false" : Text) then
    .ok ⟨.literal (.bool false), rest, length_lt_cons t rest⟩
  else if t.kind == .ident && t.text == ("defined" : Text) then
    match definedName rest with
    | .error e => .error e
    | .ok ⟨value, rest', h⟩ => .ok ⟨value, rest', lt_cons_of_le t h⟩
  else if t.isWord then .ok ⟨.ident t.text, rest, length_lt_cons t rest⟩
  else if t.isOp "(" then
    match parseLevel 0 rest with
    | .error e => .error e
    | .ok ⟨_, [], _⟩ => fail [] .missingClose
    | .ok ⟨value, close :: rest', h⟩ =>
        if close.isOp ")" then
          .ok ⟨value, rest', lt_cons_of_cons_lt t close h⟩
        else fail (close :: rest') .missingClose
  else if t.kind == .eof then fail [t] .unexpectedEnd
  else fail [t] (.unexpected t.text)
  termination_by (rest.length + 1, 0)

end

def parseTokens (ts : List Token) : Except Malformed Condition :=
  if Stream.atEnd ts then fail ts .empty
  else
    match parseLevel 0 ts with
    | .error e => .error e
    | .ok r =>
        if Stream.atEnd r.rest then .ok r.value
        else fail r.rest (.unexpected (Stream.peek r.rest).text)

/-- Why a source could not be read as a condition. -/
inductive ReadError where
  | unterminated (e : Lexer.Unterminated)
  | malformed (e : Malformed)
  deriving DecidableEq, Repr

def ReadError.message : ReadError -> Text
  | .unterminated e => e.message
  | .malformed e => e.message

def parse (source : Text) : Except ReadError Condition :=
  match tokenize source with
  | .error e => .error (.unterminated e)
  | .ok ts =>
      match parseTokens (significant ts) with
      | .error e => .error (.malformed e)
      | .ok c => .ok c

end Condition

end EffectShader
