import EffectShader.Check.Grammar.Basic
import EffectShader.Table

/-!
# Expressions

Binary operators are recognized by climbing their precedences; everything
around them is one production per level.
-/

namespace EffectShader

namespace Grammar

def assignmentOps : List Text :=
  ["=", "+=", "-=", "*=", "/=", "%=", "<<=", ">>=", "&=", "^=", "|="]

def precedences : Table Nat :=
  [("||", 1), ("^^", 2), ("&&", 3), ("|", 4), ("^", 5), ("&", 6), ("==", 7), ("!=", 7),
   ("<", 8), (">", 8), ("<=", 8), (">=", 8), ("<<", 9), (">>", 9), ("+", 10), ("-", 10),
   ("*", 11), ("/", 11), ("%", 11)]

def precedence? (t : Token) : Option Nat :=
  if t.kind == .operator then precedences.get? t.text else none

def prefixOps : List Text := ["+", "-", "!", "~", "++", "--"]

def isPrefixOp (t : Token) : Bool :=
  prefixOps.any fun op => t.isOp op

def isAssignmentOp (t : Token) : Bool :=
  t.kind == .operator && assignmentOps.contains t.text

def isAtom (t : Token) : Bool :=
  isName t || t.kind == .integer || t.kind == .float || isKeyword "true" t || isKeyword "false" t

def voidList? (ts : List Token) : Option (Rest ts) :=
  match accept? (isKeyword "void") ts with
  | none => none
  | some ⟨r1, h1⟩ =>
      match acceptOp? ")" r1 with
      | none => none
      | some r2 => some (Rest.after h1 r2)

mutual

def expression (ts : List Token) : Recognized ts :=
  match assignment ts with
  | .error e => .error e
  | .ok ⟨r1, h1⟩ =>
      match acceptOp? "," r1 with
      | none => .ok ⟨r1, h1⟩
      | some ⟨r2, h2⟩ =>
          match expression r2 with
          | .error e => .error e
          | .ok r3 => .ok (Rest.after h1 (Rest.after h2 r3))
  termination_by (ts.length, 7)

def assignment (ts : List Token) : Recognized ts :=
  match conditional ts with
  | .error e => .error e
  | .ok ⟨r1, h1⟩ =>
      match accept? isAssignmentOp r1 with
      | none => .ok ⟨r1, h1⟩
      | some ⟨r2, h2⟩ =>
          match assignment r2 with
          | .error e => .error e
          | .ok r3 => .ok (Rest.after h1 (Rest.after h2 r3))
  termination_by (ts.length, 6)

def conditional (ts : List Token) : Recognized ts :=
  match binary 1 ts with
  | .error e => .error e
  | .ok ⟨r1, h1⟩ =>
      match acceptOp? "?" r1 with
      | none => .ok ⟨r1, h1⟩
      | some ⟨r2, h2⟩ =>
          match expression r2 with
          | .error e => .error e
          | .ok ⟨r3, h3⟩ =>
              match expectOp ":" r3 with
              | .error e => .error e
              | .ok ⟨r4, h4⟩ =>
                  match assignment r4 with
                  | .error e => .error e
                  | .ok r5 =>
                      .ok (Rest.after h1 (Rest.after h2 (Rest.after h3 (Rest.after h4 r5))))
  termination_by (ts.length, 5)

/-- Operands joined by operators that bind at least as tightly as `least`. -/
def binary (least : Nat) (ts : List Token) : Recognized ts :=
  match unary ts with
  | .error e => .error e
  | .ok ⟨r1, h1⟩ =>
      match binaryTail least r1 with
      | .error e => .error e
      | .ok r2 => .ok (RestOrAll.after h1 r2)
  termination_by (ts.length, 4)

/-- The operators and operands after the first operand. -/
def binaryTail (least : Nat) (ts : List Token) : Continued ts :=
  match ts with
  | [] => .ok (RestOrAll.all [])
  | t :: rest =>
      match precedence? t with
      | none => .ok (RestOrAll.all (t :: rest))
      | some p =>
          if p < least then .ok (RestOrAll.all (t :: rest))
          else
            match binary (p + 1) rest with
            | .error e => .error e
            | .ok ⟨r1, h1⟩ =>
                match binaryTail least r1 with
                | .error e => .error e
                | .ok r2 => .ok (Rest.past t (RestOrAll.after h1 r2)).orAll
  termination_by (ts.length, 0)

def unary (ts : List Token) : Recognized ts :=
  match accept? isPrefixOp ts with
  | some ⟨r1, h1⟩ =>
      match unary r1 with
      | .error e => .error e
      | .ok r2 => .ok (Rest.after h1 r2)
  | none => postfixed ts
  termination_by (ts.length, 3)

def postfixed (ts : List Token) : Recognized ts :=
  match primary ts with
  | .error e => .error e
  | .ok ⟨r1, h1⟩ =>
      match postfixTail r1 with
      | .error e => .error e
      | .ok r2 => .ok (RestOrAll.after h1 r2)
  termination_by (ts.length, 2)

def postfixTail (ts : List Token) : Continued ts :=
  match ts with
  | [] => .ok (RestOrAll.all [])
  | t :: rest =>
      let step : Except Mismatch (Option (RestOrAll rest)) :=
        if t.isOp "[" then
          match expression rest with
          | .error e => .error e
          | .ok ⟨r1, h1⟩ =>
              match expectOp "]" r1 with
              | .error e => .error e
              | .ok r2 => .ok (some (Rest.after h1 r2).orAll)
        else if t.isOp "(" then
          match arguments rest with
          | .error e => .error e
          | .ok r1 => .ok (some r1.orAll)
        else if t.isOp "." then
          match expect .fieldName Token.isWord rest with
          | .error e => .error e
          | .ok r1 => .ok (some r1.orAll)
        else if t.isOp "++" || t.isOp "--" then .ok (some (RestOrAll.all rest))
        else .ok none
      match step with
      | .error e => .error e
      | .ok none => .ok (RestOrAll.all (t :: rest))
      | .ok (some ⟨r1, h1⟩) =>
          match postfixTail r1 with
          | .error e => .error e
          | .ok r2 => .ok (RestOrAll.past t (RestOrAll.afterAny h1 r2)).orAll
  termination_by (ts.length, 0)

def arguments (ts : List Token) : Recognized ts :=
  match acceptOp? ")" ts with
  | some r => .ok r
  | none =>
      match voidList? ts with
      | some r => .ok r
      | none => argumentList ts
  termination_by (ts.length, 8)

def argumentList (ts : List Token) : Recognized ts :=
  match assignment ts with
  | .error e => .error e
  | .ok ⟨r1, h1⟩ =>
      match acceptOp? "," r1 with
      | none =>
          match expectOp ")" r1 with
          | .error e => .error e
          | .ok r2 => .ok (Rest.after h1 r2)
      | some ⟨r2, h2⟩ =>
          match argumentList r2 with
          | .error e => .error e
          | .ok r3 => .ok (Rest.after h1 (Rest.after h2 r3))
  termination_by (ts.length, 7)

def primary (ts : List Token) : Recognized ts :=
  match ts with
  | [] => mismatch .expression []
  | t :: rest =>
      if isAtom t || (isTypeKeyword t && nextIsOp "(" rest) then
        .ok (Rest.tail t rest)
      else if t.isOp "(" then
        match expression rest with
        | .error e => .error e
        | .ok ⟨r1, h1⟩ =>
            match expectOp ")" r1 with
            | .error e => .error e
            | .ok r2 => .ok (Rest.past t (Rest.after h1 r2))
      else mismatch .expression (t :: rest)
  termination_by (ts.length, 1)

end

end Grammar

end EffectShader
