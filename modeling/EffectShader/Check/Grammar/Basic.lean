import EffectShader.Diagnostic.Basic
import EffectShader.GlslType
import EffectShader.Token.Stream
import EffectShader.Token.Word

/-!
# Recognizing GLSL ES 1.00

A production takes the tokens that are left, none of them trivia or directives,
and returns those after what it recognized.  Nothing is built: the first token
that does not fit is the error.
-/

namespace EffectShader

namespace Grammar

/-- What a production needed at a token. -/
inductive Expected where
  | op (text : Text)
  | whileWord
  | precision
  | type
  | identifier
  | fieldName
  | expression
  deriving DecidableEq, Repr

def Expected.describe : Expected -> Text
  | .op text => "'" ++ text ++ "'"
  | .whileWord => "'while'"
  | .precision => "precision qualifier"
  | .type => "type"
  | .identifier => "identifier"
  | .fieldName => "field name"
  | .expression => "expression"

structure Mismatch where
  expected : Expected
  found : Token
  deriving DecidableEq, Repr

def Mismatch.toDiagnostic (m : Mismatch) : Diagnostic :=
  Diagnostic.error m.found.line
    ("syntax error: expected " ++ m.expected.describe ++ ", found " ++
      (if m.found.kind == .eof then ("end of source" : Text) else "'" ++ m.found.text ++ "'"))

abbrev Rest (ts : List Token) := { rest : List Token // rest.length < ts.length }

abbrev RestOrAll (ts : List Token) := { rest : List Token // rest.length ≤ ts.length }

/-!
A rest of a rest is a rest.  These say so for a part that comes after another
part or after one token; the tokens themselves do not change.
-/

namespace Rest

def tail (t : Token) (ts : List Token) : Rest (t :: ts) :=
  ⟨ts, Nat.lt_succ_self _⟩

def after {ts us : List Token} (h : us.length < ts.length) (r : Rest us) : Rest ts :=
  ⟨r.1, Nat.lt_trans r.2 h⟩

def afterAny {ts us : List Token} (h : us.length ≤ ts.length) (r : Rest us) : Rest ts :=
  ⟨r.1, Nat.lt_of_lt_of_le r.2 h⟩

def past {ts : List Token} (t : Token) (r : Rest ts) : Rest (t :: ts) :=
  ⟨r.1, Nat.lt_succ_of_lt r.2⟩

def orAll {ts : List Token} (r : Rest ts) : RestOrAll ts :=
  ⟨r.1, Nat.le_of_lt r.2⟩

@[simp] theorem val_tail (t : Token) (ts : List Token) : (tail t ts).val = ts := rfl

@[simp] theorem val_after {ts us : List Token} (h : us.length < ts.length) (r : Rest us) :
    (after h r).val = r.val := rfl

@[simp] theorem val_afterAny {ts us : List Token} (h : us.length ≤ ts.length) (r : Rest us) :
    (afterAny h r).val = r.val := rfl

@[simp] theorem val_past {ts : List Token} (t : Token) (r : Rest ts) :
    (past t r).val = r.val := rfl

@[simp] theorem val_orAll {ts : List Token} (r : Rest ts) : r.orAll.val = r.val := rfl

end Rest

namespace RestOrAll

def all (ts : List Token) : RestOrAll ts :=
  ⟨ts, Nat.le_refl _⟩

def after {ts us : List Token} (h : us.length < ts.length) (r : RestOrAll us) : Rest ts :=
  ⟨r.1, Nat.lt_of_le_of_lt r.2 h⟩

def afterAny {ts us : List Token} (h : us.length ≤ ts.length) (r : RestOrAll us) : RestOrAll ts :=
  ⟨r.1, Nat.le_trans r.2 h⟩

def past {ts : List Token} (t : Token) (r : RestOrAll ts) : Rest (t :: ts) :=
  ⟨r.1, Nat.lt_succ_of_le r.2⟩

@[simp] theorem val_all (ts : List Token) : (all ts).val = ts := rfl

@[simp] theorem val_after {ts us : List Token} (h : us.length < ts.length) (r : RestOrAll us) :
    (after h r).val = r.val := rfl

@[simp] theorem val_afterAny {ts us : List Token} (h : us.length ≤ ts.length)
    (r : RestOrAll us) : (afterAny h r).val = r.val := rfl

@[simp] theorem val_past {ts : List Token} (t : Token) (r : RestOrAll ts) :
    (past t r).val = r.val := rfl

end RestOrAll

abbrev Recognized (ts : List Token) := Except Mismatch (Rest ts)

abbrev Continued (ts : List Token) := Except Mismatch (RestOrAll ts)

def mismatch {α : Type} (expected : Expected) (ts : List Token) : Except Mismatch α :=
  .error ⟨expected, Stream.peek ts⟩

/-!
# Single tokens
-/

def accept? (p : Token -> Bool) : (ts : List Token) -> Option (Rest ts)
  | [] => none
  | t :: ts => if p t then some (Rest.tail t ts) else none

def acceptOp? (op : Text) (ts : List Token) : Option (Rest ts) :=
  accept? (fun t => t.isOp op) ts

def expect (expected : Expected) (p : Token -> Bool) (ts : List Token) : Recognized ts :=
  match accept? p ts with
  | some r => .ok r
  | none => mismatch expected ts

def expectOp (op : Text) (ts : List Token) : Recognized ts :=
  expect (.op op) (fun t => t.isOp op) ts

def isKeyword (word : Text) (t : Token) : Bool :=
  t.kind == .keyword && t.text == word

def nextIsOp (op : Text) (ts : List Token) : Bool :=
  (Stream.peek ts).isOp op

def isTypeKeyword (t : Token) : Bool :=
  t.kind == .keyword && (t.text == ("void" : Text) || (GlslType.lookup? t.text).isSome)

def typeName (ts : List Token) : Recognized ts :=
  expect .type (fun t => isTypeKeyword t || t.kind == .ident) ts

def isName (t : Token) : Bool :=
  t.kind == .ident || t.kind == .builtin

def identifier (ts : List Token) : Recognized ts :=
  expect .identifier isName ts

def qualifiers (allowed : List Text) : (ts : List Token) -> RestOrAll ts
  | [] => RestOrAll.all []
  | t :: ts =>
      if t.kind == .keyword && allowed.contains t.text then
        (RestOrAll.past t (qualifiers allowed ts)).orAll
      else RestOrAll.all (t :: ts)

end Grammar

end EffectShader
