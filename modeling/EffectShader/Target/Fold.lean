import EffectShader.Condition.Eval
import EffectShader.Condition.Parser
import EffectShader.Diagnostic.Basic
import EffectShader.Edit
import EffectShader.Token.Directive
import EffectShader.Token.Lexer

/-!
# Folding version conditionals

Only the language version is known when a source is specialized.  Conditionals
that it decides are removed together with the branches that are not taken; all
others stay, with their branches folded.  Removed lines become empty.
-/

namespace EffectShader

namespace Fold

/-- The macro that holds the number of the language version. -/
def versionName : Text := "__VERSION__"

def environment (version : Int) : Environment := fun name =>
  if name == versionName then some (.int (Int64.ofInt version)) else none

inductive Error where
  | lexical (e : Lexer.Unterminated)
  /-- A branch or an end without an open conditional. -/
  | unopened (line : Nat) (name : Text)
  | malformed (line : Nat) (condition : Text) (e : Condition.ReadError)
  | undefined (line : Nat) (condition : Text) (e : EvalError)
  /-- A conditional is open at the end, which is on this line. -/
  | unclosed (line : Nat)

def Error.toFailure : Error -> Failure
  | .lexical e => .plain e.message none
  | .unopened line name => Failure.onLine line ("#" ++ name ++ " without #if")
  | .malformed line condition e =>
      Failure.onLine line
        ("invalid preprocessor condition '" ++ condition ++ "': " ++ e.message)
  | .undefined line condition e =>
      Failure.onLine line (e.message ++ " in '" ++ condition ++ "'")
  | .unclosed line => Failure.onLine line "unterminated #if block"

/-!
# Open conditionals
-/

structure Branch where
  /-- The opening directive was written, so the closing one must be too. -/
  written : Bool
  /-- A branch was definitely taken. -/
  taken : Bool
  /-- The current branch is kept. -/
  kept : Bool
  /-- The whole conditional stands in a region that is dropped. -/
  dead : Bool
  deriving DecidableEq, Repr

/-- The text at this point is kept; the innermost conditional is the head. -/
def keeping : List Branch -> Bool
  | [] => true
  | b :: _ => b.kept

def decide? (version : Int) (d : Directive) (line : Nat) : Except Error (Option Bool) :=
  if d.name == ("ifdef" : Text) || d.name == ("ifndef" : Text) then .ok none
  else
    match Condition.parse d.body with
    | .error e => .error (.malformed line d.body e)
    | .ok c =>
        match Condition.known (environment version) c with
        | .error e => .error (.undefined line d.body e)
        | .ok v => .ok (v.map Value.truthy)

def openBranch (version : Int) (d : Directive) (t : Token) (stack : List Branch) :
    Except Error (List Branch × Text) :=
  if keeping stack then
    match decide? version d t.line with
    | .error e => .error e
    | .ok none => .ok (⟨true, false, true, false⟩ :: stack, t.text)
    | .ok (some true) => .ok (⟨false, true, true, false⟩ :: stack, Edit.blank t.text)
    | .ok (some false) => .ok (⟨false, false, false, false⟩ :: stack, Edit.blank t.text)
  else .ok (⟨false, true, false, true⟩ :: stack, Edit.blank t.text)

def enterBranch (d : Directive) (t : Token) (b : Branch) : Option Bool -> Branch × Text
  | none =>
      (⟨true, b.taken, true, b.dead⟩,
        if b.written then t.text else "#if " ++ d.body ++ Edit.blank t.text)
  | some true =>
      (⟨b.written, true, true, b.dead⟩,
        (if b.written then ("#else" : Text) else []) ++ Edit.blank t.text)
  | some false => (⟨b.written, b.taken, false, b.dead⟩, Edit.blank t.text)

def nextBranch (version : Int) (d : Directive) (t : Token) :
    List Branch -> Except Error (List Branch × Text)
  | [] => .error (.unopened t.line d.name)
  | b :: stack =>
      if b.dead || b.taken then
        .ok (⟨b.written, b.taken, false, b.dead⟩ :: stack, Edit.blank t.text)
      else
        match (if d.name == ("elif" : Text) then decide? version d t.line else .ok (some true)) with
        | .error e => .error e
        | .ok decision =>
            let (b, text) := enterBranch d t b decision
            .ok (b :: stack, text)

def closeBranch (d : Directive) (t : Token) :
    List Branch -> Except Error (List Branch × Text)
  | [] => .error (.unopened t.line d.name)
  | b :: stack => .ok (stack, if b.written then t.text else Edit.blank t.text)

def step (version : Int) (stack : List Branch) (t : Token) :
    Except Error (List Branch × Text) :=
  let plain := .ok (stack, if keeping stack then t.text else Edit.blank t.text)
  if t.isDirective then
    let d := (Directive.parse? t.text).getD ⟨[], []⟩
    if [("if" : Text), "ifdef", "ifndef"].contains d.name then openBranch version d t stack
    else if d.name == ("elif" : Text) || d.name == ("else" : Text) then
      nextBranch version d t stack
    else if d.name == ("endif" : Text) then closeBranch d t stack
    else plain
  else plain

def foldTokens (version : Int) (last : Nat) : List Branch -> List Token -> Except Error Text
  | [], [] => .ok []
  | _ :: _, [] => .error (.unclosed last)
  | stack, t :: ts =>
      match step version stack t with
      | .error e => .error e
      | .ok (stack, text) =>
          match foldTokens version t.line stack ts with
          | .error e => .error e
          | .ok rest => .ok (text ++ rest)

end Fold

/-- Keeps of each conditional that depends on the version alone the branch that is taken. -/
def fold (code : Text) (version : Int) : Except Fold.Error Text :=
  match tokenize code with
  | .error e => .error (.lexical e)
  | .ok ts => Fold.foldTokens version 1 [] ts

end EffectShader
