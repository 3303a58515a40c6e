import EffectShader.Check.Grammar.Statement
import EffectShader.Diagnostic.Basic
import EffectShader.GlslType
import EffectShader.Stage
import EffectShader.Token.Basic
import EffectShader.Token.Directive
import EffectShader.Token.Lexer
import EffectShader.Token.Word

/-!
# Checking a GLSL ES 1.00 source

Reserved words and grammar errors are fatal; precision problems are warnings.
-/

namespace EffectShader

/-!
# Words of GLSL ES 1.00
-/

namespace Check

def objection? (word : Text) : Option Text :=
  if Word.isLegacyReserved word then
    some ("'" ++ word ++ "' is a reserved word in GLSL ES 1.00")
  else Word.legacyHazard? word

/-- The first word that cannot stand where it stands; names of members, after a dot, are free. -/
def reservedWordFrom? (previous : Option Token) : List Token -> Option Diagnostic
  | [] => none
  | t :: ts =>
      if t.isWord && !previous.any (fun p => p.isOp ".") then
        match objection? t.text with
        | some reason => some (Diagnostic.error t.line reason)
        | none => reservedWordFrom? (some t) ts
      else reservedWordFrom? (some t) ts

def reservedWord? (ts : List Token) : Option Diagnostic :=
  reservedWordFrom? none (significant ts)

/-!
# Precision

A fragment shader has no precision for floating point numbers until a precision
statement gives one, and extensions must be enabled before such statements.
-/

def isPrecisionWord (t : Token) : Bool :=
  t.kind == .keyword && t.text == ("precision" : Text)

def isFloatType (t : Token) : Bool :=
  t.isWord && (GlslType.lookup? t.text).any fun g => !g.isOpaque && g.scalar == .float

def declaresFloatPrecision : List Token -> Bool
  | [] => false
  | t :: ts =>
      (isPrecisionWord t &&
        ts[1]?.any fun u => u.kind == .keyword && u.text == ("float" : Text)) ||
      declaresFloatPrecision ts

/-- The line of the first floating point type outside precision statements; `before` are the two
tokens before, the nearest first. -/
def firstFloatLine? (before : List Token) : List Token -> Option Nat
  | [] => none
  | t :: ts =>
      if isFloatType t && !before[1]?.any isPrecisionWord then some t.line
      else firstFloatLine? (t :: before.take 1) ts

def isExtension (t : Token) : Bool :=
  t.isDirective && (Directive.parse? t.text).any fun d => d.name == ("extension" : Text)

def lateExtensions (ts : List Token) : List Diagnostic :=
  match ts.dropWhile fun t => !isPrecisionWord t with
  | [] => []
  | p :: rest =>
      (rest.filter isExtension).map fun t =>
        Diagnostic.warning t.line
          ("#extension must come before the precision statement on line " ++ Text.ofNat p.line)

def precisionWarnings (ts : List Token) (stage : Stages) : List Diagnostic :=
  let ts := significant ts
  lateExtensions ts ++
    (if stage == .fragmentOnly && !declaresFloatPrecision ts then
      [Diagnostic.warning ((firstFloatLine? [] ts).getD 0)
        "fragment shader declares no default precision for float"]
    else [])

end Check

/-!
# All checks
-/

structure CheckResult where
  warnings : List Diagnostic
  failure : Option Failure
  deriving DecidableEq, Repr

namespace Check

/-- The first error of the grammar. -/
def grammarError? (ts : List Token) : Option Diagnostic :=
  match checkGrammar ts with
  | .ok () => none
  | .error m => some m.toDiagnostic

end Check

def checkLegacy (code : Text) (stage : Stages) : CheckResult :=
  match tokenize code with
  | .error e => ⟨[], some (.plain e.message none)⟩
  | .ok ts =>
      match Check.reservedWord? ts with
      | some d => ⟨[], some (.diagnostic d)⟩
      | none =>
          ⟨Check.precisionWarnings ts stage, (Check.grammarError? ts).map .diagnostic⟩

end EffectShader
