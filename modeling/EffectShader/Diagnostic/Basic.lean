import EffectShader.Text.Basic

/-!
# Diagnostics

An error or a warning about a line of a shader.  A diagnostic that stands for
one of the failures that callers tell apart keeps that failure as its cause.
-/

namespace EffectShader

inductive Severity where
  | error
  | warning
  deriving DecidableEq, Repr

def Severity.label : Severity -> String
  | .error => "error"
  | .warning => "warning"

/-- The failures that callers tell apart. -/
inductive Cause where
  | chunkNotFound
  | chunkDeprecated
  | entryNotFound
  | mixedStages
  | unknownName
  | divisionByZero
  | malformedCondition
  deriving DecidableEq, Repr

structure Diagnostic where
  severity : Severity
  effect : Text
  shader : Text
  /-- Counted from one; zero if the line is not known. -/
  line : Int
  message : Text
  /-- The shader text that the line refers to, if it is known. -/
  source : Text
  cause : Option Cause
  deriving DecidableEq, Repr

namespace Diagnostic

def error (line : Int) (message : Text) : Diagnostic :=
  ⟨.error, [], [], line, message, [], none⟩

def warning (line : Int) (message : Text) : Diagnostic :=
  ⟨.warning, [], [], line, message, [], none⟩

def withCause (d : Diagnostic) (c : Cause) : Diagnostic :=
  { d with cause := some c }

/-- Effect and shader names, as far as they are known. -/
def place (d : Diagnostic) : Text :=
  if d.effect.isEmpty then d.shader
  else if d.shader.isEmpty then d.effect
  else d.effect ++ "." ++ d.shader

def render (d : Diagnostic) : Text :=
  let place := d.place
  let located :=
    if 0 < d.line then
      (if place.isEmpty then ("line " : Text) else place ++ " - ") ++ Text.ofInt d.line
    else place
  if located.isEmpty then d.message else located ++ ": " ++ d.message

def gutter (n : Nat) : Text :=
  let numeral := Text.ofNat n
  List.replicate (3 - numeral.length) Byte.space ++ numeral

def renderWithContext (d : Diagnostic) : Text :=
  let headline : Text := d.severity.label ++ (": " : Text) ++ d.render
  if d.source.isEmpty || d.line ≤ 0 then headline
  else
    match d.source.lines[d.line.toNat - 1]? with
    | none => headline
    | some text =>
        headline ++ "\n   |\n" ++ gutter d.line.toNat ++ "| " ++ text ++ "\n"

end Diagnostic

namespace Diagnostics

def summary : List Diagnostic -> Text
  | [] => "no errors"
  | [d] => d.render
  | d :: ds => d.render ++ " (and " ++ Text.ofNat ds.length ++ " more)"

def renderAll (ds : List Diagnostic) : Text :=
  Text.unlines (ds.map Diagnostic.renderWithContext)

def hasErrors (ds : List Diagnostic) : Bool :=
  ds.any fun d => d.severity == .error

def warnings (ds : List Diagnostic) : List Diagnostic :=
  ds.filter fun d => d.severity == .warning

end Diagnostics

/-!
# Failures

A stage fails with a diagnostic, or with a message that has no line yet.
-/

inductive Failure where
  | plain (message : Text) (cause : Option Cause)
  | diagnostic (d : Diagnostic)
  deriving DecidableEq, Repr

namespace Failure

def message : Failure -> Text
  | .plain m _ => m
  | .diagnostic d => d.render

def cause : Failure -> Option Cause
  | .plain _ c => c
  | .diagnostic d => d.cause

/-- The failure as a diagnostic; a plain message gets no line. -/
def toDiagnostic : Failure -> Diagnostic
  | .plain m c => { Diagnostic.error 0 m with cause := c }
  | .diagnostic d => d

def onLine (line : Nat) (message : Text) : Failure :=
  .diagnostic (Diagnostic.error line message)

end Failure

end EffectShader
