import EffectShader.Diagnostic.Basic
import EffectShader.Diagnostic.Log

/-!
# Collecting diagnostics

One collector serves one build.  It completes every diagnostic with the names
of the effect and of the shader being compiled, logs warnings, and remembers
the first error; on request a warning counts as an error.
-/

namespace EffectShader

structure Collector where
  effect : Text
  throwOnWarning : Bool
  shader : Text
  diagnostics : List Diagnostic
  /-- The first error, or the first warning that counts as one. -/
  fatal : Option Diagnostic
  log : List LogRecord
  deriving DecidableEq, Repr

namespace Collector

def new (effect : Text) (throwOnWarning : Bool) : Collector :=
  ⟨effect, throwOnWarning, [], [], none, []⟩

def withShader (c : Collector) (name : Text) : Collector :=
  { c with shader := name }

def stamp (c : Collector) (d : Diagnostic) : Diagnostic :=
  { d with
    effect := if d.effect.isEmpty then c.effect else d.effect
    shader := if d.shader.isEmpty then c.shader else d.shader }

def warningRecord (d : Diagnostic) : LogRecord :=
  ⟨.warn, d.message, [("effect", d.effect), ("shader", d.shader), ("line", Text.ofInt d.line)]⟩

def record (c : Collector) (r : LogRecord) : Collector :=
  { c with log := c.log ++ [r] }

def report (c : Collector) (d : Diagnostic) : Collector :=
  let d := c.stamp d
  let isWarning := d.severity == .warning
  { c with
    diagnostics := c.diagnostics ++ [d]
    log := if isWarning then c.log ++ [warningRecord d] else c.log
    fatal :=
      match c.fatal with
      | some f => some f
      | none =>
          if !isWarning || c.throwOnWarning then some { d with severity := .error } else none }

def reportAll (c : Collector) (ds : List Diagnostic) : Collector :=
  ds.foldl report c

def fail (c : Collector) (e : Failure) : Diagnostic × Collector :=
  let d := c.stamp e.toDiagnostic
  (d, { c with diagnostics := c.diagnostics ++ [d] })

end Collector

end EffectShader
