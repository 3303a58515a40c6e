import EffectShader.CommandLine.FileTree
import EffectShader.CommandLine.Settings
import EffectShader.Diagnostic.Log
import EffectShader.Document.Json
import EffectShader.Document.Yaml
import EffectShader.Effect.Build
import EffectShader.Effect.Program
import EffectShader.Effect.Report

/-!
# Batches of programs

All programs of a run are built with the same chunks and settings.  The builds
come first; then every output is delivered, and every program reported, in the
order of the programs.
-/

namespace EffectShader

structure Batch where
  settings : Settings
  registry : Registry
  programs : List Program

structure FileError where
  operation : String
  path : Text
  fault : FileFault
  deriving DecidableEq, Repr

def FileError.message (e : FileError) : Text :=
  e.operation ++ (" " : Text) ++ e.path ++ ": " ++ e.fault.message

def errorLine (message : Text) : Text :=
  "error: " ++ message ++ "\n"

namespace Batch

inductive Error where
  | failure (e : Failure)
  | unwritable (e : Json.Error)
  | unknownFormat (format : Text)
  | file (e : FileError)

/-- What is reported about a program without output; a diagnostic that knows its source comes
with the line. -/
def Error.report : Error -> Text
  | .failure (.diagnostic d) =>
      if d.source.isEmpty then errorLine d.render
      else
        let text := d.renderWithContext
        if text.contains Byte.newline then text else text ++ "\n"
  | .failure (.plain message _) => errorLine message
  | .unwritable e => errorLine e.message
  | .unknownFormat format => errorLine ("unknown output format " ++ Text.quoted format)
  | .file e => errorLine e.message

/-- An output before it is delivered. -/
structure Encoded where
  hash : UInt32
  content : Text

def encode (format : Text) (o : EffectOutput) : Except Error Text :=
  if format.isEmpty || format == ("json" : Text) then
    o.toDocument.toJson.mapError .unwritable
  else if format == ("yaml" : Text) then .ok o.toDocument.toYaml
  else .error (.unknownFormat format)

def buildOptions (b : Batch) : BuildOptions :=
  { BuildOptions.empty with registry := b.registry, throwOnWarning := b.settings.warnError }

def buildProgram (b : Batch) (p : Program) : List LogRecord × Except Error Encoded :=
  let r := EffectShader.build b.buildOptions p.name p.kind p.stages
  let encoded := do
    let o <- r.outcome.mapError .failure
    let content <- encode b.settings.format o
    return ⟨o.hash, content⟩
  (r.session.collector.log, encoded)

/-!
# Delivering outputs
-/

variable {m : Type -> Type} [Monad m]

def makeDirectories (h : Host m) : List Text -> ExceptT Error m Unit
  | [] => return ()
  | path :: rest => do
      match ← h.makeDirectory path with
      | .error e => throw (.file ⟨"mkdir", path, e⟩)
      | .ok () => makeDirectories h rest

def outputPath (s : Settings) (name format : Text) : Text :=
  Path.join s.output (name ++ "." ++ format)

def deliver (h : Host m) (s : Settings) (name content : Text) : ExceptT Error m Unit := do
  if s.output.isEmpty then
    h.output content
  else
    makeDirectories h (Path.ancestors s.output)
    let path := outputPath s name (if s.format.isEmpty then Settings.usualFormat else s.format)
    match ← h.write path content with
    | .error e => throw (.file ⟨"open", path, e⟩)
    | .ok () => return ()

def builtLine (s : Settings) (name : Text) (hash : UInt32) : Text :=
  let target := if s.output.isEmpty then ("stdout" : Text) else outputPath s name s.format
  "ok " ++ name ++ " " ++ Text.hex 8 hash.toNat ++ " -> " ++ target ++ "\n"

/-- Delivers and reports a program; the answer says whether it has an output. -/
def finish (h : Host m) (s : Settings) (name : Text) (result : Except Error Encoded) : m Bool := do
  let delivered <- (do
    let e <- (liftExcept result : ExceptT Error m Encoded)
    deliver h s name e.content
    return e.hash : ExceptT Error m UInt32).run
  match delivered with
  | .error e =>
      h.report e.report
      return false
  | .ok hash =>
      h.report (builtLine s name hash)
      return true

/-- Builds all programs; the answer says how many of them failed. -/
def build (h : Host m) (b : Batch) : m Nat := do
  let results := b.programs.map fun p => (p.name, b.buildProgram p)
  results.forM fun r => h.report (LogRecord.renderAll b.settings.verbose r.2.1)
  let built <- results.mapM fun r => finish h b.settings r.1 r.2.2
  return built.count false

end Batch

end EffectShader
