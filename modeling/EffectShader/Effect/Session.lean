import EffectShader.Chunk.Resolve
import EffectShader.Define.Basic
import EffectShader.Diagnostic.Collector
import EffectShader.Diagnostic.LineMap
import EffectShader.Effect.Kind
import EffectShader.Resource.Basic
import EffectShader.Version

/-!
# Build sessions

The stages of one effect share a registry of chunks, a set of defines, the
reflected resources and a collector of diagnostics.  A step of a build changes
the session and may fail; a failure keeps what the session has become.
-/

namespace EffectShader

/-- Compiles and links a vertex and a fragment source; the answer is the compiler's complaint. -/
abbrev Compiler := Text -> Text -> Option Text

structure BuildOptions where
  registry : Registry
  search : Option Chunk.Search
  /-- The first warning fails the build. -/
  throwOnWarning : Bool
  /-- GLSL ES 1.00 texts are not checked. -/
  skipValidation : Bool
  compiler : Option Compiler
  /-- The built-in resources of the global set, if they are not the usual ones. -/
  globalBuiltins : Option (List Text)
  /-- The version of the Vulkan text; one without a major number stands for the usual one. -/
  vulkanVersion : Version

namespace BuildOptions

def usualGlobals : List Text :=
  ["CCGlobal", "CCCamera", "CCShadow", "CCCSM", "cc_shadowMap", "cc_environment",
   "cc_diffuseMap", "cc_spotShadowMap"]

def globals (o : BuildOptions) : List Text :=
  o.globalBuiltins.getD usualGlobals

def vulkan (o : BuildOptions) : Version :=
  if o.vulkanVersion.major == 0 then .vulkan else o.vulkanVersion

def empty : BuildOptions :=
  ⟨Registry.empty, none, false, false, none, none, .vulkan⟩

end BuildOptions

structure Session where
  collector : Collector
  registry : Registry
  /-- The lists of names that the search was asked for. -/
  asked : List (List Text)
  defines : DefineSet
  info : ShaderInfo
  /-- The sources that the compiler was given. -/
  linked : Option (Text × Text)

abbrev BuildStep := ExceptT Diagnostic (StateM Session)

namespace BuildStep

def fail {α : Type} (e : Failure) : BuildStep α := do
  let s <- get
  let (d, collector) := s.collector.fail e
  set { s with collector := collector }
  throw d

/-- Fails with the line that the author wrote: `code` is the source that `lines` leads to. -/
def failAt {α : Type} (e : Failure) (code : Text) (lines : LineMap) : BuildStep α :=
  let d := e.toDiagnostic
  if d.source.isEmpty && 0 < d.line then
    fail (.diagnostic { lines.relocate d with source := code })
  else fail (.diagnostic d)

def orFail {α : Type} : Except Failure α -> BuildStep α
  | .ok a => return a
  | .error e => fail e

def orFailAt {α : Type} (code : Text) (lines : LineMap) : Except Failure α -> BuildStep α
  | .ok a => return a
  | .error e => failAt e code lines

def report (ds : List Diagnostic) : BuildStep Unit :=
  modify fun s => { s with collector := s.collector.reportAll ds }

def setShader (name : Text) : BuildStep Unit :=
  modify fun s => { s with collector := s.collector.withShader name }

/-- Fails if a recorded diagnostic counts as an error. -/
def settle : BuildStep Unit := do
  match (← get).collector.fatal with
  | some d => throw d
  | none => return ()

def debug (message : Text) (attributes : List (Text × Text)) : BuildStep Unit :=
  modify fun s => { s with collector := s.collector.record ⟨.debug, message, attributes⟩ }

end BuildStep

end EffectShader
