import EffectShader.Check.Source
import EffectShader.Define.Extraction
import EffectShader.Effect.Cleanup
import EffectShader.Effect.Entry
import EffectShader.Effect.Output
import EffectShader.Effect.Session
import EffectShader.Macro.Function
import EffectShader.Macro.Literal
import EffectShader.Resource.Decorate
import EffectShader.Resource.Slots
import EffectShader.Strict.Source
import EffectShader.Subpass
import EffectShader.Target.Downgrade
import EffectShader.Target.Legacy

/-!
# Building effects

Every stage is expanded and reflected first.  When the resources of all stages
are merged and numbered, the texts of every stage are written in each dialect.
-/

namespace EffectShader

/-!
# Cache keys

The 32-bit hash of a text multiplies by a prime after mixing in each byte
(FNV-1a).  Several texts are hashed as their concatenation.
-/

namespace Hash

def basis : UInt32 := 2166136261

def factor : UInt32 := 16777619

def mix (h : UInt32) (b : UInt8) : UInt32 :=
  (h ^^^ b.toUInt32) * factor

def mixText (h : UInt32) (s : Text) : UInt32 :=
  s.foldl mix h

def ofTexts (texts : List Text) : UInt32 :=
  texts.foldl mixText basis

end Hash

/-!
# Expanded stages
-/

namespace Effect

structure ExpandedStage where
  source : StageSource
  chunk : Text
  entry : Text
  code : Text
  extensions : List Extension

/-!
# Expanding and reflecting a stage
-/

/-- Resolves the includes of a stage; a stage without code is its chunk. -/
def resolveSource (o : BuildOptions) (chunk source : Text) : BuildStep Text := do
  let source := if source.isEmpty then ("#include <" : Text) ++ chunk ++ ">" else source
  let s <- get
  let (r, result) := s.registry.resolve o.search source
  set { s with registry := r.registry, asked := s.asked ++ r.asked }
  BuildStep.orFail (result.mapError .diagnostic)

def deprecatedWord? (r : Registry) (ts : List Token) : Option Diagnostic :=
  (ts.filter Token.isWord).findSome? fun t =>
    (r.deprecatedNames.get? t.text).map fun message =>
      Diagnostic.error t.line ("'" ++ t.text ++ "' is deprecated: " ++ message)

def lexed (code : Text) : Except Failure (List Token) :=
  (tokenize code).mapError fun e => .plain e.message none

/-- Removes the functions that the entry does not reach, and calls it from `main`. -/
def reachEntry (code entry : Text) (stage : Stages) (resolved : Text) (lines : LineMap) :
    BuildStep Text := do
  let e <- BuildStep.orFail
    ((ShaderFunction.eliminate code entry).mapError fun e => .plain e.message none)
  match e.failure with
  | some failure => BuildStep.fail failure
  | none => BuildStep.orFailAt resolved lines (wrapEntry e.remainder entry stage)

def passMessages (resolved : Text) (lines : LineMap) : List AuthorMessage -> BuildStep Unit
  | [] => return ()
  | m :: rest => do
      if !m.isError then
        BuildStep.report [lines.relocate (Diagnostic.warning m.line m.text)]
      else if !m.conditional then
        BuildStep.failAt (Failure.onLine m.line m.text) resolved lines
      passMessages resolved lines rest

def collectDefines (ts : List Token) (resolved : Text) (lines : LineMap) :
    BuildStep Extraction := do
  let s <- get
  let (defines, result) := extractDefines ts s.defines
  set { s with defines := defines }
  BuildStep.orFailAt resolved lines (result.mapError .diagnostic)

def collectResources (o : BuildOptions) (code : Text) (stage : Stages) (pragmas : Extraction)
    (resolved : Text) (lines : LineMap) : BuildStep Unit := do
  let vulkan <- BuildStep.orFailAt resolved lines
    ((fold code o.vulkan.number).mapError Fold.Error.toFailure)
  let ts <- BuildStep.orFailAt resolved lines (lexed vulkan)
  let info <- BuildStep.orFailAt resolved lines
    ((reflect ⟨stage, pragmas, o.globals⟩ ts).mapError .diagnostic)
  let info : ShaderInfo :=
    ⟨info.params.map fun p => { p with line := (lines.source p.line).toNat }⟩
  let s <- get
  let (merged, conflict) := s.info.merge info
  set { s with info := merged }
  match conflict with
  | some c => BuildStep.fail (.plain c.message none)
  | none => return ()

def expandStage (o : BuildOptions) (effect : Text) (s : StageSource) : BuildStep ExpandedStage := do
  BuildStep.setShader s.name
  let (chunk, entry) := splitName s.name
  let resolved <- resolveSource o chunk s.source
  let subpass <- BuildStep.orFailAt resolved (.ofText resolved)
    ((Subpass.expand resolved (.ofText resolved)).mapError .diagnostic)
  let (code, literals) := LiteralMacro.expand subpass.code
  let expansion := FunctionMacro.expand code subpass.lines
  let lines := expansion.lines
  BuildStep.report expansion.warnings
  let code <- BuildStep.orFailAt resolved lines (expansion.result.mapError .diagnostic)
  let code <- reachEntry code entry s.stage resolved lines
  let ts <- BuildStep.orFailAt resolved lines (lexed code)
  match deprecatedWord? (← get).registry ts with
  | some d => BuildStep.failAt (.diagnostic d) resolved lines
  | none => pure ()
  let pragmas <- collectDefines ts resolved lines
  passMessages resolved lines pragmas.messages
  collectResources o code s.stage pragmas resolved lines
  let code := pragmaErrors code
  BuildStep.settle
  BuildStep.debug "effectc: stage reflected"
    [("effect", effect), ("shader", s.name), ("stage", s.stage.render),
     ("literals", Text.ofNat literals.length), ("bytes", Text.ofNat code.length)]
  return ⟨s, chunk, entry, code, subpass.extensions ++ pragmas.extensions⟩

/-!
# Writing the dialects
-/

def writeLegacy (o : BuildOptions) (u : ExpandedStage) : BuildStep Text := do
  let stage := u.source.stage
  let text <- BuildStep.orFail
    (downgrade u.code .es100 u.extensions (stage == .vertexOnly))
  let text <- BuildStep.orFail (toLegacy text (some (← get).info) stage)
  if !o.skipValidation then
    let r := checkLegacy text stage
    BuildStep.report r.warnings
    match r.failure with
    | some e => BuildStep.failAt e text .identity
    | none => pure ()
  return clean text

def writeStage (o : BuildOptions) (effect : Text) (u : ExpandedStage) : BuildStep StageOutput := do
  BuildStep.setShader u.source.name
  let stage := u.source.stage
  let isVertex := stage == .vertexOnly
  let isCompute := stage == .computeOnly
  let glsl3 <- BuildStep.orFail
    (downgrade u.code (if isCompute then .es310 else .es300) u.extensions isVertex)
  let glsl1 <- if isCompute then pure [] else writeLegacy o u
  let glsl4 <- BuildStep.orFail (downgrade u.code o.vulkan u.extensions isVertex)
  let glsl4 <- BuildStep.orFail (decorate glsl4 stage (← get).info)
  let out : StageOutput := ⟨stage, u.chunk, u.entry, glsl1, clean glsl3, clean glsl4⟩
  BuildStep.debug "effectc: stage compiled"
    [("effect", effect), ("shader", u.source.name), ("stage", stage.render),
     ("glsl1", Text.ofNat out.glsl1.length), ("glsl3", Text.ofNat out.glsl3.length),
     ("glsl4", Text.ofNat out.glsl4.length)]
  return out

/-!
# The whole effect
-/

def numberResources : BuildStep Unit := do
  BuildStep.setShader []
  let s <- get
  let (info, error) := Slots.allocate s.info
  set { s with info := info }
  match error with
  | some d => BuildStep.fail (.diagnostic d)
  | none => return ()

def looseUniformWarning (p : Param) : Diagnostic :=
  Diagnostic.warning p.line
    ("uniform '" ++ p.name ++
      "' is not inside a uniform block and cannot be bound on Vulkan")

def linkStages (o : BuildOptions) (kind : EffectKind) (shaders : List StageOutput) :
    BuildStep Unit := do
  match o.compiler, kind, EffectOutput.shader? shaders .vertexOnly,
    EffectOutput.shader? shaders .fragmentOnly with
  | some compiler, .graphics, some vertex, some fragment =>
      BuildStep.setShader (vertex.name ++ "+" ++ fragment.name)
      let defines := (← get).defines.list
      let vertexSource := Strict.source vertex.glsl1 defines
      let fragmentSource := Strict.source fragment.glsl1 defines
      modify fun s => { s with linked := some (vertexSource, fragmentSource) }
      match compiler vertexSource fragmentSource with
      | some complaint =>
          BuildStep.fail (.diagnostic
            (Diagnostic.error 0 ("GLSL ES 1.00 compile failed: " ++ complaint)))
      | none => return ()
  | _, _, _, _ => return ()

def hashedTexts (shaders : List StageOutput) : List Text :=
  shaders.flatMap fun s => [s.glsl1, s.glsl3, s.glsl4]

def compile (o : BuildOptions) (name : Text) (kind : EffectKind) (stages : List StageSource) :
    BuildStep EffectOutput := do
  let units <- stages.mapM (expandStage o name)
  numberResources
  BuildStep.report (((← get).info.list .uniform).map looseUniformWarning)
  BuildStep.settle
  let shaders <- units.mapM (writeStage o name)
  linkStages o kind shaders
  BuildStep.settle
  let s <- get
  let hash := Hash.ofTexts (hashedTexts shaders)
  BuildStep.debug "effectc: effect built"
    [("effect", name), ("kind", kind.label), ("stages", Text.ofNat shaders.length),
     ("hash", Text.ofNat hash.toNat)]
  return ⟨name, kind, hash, shaders, ResourceLists.ofInfo s.info, s.defines.list,
    s.info.statistics⟩

def newSession (o : BuildOptions) (name : Text) : Session :=
  ⟨Collector.new name o.throwOnWarning, o.registry, [], DefineSet.empty, ShaderInfo.empty, none⟩

end Effect

structure BuildResult where
  outcome : Except Failure EffectOutput
  session : Session

def build (o : BuildOptions) (name : Text) (kind : EffectKind) (stages : List StageSource) :
    BuildResult :=
  let session := Effect.newSession o name
  match Effect.stageError? kind stages with
  | some e => ⟨.error (e.toFailure name), session⟩
  | none =>
      let (outcome, session) := (Effect.compile o name kind stages).run.run session
      ⟨outcome.mapError .diagnostic, session⟩

end EffectShader
