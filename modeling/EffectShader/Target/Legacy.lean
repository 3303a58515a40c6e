import EffectShader.Diagnostic.Basic
import EffectShader.Target.Legacy.Interface
import EffectShader.Target.Legacy.Statement
import EffectShader.Token.Lexer
import EffectShader.Version

/-!
# GLSL ES 1.00

Turns a source of version 3.00 into the oldest dialect: first the interface
declarations, then the statements, and last the extensions that the result
turns out to need.
-/

namespace EffectShader

namespace Legacy

def drawBuffers : Text := "GL_EXT_draw_buffers"

def textureLod : Text := "GL_EXT_shader_texture_lod"

def writesExtraBuffer (t : Token) (ts : List Token) : Bool :=
  t.isWord && t.text == ("gl_FragData" : Text) &&
    (Stream.acceptOp? "[" ts).any fun index =>
      (Stream.peekSignificant index).text != ("0" : Text)

mutual

/-- The tokens access the built-in outputs at an index other than zero, or define a macro that does;
the bodies of `depth` nested definitions are looked into. -/
def accessesExtraBuffers (depth : Nat) (ts : List Token) : Bool :=
  match ts with
  | [] => false
  | t :: ts =>
      (if t.isDirective then definesExtraBuffers depth t else writesExtraBuffer t ts) ||
        accessesExtraBuffers depth ts
  termination_by (depth, ts.length + 1)

def definesExtraBuffers (depth : Nat) (t : Token) : Bool :=
  match depth, Directive.parse? t.text with
  | depth + 1, some d =>
      d.name == ("define" : Text) &&
        (match tokenize d.body with
        | .ok body => accessesExtraBuffers depth body
        | .error _ => false)
  | _, _ => false
  termination_by (depth, 0)

end

/-- The source writes more than the first of the built-in outputs. -/
def needsDrawBuffers (code : Text) (ts : List Token) : Bool :=
  accessesExtraBuffers code.length ts

/-- The lines that enable the extensions that the source does not enable itself. -/
def prelude (code : Text) (extensions : List Text) : Text :=
  ((extensions.filter fun e => !code.includes ("#extension " ++ e)).map fun e =>
    Extension.directive ⟨e, [], []⟩ ++ ("\n" : Text)).flatten

/-- Converts the interface declarations; what later statements need to know of them. -/
def convertInterface (code : Text) (info : Option ShaderInfo) (stage : Stages) :
    Except Failure (Text × Names × List (Text × Int)) :=
  match tokenize code with
  | .error e => .error (.plain e.message none)
  | .ok ts =>
      match Declaration.ofTokens ts with
      | .error e => .error (.diagnostic e)
      | .ok ds =>
          let outputs := locateOutputs info stage ds
          .ok (Edit.apply code (ds.filterMap (declarationEdit? code ts stage)),
            ⟨stage, outputTargets outputs, instanceNames ds, uniformTypes ds⟩, outputs)

/-- Converts the statements, and tells whether the extension for the level of detail is needed. -/
def convertStatements (code : Text) (names : Names) : Except Failure (Text × Bool) :=
  match tokenize code with
  | .error e => .error (.plain e.message none)
  | .ok ts =>
      let edits := edits names none ts
      .ok (Edit.apply code (edits.map (·.1)), edits.any (·.2))

end Legacy

/-- The source in GLSL ES 1.00; reflection, if given, knows the locations of fragment outputs. -/
def toLegacy (code : Text) (info : Option ShaderInfo) (stage : Stages) : Except Failure Text := do
  let (code, names, outputs) <- Legacy.convertInterface code info stage
  let (code, usesLod) <- Legacy.convertStatements code names
  let extraBuffers <-
    if stage == .fragmentOnly then
      match tokenize code with
      | .error e => .error (.plain e.message none)
      | .ok ts => .ok (Legacy.needsDrawBuffers code ts)
    else .ok false
  let buffers := [Legacy.drawBuffers]
  let lod := if usesLod then [Legacy.textureLod] else []
  let extensions :=
    if 2 ≤ outputs.length then buffers ++ lod
    else lod ++ (if extraBuffers then buffers else [])
  return Legacy.prelude code extensions ++ code

end EffectShader
