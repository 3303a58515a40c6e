import EffectShader.Diagnostic.Basic
import EffectShader.Reachability
import EffectShader.Stage
import EffectShader.Token.Lexer

/-!
# Entry functions

A stage may name another function than `main` as its entry.  If the source has
no `main`, one is added that calls the entry.
-/

namespace EffectShader

namespace Effect

def mainName : Text := "main"

def splitName (name : Text) : Text × Text :=
  match Text.cut? ":" name with
  | none => (name, mainName)
  | some (chunk, entry) => (chunk, if entry.isEmpty then mainName else entry)

def returnType (definition : Text) : Except Lexer.Unterminated Text :=
  match tokenize definition with
  | .error e => .error e
  | .ok ts =>
      .ok (((significant ts).find? fun t => t.isWord && !Word.isPrecision t.text).elim []
        (·.text))

def mainWith (statement : Text) : Text :=
  "void main() " ++ Op.openBrace ++ " " ++ statement ++ " " ++ Op.closeBrace ++ "\n"

/-- A function `main` that calls an entry of the given return type: the result is the position in a
vertex stage and the color in a fragment stage. -/
def mainFor? (entry result : Text) (stage : Stages) : Option Text :=
  if result == ("void" : Text) then some (mainWith (entry ++ "();"))
  else if result == ("vec4" : Text) && stage == .vertexOnly then
    some (mainWith ("gl_Position = " ++ entry ++ "();"))
  else if result == ("vec4" : Text) && stage == .fragmentOnly then
    some ("layout(location = 0) out vec4 cc_FragColor;\n" ++
      mainWith ("cc_FragColor = " ++ entry ++ "();"))
  else none

def withFinalNewline (code : Text) : Text :=
  if Text.endsWith code "\n" then code else code ++ "\n"

/-- The code with a `main` that calls the entry, unless it has one or has no such entry. -/
def wrapEntry (r : ShaderFunction.Remainder) (entry : Text) (stage : Stages) :
    Except Failure Text :=
  if entry == mainName || (r.functions.any fun f => f.name == mainName) then .ok r.code
  else
    match (r.functions.filter fun f => f.name == entry).getLast? with
    | none => .ok r.code
    | some f =>
        match returnType (Text.slice r.code f.start f.stop) with
        | .error e => .error (.plain e.message none)
        | .ok result =>
            match mainFor? entry result stage with
            | some addition => .ok (withFinalNewline r.code ++ addition)
            | none =>
                .error (Failure.onLine (Text.newlines (r.code.take f.start) + 1)
                  ("entry '" ++ entry ++ "' of a " ++ stage.render ++ " shader returns '" ++
                    result ++ "', want void or vec4"))

end Effect

end EffectShader
