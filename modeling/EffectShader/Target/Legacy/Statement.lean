import EffectShader.Edit
import EffectShader.Stage
import EffectShader.Table
import EffectShader.Token.Directive
import EffectShader.Token.Stream

/-!
# Statements in GLSL ES 1.00

Sampling functions are named after the kind of texture, declared outputs are
the built-in ones, and layout qualifiers, interpolation qualifiers and pragmas
of the effect compiler do not exist.
-/

namespace EffectShader

namespace Legacy

structure Sampling where
  flat : Text
  cube : Text
  /-- Fragment shaders need an extension to choose the level of detail. -/
  levelOfDetail : Bool

def sampling? (name : Text) : Option Sampling :=
  Table.get?
    [("texture", ⟨"texture2D", "textureCube", false⟩),
     ("textureProj", ⟨"texture2DProj", "texture2DProj", false⟩),
     ("textureLod", ⟨"texture2DLod", "textureCubeLod", true⟩),
     ("textureProjLod", ⟨"texture2DProjLod", "texture2DProjLod", true⟩),
     ("textureGrad", ⟨"texture2DGradEXT", "textureCubeGradEXT", true⟩)] name

def isInterpolation (word : Text) : Bool :=
  [("flat" : Text), "smooth", "noperspective", "centroid"].contains word

structure Names where
  stage : Stages
  /-- The built-in output that stands for a declared one. -/
  outputs : Table Text
  /-- The instance names of uniform blocks. -/
  instances : List Text
  /-- The types of plain uniforms. -/
  types : Table Text

/-- Splits a group of which `depth` levels are open: its tokens up to the closing operator, and the
tokens after it.  An unterminated group takes all tokens. -/
def splitGroup (opening closing : Text) : (depth : Nat) -> List Token -> List Token × List Token
  | _, [] => ([], [])
  | depth, t :: ts =>
      if t.isOp opening then
        let (group, rest) := splitGroup opening closing (depth + 1) ts
        (t :: group, rest)
      else if t.isOp closing && depth ≤ 1 then ([t], ts)
      else
        let (group, rest) :=
          splitGroup opening closing (if t.isOp closing then depth - 1 else depth) ts
        (t :: group, rest)

/-- The tokens of a layout qualifier after its keyword and the blanks that follow it on the line;
`none` if the keyword starts no qualifier. -/
def layoutTokens? (ts : List Token) : Option (List Token × List Token) :=
  match Stream.acceptOp? "(" ts with
  | none => none
  | some inner =>
      let (group, rest) := splitGroup "(" ")" 1 inner
      let onLine := fun (t : Token) => t.kind == .whitespace && Text.newlines t.text == 0
      some (ts.take (ts.length - inner.length) ++ group ++ rest.takeWhile onLine,
        rest.dropWhile onLine)

/-- The name of a sampling function before its arguments, and whether the extension for the level of
detail is needed; `none` if no argument list follows. -/
def samplingName? (names : Names) (s : Sampling) (ts : List Token) : Option (Text × Bool) :=
  (Stream.acceptOp? "(" ts).map fun inner =>
    let argument := (Stream.peekSignificant inner).text
    let isCube := (names.types.get? argument).any fun t => Text.startsWith t "samplerCube"
    let name := if isCube then s.cube else s.flat
    if s.levelOfDetail && names.stage == .fragmentOnly then
      (if Text.endsWith name "EXT" then name else name ++ "EXT", true)
    else (name, false)

def identifierEdit? (names : Names) (t : Token) (ts : List Token) : Option Edit :=
  match names.outputs.get? t.text with
  | some target => some ⟨t.offset, t.stop, target⟩
  | none =>
      let dot := Stream.peekSignificant ts
      if names.instances.contains t.text && dot.isOp "." then some ⟨t.offset, dot.stop, []⟩
      else none

def pragmaEdit? (t : Token) : Option Edit :=
  match (Directive.parse? t.text).bind Directive.pragma? with
  | none => none
  | some p => if p.isStandard then none else some ⟨t.offset, t.stop, Edit.blank t.text⟩

/-- The edit of a token that is not a layout qualifier, and whether it needs the extension for the
level of detail; `previous` is the last token before it that is not trivia. -/
def tokenEdit? (names : Names) (previous : Option Token) (t : Token) (ts : List Token) :
    Option (Edit × Bool) :=
  match t.kind with
  | .directive => (pragmaEdit? t).map fun e => (e, false)
  | .keyword =>
      if isInterpolation t.text then
        let next := Stream.peek ts
        let stop := if next.text == [Byte.space] then next.stop else t.stop
        some (⟨t.offset, stop, []⟩, false)
      else none
  | .builtin =>
      ((sampling? t.text).bind fun s => samplingName? names s ts).map fun r =>
        (⟨t.offset, t.stop, r.1⟩, r.2)
  | .ident =>
      if previous.any fun p => p.isOp "." then none
      else (identifierEdit? names t ts).map fun e => (e, false)
  | _ => none

theorem length_splitGroup_le (opening closing : Text) (depth : Nat) (ts : List Token) :
    (splitGroup opening closing depth ts).2.length ≤ ts.length := by
  induction ts generalizing depth with
  | nil => simp [splitGroup]
  | cons t ts ih =>
      rw [splitGroup]
      split
      · exact Nat.le_succ_of_le (ih _)
      · split
        · simp
        · exact Nat.le_succ_of_le (ih _)

theorem length_of_layoutTokens? {ts layout rest : List Token}
    (h : layoutTokens? ts = some (layout, rest)) : rest.length ≤ ts.length := by
  rw [layoutTokens?] at h
  split at h
  · contradiction
  · next inner hinner =>
      have hle : inner.length ≤ ts.length := by
        rw [Stream.acceptOp?] at hinner
        split at hinner
        · cases hinner
          exact Stream.length_tailSignificant_le ts
        · contradiction
      cases h
      exact Nat.le_trans (List.dropWhile_sublist _).length_le
        (Nat.le_trans (length_splitGroup_le "(" ")" 1 inner) hle)

/-- The edits of a token list, and whether one needs the extension for the level of detail. -/
def edits (names : Names) (previous : Option Token) : List Token -> List (Edit × Bool)
  | [] => []
  | t :: ts =>
      if t.kind == .keyword && t.text == ("layout" : Text) then
        match h : layoutTokens? ts with
        | none => edits names (some t) ts
        | some (layout, rest) =>
            have := length_of_layoutTokens? h
            let all := t :: layout
            let stop := (layout.getLast?.elim t.stop Token.stop)
            (⟨t.offset, stop, Edit.blank (all.map (·.text)).flatten⟩, false) ::
              edits names ((significant all).getLast?) rest
      else
        (tokenEdit? names previous t ts).toList ++
          edits names (if t.isTrivia then previous else some t) ts
  termination_by ts => ts.length
  decreasing_by all_goals (simp only [List.length_cons]; omega)

end Legacy

end EffectShader
