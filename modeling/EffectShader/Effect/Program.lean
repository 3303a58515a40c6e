import EffectShader.Effect.Kind

/-!
# Programs

A program names an effect and the chunks of its stages.  It is written as
`name=vertex,fragment` or as `name=compute:chunk`, or its stages are given one
by one.
-/

namespace EffectShader

structure Program where
  name : Text
  kind : EffectKind
  stages : List StageSource
  deriving DecidableEq, Repr

namespace Program

inductive Error where
  | malformed (argument : Text)
  /-- A stage without its partner. -/
  | unpaired (name : Text)
  | unnamed
  | mixed (name : Text)
  | incomplete (name : Text)
  deriving DecidableEq, Repr

namespace Error

def message : Error -> Text
  | .malformed argument =>
      "invalid program " ++ Text.quoted argument ++
        ", want name=vert:entry,frag:entry or name=compute:chunk:entry"
  | .unpaired name => "program " ++ Text.quoted name ++ " needs a vertex and a fragment stage"
  | .unnamed => "program without a name"
  | .mixed name =>
      "program " ++ Text.quoted name ++ ": graphics and compute stages cannot be mixed"
  | .incomplete name =>
      "program " ++ Text.quoted name ++
        " needs a vertex and a fragment stage, or a compute stage"

def cause : Error -> Option Cause
  | .mixed _ => some .mixedStages
  | _ => none

def toFailure (e : Error) : Failure :=
  .plain e.message e.cause

end Error

end Program

/-- The stages of a program by the names of their chunks; an empty name stands for no stage. -/
structure ProgramStages where
  name : Text
  vertex : Text
  fragment : Text
  compute : Text
  deriving DecidableEq, Repr

namespace ProgramStages

def empty : ProgramStages := ⟨[], [], [], []⟩

def toProgram (p : ProgramStages) : Except Program.Error Program :=
  if p.name.isEmpty then .error .unnamed
  else if !p.compute.isEmpty then
    if p.vertex.isEmpty && p.fragment.isEmpty then
      .ok ⟨p.name, .compute, [⟨.computeOnly, p.compute, []⟩]⟩
    else .error (.mixed p.name)
  else if p.vertex.isEmpty || p.fragment.isEmpty then .error (.incomplete p.name)
  else
    .ok ⟨p.name, .graphics, [⟨.vertexOnly, p.vertex, []⟩, ⟨.fragmentOnly, p.fragment, []⟩]⟩

end ProgramStages

namespace Program

def parseStages (name stages : Text) : Except Error ProgramStages :=
  match Text.afterPrefix? "compute:" stages with
  | some compute => .ok ⟨name, [], [], compute⟩
  | none =>
      match Text.cut? "," stages with
      | some (vertex, fragment) => .ok ⟨name, vertex, fragment, []⟩
      | none => .error (.unpaired name)

def parse (argument : Text) : Except Error Program :=
  match Text.cut? "=" argument with
  | none => .error (.malformed argument)
  | some (name, stages) =>
      if name.isEmpty || stages.isEmpty then .error (.malformed argument)
      else (parseStages name stages).bind ProgramStages.toProgram

end Program

end EffectShader
