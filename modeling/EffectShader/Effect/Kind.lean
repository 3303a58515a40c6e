import EffectShader.Diagnostic.Basic
import EffectShader.Stage
import EffectShader.Text.Quoted

/-!
# Effects

An effect is a program of several stages under one name.  A graphics effect has
vertex and fragment stages, a compute effect has one compute stage.
-/

namespace EffectShader

inductive EffectKind where
  | graphics
  | compute
  deriving DecidableEq, Repr

namespace EffectKind

def label : EffectKind -> String
  | .graphics => "graphics"
  | .compute => "compute"

def ofLabel? (word : Text) : Option EffectKind :=
  if word.isEmpty || word == ("graphics" : Text) then some .graphics
  else if word == ("compute" : Text) then some .compute
  else none

def unknownMessage (word : Text) : Text :=
  "effectc: unknown effect kind " ++ Text.quoted word

end EffectKind

structure StageSource where
  stage : Stages
  /-- The name of a chunk, or a chunk and an entry function with a colon between them. -/
  name : Text
  /-- The code of the stage; if it is empty, the chunk is looked up. -/
  source : Text
  deriving DecidableEq, Repr

namespace Effect

inductive StageError where
  | noStages
  | invalid (s : StageSource)
  | mixed (s : StageSource) (kind : EffectKind)
  | duplicate (s : StageSource)
  deriving DecidableEq, Repr

namespace StageError

def message : StageError -> Text
  | .noStages => "no stages"
  | .invalid s => "invalid stage " ++ s.stage.render ++ " for '" ++ s.name ++ "'"
  | .mixed s kind =>
      "graphics and compute stages cannot be mixed: " ++ s.stage.render ++ " stage '" ++ s.name ++
        "' in a " ++ kind.label ++ " effect"
  | .duplicate s => "duplicate " ++ s.stage.render ++ " stage '" ++ s.name ++ "'"

def cause : StageError -> Option Cause
  | .mixed _ _ => some .mixedStages
  | _ => none

def toFailure (effect : Text) (e : StageError) : Failure :=
  .plain ("effectc: " ++ effect ++ ": " ++ e.message) e.cause

end StageError

def stageErrorFrom? (kind : EffectKind) (seen : Stages) : List StageSource -> Option StageError
  | [] => none
  | s :: rest =>
      if !s.stage.isSingle then some (.invalid s)
      else if (kind == .compute) != (s.stage == .computeOnly) then some (.mixed s kind)
      else if seen.meets s.stage then some (.duplicate s)
      else stageErrorFrom? kind (seen.union s.stage) rest

def stageError? (kind : EffectKind) : List StageSource -> Option StageError
  | [] => some .noStages
  | stages => stageErrorFrom? kind .none stages

end Effect

end EffectShader
