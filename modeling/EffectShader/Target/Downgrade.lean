import EffectShader.Declaration.Parser
import EffectShader.GlslType
import EffectShader.Target.Fold
import EffectShader.Version

/-!
# Specializing a source for a version

Version conditionals are folded, layout qualifiers that the version cannot
express are removed, and the extensions that the version needs are enabled at
the top.
-/

namespace EffectShader

namespace Downgrade

/-- Old versions have layout qualifiers on storage buffers, images and fragment outputs. -/
def keepsLayout (d : Declaration) (isVertex : Bool) : Bool :=
  if d.isBlock then d.storage == .buffer
  else
    (GlslType.lookup? d.type).any (·.cls == .image) ||
      (!isVertex && (d.storage == .output || d.storage == .both))

/-- Removes the layout qualifier of a declaration and the blanks after it; a memory layout is
kept. -/
def collapseEdit? (code : Text) (isVertex : Bool) (d : Declaration) : Option Edit :=
  match d.layout with
  | none => none
  | some l =>
      if keepsLayout d isVertex then none
      else
        let blanks := (code.drop l.stop).takeWhile fun b => b == Byte.space || b == Byte.tab
        some ⟨l.start, l.stop + blanks.length,
          if l.has "std140" then "layout(std140) " else []⟩

def collapseLayouts (code : Text) (isVertex : Bool) : Except Failure Text :=
  match tokenize code with
  | .error e => .error (.plain e.message none)
  | .ok ts =>
      match Declaration.ofTokens ts with
      | .error e => .error (.diagnostic e)
      | .ok ds => .ok (Edit.apply code (ds.filterMap (collapseEdit? code isVertex)))

def decideCondition (version : Int) (condition : Text) : Except Failure (Option Bool) :=
  match Condition.parse condition with
  | .error e =>
      .error (.plain e.message (match e with
        | .unterminated _ => none
        | .malformed _ => some .malformedCondition))
  | .ok c =>
      match Condition.known (Fold.environment version) c with
      | .error e =>
          .error (.plain e.message (match e with
            | .unknownName _ => some .unknownName
            | .divisionByZero => some .divisionByZero))
      | .ok v => .ok (v.map Value.truthy)

/-- The lines that enable extensions.  One that was enabled for certain is not enabled again; one
whose condition is not decided is guarded by it. -/
def preludeFrom (version : Int) (enabled : List Text) : List Extension -> Except Failure Text
  | [] => .ok []
  | e :: es =>
      if enabled.contains e.name then preludeFrom version enabled es
      else
        match (if e.condition.isEmpty then .ok (some true)
          else decideCondition version e.condition) with
        | .error failure => .error failure
        | .ok (some true) =>
            (preludeFrom version (e.name :: enabled) es).map fun rest =>
              e.directive ++ "\n" ++ rest
        | .ok (some false) => preludeFrom version enabled es
        | .ok none =>
            (preludeFrom version enabled es).map fun rest =>
              "#if " ++ e.condition ++ "\n" ++ e.directive ++ "\n#endif\n" ++ rest

def prelude (version : Int) (extensions : List Extension) : Except Failure Text :=
  preludeFrom version [] extensions

end Downgrade

/-- The source as a version understands it. -/
def downgrade (code : Text) (version : Version) (extensions : List Extension)
    (isVertex : Bool) : Except Failure Text := do
  let code <- (fold code version.number).mapError Fold.Error.toFailure
  let code <- if version.hasLayoutBinding then .ok code
    else Downgrade.collapseLayouts code isVertex
  let lines <- Downgrade.prelude version.number extensions
  return lines ++ code

end EffectShader
