import EffectShader.Diagnostic.Basic

/-!
# Line maps

A line map leads from the lines of generated text back to the lines of the
source it was made from.  The map without entries leads every line to itself.
-/

namespace EffectShader

/-- The source line of each generated line, counted from one. -/
structure LineMap where
  entries : List Nat
  deriving DecidableEq, Repr

namespace LineMap

/-- The map that leads every line to itself. -/
def identity : LineMap := ⟨[]⟩

/-- The map of a text that has not been changed yet. -/
def ofText (code : Text) : LineMap :=
  ⟨List.range' 1 (code.newlines + 1)⟩

/-- Records that `removed` lines starting at `line` were replaced by `added` lines, which all come
from the source of `line`. -/
def splice (m : LineMap) (line : Int) (removed added : Nat) : LineMap :=
  if line < 1 || m.entries.length < line || removed == added then m
  else
    let before := m.entries.take (line.toNat - 1)
    let after := m.entries.drop (line.toNat - 1)
    ⟨before ++ List.replicate added (after.head?.getD 0) ++ after.drop removed⟩

/-- The source of a generated line.  Lines past the end keep their distance from the last one. -/
def source (m : LineMap) (line : Int) : Int :=
  if line < 1 then line
  else
    match m.entries[line.toNat - 1]? with
    | some n => n
    | none =>
        match m.entries.getLast? with
        | some n => n + line - m.entries.length
        | none => line

/-- The diagnostic with its line led back to the source. -/
def relocate (m : LineMap) (d : Diagnostic) : Diagnostic :=
  if 0 < d.line then { d with line := m.source d.line } else d

end LineMap

end EffectShader
