import EffectShader.Define.Basic
import EffectShader.Decimal.Shortest

/-!
# Sources for a strict compile

A real compiler sees the source with every material define at its most
restrictive value.
-/

namespace EffectShader

namespace Strict

def numberText (f : Float) : Text :=
  FloatText.write .plain f

def restrictiveValue? (d : Define) : Option Text :=
  match d.type with
  | .boolean => some "0"
  | .number =>
      match d.range with
      | some (low :: _) => some (numberText low)
      | _ => Define.defaultRange.head?.map numberText
  | .string => d.options.head?
  | .constant =>
      match d.default with
      | .null => none
      | v => some v.display

def defineLine? (d : Define) : Option Text :=
  (restrictiveValue? d).map fun v => "#define " ++ d.name ++ " " ++ v ++ "\n"

/-- The source with a version directive and its defines fixed. -/
def source (code : Text) (defines : List Define) : Text :=
  "#version 100\n" ++ (defines.filterMap defineLine?).flatten ++ code

end Strict

end EffectShader
