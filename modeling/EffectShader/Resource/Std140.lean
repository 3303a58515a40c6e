import EffectShader.Diagnostic.Basic
import EffectShader.Resource.Basic

/-!
# The std140 layout of uniform blocks

Members are placed one after the other.  A layout that would need padding is
refused, as are arrays of elements narrower than sixteen bytes and
three-component vectors.  Offsets are 64-bit words.
-/

namespace EffectShader

namespace Std140

def roundUp (n align : Int64) : Int64 :=
  (n + align - 1) / align * align

inductive Obstacle where
  | unsupportedType (type : Text)
  | unsizedArray
  | narrowArray (alignment : Nat)
  | threeComponents
  | padding (bytes : Int64)
  deriving DecidableEq, Repr

def Obstacle.message (block member : Text) : Obstacle -> Text
  | .unsupportedType type =>
      "unsupported type '" ++ type ++ "' for member '" ++ member ++ "' of block '" ++ block ++ "'"
  | .unsizedArray =>
      "member '" ++ member ++ "' of block '" ++ block ++ "' must have a constant array length"
  | .narrowArray alignment =>
      "array member '" ++ member ++ "' of block '" ++ block ++ "' has a base alignment of " ++
        Text.ofNat alignment ++
        " bytes, arrays must be 16-byte aligned (use a vec4 element type)"
  | .threeComponents =>
      "member '" ++ member ++ "' of block '" ++ block ++
        "' has a base alignment of 12 bytes, use vec4 instead of vec3"
  | .padding bytes =>
      "member '" ++ member ++ "' of block '" ++ block ++ "' needs " ++ Text.ofInt bytes.toInt ++
        " bytes of implicit padding, reorder the members or pad explicitly"

def place (offset : Int64) (m : Member) : Except Obstacle Int64 :=
  match GlslType.lookup? m.type with
  | none => .error (.unsupportedType m.type)
  | some t =>
      if t.isOpaque then .error (.unsupportedType m.type)
      else if m.isArray && m.count == 0 then .error .unsizedArray
      else if 1 < m.count && t.alignment < 16 then .error (.narrowArray t.alignment)
      else if t.alignment == 12 then .error .threeComponents
      else
        let align : Int64 := if m.isArray then 16 else Int64.ofNat t.alignment
        if offset % align != 0 then .error (.padding (align - offset % align))
        else
          let size := Int64.ofNat t.size
          .ok (offset + if m.isArray then roundUp size 16 * m.count else size)

/-- Places members from an offset on; returns them with their offsets and the end of the last. -/
def placeAll (block : Text) (line : Int) (offset : Int64) :
    List Member -> Except Diagnostic (List Member × Int64)
  | [] => .ok ([], offset)
  | m :: ms =>
      match place offset m with
      | .error o => .error (Diagnostic.error line (o.message block m.name))
      | .ok next =>
          match placeAll block line next ms with
          | .error e => .error e
          | .ok (placed, last) => .ok ({ m with offset } :: placed, last)

/-- Lays out a block: its members with their offsets, and its size, a multiple of sixteen. -/
def layOut (block : Text) (line : Int) (members : List Member) :
    Except Diagnostic (List Member × Int64) :=
  (placeAll block line 0 members).map fun (placed, last) => (placed, roundUp last 16)

end Std140

end EffectShader
