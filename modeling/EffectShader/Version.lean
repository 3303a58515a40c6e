import EffectShader.Text.Basic

/-!
# Language versions and extensions
-/

namespace EffectShader

/-- A GLSL version; its fields are bytes. -/
structure Version where
  major : UInt8
  minor : UInt8
  /-- The dialect of OpenGL ES and WebGL. -/
  es : Bool
  deriving DecidableEq, Repr

namespace Version

def lowByte (n : Int) : UInt8 :=
  (n % 256).toNat.toUInt8

/-- The version whose number is `n`.  The ES dialects are known by their numbers; every other
number is desktop GLSL. -/
def ofNumber (n : Int) : Version :=
  ⟨lowByte (n.tdiv 100), lowByte (n.tmod 100), n == 100 || n == 300 || n == 310 || n == 320⟩

def es100 : Version := ⟨1, 0, true⟩
def es300 : Version := ⟨3, 0, true⟩
def es310 : Version := ⟨3, 10, true⟩

def vulkan : Version := ⟨4, 60, false⟩

/-- The value of the macro `__VERSION__`. -/
def number (v : Version) : Nat :=
  v.major.toNat * 100 + v.minor.toNat

def numeric (v : Version) : Text :=
  let minor := Text.ofNat v.minor.toNat
  Text.ofNat v.major.toNat ++ (if v.minor < 10 then Byte.zero :: minor else minor)

def render (v : Version) : Text :=
  if v.es && 100 < v.number then v.numeric ++ " es" else v.numeric

def directive (v : Version) : Text :=
  "#version " ++ v.render

def hasLayoutBinding (v : Version) : Bool :=
  310 ≤ v.number

end Version

/-- An extension that generated code needs.  The directive is emitted where the condition, a
preprocessor expression, holds; an empty condition always holds. -/
structure Extension where
  name : Text
  behavior : Text
  condition : Text
  deriving DecidableEq, Repr

def Extension.directive (e : Extension) : Text :=
  "#extension " ++ e.name ++ ": " ++
    (if e.behavior.isEmpty then ("require" : Text) else e.behavior)

end EffectShader
