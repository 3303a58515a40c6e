import EffectShader.Token.Word

/-!
# GLSL types

What the pipeline has to know about a type: how a value of it is bound and how
much room it takes in a uniform block.
-/

namespace EffectShader

inductive TypeClass where
  | unknown
  | scalar
  | vector
  | matrix
  | samplerTexture
  | sampler
  | texture
  | image
  | subpassInput
  deriving DecidableEq, Repr

def TypeClass.label : TypeClass -> String
  | .unknown => "unknown"
  | .scalar => "scalar"
  | .vector => "vector"
  | .matrix => "matrix"
  | .samplerTexture => "sampler-texture"
  | .sampler => "sampler"
  | .texture => "texture"
  | .image => "image"
  | .subpassInput => "subpass-input"

/-- The component type of a scalar, vector or matrix. -/
inductive ScalarKind where
  | float
  | int
  | uint
  | bool
  deriving DecidableEq, Repr

def ScalarKind.label : ScalarKind -> String
  | .float => "float"
  | .int => "int"
  | .uint => "uint"
  | .bool => "bool"

inductive SampleType where
  | float
  | unfilterableFloat
  | depth
  | sint
  | uint
  deriving DecidableEq, Repr

def SampleType.label : SampleType -> String
  | .float => "float"
  | .unfilterableFloat => "unfilterable-float"
  | .depth => "depth"
  | .sint => "sint"
  | .uint => "uint"

structure GlslType where
  name : Text
  cls : TypeClass
  scalar : ScalarKind
  /-- Components of a vector, or of a matrix column. -/
  rows : Nat
  /-- Columns of a matrix; one for scalars and vectors. -/
  columns : Nat
  deriving DecidableEq, Repr

namespace GlslType

def isOpaque (t : GlslType) : Bool :=
  match t.cls with
  | .samplerTexture | .sampler | .texture | .image | .subpassInput => true
  | .unknown | .scalar | .vector | .matrix => false

/-- The bytes one element takes in a uniform block; matrix columns are padded to sixteen. -/
def size (t : GlslType) : Nat :=
  match t.cls with
  | .scalar => 4
  | .vector => 4 * t.rows
  | .matrix => 16 * t.columns
  | _ => 0

/-- The alignment in a uniform block: the packed size, sixteen for matrices.  The twelve of a
three-component vector is no legal alignment; layouts refuse it. -/
def alignment (t : GlslType) : Nat :=
  match t.cls with
  | .scalar => 4
  | .vector => 4 * t.rows
  | .matrix => 16
  | _ => 0

def sample (t : GlslType) : SampleType :=
  if Text.endsWith t.name "Shadow" then .depth
  else
    match t.scalar with
    | .int => .sint
    | .uint => .uint
    | .float | .bool => .float

/-!
# The table of types
-/

/-- A scalar type and its vectors; `tag` is the letter in front of `vec`. -/
def scalarFamily (name tag : Text) (kind : ScalarKind) : List GlslType :=
  ⟨name, .scalar, kind, 1, 1⟩ ::
    [2, 3, 4].map fun n => ⟨tag ++ "vec" ++ Text.ofNat n, .vector, kind, n, 1⟩

def matrixFamily (columns : Nat) : List GlslType :=
  let name : Text := "mat" ++ Text.ofNat columns
  ⟨name, .matrix, .float, columns, columns⟩ ::
    [2, 3, 4].map fun rows => ⟨name ++ "x" ++ Text.ofNat rows, .matrix, .float, rows, columns⟩

def descriptorClass (name : Text) : TypeClass :=
  let base :=
    match name with
    | b :: s => if b == Byte.of 'i' || b == Byte.of 'u' then s else name
    | [] => []
  if name == ("sampler" : Text) || name == ("samplerShadow" : Text) then .sampler
  else if Text.startsWith base "sampler" then .samplerTexture
  else if Text.startsWith base "texture" then .texture
  else if Text.startsWith base "image" || Text.startsWith name "image" then .image
  else if Text.startsWith base "subpassInput" then .subpassInput
  else .unknown

def descriptorScalar (name : Text) : ScalarKind :=
  if Text.startsWith name "i" && !Text.startsWith name "image" then .int
  else if Text.startsWith name "u" then .uint
  else .float

def descriptor? (name : Text) : Option GlslType :=
  match descriptorClass name with
  | .unknown => none
  | cls => some ⟨name, cls, descriptorScalar name, 0, 0⟩

def table : List GlslType :=
  scalarFamily "float" "" .float ++ scalarFamily "int" "i" .int ++
    scalarFamily "uint" "u" .uint ++ scalarFamily "bool" "b" .bool ++
    [2, 3, 4].flatMap matrixFamily ++ Word.keywords.filterMap descriptor?

def lookup? (name : Text) : Option GlslType :=
  table.find? fun t => t.name == name

end GlslType

end EffectShader
