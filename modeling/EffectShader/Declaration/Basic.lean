import EffectShader.Numeral
import EffectShader.Token.Basic

/-!
# Interface declarations

The declarations through which a shader meets its surroundings: uniforms,
inputs, outputs, buffers and blocks, with the places of their parts in the
source.
-/

namespace EffectShader

inductive Storage where
  | uniform
  | input
  | output
  | both
  | buffer
  | attribute
  | varying
  deriving DecidableEq, Repr

namespace Storage

def keyword : Storage -> String
  | .uniform => "uniform"
  | .input => "in"
  | .output => "out"
  | .both => "inout"
  | .buffer => "buffer"
  | .attribute => "attribute"
  | .varying => "varying"

def all : List Storage :=
  [.uniform, .input, .output, .both, .buffer, .attribute, .varying]

def ofKeyword? (word : Text) : Option Storage :=
  all.find? fun s => Text.ofString s.keyword == word

end Storage

/-- One entry of a layout qualifier, such as `binding = 2` or `std140`; an entry without a value has
the empty one. -/
structure LayoutItem where
  key : Text
  value : Text
  deriving DecidableEq, Repr

def LayoutItem.render (i : LayoutItem) : Text :=
  if i.value.isEmpty then i.key else i.key ++ " = " ++ i.value

structure Layout where
  items : List LayoutItem
  /-- Where the word `layout` starts. -/
  start : Nat
  /-- The offset just past the closing parenthesis. -/
  stop : Nat
  deriving DecidableEq, Repr

namespace Layout

def value? (l : Layout) (key : Text) : Option Text :=
  (l.items.find? fun i => i.key == key).map (·.value)

def has (l : Layout) (key : Text) : Bool :=
  l.items.any fun i => i.key == key

def int? (l : Layout) (key : Text) : Option Int :=
  (l.value? key).bind Numeral.decimal?

def render (l : Layout) : Text :=
  "layout(" ++ Text.joinWith ", " (l.items.map LayoutItem.render) ++ ")"

end Layout

/-- The integer that an optional qualifier gives to a name. -/
def layoutInt? (l : Option Layout) (key : Text) : Option Int :=
  l.bind fun l => l.int? key

structure Variable where
  name : Text
  /-- The length between the brackets of an array, which may be empty. -/
  length : Option Text
  line : Nat
  /-- Where the name starts. -/
  start : Nat
  /-- The offset past the brackets and the initializer. -/
  stop : Nat
  deriving DecidableEq, Repr

structure BlockMember where
  precision : Text
  type : Text
  vars : List Variable
  line : Nat
  deriving DecidableEq, Repr

inductive DeclarationBody where
  | variables (vars : List Variable)
  | block (members : List BlockMember) (instanceName : Text)
  deriving DecidableEq, Repr

structure Declaration where
  storage : Storage
  layout : Option Layout
  /-- Interpolation, memory and invariance qualifiers. -/
  qualifiers : List Text
  precision : Text
  /-- The type of the variables, or the name of the block. -/
  type : Text
  typeOffset : Nat
  body : DeclarationBody
  /-- Where the first token starts. -/
  start : Nat
  /-- The offset just past the semicolon. -/
  stop : Nat
  line : Nat
  deriving DecidableEq, Repr

namespace Declaration

def isBlock (d : Declaration) : Bool :=
  match d.body with
  | .block _ _ => true
  | .variables _ => false

def vars (d : Declaration) : List Variable :=
  match d.body with
  | .variables vs => vs
  | .block _ _ => []

def members (d : Declaration) : List BlockMember :=
  match d.body with
  | .block ms _ => ms
  | .variables _ => []

def instanceName (d : Declaration) : Text :=
  match d.body with
  | .block _ name => name
  | .variables _ => []

end Declaration

end EffectShader
