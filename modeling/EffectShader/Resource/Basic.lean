import EffectShader.Declaration.Basic
import EffectShader.GlslType
import EffectShader.Stage

/-!
# Reflected resources

What a shader program asks of its surroundings, in categories.  A resource is
named, belongs to one category and is visible to a set of stages.
-/

namespace EffectShader

/-- How often a resource is expected to change. -/
inductive Rate where
  | perInstance
  | perBatch
  | perPhase
  | perPass
  deriving DecidableEq, Repr

namespace Rate

def label : Rate -> String
  | .perInstance => "instance"
  | .perBatch => "batch"
  | .perPhase => "phase"
  | .perPass => "pass"

def all : List Rate := [perInstance, perBatch, perPhase, perPass]

def ofLabel? (word : Text) : Option Rate :=
  all.find? fun r => Text.ofString r.label == word

end Rate

/-- The memory access of storage buffers and images. -/
inductive Access where
  | none
  | readOnly
  | writeOnly
  | readWrite
  deriving DecidableEq, Repr

def Access.label : Access -> String
  | .none => "none"
  | .readOnly => "read-only"
  | .writeOnly => "write-only"
  | .readWrite => "read-write"

/-- The list that a resource belongs to. -/
inductive Category where
  | block
  | samplerTexture
  | sampler
  | texture
  | image
  | subpassInput
  | buffer
  | vertexInput
  | varying
  | fragColor
  | uniform
  deriving DecidableEq, Repr

namespace Category

def label : Category -> String
  | .block => "blocks"
  | .samplerTexture => "samplerTextures"
  | .sampler => "samplers"
  | .texture => "textures"
  | .image => "images"
  | .subpassInput => "subpassInputs"
  | .buffer => "buffers"
  | .vertexInput => "attributes"
  | .varying => "varyings"
  | .fragColor => "fragColors"
  | .uniform => "uniforms"

/-- All categories in the order of output. -/
def all : List Category :=
  [block, samplerTexture, sampler, texture, image, subpassInput, buffer, vertexInput, varying,
   fragColor, uniform]

/-- Resources of the category are numbered by location rather than by binding. -/
def usesLocation : Category -> Bool
  | .vertexInput | .varying | .fragColor => true
  | _ => false

def isDescriptor : Category -> Bool
  | .vertexInput | .varying | .fragColor | .uniform => false
  | _ => true

end Category

structure Member where
  name : Text
  type : Text
  precision : Text
  /-- The length of an array; one for other members, zero for an array without a length. -/
  count : Int64
  isArray : Bool
  /-- The byte offset in a uniform block. -/
  offset : Int64
  deriving DecidableEq, Repr

structure Param where
  name : Text
  category : Category
  /-- The type, or the name of a block. -/
  type : Text
  /-- The length of an array; one for other resources, zero for an array without a known length. -/
  count : Int64
  /-- The length expression of an array whose length is only known at run time. -/
  countExpr : Text
  isArray : Bool
  precision : Text
  /-- The macros that gate the declaration; `none` once records that share none were merged. -/
  defines : Option (List Text)
  stages : Stages
  rate : Rate
  sample : SampleType
  access : Access
  members : List Member
  /-- The size of a uniform block in bytes. -/
  size : Int64
  instanceName : Text
  /-- The pipeline provides the resource. -/
  builtin : Bool
  /-- The pipeline provides it in the global set. -/
  inGlobalSet : Bool
  line : Nat
  layout : Option Layout
  binding : Option Int
  location : Option Int
  set : Int
  deriving DecidableEq, Repr

namespace Param

def new (name : Text) (category : Category) : Param :=
  { name, category
    type := [], count := 1, countExpr := [], isArray := false, precision := []
    defines := none, stages := Stages.none, rate := .perBatch, sample := .float, access := .none
    members := [], size := 0, instanceName := [], builtin := false, inGlobalSet := false
    line := 0, layout := none, binding := none, location := none, set := 0 }

def vectorSlots (p : Param) : Int64 :=
  if p.category == .block then (p.size + 15) / 16
  else
    match GlslType.lookup? p.type with
    | none => 0
    | some t =>
        if t.isOpaque then 0
        else
          let count := max p.count 1
          if t.cls == .matrix then Int64.ofNat t.columns * count else count

/-- The resource is found under this category and name. -/
def isNamed (p : Param) (c : Category) (name : Text) : Bool :=
  p.category == c && p.name == name

end Param

def isBuiltinName (name : Text) : Bool :=
  Text.startsWith name "cc_" || Text.startsWith name "CC"

/-!
# Shader information

All resources of a program, each name once in a category.
-/

structure ShaderInfo where
  params : List Param
  deriving DecidableEq, Repr

namespace ShaderInfo

def empty : ShaderInfo := ⟨[]⟩

/-- The resources of a category in the order of declaration. -/
def list (s : ShaderInfo) (c : Category) : List Param :=
  s.params.filter fun p => p.category == c

/-- All resources, category by category. -/
def all (s : ShaderInfo) : List Param :=
  Category.all.flatMap s.list

def find? (s : ShaderInfo) (c : Category) (name : Text) : Option Param :=
  s.params.find? fun p => p.isNamed c name

/-- The resource of a name in the first category that has one. -/
def lookup? (s : ShaderInfo) (name : Text) : Option Param :=
  Category.all.findSome? fun c => s.find? c name

def commonDefines (a b : List Text) : Option (List Text) :=
  let common := a.filter b.contains
  if common.isEmpty then none else some common

def sameMember (a b : Member) : Bool :=
  a.name == b.name && a.type == b.type && a.count == b.count

def sameMembers (as bs : List Member) : Bool :=
  as.length == bs.length && (as.zip bs).all fun (a, b) => sameMember a b

structure Conflict where
  category : Category
  name : Text
  firstLine : Nat
  secondLine : Nat
  deriving DecidableEq, Repr

def Conflict.message (c : Conflict) : Text :=
  let lines : Text := "(lines " ++ Text.ofNat c.firstLine ++ " and " ++ Text.ofNat c.secondLine ++
    ")"
  match c.category with
  | .block | .buffer =>
      Text.withoutEnding (Text.ofString c.category.label) "s" ++ " '" ++ c.name ++
        "' is declared with different members " ++ lines
  | _ => "'" ++ c.name ++ "' is declared with different types " ++ lines

/-- The two records can stand for the same resource. -/
def agrees (a b : Param) : Bool :=
  if a.category == .block || a.category == .buffer then sameMembers a.members b.members
  else a.type == b.type && a.count == b.count

/-- The first record enriched by what a second record of the same resource says. -/
def combine (a b : Param) : Param :=
  { a with
    stages := a.stages.union b.stages
    defines := commonDefines (a.defines.getD []) (b.defines.getD [])
    layout := a.layout.or b.layout }

/-- Adds a record: a new resource goes to the end, one that is present is enriched. -/
def add (s : ShaderInfo) (p : Param) : Except Conflict ShaderInfo :=
  match s.find? p.category p.name with
  | none => .ok ⟨s.params ++ [p]⟩
  | some old =>
      if agrees old p then
        .ok ⟨s.params.map fun q => if q.isNamed p.category p.name then combine q p else q⟩
      else .error ⟨p.category, p.name, old.line, p.line⟩

/-- Adds records up to the first that conflicts. -/
def addAll (s : ShaderInfo) : List Param -> ShaderInfo × Option Conflict
  | [] => (s, none)
  | p :: ps =>
      match s.add p with
      | .ok s => addAll s ps
      | .error e => (s, some e)

def merge (s other : ShaderInfo) : ShaderInfo × Option Conflict :=
  s.addAll other.all

/-- Removes resources; returns what remains and what was removed. -/
def remove (s : ShaderInfo) (drop : Param -> Bool) : ShaderInfo × List Param :=
  (⟨s.params.filter fun p => !drop p⟩, s.all.filter drop)

/-!
# Statistics
-/

def uniformVectors (s : ShaderInfo) (stage : Stages) : Int64 :=
  ((s.list .block ++ s.list .uniform).filter fun p => p.stages.meets stage).foldl
    (fun n p => n + p.vectorSlots) 0

def statistics (s : ShaderInfo) : List (Text × Int64) :=
  let present := s.params.foldl (fun stages p => stages.union p.stages) Stages.none
  [(("CC_EFFECT_USED_COMPUTE_UNIFORM_VECTORS" : Text), Stages.computeOnly),
   ("CC_EFFECT_USED_FRAGMENT_UNIFORM_VECTORS", Stages.fragmentOnly),
   ("CC_EFFECT_USED_VERTEX_UNIFORM_VECTORS", Stages.vertexOnly)].filterMap
    fun (key, stage) => if present.meets stage then some (key, s.uniformVectors stage) else none

end ShaderInfo

end EffectShader
