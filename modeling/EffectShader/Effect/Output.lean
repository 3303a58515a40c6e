import EffectShader.Define.Basic
import EffectShader.Effect.Kind

/-!
# Compiled effects

The texts of every stage in three dialects and the resources that all stages
share.  Resources that change once per pass come from the render pipeline and
are only listed in the group of their rate; resources that the pipeline
provides by name are listed on their own.
-/

namespace EffectShader

structure StageOutput where
  stage : Stages
  name : Text
  entry : Text
  /-- GLSL ES 1.00; empty for compute stages. -/
  glsl1 : Text
  /-- GLSL ES 3.00, or 3.10 for compute stages. -/
  glsl3 : Text
  /-- Desktop GLSL for Vulkan. -/
  glsl4 : Text
  deriving DecidableEq, Repr

/-- Resources bound through descriptor sets, by category. -/
structure DescriptorLists where
  blocks : List Param
  samplerTextures : List Param
  samplers : List Param
  textures : List Param
  buffers : List Param
  images : List Param
  subpassInputs : List Param
  deriving DecidableEq, Repr

namespace DescriptorLists

def ofParams (ps : List Param) : DescriptorLists :=
  let only (c : Category) := ps.filter fun p => p.category == c
  { blocks := only .block
    samplerTextures := only .samplerTexture
    samplers := only .sampler
    textures := only .texture
    buffers := only .buffer
    images := only .image
    subpassInputs := only .subpassInput }

end DescriptorLists

/-- Resources that the pipeline provides in one scope. -/
structure BuiltinLists where
  blocks : List Param
  samplerTextures : List Param
  buffers : List Param
  images : List Param
  deriving DecidableEq, Repr

namespace BuiltinLists

def ofParams (ps : List Param) : BuiltinLists :=
  let only (cs : List Category) := ps.filter fun p => cs.contains p.category
  { blocks := only [.block]
    samplerTextures := only [.samplerTexture, .texture, .sampler]
    buffers := only [.buffer]
    images := only [.image] }

end BuiltinLists

structure ResourceLists where
  descriptors : DescriptorLists
  vertexInputs : List Param
  varyings : List Param
  fragColors : List Param
  uniforms : List Param
  /-- The descriptors of each rate, in the order of the rates. -/
  groups : List (Rate × DescriptorLists)
  globals : BuiltinLists
  locals : BuiltinLists
  deriving DecidableEq, Repr

namespace ResourceLists

def isPassDescriptor (p : Param) : Bool :=
  p.category.isDescriptor && p.rate == .perPass

/-- The pipeline supplies the resource by name. -/
def isBuiltinDescriptor (p : Param) : Bool :=
  p.category.isDescriptor && p.rate != .perPass && p.builtin

/-- The effect itself supplies the resource. -/
def isOwn (p : Param) : Bool :=
  !isPassDescriptor p && !isBuiltinDescriptor p

def isGrouped (p : Param) : Bool :=
  p.category.isDescriptor && (isPassDescriptor p || isOwn p)

def ofInfo (info : ShaderInfo) : ResourceLists :=
  let all := info.all
  let own := all.filter isOwn
  let only (c : Category) := own.filter fun p => p.category == c
  let builtin := all.filter isBuiltinDescriptor
  { descriptors := .ofParams own
    vertexInputs := only .vertexInput
    varyings := only .varying
    fragColors := only .fragColor
    uniforms := only .uniform
    groups := Rate.all.map fun r =>
      (r, .ofParams (all.filter fun p => isGrouped p && p.rate == r))
    globals := .ofParams (builtin.filter fun p => p.inGlobalSet)
    locals := .ofParams (builtin.filter fun p => !p.inGlobalSet) }

end ResourceLists

structure EffectOutput where
  name : Text
  kind : EffectKind
  hash : UInt32
  shaders : List StageOutput
  resources : ResourceLists
  defines : List Define
  statistics : List (Text × Int64)

namespace EffectOutput

def shader? (shaders : List StageOutput) (stage : Stages) : Option StageOutput :=
  shaders.find? fun s => s.stage == stage

end EffectOutput

end EffectShader
