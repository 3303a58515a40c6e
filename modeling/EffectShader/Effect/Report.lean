import EffectShader.Document.Basic
import EffectShader.Effect.Output

/-!
# Compiled effects as documents
-/

namespace EffectShader

open Document (Fields field fieldIf)

namespace Report

def ofInt64 (n : Int64) : Document :=
  .int n.toInt

def ofLabel (s : String) : Document :=
  .text s

def listOf (f : Param -> Document) (ps : List Param) : Document :=
  .growing (ps.map f)

def member (m : Member) : Document :=
  .ofFields [field "name" (.text m.name), field "type" (.text m.type),
    field "count" (ofInt64 m.count), fieldIf (m.offset != 0) "offset" (ofInt64 m.offset)]

def accessField (p : Param) : Fields :=
  fieldIf (p.access != .none) "memoryAccess" (ofLabel p.access.label)

def stagesField (p : Param) : Fields :=
  field "stageFlags" (.text p.stages.render)

def bindingFields (p : Param) : Fields :=
  field "binding" (.int (p.binding.getD (-1))) ++ field "set" (.int p.set) ++ stagesField p ++
    field "rate" (ofLabel p.rate.label)

def block (p : Param) : Document :=
  .ofFields [field "name" (.text p.name), field "defines" (.texts p.defines), bindingFields p,
    fieldIf (p.size != 0) "size" (ofInt64 p.size), accessField p,
    field "members" (.list (p.members.map member)),
    fieldIf (!p.instanceName.isEmpty) "instance" (.text p.instanceName)]

def typedFields (p : Param) : Fields :=
  field "name" (.text p.name) ++ field "type" (.text p.type) ++ field "count" (ofInt64 p.count) ++
    field "defines" (.texts p.defines)

def resource (p : Param) : Document :=
  .ofFields [typedFields p, bindingFields p, field "sampleType" (ofLabel p.sample.label),
    accessField p]

def interface (p : Param) : Document :=
  .ofFields [typedFields p, field "location" (.int (p.location.getD (-1))), stagesField p]

def uniform (p : Param) : Document :=
  .ofFields [typedFields p, stagesField p]

def descriptorFields (l : DescriptorLists) : Fields :=
  field "blocks" (listOf block l.blocks) ++
  field "samplerTextures" (listOf resource l.samplerTextures) ++
  field "samplers" (listOf resource l.samplers) ++
  field "textures" (listOf resource l.textures) ++
  field "buffers" (listOf block l.buffers) ++
  field "images" (listOf resource l.images) ++
  field "subpassInputs" (listOf resource l.subpassInputs)

def group (g : Rate × DescriptorLists) : Document :=
  .ofFields [field "rate" (ofLabel g.1.label), descriptorFields g.2]

def builtin (p : Param) : Document :=
  .ofFields [field "name" (.text p.name), field "defines" (.texts p.defines)]

def builtins (l : BuiltinLists) : Document :=
  .ofFields [field "blocks" (listOf builtin l.blocks),
    field "samplerTextures" (listOf builtin l.samplerTextures),
    field "buffers" (listOf builtin l.buffers), field "images" (listOf builtin l.images)]

def shader (s : StageOutput) : Document :=
  .ofFields [field "stage" (.text s.stage.render), field "name" (.text s.name),
    field "entry" (.text s.entry), fieldIf (!s.glsl1.isEmpty) "glsl1" (.text s.glsl1),
    field "glsl3" (.text s.glsl3), field "glsl4" (.text s.glsl4)]

/-- The value that authors start with, if there is one. -/
def defaultField : Data -> Fields
  | .null => []
  | v => field "default" (.ofData v)

def define (d : Define) : Document :=
  let range := d.range.getD []
  let editor := d.editor.getD []
  .ofFields [field "name" (.text d.name), field "type" (ofLabel d.type.label),
    fieldIf (!range.isEmpty) "range" (.list (range.map .float)),
    fieldIf (!d.options.isEmpty) "options" (.list (d.options.map .text)),
    defaultField d.default,
    fieldIf (!editor.isEmpty) "editor"
      (.textMap (editor.map fun entry => (entry.1, .ofData entry.2))),
    field "defines" (.texts d.defines),
    d.rate.elim [] fun r => field "rate" (ofLabel r.label)]

def statistics (entries : List (Text × Int64)) : Document :=
  .textMap (entries.map fun entry => (entry.1, ofInt64 entry.2))

def effectFields (o : EffectOutput) : Fields :=
  field "name" (.text o.name) ++ field "kind" (ofLabel o.kind.label) ++
    field "hash" (.int o.hash.toNat) ++ field "shaders" (.growing (o.shaders.map shader))

def interfaceFields (r : ResourceLists) : Fields :=
  field "attributes" (listOf interface r.vertexInputs) ++
  field "varyings" (listOf interface r.varyings) ++
  field "fragColors" (listOf interface r.fragColors) ++
  fieldIf (!r.uniforms.isEmpty) "uniforms" (listOf uniform r.uniforms)

end Report

def EffectOutput.toDocument (o : EffectOutput) : Document :=
  let r := o.resources
  .ofFields [Report.effectFields o, Report.descriptorFields r.descriptors,
    Report.interfaceFields r, field "descriptors" (.list (r.groups.map Report.group)),
    field "defines" (.growing (o.defines.map Report.define)),
    field "builtins" (.ofFields [field "globals" (Report.builtins r.globals),
      field "locals" (Report.builtins r.locals)]),
    field "statistics" (Report.statistics o.statistics)]

end EffectShader
