import EffectShader.Condition.Eval
import EffectShader.Declaration.Parser
import EffectShader.Define.Extraction
import EffectShader.Resource.Std140

/-!
# Reflecting a shader stage

The interface declarations of one stage become resources.
-/

namespace EffectShader

namespace Reflect

/-!
# Categories of declarations
-/

def uniformCategory (type : Text) : Category :=
  match GlslType.lookup? type with
  | none => .uniform
  | some t =>
      match t.cls with
      | .samplerTexture => .samplerTexture
      | .sampler => .sampler
      | .texture => .texture
      | .image => .image
      | .subpassInput => .subpassInput
      | _ => .uniform

inductive CategoryError where
  | looseBuffer
  deriving DecidableEq, Repr

def CategoryError.message : CategoryError -> Text
  | .looseBuffer => "storage buffers must be declared as blocks"

/-- The category of a variable declaration in a stage; `none` for declarations that are not
reflected. -/
def categorize (d : Declaration) (stage : Stages) : Except CategoryError (Option Category) :=
  match d.storage with
  | .uniform => .ok (some (uniformCategory d.type))
  | .buffer => .error .looseBuffer
  | .input | .attribute =>
      if stage == Stages.vertexOnly then .ok (some .vertexInput)
      else if stage == Stages.fragmentOnly then .ok (some .varying)
      else .ok none
  | .varying => .ok (some .varying)
  | .output =>
      if stage == Stages.vertexOnly then .ok (some .varying)
      else if stage == Stages.fragmentOnly then .ok (some .fragColor)
      else .ok none
  | .both => if stage == Stages.fragmentOnly then .ok (some .fragColor) else .ok none

/-!
# Array lengths
-/

/-- The value of a constant expression without macros; the error is the message. -/
def constant (source : Text) : Except Text Value :=
  match Condition.parse source with
  | .error e => .error e.message
  | .ok c =>
      match Condition.eval (fun _ => none) c with
      | .error e => .error e.message
      | .ok v => .ok v

def arrayLength (name source : Text) (line : Nat) : Except Diagnostic (Int64 × Text) :=
  if source.isEmpty then .ok (0, [])
  else
    let other (problem : Text) : Except Diagnostic (Int64 × Text) :=
      if isBuiltinName name then .ok (0, source)
      else .error (Diagnostic.error line ("array length of '" ++ name ++ "' must be a " ++ problem))
    let notPositive : Text := "positive integer, got '" ++ source ++ "'"
    match constant source with
    | .ok (.int n) => if 0 < n then .ok (n, []) else other notPositive
    | .ok _ => other notPositive
    | .error e => other ("constant expression: " ++ e)

/-!
# Variables
-/

def ofVariable (d : Declaration) (category : Category) (v : Variable) :
    Except Diagnostic Param :=
  let p := { Param.new v.name category with
    type := d.type
    precision := d.precision
    line := v.line
    isArray := v.length.isSome }
  match v.length with
  | none => .ok p
  | some source =>
      match arrayLength v.name source v.line with
      | .error e => .error e
      | .ok (count, countExpr) => .ok { p with count, countExpr }

/-- The resources of the variables of a declaration; built-in variables are none. -/
def ofVariables (d : Declaration) (stage : Stages) : List Variable -> Except Diagnostic (List Param)
  | [] => .ok []
  | v :: vs =>
      if Text.startsWith v.name "gl_" then ofVariables d stage vs
      else
        match categorize d stage with
        | .error e => .error (Diagnostic.error v.line ("'" ++ v.name ++ "': " ++ e.message))
        | .ok none => ofVariables d stage vs
        | .ok (some category) =>
            match ofVariable d category v with
            | .error e => .error e
            | .ok p => (ofVariables d stage vs).map (p :: ·)

/-!
# Blocks
-/

def firstName (m : BlockMember) : Text :=
  match m.vars with
  | [] => m.type
  | v :: _ => v.name

def memberProblem? (block : Text) (category : Category) (m : BlockMember) : Option Text :=
  match GlslType.lookup? m.type with
  | some t =>
      if t.isOpaque then
        some (Text.ofString t.cls.label ++ " '" ++ firstName m ++
          "' cannot be declared inside block '" ++ block ++ "'")
      else none
  | none =>
      if category == .block then
        some ("struct member '" ++ firstName m ++ "' of type '" ++ m.type ++
          "' is not allowed in block '" ++ block ++ "'")
      else none

/-- A member of a block; in a built-in block the length of an array may be unknown. -/
def ofMemberVariable (block : Text) (m : BlockMember) (v : Variable) : Except Diagnostic Member :=
  let member : Member := ⟨v.name, m.type, m.precision, 1, v.length.isSome, 0⟩
  match v.length with
  | none => .ok member
  | some source =>
      match arrayLength v.name source v.line with
      | .ok (count, _) => .ok { member with count }
      | .error e => if isBuiltinName block then .ok { member with count := 0 } else .error e

def ofMembers (block : Text) (category : Category) :
    List BlockMember -> Except Diagnostic (List Member)
  | [] => .ok []
  | m :: ms =>
      match memberProblem? block category m with
      | some problem => .error (Diagnostic.error m.line problem)
      | none =>
          match m.vars.mapM (ofMemberVariable block m) with
          | .error e => .error e
          | .ok members => (ofMembers block category ms).map (members ++ ·)

/-- An array of the block gets its length at run time. -/
def isRuntimeSized (members : List Member) : Bool :=
  members.any fun m => m.isArray && m.count == 0

def ofBlock (d : Declaration) : Except Diagnostic Param :=
  let category : Category := if d.storage == .buffer then .buffer else .block
  match ofMembers d.type category d.members with
  | .error e => .error e
  | .ok members =>
      let p := { Param.new d.type category with
        type := d.type
        instanceName := d.instanceName
        line := d.line
        precision := d.precision
        members }
      if category == .block && !(isBuiltinName d.type && isRuntimeSized members) then
        (Std140.layOut d.type d.line members).map fun (members, size) => { p with members, size }
      else .ok p

/-!
# Attributes of resources
-/

/-- What reflection takes into account beside the declarations. -/
structure Options where
  stage : Stages
  pragmas : Extraction
  /-- The built-in resources of the global set. -/
  globals : List Text

def accessOf (qualifiers : List Text) : Access :=
  qualifiers.foldl
    (fun access q =>
      if q == ("readonly" : Text) then .readOnly
      else if q == ("writeonly" : Text) then .writeOnly
      else access)
    .readWrite

def sampleOf (pragmas : Extraction) (p : Param) : SampleType :=
  match GlslType.lookup? p.type with
  | none => p.sample
  | some t =>
      if !t.isOpaque then p.sample
      else if pragmas.unfilterable.contains p.name then .unfilterableFloat
      else t.sample

/-- Completes a resource by the layout of its declaration, its gates, its rate, its sample type and
access, and whether the pipeline provides it. -/
def tag (o : Options) (d : Declaration) (p : Param) : Param :=
  let rate := (o.pragmas.rates.get? p.name).getD p.rate
  let mayBeProvided :=
    p.category.isDescriptor || p.category == .uniform || p.category == .vertexInput
  let builtin := mayBeProvided && (isBuiltinName p.name || rate == .perPass)
  { p with
    stages := o.stage
    layout := d.layout
    defines := some ((o.pragmas.gatesAt p.line).getD [])
    rate
    set := (layoutInt? d.layout "set").getD p.set
    sample := sampleOf o.pragmas p
    access :=
      if p.category == .buffer || p.category == .image then accessOf d.qualifiers else p.access
    builtin
    inGlobalSet := builtin && o.globals.contains p.name }

/-- Applies the pragma that says whether the pipeline provides the resources of a declaration. -/
def scope (inGlobalSet : Option Bool) (p : Param) : Param :=
  match inGlobalSet with
  | none => p
  | some inGlobalSet => { p with builtin := true, inGlobalSet }

def paramsOf (d : Declaration) (stage : Stages) : Except Diagnostic (List Param) :=
  if d.isBlock then (ofBlock d).map fun p => [p] else ofVariables d stage d.vars

/-- Adds the resources of declarations; `previous` is the line of the declaration before them. -/
def collect (o : Options) (info : ShaderInfo) (previous : Nat) :
    List Declaration -> Except Diagnostic ShaderInfo
  | [] => .ok info
  | d :: ds =>
      match paramsOf d o.stage with
      | .error e => .error e
      | .ok params =>
          let inGlobalSet := o.pragmas.builtinScope? d.line previous
          match info.addAll (params.map fun p => scope inGlobalSet (tag o d p)) with
          | (_, some conflict) =>
              .error (Diagnostic.error conflict.secondLine conflict.message)
          | (info, none) => collect o info d.line ds

end Reflect

/-- The resources that one stage declares. -/
def reflect (o : Reflect.Options) (ts : List Token) : Except Diagnostic ShaderInfo :=
  match Declaration.ofTokens ts with
  | .error e => .error e
  | .ok ds => Reflect.collect o ShaderInfo.empty 0 ds

end EffectShader
