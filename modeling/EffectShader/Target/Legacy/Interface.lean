import EffectShader.Declaration.Parser
import EffectShader.Edit
import EffectShader.Resource.Basic
import EffectShader.Table

/-!
# The interface of a shader in GLSL ES 1.00

Members of uniform blocks become plain uniforms, inputs and outputs become
attributes and varyings, and fragment outputs become entries of the built-in
outputs.
-/

namespace EffectShader

namespace Legacy

def wordCount (ts : List Token) (word : Text) : Nat :=
  ts.countP fun t => t.isWord && t.text == word

/-- A qualifier before what follows it; nothing if there is none. -/
def spaced (qualifier : Text) : Text :=
  if qualifier.isEmpty then [] else qualifier ++ " "

def memberUniform (code : Text) (m : BlockMember) (v : Variable) : Text :=
  "uniform " ++ spaced m.precision ++ m.type ++ " " ++
    Text.slice code v.start v.stop ++ ";"

def unpackBlock (code : Text) (ts : List Token) (d : Declaration) : Text :=
  Text.joinWith " " <| d.members.flatMap fun m =>
    (m.vars.filter fun v => 2 ≤ wordCount ts v.name).map (memberUniform code m)

def variablesText (code : Text) (d : Declaration) : Text :=
  match d.vars.head?, d.vars.getLast? with
  | some first, some last => Text.slice code first.start last.stop
  | _, _ => []

def redeclare (code : Text) (d : Declaration) (storage : Text) : Text :=
  let invariants : List Text := d.qualifiers.filter (· == ("invariant" : Text))
  storage ++ " " ++ (invariants.map spaced).flatten ++
    spaced d.precision ++ d.type ++ " " ++
    variablesText code d ++ ";"

def isFragmentOutput (stage : Stages) (d : Declaration) : Bool :=
  !d.isBlock && stage != .vertexOnly && (d.storage == .output || d.storage == .both)

/-- The text that takes the place of a declaration; `none` if it stays. -/
def substitute? (code : Text) (ts : List Token) (stage : Stages) (d : Declaration) : Option Text :=
  if d.isBlock then
    if d.storage == .uniform then some (unpackBlock code ts d) else none
  else
    match d.storage with
    | .uniform | .buffer => none
    | .input | .attribute =>
        some (redeclare code d (if stage == .vertexOnly then "attribute" else "varying"))
    | .varying => some (redeclare code d "varying")
    | .output | .both =>
        some (if stage == .vertexOnly then redeclare code d "varying" else [])

/-- Replaces a declaration and adds the line ends that it had. -/
def declarationEdit? (code : Text) (ts : List Token) (stage : Stages) (d : Declaration) :
    Option Edit :=
  (substitute? code ts stage d).map fun text =>
    ⟨d.start, d.stop, text ++ Edit.blank (Text.slice code d.start d.stop)⟩

/-- The instance names of uniform blocks, which no longer qualify the members. -/
def instanceNames (ds : List Declaration) : List Text :=
  (ds.filter fun d => d.isBlock && d.storage == .uniform && !d.instanceName.isEmpty).map
    Declaration.instanceName

def uniformTypes (ds : List Declaration) : Table Text :=
  ((ds.filter fun d => !d.isBlock && d.storage == .uniform).flatMap fun d =>
    d.vars.map fun v => (v.name, d.type)).foldl (fun t entry => t.put entry.1 entry.2) []

/-!
# Fragment outputs
-/

def knownLocation? (info : Option ShaderInfo) (d : Declaration) (v : Variable) : Option Int :=
  let reflected : Option Int :=
    (info.bind fun s => s.find? .fragColor v.name).bind fun p => p.location
  (reflected.filter fun n => 0 ≤ n).or
    ((layoutInt? d.layout "location").filter fun n => 0 ≤ n)

/-- The outputs with their locations; one without a known location takes its index. -/
def locateFrom (info : Option ShaderInfo) (index : Nat) :
    List (Declaration × Variable) -> List (Text × Int)
  | [] => []
  | (d, v) :: rest =>
      (v.name, (knownLocation? info d v).getD index) :: locateFrom info (index + 1) rest

def locateOutputs (info : Option ShaderInfo) (stage : Stages) (ds : List Declaration) :
    List (Text × Int) :=
  locateFrom info 0
    ((ds.filter (isFragmentOutput stage)).flatMap fun d => d.vars.map fun v => (d, v))

def outputTargets : List (Text × Int) -> Table Text
  | [(name, 0)] => [(name, "gl_FragColor")]
  | outputs =>
      outputs.foldl
        (fun t entry => t.put entry.1 ("gl_FragData[" ++ Text.ofInt entry.2 ++ "]")) []

end Legacy

end EffectShader
