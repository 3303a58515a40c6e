import EffectShader.Diagnostic.LineMap
import EffectShader.GlslType
import EffectShader.Token.Directive
import EffectShader.Version

/-!
# Subpass attachments

Pragmas such as `#pragma subpassColor in highp albedo` declare attachments that
a fragment shader reads from or writes to within one render pass.  They are
replaced by declarations for every language version, chosen by conditions on
`__VERSION__`: input attachments for Vulkan, framebuffer fetch for GLSL ES 3.00
and the last-fragment built-ins for GLSL ES 1.00.
-/

namespace EffectShader

namespace Subpass

inductive Aspect where
  | color
  | depth
  | stencil
  deriving DecidableEq, Repr

def Aspect.label : Aspect -> String
  | .color => "Color"
  | .depth => "Depth"
  | .stencil => "Stencil"

def Aspect.rank : Aspect -> Nat
  | .color => 0
  | .depth => 1
  | .stencil => 2

inductive Direction where
  | input
  | output
  | both
  deriving DecidableEq, Repr

namespace Direction

def keyword : Direction -> String
  | .input => "in"
  | .output => "out"
  | .both => "inout"

def rank : Direction -> Nat
  | .input => 0
  | .output => 1
  | .both => 2

def ofKeyword? (word : Text) : Option Direction :=
  [input, output, both].find? fun d => Text.ofString d.keyword == word

def reads : Direction -> Bool
  | .input | .both => true
  | .output => false

def writes : Direction -> Bool
  | .output | .both => true
  | .input => false

end Direction

structure Attachment where
  aspect : Aspect
  direction : Direction
  scalar : ScalarKind
  precision : Text
  name : Text
  line : Nat
  /-- The index among the attachments that are read. -/
  input : Option Nat
  /-- The index among the color attachments. -/
  location : Option Nat
  deriving DecidableEq, Repr

/-!
# Reading pragmas
-/

/-- Color attachments go in every direction; the others are only read. -/
def Aspect.supports : Aspect -> Direction -> Bool
  | .color, _ => true
  | _, .input => true
  | _, _ => false

def Aspect.admits : Aspect -> ScalarKind -> Bool
  | .color, s => s != .bool
  | .depth, s => s == .float
  | .stencil, s => s == .int || s == .uint

def classify? (name : Text) : Option (Aspect × ScalarKind) :=
  let (scalar, base) : ScalarKind × Text :=
    if Text.startsWith name "isubpass" then (.int, name.drop 1)
    else if Text.startsWith name "usubpass" then (.uint, name.drop 1)
    else (.float, name)
  if base == ("subpassColor" : Text) then some (.color, scalar)
  else if base == ("subpassDepth" : Text) then some (.depth, scalar)
  else if base == ("subpassStencil" : Text) then some (.stencil, scalar)
  else none

def isIdentifier : Text -> Bool
  | [] => false
  | b :: s => Byte.isWordStart b && s.all Byte.isWord

def ofFields (pragma : Text) (aspect : Aspect) (scalar : ScalarKind) (line : Nat)
    (directionField precision name : Text) : Except Diagnostic Attachment :=
  let fail (message : Text) : Except Diagnostic Attachment := .error (Diagnostic.error line message)
  match Direction.ofKeyword? directionField with
  | none => fail ("'#pragma " ++ pragma ++ "': unknown direction '" ++ directionField ++ "'")
  | some direction =>
      if !precision.isEmpty && !Word.isPrecision precision then
        fail ("'#pragma " ++ pragma ++ "': unknown precision '" ++ precision ++ "'")
      else if !isIdentifier name then
        fail ("'#pragma " ++ pragma ++ "': invalid name '" ++ name ++ "'")
      else if !aspect.supports direction then
        fail ("subpass" ++ Text.ofString aspect.label ++ " does not support '" ++
          Text.ofString direction.keyword ++ "'")
      else if !aspect.admits scalar then
        fail ("'" ++ pragma ++ "' is not a valid " ++ Text.ofString aspect.label ++
          " subpass attachment type")
      else .ok ⟨aspect, direction, scalar, precision, name, line, none, none⟩

def ofPragma? (p : Pragma) (line : Nat) : Except Diagnostic (Option Attachment) :=
  match classify? p.name with
  | none => .ok none
  | some (aspect, scalar) =>
      match p.args.fields with
      | [direction, name] => (ofFields p.name aspect scalar line direction [] name).map some
      | [direction, precision, name] =>
          (ofFields p.name aspect scalar line direction precision name).map some
      | _ =>
          .error (Diagnostic.error line
            ("malformed '#pragma " ++ p.name ++ "': expected '<in|out|inout> [precision] name'"))

/-!
# Collecting attachments
-/

/-- What has been read of a source: its lines with the pragmas blanked, last line first. -/
structure Survey where
  lines : List Text
  attachments : List Attachment
  /-- The index of the line that marks the place of the declarations. -/
  marker : Option Nat
  /-- The index of the first line with an attachment. -/
  first : Option Nat
  deriving Repr

def Survey.keep (s : Survey) (line : Text) : Survey :=
  { s with lines := line :: s.lines }

def Survey.read (s : Survey) (line : Text) : Except Diagnostic Survey :=
  let index := s.lines.length
  match (Directive.parse? line).bind Directive.pragma? with
  | none => .ok (s.keep line)
  | some p =>
      if p.name == ("subpass" : Text) then
        match s.marker with
        | some m =>
            .error (Diagnostic.error (index + 1)
              ("duplicate '#pragma subpass' marker, first one at line " ++ Text.ofNat (m + 1)))
        | none => .ok { s.keep [] with marker := some index }
      else
        match ofPragma? p (index + 1) with
        | .error e => .error e
        | .ok none => .ok (s.keep line)
        | .ok (some a) =>
            match s.attachments.find? fun b => b.name == a.name with
            | some b =>
                .error (Diagnostic.error (index + 1)
                  ("subpass attachment '" ++ a.name ++ "' already declared at line " ++
                    Text.ofNat b.line))
            | none =>
                .ok { s.keep [] with
                  attachments := s.attachments ++ [a]
                  first := s.first.or (some index) }

def assign : (input location : Nat) -> List Attachment -> List Attachment
  | _, _, [] => []
  | input, location, a :: rest =>
      let reads := a.direction.reads
      let isColor := a.aspect == .color
      { a with
        input := if reads then some input else none
        location := if isColor then some location else none } ::
        assign (if reads then input + 1 else input)
          (if isColor then location + 1 else location) rest

/-- The order of emission: by direction, then by aspect, then by line. -/
def Attachment.le (a b : Attachment) : Bool :=
  if a.direction.rank != b.direction.rank then a.direction.rank ≤ b.direction.rank
  else if a.aspect.rank != b.aspect.rank then a.aspect.rank ≤ b.aspect.rank
  else a.line ≤ b.line

/-!
# Generated declarations
-/

def vectorType : ScalarKind -> Text
  | .int => "ivec4"
  | .uint => "uvec4"
  | _ => "vec4"

def inputType : ScalarKind -> Text
  | .int => "isubpassInput"
  | .uint => "usubpassInput"
  | _ => "subpassInput"

namespace Attachment

def inputName (a : Attachment) : Text :=
  if a.direction == .both then a.name ++ "_input" else a.name

def qualified (a : Attachment) (type : Text) : Text :=
  if a.precision.isEmpty then type else a.precision ++ " " ++ type

def locationText (a : Attachment) : Text :=
  Text.ofNat (a.location.getD 0)

def loadDefine (a : Attachment) (value : Text) : Text :=
  "#define subpassLoad_" ++ a.name ++ " " ++ value

def outputLine (a : Attachment) (storage : Text) : Text :=
  "layout(location = " ++ a.locationText ++ ") " ++ storage ++ " " ++
    a.qualified (vectorType a.scalar) ++ " " ++ a.name ++ ";"

def vulkanLines (a : Attachment) : List Text :=
  let load : Text :=
    "subpassLoad(" ++ a.inputName ++ ")" ++ (if a.aspect == .color then ("" : Text) else ".x")
  let reading : List Text :=
    ["layout(input_attachment_index = " ++ Text.ofNat (a.input.getD 0) ++ ") uniform " ++
      a.qualified (inputType a.scalar) ++ " " ++ a.inputName ++ ";",
     a.loadDefine load]
  (if a.direction.reads then reading else []) ++
    (if a.direction.writes then [a.outputLine "out"] else [])

def builtinLines (a : Attachment) : List Text :=
  if a.aspect == .depth then [a.loadDefine "gl_LastFragDepthARM"]
  else [a.loadDefine "gl_LastFragStencilARM"]

def fetchLines (a : Attachment) : List Text :=
  if a.aspect == .color then
    if a.direction.reads then [a.outputLine "inout", a.loadDefine a.name]
    else [a.outputLine "out"]
  else a.builtinLines

def legacyLines (a : Attachment) : List Text :=
  if a.aspect == .color then
    (if a.direction.reads then [a.loadDefine ("gl_LastFragData[" ++ a.locationText ++ "]")]
      else []) ++
    (if a.direction.writes then ["#define " ++ a.name ++ " gl_FragData[" ++ a.locationText ++ "]"]
      else [])
  else a.builtinLines

end Attachment

/-- The declarations of all attachments for every version. -/
def blockLines (attachments : List Attachment) : List Text :=
  [("#if __VERSION__ >= 450" : Text)] ++ attachments.flatMap Attachment.vulkanLines ++
  [("#elif __VERSION__ >= 300" : Text)] ++ attachments.flatMap Attachment.fetchLines ++
  [("#else" : Text)] ++ attachments.flatMap Attachment.legacyLines ++
  [("#endif" : Text)]

/-- The extensions that the declarations need. -/
def extensions (attachments : List Attachment) : List Extension :=
  let color := attachments.any fun a => a.aspect == .color && a.direction.reads
  let depthStencil := attachments.any fun a => a.aspect != .color
  let drawBuffers := attachments.any fun a => a.aspect == .color && a.location.any (0 < ·)
  let entry (needed : Bool) (name condition : Text) : List Extension :=
    if needed then [⟨name, "require", condition⟩] else []
  entry color "GL_EXT_shader_framebuffer_fetch" "__VERSION__ < 450" ++
  entry depthStencil "GL_ARM_shader_framebuffer_fetch_depth_stencil" "__VERSION__ < 450" ++
  entry drawBuffers "GL_EXT_draw_buffers" "__VERSION__ < 300"

/-- A source with its attachment pragmas replaced. -/
structure Expansion where
  code : Text
  /-- In the order of emission. -/
  attachments : List Attachment
  extensions : List Extension
  lines : LineMap
  deriving Repr

/-- Replaces the attachment pragmas of a source by declarations at the marker line, or at the first
pragma if there is no marker. -/
def expand (code : Text) (lines : LineMap) : Except Diagnostic Expansion :=
  match code.lines.foldlM Survey.read ⟨[], [], none, none⟩ with
  | .error e => .error e
  | .ok survey =>
      let kept := survey.lines.reverse
      match survey.marker.or survey.first, survey.attachments with
      | some place, a :: rest =>
          let attachments := (assign 0 0 (a :: rest)).mergeSort Attachment.le
          let block := blockLines attachments
          .ok {
            code := Text.unlines (kept.set place (Text.unlines block))
            attachments
            extensions := extensions attachments
            lines := lines.splice (place + 1) 1 block.length }
      | _, _ => .ok ⟨Text.unlines kept, [], [], lines⟩

end Subpass

end EffectShader
