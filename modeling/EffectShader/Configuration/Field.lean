import EffectShader.Text.Rune

/-!
# Fields of a configuration

A configuration is a record, with records of deprecations and of programs in
it.  Every field has a name in the file, and a place and a type that messages
mention.  Names are compared without regard to the case of their letters.
-/

namespace EffectShader

namespace Configuration

structure Slot where
  record : String
  label : String
  type : String
  deriving DecidableEq, Repr

/-- Where a value is to go: to a field, or to a value of a type inside of one. -/
inductive Destination where
  | field (s : Slot)
  | value (type : String)
  deriving DecidableEq, Repr

def Destination.message : Destination -> Text
  | .field s =>
      "struct field " ++ s.record ++ ("." : Text) ++ s.label ++ (" of type " : Text) ++ s.type
  | .value type => "a Go value of type " ++ Text.ofString type

inductive Field where
  | chunks
  | output
  | format
  | jobs
  | warnError
  | validator
  | deprecations
  | programs
  deriving DecidableEq, Repr

inductive DeprecationField where
  | chunks
  | identifiers
  deriving DecidableEq, Repr

inductive ProgramField where
  | name
  | vertex
  | fragment
  | compute
  deriving DecidableEq, Repr

/-!
# Names
-/

/-- The lower case of a character, as far as it is ASCII: the signs for kelvin and for a capital
I with a dot have lower cases among the ASCII letters. -/
def lowerChar (c : Char) : Char :=
  if c == Char.ofNat 0x212A then 'k'
  else if c == Char.ofNat 0x130 then 'i'
  else c.toLower

def lower (name : Text) : Text :=
  name.chars.flatMap fun c => Text.ofChar (lowerChar c)

def named? {α : Type} (fields : List (String × α)) (name : Text) : Option α :=
  let find (name : Text) := (fields.find? fun f => Text.ofString f.1 == name).map (·.2)
  (find name).or (find (lower name))

def Field.ofName? : Text -> Option Field :=
  named? [("chunks", .chunks), ("output", .output), ("format", .format), ("jobs", .jobs),
    ("warn-error", .warnError), ("validator", .validator), ("deprecations", .deprecations),
    ("program", .programs)]

def DeprecationField.ofName? : Text -> Option DeprecationField :=
  named? [("chunks", .chunks), ("identifiers", .identifiers)]

def ProgramField.ofName? : Text -> Option ProgramField :=
  named? [("name", .name), ("vertex", .vertex), ("fragment", .fragment), ("compute", .compute)]

/-!
# Slots
-/

/-- What kind of value a field holds; only records and tables have parts. -/
def Field.kind : Field -> String
  | .chunks => "slice"
  | .jobs => "int"
  | .warnError => "bool"
  | .deprecations => "struct"
  | .programs => "slice"
  | _ => "string"

def Field.destination : Field -> Destination
  | .chunks => .field ⟨"main.Config", "Chunks", "[]string"⟩
  | .output => .field ⟨"main.Config", "Output", "string"⟩
  | .format => .field ⟨"main.Config", "Format", "string"⟩
  | .jobs => .field ⟨"main.Config", "Jobs", "int"⟩
  | .warnError => .field ⟨"main.Config", "WarnError", "bool"⟩
  | .validator => .field ⟨"main.Config", "Validator", "string"⟩
  | .deprecations => .field ⟨"main.Config", "Deprecations", "main.Deprecations"⟩
  | .programs => .field ⟨"main.Config", "Programs", "[]main.ProgramConfig"⟩

def DeprecationField.destination : DeprecationField -> Destination
  | .chunks => .field ⟨"main.Deprecations", "Chunks", "map[string]string"⟩
  | .identifiers => .field ⟨"main.Deprecations", "Identifiers", "map[string]string"⟩

def ProgramField.destination : ProgramField -> Destination
  | .name => .field ⟨"main.ProgramConfig", "Name", "string"⟩
  | .vertex => .field ⟨"main.ProgramConfig", "Vertex", "string"⟩
  | .fragment => .field ⟨"main.ProgramConfig", "Fragment", "string"⟩
  | .compute => .field ⟨"main.ProgramConfig", "Compute", "string"⟩

def ProgramField.element : Destination := .value "main.ProgramConfig"

end Configuration

end EffectShader
