import EffectShader.Configuration.Field
import EffectShader.Effect.Program
import EffectShader.Table
import EffectShader.Toml.Definitions
import EffectShader.Toml.Parser

/-!
# Configuration files

A configuration gives the directories of chunks, the way of output, names that
are deprecated and the programs to build.  Keys that it does not know are
skipped.  A file is taken statement by statement, so the first statement that
cannot be followed decides about the error.
-/

namespace EffectShader

structure Configuration where
  chunks : List Text
  output : Text
  format : Text
  jobs : Int
  warnError : Bool
  validator : Text
  deprecatedChunks : Table Text
  deprecatedNames : Table Text
  programs : List ProgramStages
  deriving DecidableEq, Repr

namespace Configuration

open Toml (Key Statement)

def empty : Configuration := ⟨[], [], [], 0, false, [], [], [], []⟩

inductive Error where
  | malformed (m : Toml.Malformed)
  | clash (c : Toml.Clash)
  /-- A key of the configuration has a value of another kind. -/
  | mistyped
  /-- A list stands where there is no list. -/
  | misplaced (list : String) (d : Destination)
  /-- A key leads into a value of a kind that has no parts. -/
  | noParts (kind : String)
  deriving DecidableEq, Repr

def Error.message (path : Text) : Error -> Text
  | .malformed m =>
      path ++ ":" ++ Text.ofNat m.row ++ ":" ++ Text.ofNat m.column ++ ": toml: " ++ m.message
  | .clash c => path ++ ": " ++ c.message
  | .mistyped => path ++ ":1:1: toml: value has the wrong type"
  | .misplaced list d => path ++ ": toml: cannot decode TOML " ++ list ++ " into " ++ d.message
  | .noParts kind => path ++ ": unhandled kv part: " ++ kind

/-!
# Values of the right kind
-/

def unfit (d : Destination) : Toml.Value -> Error
  | .array _ => .misplaced "array" d
  | _ => .mistyped

def text (d : Destination) : Toml.Value -> Except Error Text
  | .text s => .ok s
  | v => .error (unfit d v)

def texts (d : Destination) : Toml.Value -> Except Error (List Text)
  | .array items => items.mapM (text d)
  | v => .error (unfit d v)

def integer (d : Destination) : Toml.Value -> Except Error Int
  | .integer spelling =>
      match Toml.integerValue? spelling with
      | some n => .ok n
      | none => .error .mistyped
  | v => .error (unfit d v)

def boolean (d : Destination) : Toml.Value -> Except Error Bool
  | .boolean b => .ok b
  | v => .error (unfit d v)

/-!
# Programs
-/

def setProgramField (p : ProgramStages) (key : Key) (v : Toml.Value) :
    Except Error (Option ProgramStages) :=
  match key with
  | [] => .ok none
  | name :: rest =>
      match ProgramField.ofName? name with
      | none => .ok none
      | some field => do
          if !rest.isEmpty then throw (.noParts "string")
          let s <- text field.destination v
          match field with
          | .name => return some { p with name := s }
          | .vertex => return some { p with vertex := s }
          | .fragment => return some { p with fragment := s }
          | .compute => return some { p with compute := s }

/-- A program in braces; the flag says whether a field of it is known. -/
def inlineProgram (p : ProgramStages) (known : Bool) :
    List (Key × Toml.Value) -> Except Error (ProgramStages × Bool)
  | [] => .ok (p, known)
  | (key, v) :: entries =>
      match setProgramField p key v with
      | .error e => .error e
      | .ok none => inlineProgram p known entries
      | .ok (some p) => inlineProgram p true entries

def inlinePrograms (d : Destination) : List Toml.Value -> Except Error (List ProgramStages)
  | [] => .ok []
  | .table entries :: vs => do
      let (p, known) <- inlineProgram .empty false entries
      let ps <- inlinePrograms (if known then ProgramField.element else d) vs
      return p :: ps
  | v :: _ => .error (unfit d v)

def setLastProgram (c : Configuration) (key : Key) (v : Toml.Value) : Except Error Configuration :=
  match c.programs.getLast? with
  | none => .error .mistyped
  | some p => do
      let changed <- setProgramField p key v
      return { c with programs := c.programs.dropLast ++ [changed.getD p] }

/-!
# Deprecations
-/

def deprecated (c : Configuration) : DeprecationField -> Table Text
  | .chunks => c.deprecatedChunks
  | .identifiers => c.deprecatedNames

def withDeprecated (c : Configuration) (t : Table Text) : DeprecationField -> Configuration
  | .chunks => { c with deprecatedChunks := t }
  | .identifiers => { c with deprecatedNames := t }

def setMessage (c : Configuration) (field : DeprecationField) (key : Key) (v : Toml.Value) :
    Except Error Configuration :=
  match key with
  | [name] => do
      let message <- text field.destination v
      return c.withDeprecated ((c.deprecated field).put name message) field
  | _ => .error (.noParts "string")

def setDeprecation (c : Configuration) (key : Key) (v : Toml.Value) : Except Error Configuration :=
  match key with
  | [] => .ok c
  | name :: rest =>
      match DeprecationField.ofName? name with
      | none => .ok c
      | some field =>
          if !rest.isEmpty then c.setMessage field rest v
          else
            match v with
            | .table entries =>
                entries.foldlM
                  (fun c (entry : Key × Toml.Value) => c.setMessage field entry.1 entry.2) c
            | v => .error (unfit field.destination v)

def setDeprecations (c : Configuration) : Toml.Value -> Except Error Configuration
  | .table entries =>
      entries.foldlM (fun c (entry : Key × Toml.Value) => c.setDeprecation entry.1 entry.2) c
  | v => .error (unfit Field.deprecations.destination v)

/-!
# Fields
-/

def setField (c : Configuration) (field : Field) (v : Toml.Value) : Except Error Configuration :=
  let d := field.destination
  match field with
  | .chunks => (texts d v).map fun x => { c with chunks := x }
  | .output => (text d v).map fun x => { c with output := x }
  | .format => (text d v).map fun x => { c with format := x }
  | .jobs => (integer d v).map fun x => { c with jobs := x }
  | .warnError => (boolean d v).map fun x => { c with warnError := x }
  | .validator => (text d v).map fun x => { c with validator := x }
  | .deprecations => c.setDeprecations v
  | .programs =>
      match v with
      | .array items => (inlinePrograms d items).map fun x => { c with programs := x }
      | v => .error (unfit d v)

/-- Gives a value to a key of the whole configuration. -/
def set (c : Configuration) (key : Key) (v : Toml.Value) : Except Error Configuration :=
  match key with
  | [] => .ok c
  | name :: rest =>
      match Field.ofName? name with
      | none => .ok c
      | some field =>
          if rest.isEmpty then c.setField field v
          else if field == .deprecations then c.setDeprecation rest v
          else .error (.noParts field.kind)

/-!
# Headers
-/

/-- What the assignments after a header are about. -/
inductive Scope where
  | whole
  | deprecations
  | messages (field : DeprecationField)
  /-- The last program. -/
  | program
  /-- A value of a kind without parts. -/
  | closed (kind : String)
  /-- Nothing that belongs to a configuration. -/
  | skipped
  deriving DecidableEq, Repr

/-- Opens a table below the deprecations; a message that is opened is there, though empty. -/
def openDeprecation (c : Configuration) (key : Key) : Except Error (Configuration × Scope) :=
  match key with
  | [] => .ok (c, .deprecations)
  | name :: rest =>
      match DeprecationField.ofName? name, rest with
      | none, _ => .ok (c, .skipped)
      | some field, [] => .ok (c, .messages field)
      | some field, [name] =>
          let t := c.deprecated field
          let t := if t.has name then t else t.put name []
          .ok (c.withDeprecated t field, .closed "string")
      | some _, _ => .error .mistyped

def openItem (c : Configuration) (field : Field) (key : Key) :
    Except Error (Configuration × Scope) :=
  match field, key with
  | .programs, [] => if c.programs.isEmpty then .error .mistyped else .ok (c, .program)
  | .programs, name :: rest =>
      if c.programs.isEmpty then .error .mistyped
      else
        match ProgramField.ofName? name with
        | none => .ok (c, .skipped)
        | some _ => if rest.isEmpty then .ok (c, .closed "string") else .error .mistyped
  | _, [] => if c.chunks.isEmpty then .error .mistyped else .ok (c, .closed "string")
  | _, _ => .error .mistyped

def openTable (c : Configuration) (key : Key) : Except Error (Configuration × Scope) :=
  match key with
  | [] => .ok (c, .whole)
  | name :: rest =>
      match Field.ofName? name with
      | none => .ok (c, .skipped)
      | some .deprecations => c.openDeprecation rest
      | some .programs => c.openItem .programs rest
      | some .chunks => c.openItem .chunks rest
      | some field => if rest.isEmpty then .ok (c, .closed field.kind) else .error .mistyped

/-- Starts an item of a list; the first one drops what the list holds. -/
def addItem (c : Configuration) (first : Bool) (field : Field) :
    Except Error (Configuration × Scope) :=
  match field with
  | .chunks =>
      .ok ({ c with chunks := (if first then [] else c.chunks) ++ [[]] }, .closed "string")
  | .programs =>
      .ok ({ c with programs := (if first then [] else c.programs) ++ [.empty] }, .program)
  | field => .error (.misplaced "array table" field.destination)

def openArrayTable (c : Configuration) (first : Bool) (key : Key) :
    Except Error (Configuration × Scope) :=
  match key with
  | [] => .ok (c, .whole)
  | name :: rest =>
      match Field.ofName? name, rest with
      | none, _ => .ok (c, .skipped)
      | some field, [] => c.addItem first field
      | some .deprecations, name :: rest =>
          match DeprecationField.ofName? name with
          | none => .ok (c, .skipped)
          | some field =>
              .error (if rest.length ≤ 1 then .misplaced "array table" field.destination
                else .mistyped)
      | some .programs, name :: rest =>
          if c.programs.isEmpty then .error .mistyped
          else
            match ProgramField.ofName? name with
            | none => .ok (c, .skipped)
            | some field =>
                .error (if rest.isEmpty then .misplaced "array table" field.destination
                  else .mistyped)
      | some _, _ => .error .mistyped

/-!
# Statements
-/

structure Reading where
  config : Configuration
  scope : Scope
  definitions : Toml.Definitions

namespace Reading

def start : Reading := ⟨.empty, .whole, .empty⟩

def assign (r : Reading) (key : Key) (v : Toml.Value) : Except Error Configuration :=
  match r.scope with
  | .whole => r.config.set key v
  | .deprecations => r.config.setDeprecation key v
  | .messages field => r.config.setMessage field key v
  | .program => r.config.setLastProgram key v
  | .closed kind => .error (.noParts kind)
  | .skipped => .ok r.config

def step (r : Reading) : Statement -> Except Error Reading
  | .table key => do
      let ds <- (r.definitions.openTable key).mapError .clash
      let (config, scope) <- r.config.openTable key
      return ⟨config, scope, ds⟩
  | .arrayTable key => do
      let (ds, first) <- (r.definitions.openArrayTable key).mapError .clash
      let (config, scope) <- r.config.openArrayTable first key
      return ⟨config, scope, ds⟩
  | .assign key v =>
      if r.scope == .skipped then .ok r
      else do
        let ds <- (r.definitions.assign key v).mapError .clash
        let config <- r.assign key v
        return ⟨config, r.scope, ds⟩

end Reading

def parse (file : Text) : Except Error Configuration := do
  let f := Toml.parse file
  let r <- f.statements.foldlM Reading.step Reading.start
  match f.mistake with
  | some m => throw (.malformed m)
  | none => return r.config

end Configuration

end EffectShader
