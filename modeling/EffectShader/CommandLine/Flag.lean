import EffectShader.Numeral
import EffectShader.Text.Basic
import EffectShader.Text.Blank
import EffectShader.Text.Quoted

/-!
# Flags

Arguments that start with one or two dashes are flags, up to the first argument
that does not or to a pair of dashes alone.  A switch is on or off; every other
flag has a value, after an equals sign or in the next argument.
-/

namespace EffectShader

inductive Flag where
  | config
  | chunks
  | output
  | format
  | watch
  | jobs
  | warnError
  | verbose
  deriving DecidableEq, Repr

namespace Flag

def all : List Flag :=
  [.config, .chunks, .output, .format, .watch, .jobs, .warnError, .verbose]

def name : Flag -> Text
  | .config => "config"
  | .chunks => "chunks"
  | .output => "o"
  | .format => "format"
  | .watch => "watch"
  | .jobs => "j"
  | .warnError => "warn-error"
  | .verbose => "v"

def ofName? (word : Text) : Option Flag :=
  all.find? fun f => f.name == word

def isSwitch : Flag -> Bool
  | .watch | .warnError | .verbose => true
  | _ => false

/-!
# Errors
-/

/-- Why a word is no value of a flag. -/
inductive Fault where
  | malformed
  | outOfRange
  deriving DecidableEq, Repr

def Fault.message : Fault -> Text
  | .malformed => "parse error"
  | .outOfRange => "value out of range"

inductive Error where
  /-- The usage was asked for. -/
  | help
  | badForm (argument : Text)
  | unknown (name : Text)
  | badSwitch (flag : Flag) (value : Text)
  | noValue (flag : Flag)
  | badValue (flag : Flag) (value : Text) (fault : Fault)
  deriving DecidableEq, Repr

def Error.message : Error -> Text
  | .help => "flag: help requested"
  | .badForm argument => "bad flag syntax: " ++ argument
  | .unknown name => "flag provided but not defined: -" ++ name
  | .badSwitch flag value =>
      "invalid boolean value " ++ Text.quoted value ++ " for -" ++ flag.name ++ ": parse error"
  | .noValue flag => "flag needs an argument: -" ++ flag.name
  | .badValue flag value fault =>
      "invalid value " ++ Text.quoted value ++ " for flag -" ++ flag.name ++ ": " ++ fault.message

/-!
# Values
-/

def truth? (word : Text) : Option Bool :=
  if (Text.words "1 t T TRUE true True").contains word then some true
  else if (Text.words "0 f F FALSE false False").contains word then some false
  else none

/-- Reads digits that underscores may separate; a value of more than 64 bits is out of range
even if something else follows it. -/
def digits (base : Nat) : (value : Nat) -> Text -> Except Fault Nat
  | value, [] => .ok value
  | value, Byte.underscore :: s => digits base value s
  | value, b :: s =>
      match Numeral.digit? b with
      | none => .error .malformed
      | some d =>
          if base ≤ d then .error .malformed
          else if Numeral.wordSize ≤ base * value + d then .error .outOfRange
          else digits base (base * value + d) s

def announcesBase : Text -> Bool
  | Byte.zero :: mark :: _ => (Text.ofString "bBoOxX").contains mark
  | _ => false

def isGrouped (s : Text) : Bool :=
  let groups := Text.splitByte Byte.underscore (if announcesBase s then s.drop 2 else s)
  let groups := if announcesBase s then groups.drop 1 else groups
  !s.contains Byte.underscore || groups.all fun g => !g.isEmpty

/-- Reads a number of 64 bits in any base. -/
def number (word : Text) : Except Fault Int :=
  let (negative, s) := Numeral.splitSign word
  if s.isEmpty then .error .malformed
  else do
    let (base, body) := Numeral.splitBase s
    let n <- digits base 0 body
    if !isGrouped s then throw .malformed
    else if Numeral.fits (Numeral.signed negative n) then return Numeral.signed negative n
    else throw .outOfRange

end Flag

/-!
# Reading arguments
-/

structure Flags where
  config : Text
  chunks : Option Text
  output : Option Text
  format : Option Text
  warnError : Option Bool
  watch : Bool
  verbose : Bool
  deriving DecidableEq, Repr

namespace Flags

def empty : Flags := ⟨[], none, none, none, none, false, false⟩

def switch (fs : Flags) (on : Bool) : Flag -> Flags
  | .watch => { fs with watch := on }
  | .warnError => { fs with warnError := some on }
  | .verbose => { fs with verbose := on }
  | _ => fs

/-- Gives a flag its value.  Builds run one after the other, so the number of jobs only has to
be a number. -/
def set (fs : Flags) (value : Text) : Flag -> Except Flag.Error Flags
  | .config => .ok { fs with config := value }
  | .chunks => .ok { fs with chunks := some value }
  | .output => .ok { fs with output := some value }
  | .format => .ok { fs with format := some value }
  | .jobs =>
      match Flag.number value with
      | .ok _ => .ok fs
      | .error fault => .error (.badValue .jobs value fault)
  | f => .ok (fs.switch true f)

inductive Argument where
  /-- Neither a flag nor the end of the flags. -/
  | plain
  | endOfFlags
  | malformed
  | flag (name : Text) (value : Option Text)
  deriving DecidableEq, Repr

/-- Splits the text after the dashes at an equals sign; a name has a first character. -/
def nameAndValue (word : Text) : Argument :=
  match word with
  | [] => .malformed
  | first :: rest =>
      if first == Byte.minus || first == Byte.equals then .malformed
      else
        match Text.cut? "=" rest with
        | some (name, value) => .flag (first :: name) (some value)
        | none => .flag word none

def classify (argument : Text) : Argument :=
  match argument with
  | [Byte.minus, Byte.minus] => .endOfFlags
  | Byte.minus :: Byte.minus :: word => nameAndValue word
  | Byte.minus :: b :: word => nameAndValue (b :: word)
  | _ => .plain

def unknown (name : Text) : Flag.Error :=
  if name == ("help" : Text) || name == ("h" : Text) then .help else .unknown name

def parseFrom (fs : Flags) : List Text -> Except Flag.Error (Flags × List Text)
  | [] => .ok (fs, [])
  | argument :: rest =>
      match classify argument with
      | .plain => .ok (fs, argument :: rest)
      | .endOfFlags => .ok (fs, rest)
      | .malformed => .error (.badForm argument)
      | .flag name value =>
          match Flag.ofName? name, value, rest with
          | none, _, _ => .error (unknown name)
          | some f, some value, rest =>
              if f.isSwitch then
                match Flag.truth? value with
                | some on => parseFrom (fs.switch on f) rest
                | none => .error (.badSwitch f value)
              else
                match fs.set value f with
                | .ok fs => parseFrom fs rest
                | .error e => .error e
          | some f, none, [] =>
              if f.isSwitch then .ok (fs.switch true f, []) else .error (.noValue f)
          | some f, none, value :: others =>
              if f.isSwitch then parseFrom (fs.switch true f) (value :: others)
              else
                match fs.set value f with
                | .ok fs => parseFrom fs others
                | .error e => .error e
  termination_by arguments => arguments.length

/-- Reads the flags of a command; what follows them are programs. -/
def parse (arguments : List Text) : Except Flag.Error (Flags × List Text) :=
  parseFrom empty arguments

end Flags

/-!
# The usage of the command
-/

namespace Usage

def flagLines : List String :=
  ["  -chunks string",
   "    \tcomma-separated chunk directories",
   "  -config string",
   "    \tTOML config file (default effectc.toml if present)",
   "  -format string",
   "    \toutput format: json or yaml (default \"json\")",
   "  -j int",
   "    \tnumber of parallel builds (default 1)",
   "  -o string",
   "    \toutput directory (default: stdout)",
   "  -v\tdebug logging",
   "  -warn-error",
   "    \ttreat warnings as errors",
   "  -watch",
   "    \trebuild when chunk files change"]

def programLines : List String :=
  ["  name=vertChunk:entry,fragChunk:entry   graphics effect",
   "  name=compute:chunk:entry               compute effect"]

def exampleLines : List String :=
  ["  effectc -chunks shaders std=standard-vs:vert,standard-fs:frag",
   "  effectc -config effectc.toml -o build -format yaml"]

/-- What the command prints about itself. -/
def text : Text :=
  (["Usage: effectc [options] [program ...]", "", "Options:"] ++ flagLines ++ ["", "Programs:"] ++
    programLines ++ ["", "Examples:"] ++ exampleLines).flatMap fun line =>
      Text.ofString line ++ [Byte.newline]

end Usage

end EffectShader
