import EffectShader.Text.Basic
import EffectShader.Text.Quoted

/-!
# Log records
-/

namespace EffectShader

inductive LogLevel where
  | debug
  | info
  | warn
  | error
  deriving DecidableEq, Repr

def LogLevel.label : LogLevel -> String
  | .debug => "DEBUG"
  | .info => "INFO"
  | .warn => "WARN"
  | .error => "ERROR"

structure LogRecord where
  level : LogLevel
  message : Text
  attributes : List (Text × Text)
  deriving DecidableEq, Repr

/-!
# Log lines

A record is written as one line of `name=value` pairs: the level, the message
and the attributes.  A value that would not be read back as one word is quoted.
-/

namespace LogRecord

def needsQuotes (c : Char) : Bool :=
  if c.toNat < 0x80 then c.toNat < 0x20 || c == ' ' || c == '=' || c == '"'
  else c == Rune.replacement || !Text.isGraphic c

def value (s : Text) : Text :=
  if s.isEmpty || s.chars.any needsQuotes then Text.quoted s else s

def pair (p : Text × Text) : Text :=
  value p.1 ++ "=" ++ value p.2

def render (r : LogRecord) : Text :=
  Text.joinWith " "
    ((("level" : Text), (r.level.label : Text)) :: ("msg", r.message) :: r.attributes |>.map pair)
    ++ "\n"

def isShown (verbose : Bool) (r : LogRecord) : Bool :=
  verbose || r.level != .debug

def renderAll (verbose : Bool) (rs : List LogRecord) : Text :=
  (rs.filter (isShown verbose)).flatMap render

end LogRecord

end EffectShader
