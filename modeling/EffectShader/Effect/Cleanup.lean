import EffectShader.Token.Directive

/-!
# Pragmas and blank lines in the output

Nothing of the effect compiler's own pragmas is left in the output, except that
an author's errors become errors of the driver.
-/

namespace EffectShader

namespace Effect

def errorDirective (line : Text) : Text :=
  match (Directive.parse? line).bind Directive.pragma? with
  | none => line
  | some p =>
      if p.name == ("error" : Text) then
        line.takeWhile Byte.isBlank ++ "#error " ++ p.args
      else line

def pragmaErrors (code : Text) : Text :=
  Text.unlines (code.lines.map errorDirective)

def isCustomPragma (line : Text) : Bool :=
  ((Directive.parse? line).bind Directive.pragma?).any fun p => !p.isStandard

def isTrailing (b : UInt8) : Bool :=
  b == Byte.space || b == Byte.tab || b == Byte.carriage

/-- The lines without custom pragmas and repeated empty lines.  `empty` tells that the last line
kept is empty, `continued` that the line belongs to a pragma that is removed. -/
def cleanLines (empty continued : Bool) : List Text -> List Text
  | [] => []
  | line :: rest =>
      let line := Text.dropEndWhile isTrailing line
      if continued || isCustomPragma line then
        cleanLines empty (line.getLast? == some Byte.backslash) rest
      else if line.isEmpty && empty then cleanLines true false rest
      else line :: cleanLines line.isEmpty false rest

/-- The code without custom pragmas, with at most one empty line at a time, none at the start, and
one line end at the end. -/
def clean (code : Text) : Text :=
  Text.dropEndWhile (· == Byte.newline) (Text.unlines (cleanLines true false code.lines)) ++
    [Byte.newline]

end Effect

end EffectShader
