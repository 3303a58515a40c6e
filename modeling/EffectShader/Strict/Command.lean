import EffectShader.Text.Blank
import EffectShader.Text.Quoted
import EffectShader.Text.Rune

/-!
# Compiler commands

A command line is split into words the way a shell does: quotes and backslashes
protect blanks, and the line ends at an operator that would start another
command.  Substitutions are kept as they are written.
-/

namespace EffectShader

structure Command where
  program : Text
  arguments : List Text
  deriving DecidableEq, Repr

namespace Command

/-- Links a vertex and a fragment shader with the reference compiler. -/
def standard : Text := "glslangValidator -l"

/-- What the characters at some point of the line stand inside of. -/
structure Quoting where
  single : Bool
  double : Bool
  backquote : Bool
  substitution : Bool
  deriving DecidableEq, Repr

namespace Quoting

def outside : Quoting := ⟨false, false, false, false⟩

def isOpen (q : Quoting) : Bool :=
  q.single || q.double || q.backquote || q.substitution

end Quoting

structure Word where
  text : Text
  present : Bool
  deriving DecidableEq, Repr

namespace Word

def empty : Word := ⟨[], false⟩

def push (w : Word) (c : Char) : Word :=
  ⟨w.text ++ Text.ofChar c, true⟩

def toList (w : Word) : List Text :=
  if w.present then [w.text] else []

end Word

def singleQuote : Char := Char.ofNat 0x27
def doubleQuote : Char := Char.ofNat 0x22
def backquote : Char := Char.ofNat 0x60

def isSpace (c : Char) : Bool :=
  c == ' ' || c == '\t' || c == '\r' || c == '\n'

def isTerminator (c : Char) : Bool :=
  c == ';' || c == '&' || c == '|' || c == '<' || c == '>'

/-- The words of the line are done: `none` if something is still open. -/
def finish (q : Quoting) (w : Word) : Option (List Text) :=
  if q.isOpen then none else some w.toList

/-- The word before an operator; digits before a redirection name a file and are no word. -/
def beforeTerminator (c : Char) (w : Word) : Word :=
  if c == '>' && w.text.head?.any Byte.isDigit then .empty else w

/-- Splits a line after the word `w`; `none` if the line is malformed. -/
def splitFrom (q : Quoting) (w : Word) : List Char -> Option (List Text)
  | [] => finish q w
  | '\\' :: cs =>
      if q.single then splitFrom q ⟨w.text ++ [Byte.backslash], w.present⟩ cs
      else
        match cs with
        | [] => none
        | c :: cs => splitFrom q (w.push c) cs
  | c :: cs =>
      if isSpace c then
        if q.isOpen then splitFrom q ⟨w.text ++ Text.ofChar c, w.present⟩ cs
        else (splitFrom q .empty cs).map (w.toList ++ ·)
      else if c == backquote && !q.single && !q.double && !q.substitution then
        splitFrom { q with backquote := !q.backquote } (w.push c) cs
      else if c == ')' && !q.single && !q.double && !q.backquote then
        splitFrom { q with substitution := !q.substitution } (w.push c) cs
      else if c == '(' && !q.single && !q.double && !q.backquote then
        if !q.substitution && Text.endsWith w.text "$" then
          splitFrom { q with substitution := true } ⟨w.text ++ Text.ofChar c, w.present⟩ cs
        else none
      else if c == doubleQuote && !q.single && !q.substitution then
        splitFrom { q with double := !q.double } ⟨w.text, w.present || q.double⟩ cs
      else if c == singleQuote && !q.double && !q.substitution then
        splitFrom { q with single := !q.single } ⟨w.text, w.present || q.single⟩ cs
      else if isTerminator c && !q.isOpen then finish q (beforeTerminator c w)
      else splitFrom q (w.push c) cs

/-- The words of a line; `none` if a quote or an escape is not finished. -/
def split (line : Text) : Option (List Text) :=
  splitFrom .outside .empty line.chars

inductive Error where
  | malformed (line : Text)
  | noProgram (line : Text)
  deriving DecidableEq, Repr

def Error.message : Error -> Text
  | .malformed line =>
      "validate: parse compiler command " ++ Text.quoted line ++ ": invalid command line string"
  | .noProgram line => "validate: compiler command " ++ Text.quoted line ++ " is empty"

/-- Reads a command line; a blank one stands for the reference compiler. -/
def parse (line : Text) : Except Error Command :=
  let line := if (Text.trim line).isEmpty then standard else line
  match split line with
  | none => .error (.malformed line)
  | some [] => .error (.noProgram line)
  | some (program :: arguments) => .ok ⟨program, arguments⟩

end Command

end EffectShader
