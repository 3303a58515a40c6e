import EffectShader.Token.Directive

/-!
# Literal macros

A line `#pragma define NAME VALUE` names a piece of text.  The definitions are
blanked, so that lines keep their numbers, and every occurrence of a name is
replaced by its value; values may use the names of earlier definitions.
-/

namespace EffectShader

/-!
# Occurrences of identifiers in text

Macros are expanded in text, before it is split into tokens.  A name occurs
where its bytes stand and no identifier byte touches them on either side.
-/

namespace Occurrence

/-- The text after the name, if the name stands at the start of `s`.  The byte before is `previous`,
a newline at the start of a text. -/
def after? (name : Text) (previous : UInt8) (s : Text) : Option Text :=
  match Text.afterPrefix? name s with
  | none => none
  | some rest =>
      if Byte.isWord previous || rest.head?.any Byte.isWord then none else some rest

def first? (name : Text) (previous : UInt8) : Text -> Option Nat
  | [] => if (after? name previous []).isSome then some 0 else none
  | b :: s =>
      if (after? name previous (b :: s)).isSome then some 0
      else (first? name b s).map (· + 1)

/-- The offset of the first occurrence at or after the offset `start`. -/
def firstFrom? (s name : Text) (start : Nat) : Option Nat :=
  if s.length < start then none
  else (first? name ((s.take start).getLast?.getD Byte.newline) (s.drop start)).map (· + start)

/-- Replaces occurrences; the first `skip` bytes belong to an occurrence already replaced. -/
def replaceFrom (name replacement : Text) :
    (skip : Nat) -> (previous : UInt8) -> Text -> Text
  | _, _, [] => []
  | skip + 1, _, b :: s => replaceFrom name replacement skip b s
  | 0, previous, b :: s =>
      if (after? name previous (b :: s)).isSome then
        replacement ++ replaceFrom name replacement (name.length - 1) b s
      else b :: replaceFrom name replacement 0 b s

/-- Replaces every occurrence of a nonempty name. -/
def replace (s name replacement : Text) : Text :=
  replaceFrom name replacement 0 Byte.newline s

/-- Replaces the identifiers that have a replacement in one pass; replacements are not looked at
again. -/
def substitute (replacement? : Text -> Option Text) : Text -> Text
  | [] => []
  | b :: s =>
      if Byte.isWord b then
        let word := b :: s.takeWhile Byte.isWord
        (if Byte.isWordStart b then (replacement? word).getD word else word) ++
          substitute replacement? (s.dropWhile Byte.isWord)
      else b :: substitute replacement? s
  termination_by s => s.length
  decreasing_by
  · have := (List.dropWhile_sublist (l := s) Byte.isWord).length_le
    simp only [List.length_cons]
    omega
  · simp

/-- The identifier at the start of a text. -/
def leadingName : Text -> Text
  | [] => []
  | b :: s => if Byte.isWordStart b then b :: s.takeWhile Byte.isWord else []

end Occurrence

/-!
# Definitions
-/

def defineArgs? (line : Text) : Option Text :=
  ((Directive.parse? line).bind Directive.pragma?).bind fun p =>
    if p.name == ("define" : Text) then some p.args else none

structure LiteralMacro where
  name : Text
  /-- With the values of earlier definitions in place of their names. -/
  value : Text
  line : Nat
  deriving DecidableEq, Repr

namespace LiteralMacro

/-- The name and value that a line defines; a name directly before a parenthesis is not a
literal. -/
def parse? (line : Text) : Option (Text × Text) :=
  (defineArgs? line).bind fun args =>
    let name := Occurrence.leadingName args
    let rest := args.drop name.length
    if name.isEmpty || rest.head? == some Byte.openParen then none
    else some (name, Text.trim rest)

def apply (macros : List LiteralMacro) (s : Text) : Text :=
  macros.foldl (fun s m => Occurrence.replace s m.name m.value) s

def collect : (line : Nat) -> List LiteralMacro -> List Text -> List Text × List LiteralMacro
  | _, macros, [] => ([], macros)
  | line, macros, text :: rest =>
      match parse? text with
      | none =>
          let (lines, macros) := collect (line + 1) macros rest
          (text :: lines, macros)
      | some (name, value) =>
          let (lines, macros) :=
            collect (line + 1) (macros ++ [⟨name, apply macros value, line⟩]) rest
          ([] :: lines, macros)

def expand (code : Text) : Text × List LiteralMacro :=
  let (lines, macros) := collect 1 [] code.lines
  (apply macros (Text.unlines lines), macros)

end LiteralMacro

end EffectShader
