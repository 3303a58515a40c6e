import EffectShader.Text.Blank

/-!
# Directives

A preprocessor line is read after its continuations are joined and its comments
removed: a name, and a body that is everything after the name.
-/

namespace EffectShader

structure Directive where
  /-- The word after the hash sign: `if`, `pragma`, `include`. -/
  name : Text
  body : Text
  deriving DecidableEq, Repr

structure Pragma where
  name : Text
  args : Text
  deriving DecidableEq, Repr

namespace Directive

def joinContinuations (s : Text) : Text :=
  if s.contains Byte.backslash then
    Text.replaceAll "\\\n" " " (Text.replaceAll "\\\r\n" " " s)
  else s

/-- Replaces each block comment by a space and cuts the text at a line comment or at a block
comment that is never closed. -/
def stripComments : Text -> Text
  | [] => []
  | [b] => [b]
  | b :: c :: s =>
      if b == Byte.slash && c == Byte.slash then []
      else if b == Byte.slash && c == Byte.star then
        match h : Text.cut? "*/" s with
        | none => []
        | some (_, after) =>
            have := Text.length_of_cut? h
            Byte.space :: stripComments after
      else b :: stripComments (c :: s)
  termination_by s => s.length
  decreasing_by all_goals (simp only [List.length_cons]; omega)

def withoutComments (s : Text) : Text :=
  if s.contains Byte.slash then stripComments s else s

def parse? (text : Text) : Option Directive :=
  match text.dropWhile Byte.isBlank with
  | Byte.hash :: s =>
      let s := Text.trim (withoutComments (joinContinuations s))
      some ⟨s.takeWhile Byte.isWord, Text.trim (s.dropWhile Byte.isWord)⟩
  | _ => none

def isPragmaByte (b : UInt8) : Bool :=
  Byte.isWord b || b == Byte.minus

def pragma? (d : Directive) : Option Pragma :=
  if d.name == ("pragma" : Text) then
    let name := d.body.takeWhile isPragmaByte
    if name.isEmpty then none
    else some ⟨name, Text.trim (d.body.dropWhile isPragmaByte)⟩
  else none

end Directive

def Pragma.isStandard (p : Pragma) : Bool :=
  p.name == ("optimize" : Text) || p.name == ("debug" : Text) || p.name == ("STDGL" : Text)

end EffectShader
