import EffectShader.Text.Rune

/-!
# Places in a YAML text

A YAML text is read character by character.  Lines end with any of the usual
line ends, and columns count characters.
-/

namespace EffectShader

namespace Yaml

/-!
# Characters
-/

def isBreak (c : Char) : Bool :=
  c == '\n' || c == '\r' || c.toNat == 0x85 || c.toNat == 0x2028 || c.toNat == 0x2029

def isBlank (c : Char) : Bool :=
  c == ' ' || c == '\t'

def isSpace (c : Char) : Bool :=
  isBlank c || isBreak c

def isNameChar (c : Char) : Bool :=
  c.isAlphanum || c == '_' || c == '-'

def byteOrderMark : Char := Char.ofNat 0xFEFF

def textOf (cs : List Char) : Text :=
  cs.flatMap Text.ofChar

/-!
# Cursors
-/

structure Cursor where
  rest : List Char
  line : Nat
  column : Nat
  /-- The number of characters before the place. -/
  index : Nat
  /-- Only blanks stand between the start of the line and the place. -/
  fresh : Bool
  deriving DecidableEq, Repr

namespace Cursor

def start (text : List Char) : Cursor := ⟨text, 0, 0, 0, false⟩

def next? (c : Cursor) : Option Char :=
  c.rest.head?

def ahead? (c : Cursor) (distance : Nat) : Option Char :=
  c.rest[distance]?

def isAt (c : Cursor) (char : Char) : Bool :=
  c.next? == some char

def sees (c : Cursor) (p : Char -> Bool) : Bool :=
  c.next?.any p

def endsAt (c : Cursor) (distance : Nat) : Bool :=
  (c.ahead? distance).all isSpace

def advance (c : Cursor) : Cursor :=
  ⟨c.rest.drop 1, c.line, c.column + 1, c.index + 1, c.fresh && c.sees isBlank⟩

/-- The place after some characters of a line. -/
def advanceBy : (count : Nat) -> Cursor -> Cursor
  | 0, c => c
  | count + 1, c => advanceBy count c.advance

def advanceWhile (p : Char -> Bool) (c : Cursor) : Cursor :=
  advanceBy (c.rest.takeWhile p).length c

def nextLine (c : Cursor) : Cursor :=
  match c.rest with
  | '\r' :: '\n' :: rest => ⟨rest, c.line + 1, 0, c.index + 2, true⟩
  | rest => ⟨rest.drop 1, c.line + 1, 0, c.index + 1, true⟩

/-- What a line end stands for: those of two sorts are kept, and all others are one. -/
def breakText (c : Cursor) : List Char :=
  match c.next? with
  | some b => if b.toNat == 0x2028 || b.toNat == 0x2029 then [b] else ['\n']
  | none => []

def readBreak (c : Cursor) : List Char × Cursor :=
  if c.sees isBreak then (c.breakText, c.nextLine) else ([], c)

/-- Three dashes or three points on their own start the line. -/
def isAtMark (c : Cursor) (mark : String) : Bool :=
  c.column == 0 && mark.toList.isPrefixOf c.rest && c.endsAt 3

def isAtDocumentMark (c : Cursor) : Bool :=
  c.isAtMark "---" || c.isAtMark "..."

/-- The place after a comment and the lines after it that hold nothing but comments. -/
def skipComments : (fuel : Nat) -> Cursor -> Cursor
  | 0, c => c
  | fuel + 1, c =>
      let c := c.advanceWhile fun b => !isBreak b
      if (c.rest.dropWhile isSpace).head? == some '#' then
        skipComments fuel (skipSpace c.rest.length c)
      else c
where
  /-- The place after white space, lines included. -/
  skipSpace : (count : Nat) -> Cursor -> Cursor
    | 0, c => c
    | count + 1, c =>
        if c.sees isBreak then skipSpace count c.nextLine
        else if c.sees isBlank then skipSpace count c.advance
        else c

def skipLineComment (c : Cursor) : Cursor :=
  if !c.fresh && (c.rest.dropWhile isBlank).head? == some '#' then
    c.advanceWhile fun b => !isBreak b
  else c

end Cursor

/-!
# White space inside of texts
-/

/-- White space between two parts of a text. -/
structure Gap where
  /-- The blanks before the first line end. -/
  blanks : List Char
  /-- There is a line end. -/
  broken : Bool
  /-- The first line end, unless it is escaped. -/
  first : List Char
  /-- The line ends after the first. -/
  more : List Char
  deriving DecidableEq, Repr

namespace Gap

def none : Gap := ⟨[], false, [], []⟩

def escaped : Gap := ⟨[], true, [], []⟩

/-- What a gap stands for: blanks for themselves, a single line end for a space, and of several
line ends all but the first for themselves. -/
def text (g : Gap) : List Char :=
  if !g.broken then g.blanks
  else if g.first == ['\n'] then (if g.more.isEmpty then [' '] else g.more)
  else g.first ++ g.more

/-- Reads white space; after a line end a tab is refused before the column `margin`. -/
def read? (margin : Nat) : (count : Nat) -> Gap -> Cursor -> Option (Gap × Cursor)
  | 0, g, c => some (g, c)
  | count + 1, g, c =>
      match c.next? with
      | Option.none => some (g, c)
      | some b =>
          if isBreak b then
            if g.broken then read? margin count { g with more := g.more ++ c.breakText } c.nextLine
            else read? margin count ⟨[], true, c.breakText, g.more⟩ c.nextLine
          else if isBlank b then
            if !g.broken then read? margin count { g with blanks := g.blanks ++ [b] } c.advance
            else if b == '\t' && c.column < margin then Option.none
            else read? margin count g c.advance
          else some (g, c)

end Gap

end Yaml

end EffectShader
