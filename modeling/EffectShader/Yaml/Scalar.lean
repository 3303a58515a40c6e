import EffectShader.Numeral
import EffectShader.Yaml.Cursor

/-!
# Scalars of YAML

A scalar is written plainly, between quotes or as a block of lines.  Every
reader gives the text and the place after it, or nothing if the scalar is
malformed.
-/

namespace EffectShader

namespace Yaml

/-!
# Quoted scalars
-/

def escapeCode? (c : Char) : Option Nat :=
  match c with
  | '0' => some 0
  | 'a' => some 7
  | 'b' => some 8
  | 't' => some 9
  | '\t' => some 9
  | 'n' => some 10
  | 'v' => some 11
  | 'f' => some 12
  | 'r' => some 13
  | 'e' => some 27
  | ' ' => some 32
  | '"' => some 34
  | '\'' => some 39
  | '\\' => some 92
  | 'N' => some 0x85
  | '_' => some 0xA0
  | 'L' => some 0x2028
  | 'P' => some 0x2029
  | _ => none

/-- How many hexadecimal digits follow an escape letter. -/
def hexWidth? (c : Char) : Option Nat :=
  if c == 'x' then some 2
  else if c == 'u' then some 4
  else if c == 'U' then some 8
  else none

def codeChar? (digits : List Char) : Option Char :=
  (Numeral.digitsFrom? 16 0 (textOf digits)).bind fun code =>
    if code.isValidChar then some (Char.ofNat code) else none

def escape? : List Char -> Option (Char × Nat)
  | [] => none
  | c :: rest =>
      match hexWidth? c with
      | some width =>
          if (rest.take width).length == width then
            (codeChar? (rest.take width)).map fun code => (code, width + 1)
          else none
      | none => (escapeCode? c).map fun code => (Char.ofNat code, 1)

def quotedPart? (quote : Char) : (count : Nat) -> List Char -> Cursor ->
    Option (List Char × Gap × Cursor)
  | 0, text, c => some (text, .none, c)
  | count + 1, text, c =>
      match c.rest with
      | [] => some (text, .none, c)
      | b :: rest =>
          if isSpace b then some (text, .none, c)
          else if b == quote then
            if quote == '\'' && rest.head? == some '\'' then
              quotedPart? quote count (text ++ [b]) (c.advanceBy 2)
            else some (text, .none, c)
          else if b == '\\' && quote == '"' then
            if rest.head?.any isBreak then some (text, .escaped, c.advance.nextLine)
            else
              match escape? rest with
              | none => none
              | some (char, width) =>
                  quotedPart? quote count (text ++ [char]) (c.advanceBy (width + 1))
          else quotedPart? quote count (text ++ [b]) c.advance

def quoted? (quote : Char) : (count : Nat) -> List Char -> Cursor -> Option (List Char × Cursor)
  | 0, _, _ => none
  | count + 1, text, c =>
      if c.isAtDocumentMark || c.rest.isEmpty then none
      else
        match quotedPart? quote c.rest.length text c with
        | none => none
        | some (text, gap, c) =>
            if c.isAt quote then some (text, c.advance)
            else
              match gap.read? 0 c.rest.length c with
              | none => none
              | some (gap, c) => quoted? quote count (text ++ gap.text) c

/-!
# Plain scalars
-/

def isFlowIndicator (c : Char) : Bool :=
  [0x2C, 0x3F, 0x5B, 0x5D, 0x7B, 0x7D].contains c.toNat

def isIndicator (c : Char) : Bool :=
  [0x2D, 0x3F, 0x3A, 0x2C, 0x5B, 0x5D, 0x7B, 0x7D, 0x23, 0x26, 0x2A, 0x21, 0x7C, 0x3E, 0x27, 0x22,
   0x25, 0x40, 0x60].contains c.toNat

/-- A plain scalar starts here; `inside` tells that it stands in brackets or braces. -/
def startsPlain (inside : Bool) (c : Cursor) : Bool :=
  match c.next? with
  | none => false
  | some b =>
      (!isSpace b && !isIndicator b) || (b == '-' && !(c.ahead? 1).any isBlank) ||
        (!inside && (b == '?' || b == ':') && !c.endsAt 1)

def endsPlain (inside : Bool) (c : Cursor) : Bool :=
  c.sees isSpace || (c.isAt ':' && c.endsAt 1) || (inside && c.sees isFlowIndicator)

def plainPart (inside : Bool) : (count : Nat) -> List Char -> Cursor -> List Char × Cursor
  | 0, text, c => (text, c)
  | count + 1, text, c =>
      match c.next? with
      | none => (text, c)
      | some b =>
          if endsPlain inside c then (text, c)
          else plainPart inside count (text ++ [b]) c.advance

/-- Reads a plain scalar after the text and the gap before the place; lines are folded, and outside
of brackets the scalar ends before a line that does not reach the column `margin`.  The flag tells
that the scalar is followed by a line end. -/
def plain? (inside : Bool) (margin : Nat) :
    (count : Nat) -> List Char -> Gap -> Cursor -> Option (List Char × Bool × Cursor)
  | 0, text, gap, c => some (text, gap.broken, c)
  | count + 1, text, gap, c =>
      if c.isAtDocumentMark || c.isAt '#' then some (text, gap.broken, c)
      else
        let (part, after) := plainPart inside c.rest.length [] c
        let text := if part.isEmpty then text else text ++ gap.text ++ part
        let gap := if part.isEmpty then gap else .none
        if !after.sees isSpace then some (text, gap.broken, after)
        else
          match gap.read? margin after.rest.length after with
          | none => none
          | some (gap, c) =>
              if !inside && c.column < margin then some (text, gap.broken, c)
              else plain? inside margin count text gap c

/-!
# Blocks
-/

/-- What becomes of the line ends after the last line of a block. -/
inductive Chomping where
  | strip
  | clip
  | keep
  deriving DecidableEq, Repr

/-- The first line of a block: how its end is treated, and the indentation if it is given. -/
structure BlockHeader where
  chomping : Chomping
  indentation : Option Nat
  deriving DecidableEq, Repr

def chomping? (c : Cursor) : Option Chomping :=
  if c.isAt '+' then some .keep else if c.isAt '-' then some .strip else none

def indentationDigit? (c : Cursor) : Option Nat :=
  c.next?.bind fun b => if b.isDigit then some (b.toNat - 48) else none

/-- Reads the marks after the sign of a block, in either order; an indentation is not zero. -/
def blockHeader? (c : Cursor) : Option (BlockHeader × Cursor) :=
  let (chomping, c) :=
    match chomping? c with
    | some x => (some x, c.advance)
    | none => (none, c)
  let (indentation, c) :=
    match indentationDigit? c with
    | some n => (some n, c.advance)
    | none => (none, c)
  let (chomping, c) :=
    match chomping, chomping? c with
    | none, some x => if indentation.isSome then (some x, c.advance) else (none, c)
    | x, _ => (x, c)
  if indentation == some 0 then none else some (⟨chomping.getD .clip, indentation⟩, c)

def endOfHeader? (c : Cursor) : Option Cursor :=
  let c := c.advanceWhile isBlank
  let c := if c.isAt '#' then c.advanceWhile fun b => !isBreak b else c
  if c.rest.isEmpty then some c else if c.sees isBreak then some c.nextLine else none

/-- Skips the empty lines before a line of a block, and its indentation, up to the column `indent`
if it is known.  The number is the largest column that is reached. -/
def emptyLines? (indent : Option Nat) :
    (count : Nat) -> (deepest : Nat) -> List Char -> Cursor -> Option (List Char × Nat × Cursor)
  | 0, deepest, breaks, c => some (breaks, deepest, c)
  | count + 1, deepest, breaks, c =>
      let spaces := (c.rest.takeWhile (· == ' ')).length
      let c := c.advanceBy (indent.elim spaces fun n => min spaces (n - c.column))
      let deepest := max deepest c.column
      if c.isAt '\t' && indent.all (c.column < ·) then none
      else if c.sees isBreak then
        emptyLines? indent count deepest (breaks ++ c.breakText) c.nextLine
      else some (breaks, deepest, c)

structure Block where
  text : List Char
  /-- The line end after the last line. -/
  ending : List Char
  /-- The empty lines after the last line. -/
  empty : List Char
  /-- The last line starts with a blank. -/
  blank : Bool

/-- Reads the lines of a block at the column `indent`.  In a folded block a single line end between
two lines that start without blanks is a space. -/
def blockLines? (literal : Bool) (indent : Nat) :
    (count : Nat) -> Block -> Cursor -> Option (Block × Cursor)
  | 0, b, c => some (b, c)
  | count + 1, b, c =>
      if c.column != indent || c.rest.isEmpty then some (b, c)
      else
        let blank := c.sees isBlank
        let folds := !literal && !b.blank && !blank && b.ending == ['\n']
        let join := if folds then (if b.empty.isEmpty then [' '] else []) else b.ending
        let line := c.rest.takeWhile fun x => !isBreak x
        let (ending, c) := (c.advanceBy line.length).readBreak
        match emptyLines? (some indent) c.rest.length 0 [] c with
        | none => none
        | some (empty, _, c) =>
            blockLines? literal indent count
              ⟨b.text ++ join ++ b.empty ++ line, ending, empty, blank⟩ c

def Block.chomped (b : Block) : Chomping -> List Char
  | .strip => b.text
  | .clip => b.text ++ b.ending
  | .keep => b.text ++ b.ending ++ b.empty

/-- Reads a block after its sign; `margin` is the least column of its lines. -/
def block? (literal : Bool) (margin : Nat) (c : Cursor) : Option (List Char × Cursor) := do
  let (header, c) <- blockHeader? c
  let c <- endOfHeader? c
  let given := header.indentation.map fun n => n + (margin - 1)
  let (empty, deepest, c) <- emptyLines? given c.rest.length 0 [] c
  let indent := given.getD (max deepest (max margin 1))
  let (b, c) <- blockLines? literal indent c.rest.length ⟨[], [], empty, false⟩ c
  return (b.chomped header.chomping, c)

end Yaml

end EffectShader
