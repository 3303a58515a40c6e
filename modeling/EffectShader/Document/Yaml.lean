import EffectShader.Data.Scalar
import EffectShader.Document.Basic
import EffectShader.Text.Letter
import EffectShader.Yaml.Cursor

/-!
# YAML

Documents are written in block style with four spaces for each level; the
entries of a sequence stand two columns deeper than their dashes.  A text of
several lines is a literal block, and any other text is quoted only where its
plain spelling would mean something else.  Bytes that are no text are written
in base 64.
-/

namespace EffectShader

namespace Yaml

namespace Writer

/-!
# How a text may be written
-/

/-- The character may stand for itself. -/
def isPrintable (c : Char) : Bool :=
  let n := c.toNat
  c == '\n' || (0x20 ≤ n && n ≤ 0x7E) || (0xA0 ≤ n && n ≤ 0xFFFD && n != 0xFEFF)

def isLeadingIndicator (c : Char) : Bool :=
  [0x23, 0x2C, 0x5B, 0x5D, 0x7B, 0x7D, 0x26, 0x2A, 0x21, 0x7C, 0x3E, 0x27, 0x22, 0x25, 0x40,
   0x60].contains c.toNat

/-- The character means something where it stands; `before` and `next` are its neighbours. -/
def isIndicatorAt (before next : Option Char) (c : Char) : Bool :=
  let beforeBlank := next.all isBlank
  match before with
  | none => isLeadingIndicator c || ((c == '?' || c == ':' || c == '-') && beforeBlank)
  | some b => (c == ':' && beforeBlank) || (c == '#' && (isBlank b || isBreak b || b.toNat == 0))

def hasIndicatorFrom (before : Option Char) : List Char -> Bool
  | [] => false
  | c :: cs => isIndicatorAt before cs.head? c || hasIndicatorFrom (some c) cs

def startsLikeMark (cs : List Char) : Bool :=
  "---".toList.isPrefixOf cs || "...".toList.isPrefixOf cs

def hasPair (first second : Char -> Bool) : List Char -> Bool
  | c :: d :: cs => (first c && second d) || hasPair first second (d :: cs)
  | _ => false

def hasSpecial (cs : List Char) : Bool :=
  cs.any fun c => c != '\t' && !isPrintable c

def allowsPlain (cs : List Char) : Bool :=
  !cs.head?.any (· == ' ') && !cs.getLast?.any (· == ' ') && !cs.any isBreak && !cs.contains '\t' &&
    !hasSpecial cs && !hasIndicatorFrom none cs && !startsLikeMark cs

def allowsSingle (cs : List Char) : Bool :=
  !hasPair isBreak (· == ' ') cs && !hasPair (· == ' ') isBreak cs && !cs.contains '\t' &&
    !hasSpecial cs

def allowsBlock (cs : List Char) : Bool :=
  !cs.getLast?.any (· == ' ') && !hasPair (· == ' ') isBreak cs && !hasSpecial cs

/-!
# What a plain spelling means
-/

def isOldTruth (s : Text) : Bool :=
  (Text.words "y Y yes Yes YES on On ON n N no No NO off Off OFF").contains s

def isSexagesimalTail : Text -> Bool
  | [] => true
  | Byte.dot :: s => s.all fun b => Byte.isDigit b || b == Byte.underscore
  | Byte.colon :: a :: b :: s =>
      if Byte.isDigit a && a < Byte.of '6' && Byte.isDigit b then isSexagesimalTail s
      else Byte.isDigit a && isSexagesimalTail (b :: s)
  | [Byte.colon, a] => Byte.isDigit a
  | _ => false

def isSexagesimal (s : Text) : Bool :=
  let digits :=
    match s with
    | Byte.minus :: s => s
    | Byte.plus :: s => s
    | s => s
  let tail := digits.dropWhile fun b => Byte.isDigit b || b == Byte.underscore
  digits.head?.any Byte.isDigit && tail.head? == some Byte.colon && isSexagesimalTail tail

def readsAsText (s : Text) : Bool :=
  (match Data.ofPlain s with
  | .text _ => true
  | _ => false) && !isSexagesimal s && !isOldTruth s

/-!
# Scalars
-/

def hexDigit (n : Nat) : UInt8 :=
  if n < 10 then Byte.zero + n.toUInt8 else Byte.of 'A' + (n - 10).toUInt8

def hex : (width : Nat) -> Nat -> Text
  | 0, _ => []
  | width + 1, n => hex width (n / 16) ++ [hexDigit (n % 16)]

def letterEscape? (c : Char) : Option Char :=
  Option.map (·.2) <| List.find? (fun (entry : Nat × Char) => entry.1 == c.toNat)
    [(0x00, '0'), (0x07, 'a'), (0x08, 'b'), (0x09, 't'), (0x0A, 'n'), (0x0B, 'v'), (0x0C, 'f'),
     (0x0D, 'r'), (0x1B, 'e'), (0x22, '"'), (0x5C, '\\'), (0x85, 'N'), (0xA0, '_'), (0x2028, 'L'),
     (0x2029, 'P')]

def escaped (c : Char) : Text :=
  match letterEscape? c with
  | some e => [Byte.backslash, Byte.of e]
  | none =>
      let n := c.toNat
      if n ≤ 0xFF then [Byte.backslash, Byte.of 'x'] ++ hex 2 n
      else if n ≤ 0xFFFF then [Byte.backslash, Byte.of 'u'] ++ hex 4 n
      else [Byte.backslash, Byte.of 'U'] ++ hex 8 n

def doubleQuotedChar (c : Char) : Text :=
  if isPrintable c && !isBreak c && c != '"' && c != '\\' then Text.ofChar c else escaped c

def doubleQuoted (cs : List Char) : Text :=
  let write := if cs.head? == some byteOrderMark then escaped else doubleQuotedChar
  [Byte.quote] ++ cs.flatMap write ++ [Byte.quote]

/-- Characters as they are, with an indentation where a line starts; `atStart` tells that one
starts here. -/
def indented (column : Nat) (write : Char -> Text) : (atStart : Bool) -> List Char -> Text
  | _, [] => []
  | atStart, c :: cs =>
      if isBreak c then Text.ofChar c ++ indented column write true cs
      else
        (if atStart then List.replicate column Byte.space else []) ++ write c ++
          indented column write false cs

def singleQuoted (column : Nat) (cs : List Char) : Text :=
  let write (c : Char) : Text :=
    if c == '\'' then [Byte.apostrophe, Byte.apostrophe] else Text.ofChar c
  [Byte.apostrophe] ++ indented column write false cs ++ [Byte.apostrophe]

def inlineText (column : Nat) (s : Text) : Text :=
  let cs := s.chars
  if !readsAsText s || cs.contains '\n' then doubleQuoted cs
  else if allowsPlain cs then s
  else if allowsSingle cs then singleQuoted column cs
  else doubleQuoted cs

/-- What a literal block announces: an indentation if it starts with white space, and what becomes
of the line ends at its end. -/
def blockHints (cs : List Char) : Text :=
  let indentation : Text := if cs.head?.any fun c => c == ' ' || isBreak c then "4" else []
  let ending : Text :=
    match cs.reverse with
    | [] => "-"
    | last :: before =>
        if !isBreak last then "-"
        else if before.head?.all isBreak then "+"
        else []
  indentation ++ ending

/-- The lines of a literal block; empty lines are not indented.  A line end at the start of the text
is the one after the announcement. -/
def blockLines (column : Nat) (cs : List Char) : Text :=
  let start : Text := if cs.head?.any isBreak then [] else "\n"
  let ending : Text := if cs.getLast?.any isBreak then [] else "\n"
  start ++ indented column Text.ofChar true cs ++ ending

def literalBlock (column : Nat) (cs : List Char) : Text :=
  "|" ++ blockHints cs ++ blockLines column cs

def isBinary (s : Text) : Bool :=
  s.runes.any Rune.isStray

def letterLines : (count : Nat) -> Text -> Text
  | 0, s => s
  | count + 1, s =>
      if s.isEmpty then [] else s.take 70 ++ [Byte.newline] ++ letterLines count (s.drop 70)

def binaryLetters (s : Text) : Text :=
  let letters := Base64.encode s
  if letters.length < 70 then letters else letterLines letters.length letters

def binaryTag : Text := "!!binary"

def scalarText (column : Nat) (s : Text) : Text :=
  if isBinary s then
    let letters := binaryLetters s
    binaryTag ++ " " ++
      (if letters.contains Byte.newline then literalBlock column letters.chars else letters ++ "\n")
  else if s.contains Byte.newline && allowsBlock s.chars then literalBlock column s.chars
  else inlineText column s ++ "\n"

def number (f : Float) : Text :=
  let text := FloatText.general f
  if text == ("+Inf" : Text) then ".inf"
  else if text == ("-Inf" : Text) then "-.inf"
  else if text == ("NaN" : Text) then ".nan"
  else text

/-!
# The order of map entries

Digits inside keys compare by the number they make up, and letters come after
everything else.
-/

/-- The number at the start of a text, after the digits of `start`, and how many digits it has.
Each digit counts by its distance from the ASCII zero, and the number is a signed word of 64
bits. -/
def leadingNumber (start : Int64) (cs : List Char) : Int64 × Nat :=
  let digits := cs.takeWhile Text.isDecimalDigit
  (digits.foldl (fun n c => n * 10 + Int64.ofNat (c.toNat - 48)) start, digits.length)

/-- Compares texts that start differently; `shared` is what they have in common, last character
first. -/
def keyLtFrom (shared : List Char) (a b : Char) (as bs : List Char) : Bool :=
  let aLetter := Text.isLetter a
  let bLetter := Text.isLetter b
  if aLetter && bLetter then a < b
  else if aLetter || bLetter then
    if shared.head?.any Text.isDecimalDigit then aLetter else bLetter
  else
    let start : Int64 :=
      if (a == '0' || b == '0') && (shared.takeWhile Text.isDecimalDigit).any (· != '0') then 1
      else 0
    let (m, mLength) := leadingNumber start (a :: as)
    let (n, nLength) := leadingNumber start (b :: bs)
    if m != n then m < n
    else if mLength != nLength then mLength < nLength
    else a < b

/-- The first text comes before the second. -/
def keyLt (shared : List Char) : List Char -> List Char -> Bool
  | _, [] => false
  | [], _ :: _ => true
  | a :: as, b :: bs =>
      if a == b then keyLt (a :: shared) as bs else keyLtFrom shared a b as bs

def numeral? : Document -> Option Float
  | .bool b => some (if b then 1 else 0)
  | .int n => some (Float.ofInt n)
  | .float f => some f
  | _ => none

def kindRank : Document -> Nat
  | .bool _ => 0
  | .int n => if Numeral.fits n then 1 else 2
  | .float _ => 3
  | .null => 4
  | .text _ => 5
  | _ => 6

/-- The order of map keys: numbers come before texts. -/
def entryLe (a b : Document) : Bool :=
  match numeral? a, numeral? b with
  | some x, some y =>
      if x != y then x < y
      else
        match a, b with
        | .int m, .int n => m ≤ n
        | a, b => kindRank a ≤ kindRank b
  | _, _ =>
      match a, b with
      | .text s, .text t => !keyLt [] t.chars s.chars
      | a, b => kindRank a ≤ kindRank b

def sortEntries (entries : List (Document × Text)) : List Text :=
  (entries.mergeSort fun a b => entryLe a.1 b.1).map (·.2)

/-!
# Nodes
-/

def deeper (column : Nat) : Nat :=
  4 * ((column + 4) / 4)

/-- Pieces one below the other; the first stands where the text goes on. -/
def stack (column : Nat) (parts : List Text) : Text :=
  Text.joinWith (List.replicate column Byte.space) parts

/-- A key and its line end, where nothing follows it; its lines go on at the column. -/
def keyLine (column : Nat) : Document -> Text
  | .text s => scalarText column s
  | .int n => Text.ofInt n ++ "\n"
  | .float f => number f ++ "\n"
  | .bool b => if b then "true\n" else "false\n"
  | .moment m => m.render ++ "\n"
  | _ => "null\n"

/-- The value of a key can follow it on its line: the key is short and has one line. -/
def isSimpleKey : Document -> Bool
  | .text s =>
      if isBinary s then !(binaryLetters s).contains Byte.newline
      else !s.chars.any isBreak && s.length ≤ 128
  | _ => true

/-- A key, a colon and what follows it.  A key that is not simple has a sign of its own, and the
colon stands below. -/
def keyed (column : Nat) (k : Document) (value : Text) : Text :=
  if isSimpleKey k then Text.withoutEnding (keyLine column k) "\n" ++ [Byte.colon] ++ value
  else
    [Byte.of '?', Byte.space] ++ keyLine (deeper column) k ++ List.replicate column Byte.space ++
      [Byte.colon] ++ value

/-- A collection after the colon of a key at a column: below a simple key, and on the line of the
colon otherwise. -/
def below (simple : Bool) (column : Nat) (parts : List Text) : Text :=
  let start :=
    if simple then Byte.newline :: List.replicate (deeper column) Byte.space
    else List.replicate (deeper column - column - 1) Byte.space
  start ++ stack (deeper column) parts

def emptyMap : Text := [Byte.openBrace, Byte.closeBrace]

mutual

def afterKey (simple : Bool) (column : Nat) : Document -> Text
  | .null => " null\n"
  | .noList => " []\n"
  | .bool b => if b then " true\n" else " false\n"
  | .int n => [Byte.space] ++ Text.ofInt n ++ "\n"
  | .float f => [Byte.space] ++ number f ++ "\n"
  | .text s => [Byte.space] ++ scalarText (deeper column) s
  | .moment m => [Byte.space] ++ m.render ++ "\n"
  | .list items =>
      match items with
      | [] => " []\n"
      | _ :: _ => below simple column (writeItems (deeper column) items)
  | .record fields =>
      match fields with
      | [] => [Byte.space] ++ emptyMap ++ "\n"
      | _ :: _ => below simple column (writeFields (deeper column) fields)
  | .textMap entries =>
      match entries with
      | [] => [Byte.space] ++ emptyMap ++ "\n"
      | _ :: _ => below simple column (sortEntries (writeTextEntries (deeper column) entries))
  | .map entries =>
      match entries with
      | [] => [Byte.space] ++ emptyMap ++ "\n"
      | _ :: _ => below simple column (sortEntries (writeEntries (deeper column) entries))

def afterDash (column : Nat) : Document -> Text
  | .null => "null\n"
  | .noList => "[]\n"
  | .bool b => if b then "true\n" else "false\n"
  | .int n => Text.ofInt n ++ "\n"
  | .float f => number f ++ "\n"
  | .text s => scalarText column s
  | .moment m => m.render ++ "\n"
  | .list items =>
      match items with
      | [] => "[]\n"
      | _ :: _ => stack column (writeItems column items)
  | .record fields =>
      match fields with
      | [] => emptyMap ++ "\n"
      | _ :: _ => stack column (writeFields column fields)
  | .textMap entries =>
      match entries with
      | [] => emptyMap ++ "\n"
      | _ :: _ => stack column (sortEntries (writeTextEntries column entries))
  | .map entries =>
      match entries with
      | [] => emptyMap ++ "\n"
      | _ :: _ => stack column (sortEntries (writeEntries column entries))

def writeItems (column : Nat) : List Document -> List Text
  | [] => []
  | d :: ds => ([Byte.minus, Byte.space] ++ afterDash (column + 2) d) :: writeItems column ds

def writeFields (column : Nat) : List (Text × Document) -> List Text
  | [] => []
  | (name, d) :: rest =>
      (inlineText column name ++ [Byte.colon] ++ afterKey true column d) :: writeFields column rest

def writeTextEntries (column : Nat) : List (Text × Document) -> List (Document × Text)
  | [] => []
  | (k, d) :: rest =>
      let simple := isSimpleKey (.text k)
      (.text k, keyed column (.text k) (afterKey simple column d)) :: writeTextEntries column rest

def writeEntries (column : Nat) : List (Document × Document) -> List (Document × Text)
  | [] => []
  | (k, d) :: rest =>
      (k, keyed column k (afterKey (isSimpleKey k) column d)) :: writeEntries column rest

end

end Writer

end Yaml

def Document.toYaml (d : Document) : Text :=
  Yaml.Writer.afterDash 0 d

end EffectShader
