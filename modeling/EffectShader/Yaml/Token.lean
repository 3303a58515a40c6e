import EffectShader.Yaml.Scalar

/-!
# Tokens of YAML

The signs, names and scalars that a YAML text consists of.  The start and the
end of collections that are told by indentation alone are tokens, too.
-/

namespace EffectShader

namespace Yaml

inductive Token where
  | start
  | finish
  | version (major minor : Nat)
  /-- A short form for tags. -/
  | handle (name : Text) (stem : Text)
  | documentStart
  | documentEnd
  | blockList
  | blockMap
  | blockEnd
  | listOpen
  | listClose
  | mapOpen
  | mapClose
  | dash
  | comma
  | key
  | value
  | alias (name : Text)
  | anchor (name : Text)
  | tag (handle : Text) (suffix : Text)
  | scalar (text : Text) (quoted : Bool)
  deriving DecidableEq, Repr

/-!
# Names and tags
-/

def name? (c : Cursor) : Option (Text × Cursor) :=
  let name := c.rest.takeWhile isNameChar
  let after := c.advanceBy name.length
  let ends := after.endsAt 0 || after.sees fun b =>
    [0x3F, 0x3A, 0x2C, 0x5D, 0x7D, 0x25, 0x40, 0x60].contains b.toNat
  if name.isEmpty || !ends then none else some (textOf name, after)

def isTagChar (c : Char) : Bool :=
  isNameChar c || ";/?:@&=+$,.!~*'()[]".toList.contains c

/-- The bytes of an escaped character: as many as its first byte announces. -/
def escapedBytes? : (count : Nat) -> (first : Bool) -> List Char -> Option (Text × List Char)
  | 0, _, cs => some ([], cs)
  | count + 1, first, cs =>
      match cs with
      | '%' :: a :: b :: rest => do
          let code <- Numeral.digitsFrom? 16 0 (textOf [a, b])
          let byte := code.toUInt8
          let left <-
            if !first then (if Rune.isContinuation byte then some count else none)
            else if byte < 0x80 then some 0
            else if 0xC0 ≤ byte && byte < 0xE0 then some 1
            else if 0xE0 ≤ byte && byte < 0xF0 then some 2
            else if 0xF0 ≤ byte && byte < 0xF8 then some 3
            else none
          let (more, rest) <- escapedBytes? (min left count) false rest
          return (byte :: more, rest)
      | _ => none

def tagText? : (count : Nat) -> List Char -> Option (Text × List Char)
  | 0, cs => some ([], cs)
  | count + 1, cs =>
      match cs with
      | [] => some ([], [])
      | c :: rest =>
          if c == '%' then do
            let (bytes, rest) <- escapedBytes? 4 true cs
            let (more, rest) <- tagText? count rest
            return (bytes ++ more, rest)
          else if isTagChar c then do
            let (more, rest) <- tagText? count rest
            return (Text.ofChar c ++ more, rest)
          else some ([], cs)

def Cursor.moveTo (c : Cursor) (rest : List Char) : Cursor :=
  c.advanceBy (c.rest.length - rest.length)

def tagBody? (c : Cursor) : Option (Text × Cursor) :=
  match tagText? c.rest.length c.rest with
  | some (text, rest) => if rest.length == c.rest.length then none else some (text, c.moveTo rest)
  | none => none

/-- The handle at the start of a tag: its first sign, a name and perhaps a second sign. -/
def handleLength (c : Cursor) : Nat :=
  let name := (c.rest.drop 1).takeWhile isNameChar
  if c.ahead? (name.length + 1) == some '!' then name.length + 2 else name.length + 1

/-- Reads a tag: in angle brackets, after a handle, or with the first sign alone for a handle. -/
def bareTag? (c : Cursor) : Option (Token × Cursor) :=
  if c.ahead? 1 == some '<' then do
    let (text, c) <- tagBody? (c.advanceBy 2)
    if c.isAt '>' then some (.tag [] text, c.advance) else none
  else
    let length := handleLength c
    let handle := c.rest.take length
    if 1 < length && handle.getLast? == some '!' then do
      let (suffix, c) <- tagBody? (c.advanceBy length)
      return (.tag (textOf handle) suffix, c)
    else
      match tagText? c.rest.length (c.rest.drop 1) with
      | none => none
      | some (suffix, rest) =>
          let after := c.moveTo rest
          if suffix.isEmpty then some (.tag [] "!", after) else some (.tag "!" suffix, after)

def tag? (c : Cursor) : Option (Token × Cursor) :=
  (bareTag? c).bind fun (t, c) => if c.endsAt 0 then some (t, c) else none

/-!
# Directives
-/

def versionPart? (c : Cursor) : Option (Nat × Cursor) :=
  let digits := c.rest.takeWhile Char.isDigit
  if digits.isEmpty || 2 < digits.length then none
  else some (Text.digitsValue (textOf digits), c.advanceBy digits.length)

def version? (c : Cursor) : Option (Token × Cursor) := do
  let (major, c) <- versionPart? (c.advanceWhile isBlank)
  if !c.isAt '.' then failure
  let (minor, c) <- versionPart? c.advance
  return (.version major minor, c)

def handle? (c : Cursor) : Option (Token × Cursor) := do
  let c := c.advanceWhile isBlank
  if !c.isAt '!' then failure
  let length := handleLength c
  let name := c.rest.take length
  if 1 < length && name.getLast? != some '!' then failure
  let c := c.advanceBy length
  if !c.sees isBlank then failure
  let (stem, c) <- tagBody? (c.advanceWhile isBlank)
  if !c.endsAt 0 then failure
  return (.handle (textOf name) stem, c)

def directive? (c : Cursor) : Option (Token × Cursor) := do
  let name := c.rest.takeWhile isNameChar
  let after := c.advanceBy name.length
  if !after.endsAt 0 then failure
  let (t, c) <-
    if name == "YAML".toList then version? after
    else if name == "TAG".toList then handle? after
    else none
  let c <- endOfHeader? c
  return (t, c)

end Yaml

end EffectShader
