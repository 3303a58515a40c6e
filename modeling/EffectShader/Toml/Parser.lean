import EffectShader.Toml.Basic
import EffectShader.Toml.Quoted

/-!
# Reading TOML

Every part of the grammar returns what it read and the text after it, or the
text at which it failed.  A file is read statement by statement, so that what
stands before a mistake is known.
-/

namespace EffectShader

namespace Toml

/-!
# Blanks and comments
-/

def skipBlanks (s : Text) : Text :=
  s.dropWhile Byte.isBlank

def contentLength (s : Text) : Nat :=
  match s with
  | [] => 0
  | b :: s =>
      let r := Rune.first b s
      if isContent r then r.bytes.length + contentLength (s.drop (r.bytes.length - 1)) else 0
  termination_by s.length
  decreasing_by simp only [List.length_drop, List.length_cons]; omega

def skipComment (s : Text) : Except Stop Text :=
  match skipBlanks s with
  | Byte.hash :: s =>
      let rest := s.drop (contentLength s)
      if rest.isEmpty || (afterNewline? rest).isSome then .ok rest
      else .error ⟨rest, "character not allowed in a comment"⟩
  | s => .ok s

def skipLines : (count : Nat) -> Text -> Except Stop Text
  | 0, s => .ok s
  | count + 1, s =>
      match skipComment s with
      | .error e => .error e
      | .ok s =>
          match afterNewline? s with
          | some rest => skipLines count rest
          | none =>
              if s.head? == some Byte.carriage then .error ⟨s, "expected a line end"⟩ else .ok s

def skipSpace (s : Text) : Except Stop Text :=
  skipLines (s.length + 1) s

/-!
# Keys
-/

def isBareByte (b : UInt8) : Bool :=
  Byte.isWord b || b == Byte.minus

def keyPart (s : Text) : Read Text :=
  match s with
  | Byte.quote :: s => basicText s
  | Byte.apostrophe :: s => literalText s
  | s =>
      let name := s.takeWhile isBareByte
      if name.isEmpty then stop s "expected a key" else .ok (name, s.drop name.length)

/-- The names of a key after the first; at most `count` are read. -/
def keyTail : (count : Nat) -> Text -> Read Key
  | 0, s => .ok ([], s)
  | count + 1, s =>
      match skipBlanks s with
      | Byte.dot :: rest =>
          match keyPart (skipBlanks rest) with
          | .error e => .error e
          | .ok (name, rest) =>
              match keyTail count rest with
              | .error e => .error e
              | .ok (names, rest) => .ok (name :: names, rest)
      | rest => .ok ([], rest)

def key (s : Text) : Read Key :=
  match keyPart s with
  | .error e => .error e
  | .ok (name, rest) =>
      match keyTail (rest.length + 1) rest with
      | .error e => .error e
      | .ok (names, rest) => .ok (name :: names, rest)

/-!
# Values
-/

/-- A value that is neither a text nor has parts. -/
def scalar (s : Text) : Read Value :=
  match s with
  | [] => stop [] "expected a value"
  | b :: _ =>
      if b == Byte.of 't' then
        match Text.afterPrefix? "true" s with
        | some rest => .ok (.boolean true, rest)
        | none => stop s "expected a value"
      else if b == Byte.of 'f' then
        match Text.afterPrefix? "false" s with
        | some rest => .ok (.boolean false, rest)
        | none => stop s "expected a value"
      else numberOrMoment s

mutual

/-- Reads a value; `fuel` bounds how many parts are read. -/
def value : (fuel : Nat) -> Text -> Read Value
  | 0, s => stop s "expected a value"
  | fuel + 1, s =>
      match s with
      | Byte.quote :: rest => (textAfter Byte.quote rest).map fun r => (.text r.1, r.2)
      | Byte.apostrophe :: rest => (textAfter Byte.apostrophe rest).map fun r => (.text r.1, r.2)
      | Byte.openBracket :: rest => (items fuel rest).map fun r => (.array r.1, r.2)
      | Byte.openBrace :: rest => (entries fuel (skipBlanks rest)).map fun r => (.table r.1, r.2)
      | s => scalar s

/-- The items of an array and its closing bracket; a comma may follow the last item. -/
def items : (fuel : Nat) -> Text -> Read (List Value)
  | 0, s => stop s "array is not closed"
  | fuel + 1, s =>
      match skipSpace s with
      | .error e => .error e
      | .ok (Byte.closeBracket :: rest) => .ok ([], rest)
      | .ok s =>
          match value fuel s with
          | .error e => .error e
          | .ok (v, rest) =>
              match skipSpace rest with
              | .error e => .error e
              | .ok (Byte.closeBracket :: rest) => .ok ([v], rest)
              | .ok (Byte.comma :: rest) =>
                  match items fuel rest with
                  | .error e => .error e
                  | .ok (vs, rest) => .ok (v :: vs, rest)
              | .ok rest => stop rest "expected a comma or the end of the array"

def entries : (fuel : Nat) -> Text -> Read (List (Key × Value))
  | 0, s => stop s "table is not closed"
  | fuel + 1, s =>
      match s with
      | Byte.closeBrace :: rest => .ok ([], rest)
      | s => moreEntries fuel s

def moreEntries : (fuel : Nat) -> Text -> Read (List (Key × Value))
  | 0, s => stop s "table is not closed"
  | fuel + 1, s =>
      match assignment fuel s with
      | .error e => .error e
      | .ok (entry, rest) =>
          match skipBlanks rest with
          | Byte.closeBrace :: rest => .ok ([entry], rest)
          | Byte.comma :: rest =>
              match moreEntries fuel (skipBlanks rest) with
              | .error e => .error e
              | .ok (more, rest) => .ok (entry :: more, rest)
          | rest => stop rest "expected a comma or the end of the table"

def assignment : (fuel : Nat) -> Text -> Read (Key × Value)
  | 0, s => stop s "expected a key"
  | fuel + 1, s =>
      match key s with
      | .error e => .error e
      | .ok (names, rest) =>
          match rest with
          | Byte.equals :: rest =>
              match value fuel (skipBlanks rest) with
              | .error e => .error e
              | .ok (v, rest) => .ok ((names, v), rest)
          | rest => stop rest "expected an equals sign"

end

/-!
# Statements
-/

def header (closing : Text) (s : Text) : Read Key :=
  match key (skipBlanks s) with
  | .error e => .error e
  | .ok (names, rest) =>
      match Text.afterPrefix? closing rest with
      | some rest => .ok (names, rest)
      | none => stop rest "expected the end of the header"

def bareStatement (s : Text) : Read Statement :=
  match s with
  | Byte.openBracket :: Byte.openBracket :: rest =>
      (header "]]" rest).map fun r => (.arrayTable r.1, r.2)
  | Byte.openBracket :: rest => (header "]" rest).map fun r => (.table r.1, r.2)
  | s => (assignment (2 * s.length + 2) s).map fun r => (.assign r.1.1 r.1.2, r.2)

def statement (s : Text) : Read Statement :=
  match bareStatement s with
  | .error e => .error e
  | .ok (first, rest) => (skipComment rest).map fun rest => (first, rest)

/-- Reads the statements of at most `count` lines, up to the first mistake. -/
def statements : (count : Nat) -> Text -> List Statement × Option Stop
  | 0, _ => ([], none)
  | count + 1, s =>
      match skipSpace s with
      | .error e => ([], some e)
      | .ok [] => ([], none)
      | .ok s =>
          match statement s with
          | .error e => ([], some e)
          | .ok (first, rest) =>
              match rest, afterNewline? rest with
              | [], _ => ([first], none)
              | _, some rest =>
                  let (more, mistake) := statements count rest
                  (first :: more, mistake)
              | rest, none => ([first], some ⟨rest, "expected the end of the line"⟩)

def locate (file : Text) (s : Stop) : Malformed :=
  let before : Text := file.take (file.length - s.rest.length)
  let line := before.reverse.takeWhile (· != Byte.newline)
  ⟨Text.newlines before + 1, line.length + 1, s.message⟩

def parse (file : Text) : File :=
  let (statements, mistake) := statements (file.length + 1) file
  ⟨statements, mistake.map (locate file)⟩

end Toml

end EffectShader
