import EffectShader.Text.Rune
import EffectShader.Toml.Basic

/-!
# Quoted texts of TOML

A text stands in double quotes, with escapes, or in single quotes, as it is;
three quotes enclose a text of several lines.
-/

namespace EffectShader

namespace Toml

/-- The character may stand in a comment or in a text: it is well encoded, and of the control
characters only the tab is allowed. -/
def isContent (r : Rune) : Bool :=
  !r.isStray && (r.char == '\t' || (' ' ≤ r.char && r.char != Char.ofNat 0x7F))

def afterNewline? : Text -> Option Text
  | Byte.newline :: s => some s
  | Byte.carriage :: Byte.newline :: s => some s
  | _ => none

/-!
# Escapes
-/

def escapeCode? (b : UInt8) : Option Nat :=
  match Char.ofNat b.toNat with
  | 'b' => some 8
  | 't' => some 9
  | 'n' => some 10
  | 'f' => some 12
  | 'r' => some 13
  | 'e' => some 27
  | '"' => some 34
  | '\\' => some 92
  | _ => none

def codeText? (digits : Text) : Option Text :=
  (Numeral.digitsFrom? 16 0 digits).bind fun code =>
    if code.isValidChar then some (Text.ofChar (Char.ofNat code)) else none

def escape? (b : UInt8) (s : Text) : Option (Text × Nat) :=
  let width := if b == Byte.of 'u' then 4 else if b == Byte.of 'U' then 8 else 0
  if width == 0 then (escapeCode? b).map fun code => (Text.ofChar (Char.ofNat code), 0)
  else if (s.take width).length == width then (codeText? (s.take width)).map fun t => (t, width)
  else none

/-!
# Texts of one line
-/

def basicText (s : Text) : Read Text :=
  match s with
  | [] => stop [] "text is not closed"
  | Byte.backslash :: b :: s =>
      match escape? b s with
      | none => stop (b :: s) "unknown escape"
      | some (text, width) =>
          match basicText (s.drop width) with
          | .error e => .error e
          | .ok (more, rest) => .ok (text ++ more, rest)
  | b :: s =>
      if b == Byte.quote then .ok ([], s)
      else
        let r := Rune.first b s
        if !isContent r then stop (b :: s) "character not allowed in text"
        else
          match basicText (s.drop (r.bytes.length - 1)) with
          | .error e => .error e
          | .ok (more, rest) => .ok (r.bytes ++ more, rest)
  termination_by s.length
  decreasing_by all_goals (simp only [List.length_drop, List.length_cons]; omega)

def literalText (s : Text) : Read Text :=
  match s with
  | [] => stop [] "text is not closed"
  | b :: s =>
      if b == Byte.apostrophe then .ok ([], s)
      else
        let r := Rune.first b s
        if !isContent r then stop (b :: s) "character not allowed in text"
        else
          match literalText (s.drop (r.bytes.length - 1)) with
          | .error e => .error e
          | .ok (more, rest) => .ok (r.bytes ++ more, rest)
  termination_by s.length
  decreasing_by all_goals (simp only [List.length_drop, List.length_cons]; omega)

/-!
# Texts of several lines
-/

def isLineSpace (b : UInt8) : Bool :=
  Byte.isBlank b || b == Byte.newline || b == Byte.carriage

def returnsEndLines : Text -> Bool
  | [] => true
  | b :: s => (b != Byte.carriage || s.head? == some Byte.newline) && returnsEndLines s

/-- Up to two quotes may stand before the three that close a text of several lines.  The answer is
`none` where the text goes on. -/
def closing? (quote : UInt8) (s : Text) : Option (Read Text) :=
  let quotes := s.takeWhile (· == quote)
  if quotes.length < 3 then none
  else if 5 < quotes.length then some (stop s "too many quotes")
  else some (.ok (quotes.drop 3, s.drop quotes.length))

/-- Reads up to the three closing quotes; in double quotes there are escapes, and a backslash at the
end of a line joins it with the next. -/
def longText (quote : UInt8) (s : Text) : Read Text :=
  match closing? quote s with
  | some r => r
  | none =>
      match s with
      | [] => stop [] "text is not closed"
      | b :: s =>
          if b == Byte.backslash && quote == Byte.quote then
            let blanks := s.takeWhile isLineSpace
            if blanks.contains Byte.newline && returnsEndLines blanks then
              longText quote (s.drop blanks.length)
            else
              match s with
              | [] => stop [] "unknown escape"
              | c :: s =>
                  match escape? c s with
                  | none => stop (c :: s) "unknown escape"
                  | some (text, width) =>
                      match longText quote (s.drop width) with
                      | .error e => .error e
                      | .ok (more, rest) => .ok (text ++ more, rest)
          else
            let r := Rune.first b s
            if isContent r || (afterNewline? (b :: s)).isSome then
              match longText quote (s.drop (r.bytes.length - 1)) with
              | .error e => .error e
              | .ok (more, rest) => .ok (r.bytes ++ more, rest)
            else stop (b :: s) "character not allowed in text"
  termination_by s.length
  decreasing_by all_goals (simp only [List.length_drop, List.length_cons]; omega)

def textAfter (quote : UInt8) (s : Text) : Read Text :=
  match s with
  | b :: c :: rest =>
      if b == quote && c == quote then
        longText quote ((afterNewline? rest).getD rest)
      else if quote == Byte.quote then basicText s
      else literalText s
  | _ => if quote == Byte.quote then basicText s else literalText s

end Toml

end EffectShader
