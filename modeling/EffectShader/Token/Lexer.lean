import EffectShader.Text.Letter
import EffectShader.Token.Basic
import EffectShader.Token.Word

/-!
# From source to tokens

At each point of the source the first byte decides the class of the token, and
the scanners below say how many of the following bytes belong to it.  Only one
thing can go wrong: a block comment that is never closed.
-/

namespace EffectShader

namespace Lexer

/-!
# Extents

Each function answers how many bytes of the rest of the source belong to a
token whose first byte has been read.
-/

def isSeparator (b : UInt8) : Bool :=
  b == Byte.newline || b == Byte.space || b == Byte.tab || b == Byte.carriage ||
    b == 0x0C || b == 0x0B

def run (p : UInt8 -> Bool) (s : Text) : Nat :=
  (s.takeWhile p).length

def directiveExtent : Text -> Nat
  | Byte.backslash :: Byte.newline :: s => 2 + directiveExtent s
  | Byte.backslash :: Byte.carriage :: Byte.newline :: s => 3 + directiveExtent s
  | b :: s => if b == Byte.newline then 0 else 1 + directiveExtent s
  | [] => 0

def blockCommentExtent? (s : Text) : Option Nat :=
  (Text.indexOf? "*/" (s.drop 1)).map (· + 3)

/-- The letter `e`, a sign and digits; nothing if no digit follows. -/
def exponentExtent : Text -> Nat
  | e :: sign :: s =>
      if e == Byte.of 'e' || e == Byte.of 'E' then
        if Byte.isDigit sign then 2 + run Byte.isDigit s
        else if (sign == Byte.plus || sign == Byte.minus) && 0 < run Byte.isDigit s then
          2 + run Byte.isDigit s
        else 0
      else 0
  | _ => 0

def isF (b : UInt8) : Bool :=
  b == Byte.of 'f' || b == Byte.of 'F'

def isL (b : UInt8) : Bool :=
  b == Byte.of 'l' || b == Byte.of 'L'

def isU (b : UInt8) : Bool :=
  b == Byte.of 'u' || b == Byte.of 'U'

def floatSuffixExtent : Text -> Nat
  | [] => 0
  | [b] => if isF b then 1 else 0
  | b :: c :: _ => if isF b then 1 else if isL b && isF c then 2 else 0

def unsignedSuffixExtent : Text -> Nat
  | [] => 0
  | b :: _ => if isU b then 1 else 0

/-- The digits of a hexadecimal literal and its suffix, after `0x`. -/
def hexExtent (s : Text) : Nat :=
  let digits := run Byte.isHexDigit s
  digits + unsignedSuffixExtent (s.drop digits)

def decimalExtent (first : UInt8) (s : Text) : TokenKind × Nat :=
  let digits := run Byte.isDigit s
  let fraction :=
    match s.drop digits with
    | Byte.dot :: r => if first == Byte.dot then 0 else 1 + run Byte.isDigit r
    | _ => 0
  let mantissa := digits + fraction
  let exponent := exponentExtent (s.drop mantissa)
  let extent := mantissa + exponent
  if first == Byte.dot || 0 < fraction || 0 < exponent then
    (.float, extent + floatSuffixExtent (s.drop extent))
  else
    (.integer, extent + unsignedSuffixExtent (s.drop extent))

def numberExtent (first : UInt8) (s : Text) : TokenKind × Nat :=
  match s with
  | x :: r =>
      if first == Byte.zero && (x == Byte.of 'x' || x == Byte.of 'X') then
        (.integer, 1 + hexExtent r)
      else decimalExtent first s
  | [] => decimalExtent first s

def isWordChar (c : Char) : Bool :=
  Text.isLetter c || c.isDigit || c == '_'

def isWordStart (c : Char) : Bool :=
  Text.isLetter c || c == '_'

def classify (word : Text) : TokenKind :=
  if Word.isKeyword word then .keyword
  else if Word.isBuiltin word then .builtin
  else .ident

def operators : List Text :=
  Text.words "<<= >>= ++ -- << >> <= >= == != && || ^^ += -= *= /= %= &= |= ^="

/-- The longest operator at the start of `b :: s`, or else a single rune. -/
def operatorExtent (b : UInt8) (s : Text) : Nat :=
  match operators.find? fun op => op.isPrefixOf (b :: s) with
  | some op => op.length - 1
  | none => (Rune.first b s).bytes.length - 1

/-- The class of the token at the start of `b :: s` and how many bytes of `s` belong to it.
`fresh` says that only white space and block comments stand before it on its line. -/
def extent? (fresh : Bool) (b : UInt8) (s : Text) : Option (TokenKind × Nat) :=
  if isSeparator b then some (.whitespace, run isSeparator s)
  else if b == Byte.hash && fresh then some (.directive, directiveExtent s)
  else if b == Byte.slash && s.head? == some Byte.slash then
    some (.lineComment, run (· != Byte.newline) s)
  else if b == Byte.slash && s.head? == some Byte.star then
    (blockCommentExtent? s).map fun n => (.blockComment, n)
  else if Byte.isDigit b || (b == Byte.dot && s.head?.any Byte.isDigit) then
    some (numberExtent b s)
  else
    let r := Rune.first b s
    if isWordStart r.char then
      let n := r.bytes.length - 1
      let extent := n + (Text.takeChars isWordChar (s.drop n)).length
      some (classify (b :: s.take extent), extent)
    else some (.operator, operatorExtent b s)

def staysFresh (fresh : Bool) (kind : TokenKind) (text : Text) : Bool :=
  match kind with
  | .whitespace | .blockComment => fresh || text.contains Byte.newline
  | _ => false

/-- A block comment starting at the given place is never closed. -/
structure Unterminated where
  line : Nat
  column : Nat
  deriving DecidableEq, Repr

def Unterminated.message (e : Unterminated) : Text :=
  Text.ofNat e.line ++ ":" ++ Text.ofNat e.column ++ ": unterminated block comment"

def scan (p : Position) (fresh : Bool) : Text -> Except Unterminated (List Token)
  | [] => .ok [Token.endAt p]
  | b :: s =>
      match extent? fresh b s with
      | none => .error ⟨p.line, p.column⟩
      | some (kind, n) => do
          let text := b :: s.take n
          let rest <- scan (p.advance text) (staysFresh fresh kind text) (s.drop n)
          return ⟨kind, text, p⟩ :: rest
  termination_by s => s.length
  decreasing_by simp only [List.length_drop, List.length_cons]; omega

end Lexer

def tokenize (source : Text) : Except Lexer.Unterminated (List Token) :=
  Lexer.scan Position.start true source

end EffectShader
