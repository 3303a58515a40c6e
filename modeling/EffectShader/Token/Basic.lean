import EffectShader.Text.Rune

/-!
# Tokens

A token is a piece of a source together with the place where it starts.  White
space and comments are tokens too, so the texts of the tokens of a source
concatenate to the source.
-/

namespace EffectShader

inductive TokenKind where
  | eof
  | ident
  | keyword
  | builtin
  | directive
  | operator
  | integer
  | float
  | whitespace
  | lineComment
  | blockComment
  deriving DecidableEq, Repr

def TokenKind.label : TokenKind -> String
  | .eof => "EOF"
  | .ident => "ident"
  | .keyword => "keyword"
  | .builtin => "builtin"
  | .directive => "preprocessor"
  | .operator => "operator"
  | .integer => "integer"
  | .float => "float"
  | .whitespace => "whitespace"
  | .lineComment => "line-comment"
  | .blockComment => "block-comment"

/-!
# Positions

Lines and columns count from one, columns in runes; offsets count bytes from
zero.
-/

structure Position where
  line : Nat
  column : Nat
  offset : Nat
  deriving DecidableEq, Repr

namespace Position

def start : Position := ⟨1, 1, 0⟩

def step (p : Position) (r : Rune) : Position :=
  if r.bytes == [Byte.newline] then ⟨p.line + 1, 1, p.offset + 1⟩
  else ⟨p.line, p.column + 1, p.offset + r.bytes.length⟩

def advance (p : Position) (s : Text) : Position :=
  s.runes.foldl step p

end Position

structure Token where
  kind : TokenKind
  text : Text
  /-- Where the token starts. -/
  start : Position
  deriving DecidableEq, Repr

namespace Token

def line (t : Token) : Nat :=
  t.start.line

def offset (t : Token) : Nat :=
  t.start.offset

/-- The offset just past the token. -/
def stop (t : Token) : Nat :=
  t.start.offset + t.text.length

def endAt (p : Position) : Token :=
  ⟨.eof, [], p⟩

def isOp (t : Token) (op : Text) : Bool :=
  t.kind == .operator && t.text == op

def isWord (t : Token) : Bool :=
  t.kind == .ident || t.kind == .keyword || t.kind == .builtin

def isTrivia (t : Token) : Bool :=
  t.kind == .whitespace || t.kind == .lineComment || t.kind == .blockComment

def isDirective (t : Token) : Bool :=
  t.kind == .directive

end Token

/-!
# Braces
-/

namespace Op

def openBrace : Text := [Byte.openBrace]
def closeBrace : Text := [Byte.closeBrace]

end Op

def significant (ts : List Token) : List Token :=
  ts.filter fun t => !t.isTrivia

end EffectShader
