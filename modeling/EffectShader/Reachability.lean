import EffectShader.Diagnostic.Basic
import EffectShader.Token.Lexer
import EffectShader.Token.Stream

/-!
# Reachable functions

The functions of a shader and the calls between them.  Functions that cannot be
reached from the entry point are removed from the text; `main` always stays.
-/

namespace EffectShader

structure ShaderFunction where
  name : Text
  /-- The offset of its return type. -/
  start : Nat
  /-- The offset just past its closing brace. -/
  stop : Nat
  /-- The functions that its body mentions, in bytewise order. -/
  calls : List Text
  deriving DecidableEq, Repr

namespace ShaderFunction

/-!
# Finding functions

A definition is two words, a parenthesised group and a braced group.  The
tokens since the last boundary of the top level form the heading.
-/

def mentions (ts : List Token) : List Text :=
  ((ts.filter Token.isWord).map (·.text)).eraseDups

structure Definition where
  name : Text
  start : Nat
  stop : Nat
  /-- The tokens of its braced group, with the braces. -/
  body : List Token
  deriving DecidableEq, Repr

/-- The function that a definition gives; every word of the body may be a call. -/
def Definition.function (d : Definition) : ShaderFunction :=
  ⟨d.name, d.start, d.stop, Text.sort ((mentions d.body).filter (· != d.name))⟩

/-- The first token of a definition: its type, or the precision before it. -/
def headingStart (type : Token) (earlier : List Token) : Token :=
  match earlier with
  | p :: _ => if Word.isPrecision p.text then p else type
  | [] => type

/-- Finds definitions; `heading` holds the tokens since the last boundary, last token first. -/
def scan (heading : List Token) (ts : List Token) : List Definition :=
  match hs : Stream.skipTrivia ts with
  | [] => []
  | t :: rest =>
      have shorter : rest.length < ts.length := by
        have := Stream.length_skipTrivia_le ts
        rw [hs] at this
        exact this
      if t.kind == .eof then []
      else if t.isDirective || t.isOp ";" || t.isOp Op.closeBrace then scan [] rest
      else if t.isOp Op.openBrace then
        have := Stream.length_closeGroup_le Op.openBrace Op.closeBrace 1 rest
        scan [] (Stream.closeGroup Op.openBrace Op.closeBrace 1 rest).2
      else if t.isOp "(" then
        let after := (Stream.closeGroup "(" ")" 1 rest).2
        have hafter : after.length ≤ rest.length := Stream.length_closeGroup_le "(" ")" 1 rest
        match heading with
        | name :: type :: earlier =>
            if name.isWord && type.isWord && (Stream.peekSignificant after).isOp Op.openBrace then
              let inside := Stream.tailSignificant after
              have hinside : inside.length ≤ after.length :=
                Stream.length_tailSignificant_le after
              let closing := Stream.closeGroup Op.openBrace Op.closeBrace 1 inside
              have hclosing : closing.2.length ≤ inside.length :=
                Stream.length_closeGroup_le Op.openBrace Op.closeBrace 1 inside
              ⟨name.text, (headingStart type earlier).offset, closing.1.stop,
                after.take (after.length - closing.2.length)⟩ :: scan [] closing.2
            else scan (t :: heading) after
        | _ => scan (t :: heading) after
      else scan (t :: heading) rest
  termination_by ts.length
  decreasing_by all_goals ((try simp +zetaDelta only at *); omega)

def ofTokens (ts : List Token) : List ShaderFunction :=
  let fns := (scan [] ts).map Definition.function
  let names := fns.map (·.name)
  fns.map fun f => { f with calls := f.calls.filter names.contains }

/-!
# The closure of calls
-/

def callees (fns : List ShaderFunction) (name : Text) : List Text :=
  (fns.filter fun f => f.name == name).flatMap (·.calls)

def grow (fns : List ShaderFunction) (live : List Text) : List Text :=
  (live ++ live.flatMap (callees fns)).eraseDups

def growTimes (fns : List ShaderFunction) : (rounds : Nat) -> List Text -> List Text
  | 0, live => live
  | rounds + 1, live => growTimes fns rounds (grow fns live)

/-- The names reachable from `entry`.  Every round but the last adds a function, so there are
enough rounds. -/
def reachable (fns : List ShaderFunction) (entry : Text) : List Text :=
  growTimes fns fns.length [entry]

/-!
# Removing functions
-/

structure Remainder where
  code : Text
  /-- The functions that were kept, with their places in `code`. -/
  functions : List ShaderFunction
  deriving DecidableEq, Repr

def moveBack (f : ShaderFunction) (n : Nat) : ShaderFunction :=
  { f with start := f.start - n, stop := f.stop - n }

/-- Blanks the functions that are not live.  `code` is the text from `offset` on, and `removed` the
number of bytes dropped before it. -/
def keepLive (live : List Text) (offset removed : Nat) (code : Text) :
    List ShaderFunction -> Remainder
  | [] => ⟨code, []⟩
  | f :: rest =>
      if live.contains f.name then
        let r := keepLive live offset removed code rest
        { r with functions := f.moveBack removed :: r.functions }
      else
        let definition : Text := Text.slice code (f.start - offset) (f.stop - offset)
        let blanks := List.replicate definition.newlines Byte.newline
        let r := keepLive live f.stop (removed + definition.length - blanks.length)
          (code.drop (f.stop - offset)) rest
        { r with code := code.take (f.start - offset) ++ blanks ++ r.code }

/-- What elimination leaves, and the failure if there is no such entry. -/
structure Elimination where
  remainder : Remainder
  failure : Option Failure
  deriving DecidableEq, Repr

def entryMissing (entry : Text) (instead : Option Text) : Failure :=
  .plain ("entry function not found: '" ++ entry ++ "'" ++
    (instead.elim ([] : Text) fun name => ", using '" ++ name ++ "'")) (some .entryNotFound)

/-- Removes the functions of a shader that `entry` does not reach.  Without such an entry the first
function takes its place. -/
def eliminate (code entry : Text) : Except Lexer.Unterminated Elimination :=
  match tokenize code with
  | .error e => .error e
  | .ok ts =>
      match ofTokens ts with
      | [] =>
          let failure :=
            if entry.isEmpty || entry == ("main" : Text) then none
            else some (entryMissing entry none)
          .ok ⟨⟨code, []⟩, failure⟩
      | f :: rest =>
          let fns := f :: rest
          let found := fns.any fun g => g.name == entry
          let start := if found then entry else f.name
          let live := ("main" : Text) :: reachable fns start
          .ok ⟨keepLive live 0 0 code fns,
            if found then none else some (entryMissing entry (some f.name))⟩

end ShaderFunction

end EffectShader
