import EffectShader.Diagnostic.LineMap
import EffectShader.Macro.Literal
import EffectShader.Table

/-!
# Function macros

A directive `#pragma define NAME(a, b) BODY`, continued over several lines by
backslashes, defines a macro with parameters.  Calls are expanded one at a time,
the leftmost first, also inside the bodies of other macros, until none is left;
then the definitions are blanked.  Macros that call themselves stay unexpanded,
and a limit on the number of expansions stops macros that call each other.
-/

namespace EffectShader

structure FunctionMacro where
  name : Text
  params : List Text
  /-- The text of the body with its line continuations. -/
  body : Text
  line : Nat
  /-- Where the definition starts and ends. -/
  start : Nat
  stop : Nat
  deriving DecidableEq, Repr

namespace FunctionMacro

/-!
# Calls

A call is an occurrence of the name with an opening parenthesis after it,
outside line comments.
-/

/-- A call of `name` stands at the start of `s`, where `previous` is the byte before. -/
def isCall (name : Text) (previous : UInt8) (s : Text) : Bool :=
  (Occurrence.after? name previous s).any fun rest =>
    (rest.dropWhile Byte.isBlank).head? == some Byte.openParen

/-- The offset of the first call at an offset that `eligible` admits.  The byte before is
`previous`; `commented` says that a line comment has started on the line. -/
def findCall? (name : Text) (eligible : Nat -> Bool) :
    (previous : UInt8) -> (commented : Bool) -> (offset : Nat) -> Text -> Option Nat
  | _, _, _, [] => none
  | previous, commented, offset, b :: s =>
      if isCall name previous (b :: s) && !commented && eligible offset then some offset
      else
        let commented :=
          b != Byte.newline && (commented || (b == Byte.slash && previous == Byte.slash))
        findCall? name eligible b commented (offset + 1) s

/-- The first call in a text at an offset that `eligible` admits. -/
def callIn? (name : Text) (eligible : Nat -> Bool) (s : Text) : Option Nat :=
  findCall? name eligible Byte.newline false 0 s

def isRecursive (m : FunctionMacro) : Bool :=
  (callIn? m.name (fun _ => true) m.body).isSome

def spans (m : FunctionMacro) (offset : Nat) : Bool :=
  m.start ≤ offset && offset < m.stop

def firstCall? (code : Text) (m : FunctionMacro) : Option Nat :=
  callIn? m.name (fun offset => !m.spans offset) code

def leftmostCall? (code : Text) (blocked : List Text) (macros : List FunctionMacro) :
    Option (FunctionMacro × Nat) :=
  macros.foldl
    (fun best m =>
      if blocked.contains m.name then best
      else
        match firstCall? code m, best with
        | none, best => best
        | some offset, none => some (m, offset)
        | some offset, some (m', offset') =>
            if offset < offset' then some (m, offset) else some (m', offset'))
    none

/-!
# Definitions
-/

def isLineBlank (b : UInt8) : Bool :=
  Byte.isBlank b || b == Byte.carriage

def isContinued (line : Text) : Bool :=
  (Text.dropEndWhile isLineBlank line).getLast? == some Byte.backslash

def continuations (line : Text) : (rest : List Text) -> Nat
  | [] => 0
  | next :: rest => if isContinued line then continuations next rest + 1 else 0

def isDefinition (line : Text) : Bool :=
  (defineArgs? line).any fun args =>
    let name := Occurrence.leadingName args
    !name.isEmpty && (args.drop name.length).head? == some Byte.openParen

def dropContinuations (s : Text) : Text :=
  match s with
  | Byte.backslash :: Byte.newline :: rest => dropContinuations (Text.trim rest)
  | s => s
  termination_by s.length
  decreasing_by
    have := Text.length_trim_le rest
    simp only [List.length_cons]
    omega

def parameters (s : Text) : List Text :=
  ((Text.splitByte Byte.comma s).map Text.trim).filter fun p => !p.isEmpty

def ofDefinition (text : Text) (line start : Nat) : Except Diagnostic FunctionMacro :=
  let rest := ((Text.cut? "define" text).elim [] (·.2)).dropWhile Byte.isBlank
  let name := Occurrence.leadingName rest
  let missing :=
    Diagnostic.error line ("malformed macro definition '" ++ name ++ "': missing ')'")
  match Text.cut? [Byte.closeParen] rest with
  | none => .error missing
  | some (before, after) =>
      let list := before.drop (name.length + 1)
      if list.contains Byte.newline then .error missing
      else
        .ok {
          name, line, start
          params := parameters list
          body := dropContinuations (Text.trim after)
          stop := start + text.length }

/-- The definitions in the lines of a text, of which `line` is the number of the first and `offset`
its place. -/
def definitionsFrom (line offset : Nat) :
    List Text -> Except Diagnostic (List FunctionMacro)
  | [] => .ok []
  | text :: rest =>
      if isDefinition text then
        let n := continuations text rest
        let definition := Text.unlines (text :: rest.take n)
        match ofDefinition definition line offset with
        | .error e => .error e
        | .ok m =>
            match definitionsFrom (line + 1 + n) (offset + definition.length + 1) (rest.drop n) with
            | .error e => .error e
            | .ok more => .ok (m :: more)
      else definitionsFrom (line + 1) (offset + text.length + 1) rest
  termination_by lines => lines.length
  decreasing_by all_goals (simp only [List.length_drop, List.length_cons]; omega)

def definitions (code : Text) : Except Diagnostic (List FunctionMacro) :=
  definitionsFrom 1 0 code.lines

def removeFrom (offset : Nat) (code : Text) : List FunctionMacro -> Text
  | [] => code
  | m :: rest =>
      let inside := code.drop (m.start - offset)
      let size := m.stop - m.start
      code.take (m.start - offset) ++
        List.replicate (Text.newlines (inside.take size)) Byte.newline ++
        removeFrom m.stop (inside.drop size) rest

def removeDefinitions (code : Text) (macros : List FunctionMacro) : Text :=
  removeFrom 0 code macros

/-!
# Expanding a call
-/

def isOpening (b : UInt8) : Bool :=
  b == Byte.openParen || b == Byte.openBracket || b == Byte.openBrace

def isClosing (b : UInt8) : Bool :=
  b == Byte.closeParen || b == Byte.closeBracket || b == Byte.closeBrace

/-- Splits an argument list of which `depth` brackets are open; `arg` is the argument being read,
last byte first.  Returns the arguments and the text after the closing bracket. -/
def splitArgs? (depth : Nat) (arg : Text) : Text -> Option (List Text × Text)
  | [] => none
  | b :: s =>
      if isOpening b then splitArgs? (depth + 1) (b :: arg) s
      else if isClosing b then
        if depth ≤ 1 then some ([Text.trim arg.reverse], s)
        else splitArgs? (depth - 1) (b :: arg) s
      else if b == Byte.comma && depth == 1 then
        (splitArgs? depth [] s).map fun (args, rest) => (Text.trim arg.reverse :: args, rest)
      else splitArgs? depth (b :: arg) s

/-- Puts `glue` in place of each line continuation and of the blanks after it; `skipping` says that
only blanks stand between the last continuation and the text. -/
def reindent (glue : Text) : (skipping : Bool) -> Text -> Text
  | _, [] => []
  | _, Byte.backslash :: Byte.newline :: s => glue ++ reindent glue true s
  | skipping, b :: s =>
      if skipping && Byte.isBlank b then reindent glue true s
      else b :: reindent glue false s

/-- The line holding the end of `before` and the start of `after`. -/
def currentLine (before after : Text) : Text :=
  before.lines.getLast?.getD [] ++ after.takeWhile (· != Byte.newline)

def previousLine? (before : Text) : Option Text :=
  before.lines.dropLast.getLast?

/-- The replacement of each parameter; a missing argument is empty, and of parameters of the same
name the last counts. -/
def bindings (params args : List Text) : Table Text :=
  (params.zipIdx).foldl (fun table (p, i) => table.put p (args.getD i [])) []

structure Progress where
  code : Text
  lines : LineMap
  warnings : List Diagnostic

def Progress.warn (p : Progress) (d : Diagnostic) : Progress :=
  { p with warnings := p.warnings ++ [d] }

def arityWarning (line : Nat) (m : FunctionMacro) (count : Nat) : Diagnostic :=
  Diagnostic.warning line
    ("macro '" ++ m.name ++ "' expects " ++ Text.ofNat m.params.length ++ " arguments, got " ++
      Text.ofNat count)

/-- Replaces the call of `m` at `offset` by its body.  Inside another definition the body keeps its
line continuations. -/
def expandCall (p : Progress) (m : FunctionMacro) (offset : Nat) (inDefinition : Bool) :
    Except Diagnostic Progress :=
  let before : Text := p.code.take offset
  let call : Text := p.code.drop offset
  let line := before.newlines + 1
  let list := (call.dropWhile (· != Byte.openParen)).drop 1
  match splitArgs? 1 [] list with
  | none => .error (Diagnostic.error line ("unterminated call of macro '" ++ m.name ++ "'"))
  | some (args, after) =>
      let args := if args == [[]] && m.params.isEmpty then [] else args
      let p :=
        if args.length == m.params.length then p
        else p.warn (p.lines.relocate (arityWarning line m args.length))
      let body := Occurrence.substitute (bindings m.params args).get? m.body
      let current := currentLine before call
      let indent := current.takeWhile Byte.isBlank
      let keeps := inDefinition || isContinued current || (previousLine? before).any isContinued
      let glue : Text := if keeps then "\\\n" ++ indent else "\n" ++ indent
      let body := reindent glue false body
      let removed := Text.newlines (call.take (call.length - after.length)) + 1
      .ok { p with
        code := before ++ body ++ after
        lines := p.lines.splice line removed (body.newlines + 1) }

/-!
# Expanding all calls
-/

/-- No more than this many calls are expanded. -/
def maxExpansions : Nat := 4096

def limitWarning : Diagnostic :=
  Diagnostic.warning 0
    ("macro expansion stopped after " ++ Text.ofNat maxExpansions ++
      " expansions, check for mutually recursive macros")

def recursionWarning (m : FunctionMacro) : Diagnostic :=
  Diagnostic.warning m.line ("recursive macro '" ++ m.name ++ "' is not expanded")

/-- What an expansion reports, whether or not it succeeds. -/
structure Expansion where
  result : Except Diagnostic Text
  lines : LineMap
  warnings : List Diagnostic

def expandLoop (blocked : List Text) :
    (budget : Nat) -> Progress -> List FunctionMacro -> Expansion
  | 0, p, macros => ⟨.ok (removeDefinitions p.code macros), p.lines, p.warnings ++ [limitWarning]⟩
  | budget + 1, p, macros =>
      match leftmostCall? p.code blocked macros with
      | none => ⟨.ok (removeDefinitions p.code macros), p.lines, p.warnings⟩
      | some (m, offset) =>
          match expandCall p m offset (macros.any fun m => m.spans offset) with
          | .error e => ⟨.error e, p.lines, p.warnings⟩
          | .ok p =>
              match definitions p.code with
              | .error e => ⟨.error e, p.lines, p.warnings⟩
              | .ok macros => expandLoop blocked budget p macros

/-- Expands the function macros of a text.  Warnings get the lines of the source; an error keeps the
line of the text as it was when expansion stopped. -/
def expand (code : Text) (lines : LineMap) : Expansion :=
  if !Text.includes code "#pragma" then ⟨.ok code, lines, []⟩
  else
    match definitions code with
    | .error e => ⟨.error e, lines, []⟩
    | .ok macros =>
        let blocked := macros.filter isRecursive
        let warnings := blocked.map fun m => lines.relocate (recursionWarning m)
        if macros.isEmpty then ⟨.ok code, lines, []⟩
        else expandLoop (blocked.map (·.name)) maxExpansions ⟨code, lines, warnings⟩ macros

end FunctionMacro

end EffectShader
