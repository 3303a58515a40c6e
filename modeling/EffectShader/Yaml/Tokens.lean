import EffectShader.Yaml.Token

/-!
# The tokens of a text

Tokens are made as they are asked for, three at least ahead of the reader.
What stands before a colon is known to be a key only when the colon is
reached; until then the place where its sign belongs is remembered, and the
reader waits.
-/

namespace EffectShader

namespace Yaml

structure KeyStart where
  /-- The number of the token that starts there. -/
  number : Nat
  line : Nat
  column : Nat
  index : Nat
  /-- The indentation leaves nothing but a key. -/
  required : Bool
  deriving DecidableEq, Repr

structure Tokens where
  cursor : Cursor
  /-- The tokens that the reader has not taken. -/
  queue : List Token
  /-- How many tokens the reader has taken. -/
  taken : Nat
  /-- The column of the innermost block collection, and those of the collections around it. -/
  indent : Int
  outer : List Int
  /-- For each open bracket, innermost first, and for the text outside of them: where a key may
  have started. -/
  keys : List (Option KeyStart)
  /-- A key may start here. -/
  keyAllowed : Bool

namespace Tokens

def ofText (text : List Char) : Tokens :=
  ⟨.start text, [.start], 0, -1, [], [none], true⟩

def inside (s : Tokens) : Bool :=
  1 < s.keys.length

def push (s : Tokens) (t : Token) : Tokens :=
  { s with queue := s.queue ++ [t] }

def insert (s : Tokens) (number : Nat) (t : Token) : Tokens :=
  let place := number - s.taken
  { s with queue := s.queue.take place ++ t :: s.queue.drop place }

def sign (s : Tokens) (length : Nat) (t : Token) : Tokens :=
  { s.push t with cursor := s.cursor.advanceBy length }

def allowKey (s : Tokens) (allowed : Bool) : Tokens :=
  { s with keyAllowed := allowed }

/-!
# Keys
-/

/-- The innermost start of a key is given up; none may be required. -/
def dropKey? (s : Tokens) : Option Tokens :=
  match s.keys with
  | some k :: rest => if k.required then none else some { s with keys := none :: rest }
  | _ => some s

def saveKey? (s : Tokens) : Option Tokens :=
  if !s.keyAllowed then some s
  else
    (dropKey? s).map fun s =>
      let c := s.cursor
      let required := !s.inside && s.indent == c.column
      let start : KeyStart := ⟨s.taken + s.queue.length, c.line, c.column, c.index, required⟩
      { s with keys := some start :: s.keys.drop 1 }

def isPending (s : Tokens) (k : KeyStart) : Bool :=
  s.cursor.line ≤ k.line && s.cursor.index ≤ k.index + 1024

/-!
# Indentation
-/

/-- Starts a block collection at a column, unless it is open; its token goes before the one with
the number. -/
def openBlock (s : Tokens) (column : Nat) (number : Option Nat) (t : Token) : Tokens :=
  if s.inside || column ≤ s.indent then s
  else
    let s := { s with indent := column, outer := s.indent :: s.outer }
    match number with
    | some n => s.insert n t
    | none => s.push t

def leave (column : Int) (indent : Int) : List Int -> Int × List Int × Nat
  | [] => (indent, [], 0)
  | next :: outer =>
      if indent ≤ column then (indent, next :: outer, 0)
      else
        let (indent, outer, count) := leave column next outer
        (indent, outer, count + 1)

def closeBlocks (s : Tokens) (column : Int) : Tokens :=
  if s.inside then s
  else
    let (indent, outer, count) := leave column s.indent s.outer
    { s with indent, outer, queue := s.queue ++ List.replicate count .blockEnd }

/-!
# Tokens one by one
-/

/-- Skips white space and comments.  A new line may start a key, and a tab must not stand where a
key may start. -/
def skipSpace : (count : Nat) -> Tokens -> Tokens
  | 0, s => s
  | count + 1, s =>
      let mayTab := s.inside || !s.keyAllowed
      let c := s.cursor.advanceWhile fun b => b == ' ' || (mayTab && b == '\t')
      let c := if c.isAt '#' then c.skipComments c.rest.length else c
      if c.sees isBreak then
        skipSpace count { s with cursor := c.nextLine, keyAllowed := s.keyAllowed || !s.inside }
      else { s with cursor := c }

def outermost? (s : Tokens) : Option Tokens :=
  ((s.closeBlocks (-1)).dropKey?).map (·.allowKey false)

def finish? (s : Tokens) : Option Tokens :=
  let c := s.cursor
  let c := if c.column == 0 then c else { c with column := 0, line := c.line + 1 }
  (outermost? { s with cursor := c }).map (·.push .finish)

def open? (s : Tokens) (t : Token) : Option Tokens :=
  if 10000 ≤ s.keys.length then none
  else
    (saveKey? s).map fun s =>
      let s := { s with keys := none :: s.keys }
      (s.allowKey true).sign 1 t

def close? (s : Tokens) (t : Token) : Option Tokens :=
  (dropKey? s).map fun s =>
    let s := if s.inside then { s with keys := s.keys.drop 1 } else s
    (s.allowKey false).sign 1 t

def comma? (s : Tokens) : Option Tokens :=
  (dropKey? s).map fun s => (s.allowKey true).sign 1 .comma

def blockSign? (s : Tokens) (collection t : Token) : Option Tokens :=
  if !s.inside && !s.keyAllowed then none
  else dropKey? (s.openBlock s.cursor.column none collection) |>.map (·.sign 1 t)

def dash? (s : Tokens) : Option Tokens :=
  (s.blockSign? .blockList .dash).map (·.allowKey true)

def key? (s : Tokens) : Option Tokens :=
  (s.blockSign? .blockMap .key).map fun s => s.allowKey (!s.inside)

def keyedValue (s : Tokens) (k : KeyStart) : Tokens :=
  let s := (s.insert k.number .key).openBlock k.column (some k.number) .blockMap
  let s := { s with keys := none :: s.keys.drop 1 }
  (s.allowKey false).sign 1 .value

def bareValue? (s : Tokens) : Option Tokens :=
  if !s.inside && !s.keyAllowed then none
  else
    let s := s.openBlock s.cursor.column none .blockMap
    some ((s.allowKey !s.inside).sign 1 .value)

def value? (s : Tokens) : Option Tokens :=
  match s.keys with
  | some k :: rest =>
      if s.isPending k then some (s.keyedValue k)
      else if k.required then none
      else bareValue? { s with keys := none :: rest }
  | _ => bareValue? s

def word? (s : Tokens) (read : Cursor -> Option (Token × Cursor)) : Option Tokens := do
  let s <- saveKey? s
  let (t, c) <- read s.cursor
  return { (s.allowKey false).push t with cursor := c }

/-- The least column of the lines of a scalar. -/
def margin (s : Tokens) : Nat :=
  (s.indent + 1).toNat

def plain? (s : Tokens) : Option Tokens := do
  let s <- saveKey? s
  let (text, broken, c) <-
    Yaml.plain? s.inside s.margin (s.cursor.rest.length + 1) [] .none s.cursor
  return { (s.allowKey broken).push (.scalar (textOf text) false) with cursor := c }

def quoted? (s : Tokens) (quote : Char) : Option Tokens :=
  s.word? fun c =>
    (Yaml.quoted? quote (c.rest.length + 1) [] c.advance).map fun (text, c) =>
      (.scalar (textOf text) true, c)

def block? (s : Tokens) (literal : Bool) : Option Tokens := do
  let s <- dropKey? s
  let (text, c) <- Yaml.block? literal s.margin s.cursor.advance
  return { (s.allowKey true).push (.scalar (textOf text) true) with cursor := c }

def mark? (s : Tokens) (t : Token) : Option Tokens :=
  s.outermost?.map (·.sign 3 t)

def directive? (s : Tokens) : Option Tokens := do
  let s <- s.outermost?
  let (t, c) <- Yaml.directive? s.cursor.advance
  return { s.push t with cursor := c }

def tokenAt? (s : Tokens) (b : Char) : Option Tokens :=
  let c := s.cursor
  if b == '[' then s.open? .listOpen
  else if b == Char.ofNat 0x7B then s.open? .mapOpen
  else if b == ']' then s.close? .listClose
  else if b == Char.ofNat 0x7D then s.close? .mapClose
  else if b == ',' then s.comma?
  else if b == '-' && c.endsAt 1 then s.dash?
  else if b == '?' && (s.inside || c.endsAt 1) then s.key?
  else if b == ':' && (s.inside || c.endsAt 1) then s.value?
  else if b == '*' then s.word? fun c => (name? c.advance).map fun (n, c) => (.alias n, c)
  else if b == '&' then s.word? fun c => (name? c.advance).map fun (n, c) => (.anchor n, c)
  else if b == '!' then s.word? tag?
  else if b == '|' && !s.inside then s.block? true
  else if b == '>' && !s.inside then s.block? false
  else if b == '\'' || b == '"' then s.quoted? b
  else if startsPlain s.inside c then s.plain?
  else none

def skipLineComment (s : Tokens) : Tokens :=
  if s.queue.getLast? == some .dash then s
  else { s with cursor := s.cursor.skipLineComment }

/-- Makes one more token, or several if block collections start or end there; `none` if the text is
malformed. -/
def next? (s : Tokens) : Option Tokens :=
  let s := s.skipSpace (s.cursor.rest.length + 1)
  let s := s.closeBlocks s.cursor.column
  let c := s.cursor
  match c.next? with
  | none => s.finish?
  | some b =>
      if c.column == 0 && b == '%' then s.directive?
      else if c.isAtMark "---" then s.mark? .documentStart
      else if c.isAtMark "..." then s.mark? .documentEnd
      else (s.tokenAt? b).map (·.skipLineComment)

/-!
# Reading
-/

def headKey? (s : Tokens) : Option KeyStart :=
  (s.keys.filterMap id).find? fun k => k.number == s.taken

def forget (s : Tokens) (k : KeyStart) : Tokens :=
  { s with keys := s.keys.map fun start => if start == some k then none else start }

def fill? : (count : Nat) -> Tokens -> Option Tokens
  | 0, s => some s
  | count + 1, s =>
      if s.queue.length < 3 then (s.next?).bind (fill? count)
      else
        match s.headKey? with
        | none => some s
        | some k =>
            if s.isPending k then (s.next?).bind (fill? count)
            else if k.required then none
            else some (s.forget k)

def peek? (s : Tokens) : Option (Token × Tokens) := do
  let s <- s.fill? (s.cursor.rest.length + 4)
  let t <- s.queue.head?
  return (t, s)

def skip (s : Tokens) : Tokens :=
  { s with queue := s.queue.drop 1, taken := s.taken + 1 }

end Tokens

end Yaml

end EffectShader
