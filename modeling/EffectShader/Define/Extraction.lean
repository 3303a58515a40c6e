import EffectShader.Condition.Parser
import EffectShader.Define.Gating
import EffectShader.Define.Metadata
import EffectShader.Diagnostic.Basic
import EffectShader.Table
import EffectShader.Token.Directive
import EffectShader.Version

/-!
# Extracting defines and pragmas

The directives of a shader are read in order.  Every macro that a condition
tests becomes a define, gated by the conditions around it; pragmas about
resources are collected.
-/

namespace EffectShader

/-- A `builtin` pragma: it applies to the first declaration after it. -/
structure BuiltinPragma where
  line : Nat
  inGlobalSet : Bool
  deriving DecidableEq, Repr

structure AuthorMessage where
  line : Nat
  text : Text
  isError : Bool
  /-- It stands inside a conditional. -/
  conditional : Bool
  deriving DecidableEq, Repr

/-- What the directives of a shader say. -/
structure Extraction where
  /-- The gates that hold from a line on, in the order of lines. -/
  lines : List (Nat × List Text)
  rates : Table Rate
  unfilterable : List Text
  extensions : List Extension
  builtins : List BuiltinPragma
  messages : List AuthorMessage
  deriving Repr

namespace Extraction

def empty : Extraction := ⟨[], [], [], [], [], []⟩

/-- How many of the lines, which are in their order, come up to a line.  The place is found by
halving the part from `low` to `high`. -/
def countUpTo (lines : List Nat) (line low high : Nat) : Nat :=
  if low < high then
    let middle := (low + high) / 2
    if lines.getD middle 0 ≤ line then countUpTo lines line (middle + 1) high
    else countUpTo lines line low middle
  else low
  termination_by high - low

/-- The gates of a line; `none` before the first directive. -/
def gatesAt (x : Extraction) (line : Nat) : Option (List Text) :=
  match countUpTo (x.lines.map (·.1)) line 0 x.lines.length with
  | 0 => none
  | n + 1 => x.lines[n]?.map (·.2)

def save (x : Extraction) (line : Nat) (gates : List Text) : Extraction :=
  match x.lines.getLast? with
  | some (last, _) =>
      if last == line then { x with lines := x.lines.dropLast ++ [(line, gates)] }
      else { x with lines := x.lines ++ [(line, gates)] }
  | none => { x with lines := [(line, gates)] }

/-- The pragma that governs a declaration: the last one before it, unless a declaration stands
between. -/
def builtinScope? (x : Extraction) (line previous : Nat) : Option Bool :=
  (x.builtins.reverse.find? fun b => b.line < line).bind fun b =>
    if previous < b.line then some b.inGlobalSet else none

end Extraction

namespace Extractor

open Gating

structure State where
  defines : DefineSet
  out : Extraction
  /-- The open conditionals, innermost first. -/
  stack : List Level
  /-- Macros that the shader defines itself. -/
  locals : List Text

def State.tracks (st : State) (name : Text) : Bool :=
  !isReserved name && !st.locals.contains name

def State.use (st : State) (name : Text) (type : DefineType) : State :=
  if st.tracks name then
    let d := { Define.new name with
      type
      defines := some (chain st.stack)
      used := true
      range := if type == .number then some Define.defaultRange else none }
    { st with defines := st.defines.add d }
  else st

abbrev Step := State × Option Diagnostic

def failed (st : State) (line : Nat) (message : Text) : Step :=
  (st, some (Diagnostic.error line message))

/-!
# Conditions
-/

def State.enterBranch (st : State) (gates : List Gate) : State :=
  match st.stack with
  | [] => st
  | l :: rest =>
      { st with stack := { l with current := l.current ++ gates } :: rest }

def condition (st : State) (body : Text) (line : Nat) : Step :=
  match Condition.parse body with
  | .error e =>
      failed st line ("invalid preprocessor condition '" ++ body ++ "': " ++ e.message)
  | .ok c =>
      let numeric := numericNames c
      let st := c.names.foldl
        (fun st name => st.use name (if numeric.contains name then .number else .boolean)) st
      (st.enterBranch ((conjuncts c).filter fun g => st.tracks (Gate.macroName g)), none)

def State.push (st : State) (l : Level) : State :=
  { st with stack := l :: st.stack }

def State.nextBranch? (st : State) : Option State :=
  match st.stack with
  | [] => none
  | l :: rest => some { st with stack := l.flip :: rest }

def ifDefined (st : State) (negated : Bool) (body : Text) (line : Nat) : Step :=
  let name := (Text.cut? " " body).elim body (·.1)
  if name.isEmpty then
    failed st line
      ("#" ++ Text.ofString (if negated then "ifndef" else "ifdef") ++ " without a macro name")
  else
    let gate := if negated then negation :: name else name
    let st := st.use name .boolean
    (st.push (Level.opened (if st.tracks name then [gate] else [])), none)

/-!
# Pragmas
-/

def isQuoteByte (b : UInt8) : Bool :=
  b == Byte.apostrophe || b == Byte.quote

/-- Splits at commas outside brackets and quotes; `part` is the part being read, last byte first. -/
def splitParts (depth : Int) (quote : Option UInt8) (part : Text) : Text -> List Text
  | [] => [Text.trim part.reverse]
  | b :: s =>
      match quote with
      | some q => splitParts depth (if b == q then none else some q) (b :: part) s
      | none =>
          if isQuoteByte b then splitParts depth (some b) (b :: part) s
          else if b == Byte.openParen || b == Byte.openBracket || b == Byte.openBrace then
            splitParts (depth + 1) none (b :: part) s
          else if b == Byte.closeParen || b == Byte.closeBracket || b == Byte.closeBrace then
            splitParts (depth - 1) none (b :: part) s
          else if b == Byte.comma && depth == 0 then
            Text.trim part.reverse :: splitParts depth none [] s
          else splitParts depth none (b :: part) s

/-- Reads the arguments of an extension pragma: a name, an optional condition and an optional
behavior.  The error is the message. -/
def parseExtension (args : Text) : Except Text Extension :=
  let inner := Text.trim args
  if !(Text.startsWith inner "(" && Text.endsWith inner ")") then
    .error "expected '#pragma extension(<name>, <condition>, <behavior>)'"
  else
    let inner := Text.trim (Text.slice inner 1 (inner.length - 1))
    let inner := Text.withoutEnding (Text.withoutBeginning inner "[") "]"
    let checked (name condition behavior : Text) : Except Text Extension :=
      match Condition.parse condition with
      | .ok _ => .ok ⟨name, behavior, condition⟩
      | .error e => .error ("invalid condition for extension " ++ name ++ ": " ++ e.message)
    match splitParts 0 none [] inner with
    | [] :: _ => .error ("malformed extension pragma '" ++ args ++ "'")
    | [name] => .ok ⟨name, [], []⟩
    | [name, condition] => checked name condition []
    | [name, condition, behavior] => checked name condition behavior
    | _ => .error ("malformed extension pragma '" ++ args ++ "'")

def defineMeta (st : State) (args : Text) (line : Nat) : Step :=
  let (name, rest) := (Text.cut? " " (Text.trim args)).getD (Text.trim args, [])
  if name.isEmpty then failed st line "expected '#pragma define-meta <name> <labels>'"
  else
    match Metadata.parseLabels (rest.length + 1) rest with
    | .error e => failed st line ("define-meta " ++ name ++ ": " ++ e)
    | .ok labels =>
        let described := (st.defines.get? name).getD
          { Define.new name with defines := some (chain st.stack) }
        let defines :=
          if (st.defines.get? name).isSome then st.defines else st.defines.add described
        let (d, problem) := Metadata.applyLabels described false labels
        let st := { st with defines := defines.modify name fun _ => d }
        match problem with
        | none => (st, none)
        | some e => failed st line ("define-meta " ++ name ++ ": " ++ e)

def State.record (st : State) (f : Extraction -> Extraction) : State :=
  { st with out := f st.out }

def isScopeByte (b : UInt8) : Bool :=
  b == Byte.openParen || b == Byte.closeParen || Byte.isBlank b

/-- Reads a pragma; unknown ones are left to other readers. -/
def pragma (st : State) (p : Pragma) (line : Nat) : Step :=
  let args := p.args
  if p.name == ("define-meta" : Text) then defineMeta st args line
  else if p.name == ("rate" : Text) then
    match args.fields with
    | [name, word] =>
        match Rate.ofLabel? word with
        | some rate => (st.record fun x => { x with rates := x.rates.put name rate }, none)
        | none => failed st line ("unknown rate '" ++ word ++ "' for '" ++ name ++ "'")
    | _ => failed st line "expected '#pragma rate <name> <rate>'"
  else if p.name == ("unfilterable-float" : Text) then
    match args.fields with
    | [name] =>
        (st.record fun x =>
          { x with unfilterable :=
              if x.unfilterable.contains name then x.unfilterable
              else x.unfilterable ++ [name] }, none)
    | _ => failed st line "expected '#pragma unfilterable-float <name>'"
  else if p.name == ("extension" : Text) then
    match parseExtension args with
    | .ok e => (st.record fun x => { x with extensions := x.extensions ++ [e] }, none)
    | .error e => failed st line e
  else if p.name == ("builtin" : Text) then
    let scope := Text.dropEndWhile isScopeByte (args.dropWhile isScopeByte)
    if scope == ("global" : Text) || scope == ("local" : Text) then
      (st.record fun x =>
        { x with builtins := x.builtins ++ [⟨line, scope == ("global" : Text)⟩] }, none)
    else failed st line "expected '#pragma builtin(global)' or '#pragma builtin(local)'"
  else if p.name == ("warning" : Text) || p.name == ("error" : Text) then
    (st.record fun x =>
      { x with messages := x.messages ++
          [⟨line, Text.trim args, p.name == ("error" : Text), !st.stack.isEmpty⟩] }, none)
  else (st, none)

/-!
# Directives
-/

def definedName (body : Text) : Text :=
  body.takeWhile Byte.isWord

def directive (st : State) (d : Directive) (line : Nat) : Step :=
  if d.name == ("if" : Text) then condition (st.push (Level.opened [])) d.body line
  else if d.name == ("elif" : Text) then
    match st.nextBranch? with
    | none => failed st line "#elif without #if"
    | some st => condition st d.body line
  else if d.name == ("ifdef" : Text) then ifDefined st false d.body line
  else if d.name == ("ifndef" : Text) then ifDefined st true d.body line
  else if d.name == ("else" : Text) then
    match st.nextBranch? with
    | none => failed st line "#else without #if"
    | some st => (st, none)
  else if d.name == ("endif" : Text) then
    match st.stack with
    | [] => failed st line "#endif without #if"
    | _ :: rest => ({ st with stack := rest }, none)
  else if d.name == ("define" : Text) then
    ({ st with locals := definedName d.body :: st.locals }, none)
  else
    match d.pragma? with
    | some p => pragma st p line
    | none => (st, none)

def walk (last : Nat) : State -> List Token -> DefineSet × Except Diagnostic Extraction
  | st, [] =>
      if st.stack.isEmpty then (st.defines, .ok st.out)
      else (st.defines, .error (Diagnostic.error last "unterminated #if block"))
  | st, t :: ts =>
      if t.isDirective then
        match directive st ((Directive.parse? t.text).getD ⟨[], []⟩) t.line with
        | (st, some e) => (st.defines, .error e)
        | (st, none) =>
            walk last (st.record fun x => x.save (t.line + t.text.newlines) (chain st.stack)) ts
      else walk last st ts

end Extractor

/-- Adds the defines of a shader to a set and collects its pragmas.  A failure keeps the defines
found before it. -/
def extractDefines (ts : List Token) (defines : DefineSet) :
    DefineSet × Except Diagnostic Extraction :=
  Extractor.walk (ts.getLast?.elim 1 Token.line) ⟨defines, Extraction.empty, [], []⟩ ts

end EffectShader
