import EffectShader.Data.Scalar
import EffectShader.Yaml.Tokens

/-!
# The nodes of a text

A text holds a tree of nodes: scalars, lists and mappings, in block or in flow
style, and aliases of nodes that have an anchor.
-/

namespace EffectShader

namespace Yaml

inductive Node where
  /-- The tag is short, and that of the value if none is written. -/
  | scalar (tag : Text) (text : Text)
  | list (items : List Node)
  | map (entries : List (Node × Node))
  | alias (name : Text) (target : Node)

namespace Node

def mergeTag : Text := "!!merge"

def textTag : Text := "!!str"

def plain (text : Text) : Node :=
  if text == ("<<" : Text) then .scalar mergeTag text
  else .scalar (Data.tagOf (Data.ofPlain text)) text

def absent : Node := plain []

def shortTag (tag : Text) : Text :=
  match Text.afterPrefix? "tag:yaml.org,2002:" tag with
  | some rest => "!!" ++ rest
  | none => tag

def ofScalar (tag text : Text) (quoted : Bool) : Node :=
  if !tag.isEmpty && tag != ("!" : Text) then .scalar (shortTag tag) text
  else if quoted then .scalar textTag text
  else plain text

end Node

/-!
# Readers
-/

/-- What is known while nodes are read. -/
structure Reading where
  tokens : Tokens
  /-- The number of the node that an anchor names. -/
  anchors : List (Text × Nat)
  /-- The nodes that are complete, by their numbers. -/
  nodes : List (Nat × Node)
  /-- How many anchors there have been. -/
  count : Nat
  /-- What the handles of tags stand for. -/
  handles : List (Text × Text)

abbrev Reader := StateT Reading Option

namespace Reader

def peek : Reader Token := do
  let r <- get
  let (t, tokens) <- r.tokens.peek?
  set { r with tokens }
  return t

def skip : Reader Unit :=
  modify fun r => { r with tokens := r.tokens.skip }

def skipAndPeek : Reader Token := do
  skip
  peek

def openAnchor (name : Option Text) : Reader (Option Nat) := do
  match name with
  | none => return none
  | some name =>
      let r <- get
      set { r with anchors := (name, r.count) :: r.anchors, count := r.count + 1 }
      return some r.count

def closeAnchor (number : Option Nat) (n : Node) : Reader Node := do
  match number with
  | none => return n
  | some number =>
      modify fun r => { r with nodes := (number, n) :: r.nodes }
      return n

def aliased (name : Text) : Reader Node := do
  let r <- get
  let number <- r.anchors.lookup name
  let target <- r.nodes.lookup number
  return .alias name target

def wholeTag (handle suffix : Text) : Reader Text := do
  if handle.isEmpty then return suffix
  else
    let stem <- (← get).handles.lookup handle
    return stem ++ suffix

structure Properties where
  anchor : Option Text
  tag : Text
  deriving DecidableEq, Repr

def properties : Reader (Properties × Token) := do
  match ← peek with
  | .anchor name =>
      match ← skipAndPeek with
      | .tag handle suffix =>
          let next <- skipAndPeek
          return (⟨some name, ← wholeTag handle suffix⟩, next)
      | next => return (⟨some name, []⟩, next)
  | .tag handle suffix =>
      match ← skipAndPeek with
      | .anchor name =>
          let next <- skipAndPeek
          return (⟨some name, ← wholeTag handle suffix⟩, next)
      | next => return (⟨none, ← wholeTag handle suffix⟩, next)
  | next => return (⟨none, []⟩, next)

/-!
# Nodes
-/

def emptyScalar (ps : Properties) : Reader Node :=
  if ps.anchor.isSome || !ps.tag.isEmpty then return .ofScalar ps.tag [] false else failure

def afterComma (next : Token) : Reader Token :=
  if next == .comma then skipAndPeek else failure

mutual

/-- Reads a node; `block` tells that it may be a block collection, and `hanging` that it may be a
list at the column of the key before it.  The depth and the number of parts are bounded by
`fuel`. -/
def node (block hanging : Bool) : (fuel : Nat) -> Reader Node
  | 0 => failure
  | fuel + 1 => do
      match ← peek with
      | .alias name =>
          skip
          aliased name
      | _ =>
          let (ps, next) <- properties
          let number <- openAnchor ps.anchor
          let n <- content block hanging ps fuel next
          closeAnchor number n

def content (block hanging : Bool) (ps : Properties) : (fuel : Nat) -> Token -> Reader Node
  | 0, _ => failure
  | fuel + 1, next => do
      match next with
      | .scalar text quoted =>
          skip
          return .ofScalar ps.tag text quoted
      | .listOpen =>
          skip
          return .list (← flowItems true fuel)
      | .mapOpen =>
          skip
          return .map (← flowEntries true fuel)
      | .dash => if hanging then return .list (← hangingItems fuel) else emptyScalar ps
      | .blockList =>
          if block then
            skip
            return .list (← blockItems fuel)
          else emptyScalar ps
      | .blockMap =>
          if block then
            skip
            return .map (← blockEntries fuel)
          else emptyScalar ps
      | _ => emptyScalar ps

def flowItems (first : Bool) : (fuel : Nat) -> Reader (List Node)
  | 0 => failure
  | fuel + 1 => do
      let next <- peek
      let next <- if first || next == .listClose then pure next else afterComma next
      if next == .listClose then
        skip
        return []
      else
        let item <-
          if next == .key then do
            skip
            flowPair fuel
          else node false false fuel
        return item :: (← flowItems false fuel)

/-- A mapping of one entry as an item of a list in brackets, after the sign of its key.  A key that
is left out takes the place of the sign after it. -/
def flowPair : (fuel : Nat) -> Reader Node
  | 0 => failure
  | fuel + 1 => do
      let next <- peek
      let key <-
        if next == .value || next == .comma || next == .listClose then do
          skip
          pure Node.absent
        else node false false fuel
      let value <- flowValue .listClose fuel
      return .map [(key, value)]

def flowValue (closing : Token) : (fuel : Nat) -> Reader Node
  | 0 => failure
  | fuel + 1 => do
      if (← peek) == .value then
        let next <- skipAndPeek
        if next == .comma || next == closing then return Node.absent
        else node false false fuel
      else return Node.absent

def flowEntries (first : Bool) : (fuel : Nat) -> Reader (List (Node × Node))
  | 0 => failure
  | fuel + 1 => do
      let next <- peek
      let next <- if first || next == .mapClose then pure next else afterComma next
      if next == .mapClose then
        skip
        return []
      else
        let entry <-
          if next == .key then do
            let next <- skipAndPeek
            let key <-
              if next == .value || next == .comma || next == .mapClose then pure Node.absent
              else node false false fuel
            pure (key, ← flowValue .mapClose fuel)
          else do
            let key <- node false false fuel
            let _ <- peek
            pure (key, Node.absent)
        return entry :: (← flowEntries false fuel)

def blockItems : (fuel : Nat) -> Reader (List Node)
  | 0 => failure
  | fuel + 1 => do
      match ← peek with
      | .dash =>
          let next <- skipAndPeek
          let item <-
            if next == .dash || next == .blockEnd then pure Node.absent else node true false fuel
          return item :: (← blockItems fuel)
      | .blockEnd =>
          skip
          return []
      | _ => failure

def hangingItems : (fuel : Nat) -> Reader (List Node)
  | 0 => failure
  | fuel + 1 => do
      match ← peek with
      | .dash =>
          let next <- skipAndPeek
          let item <-
            if next == .dash || next == .key || next == .value || next == .blockEnd then
              pure Node.absent
            else node true false fuel
          return item :: (← hangingItems fuel)
      | _ => return []

def blockEntries : (fuel : Nat) -> Reader (List (Node × Node))
  | 0 => failure
  | fuel + 1 => do
      match ← peek with
      | .key =>
          skip
          let key <- blockPart fuel
          let value <-
            if (← peek) == .value then do
              skip
              blockPart fuel
            else pure Node.absent
          return (key, value) :: (← blockEntries fuel)
      | .blockEnd =>
          skip
          return []
      | _ => failure

def blockPart : (fuel : Nat) -> Reader Node
  | 0 => failure
  | fuel + 1 => do
      let next <- peek
      if next == .key || next == .value || next == .blockEnd then return Node.absent
      else node true true fuel

end

end Reader

end Yaml

/-!
# The first document of a text

A text starts with directives and a mark, or with its document at once.  What
follows the document is looked at only as far as the tokens after it.
-/

namespace Yaml

namespace Reader

def usualHandles : List (Text × Text) :=
  [("!", "!"), ("!!", "tag:yaml.org,2002:")]

/-- Reads the directives before a document; there is at most one version, which is 1.1, and every
handle is declared once. -/
def directives (versioned : Bool) (handles : List (Text × Text)) :
    (fuel : Nat) -> Reader (List (Text × Text))
  | 0 => failure
  | fuel + 1 => do
      match ← peek with
      | .version major minor =>
          if versioned || major != 1 || minor != 1 then failure
          else
            skip
            directives true handles fuel
      | .handle name stem =>
          if (handles.lookup name).isSome then failure
          else
            skip
            directives versioned ((name, stem) :: handles) fuel
      | _ => return handles

def markedContent (fuel : Nat) : Reader Node := do
  match ← peek with
  | .version _ _ | .handle _ _ | .documentStart | .documentEnd | .finish => return Node.absent
  | _ => node true false fuel

def markedDocument (fuel : Nat) : Reader Node := do
  let handles <- directives false [] fuel
  modify fun r => { r with handles := handles ++ usualHandles }
  if (← peek) == .documentStart then
    skip
    markedContent fuel
  else failure

/-- Reads the first document; a text without one is an empty scalar. -/
def document (fuel : Nat) : Reader Node := do
  let _ <- peek
  skip
  let n <-
    match ← peek with
    | .finish => return Node.absent
    | .version _ _ | .handle _ _ | .documentStart => markedDocument fuel
    | _ => node true false fuel
  let _ <- peek
  return n

end Reader

/-!
# Texts
-/

/-- The character may be written in a text; control characters may not. -/
def isAllowed (c : Char) : Bool :=
  c == '\t' || c == '\n' || c == '\r' || (' ' ≤ c && c ≤ '~') || c == Char.ofNat 0x85 ||
    (Char.ofNat 0xA0 ≤ c && c != Char.ofNat 0xFFFE && c != Char.ofNat 0xFFFF)

/-- The characters of a text that is well encoded and has no control characters; a mark of the byte
order at its start does not count. -/
def characters? (s : Text) : Option (List Char) :=
  if s.runes.all fun r => isAllowed r.char && !r.isStray then
    let cs := s.chars
    some (if cs.head? == some byteOrderMark then cs.drop 1 else cs)
  else none

/-- The node that a text spells; `none` if the text is malformed. -/
def parse? (s : Text) : Option Node := do
  let cs <- characters? s
  let tokens := Tokens.ofText cs
  let tokens :=
    if cs.head? == some byteOrderMark then { tokens with cursor := tokens.cursor.advance }
    else tokens
  let (n, _) <- (Reader.document (6 * cs.length + 12)).run ⟨tokens, [], [], 0, Reader.usualHandles⟩
  return n

end Yaml

end EffectShader
