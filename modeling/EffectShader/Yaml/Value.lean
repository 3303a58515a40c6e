import EffectShader.Yaml.Node

/-!
# Values of nodes

A mapping whose keys are all texts is a record, and any other one a map.  The
entries of mappings under a merge key are added where there is no entry of
the same key.
-/

namespace EffectShader

namespace Yaml

namespace Node

/-!
# Keys
-/

/-- What two keys of a mapping must not have in common: how they are written, but not how they are
quoted or tagged. -/
def spelling : Node -> Nat × Text
  | .scalar _ text => (0, text)
  | .list _ => (1, [])
  | .map _ => (2, [])
  | .alias name _ => (3, name)

def distinctKeys (entries : List (Node × Node)) : Bool :=
  let keys := entries.map fun e => e.1.spelling
  keys.eraseDups.length == keys.length

/-- The key stands for the entries of other mappings. -/
def isMerge : Node -> Bool
  | .scalar tag text => tag == mergeTag && text == ("<<" : Text)
  | _ => false

def tag? : Node -> Option Text
  | .scalar tag _ => some tag
  | .alias _ n => n.tag?
  | _ => none

def isRecord (entries : List (Node × Node)) : Bool :=
  entries.all fun e => e.1.tag? == some textTag || e.1.tag? == some mergeTag

/-!
# Entries
-/

/-- The entries of a mapping that is being built, and the keys that entries of merged mappings must
not have. -/
structure Entries where
  list : List (Data × Data)
  taken : Option (List Data)

namespace Entries

def empty : Entries := ⟨[], none⟩

def isTaken (es : Entries) (key : Data) : Bool :=
  es.taken.any fun keys => keys.any fun k => Data.sameKey k key

def put (es : Entries) (key value : Data) : Entries :=
  ⟨Data.putEntry es.list key value, es.taken.map (key :: ·)⟩

/-- Turns to the merged mappings: the keys of the mapping itself are taken. -/
def take (es : Entries) (keys : List Data) : Entries :=
  ⟨es.list, some keys⟩

def toData (es : Entries) (record : Bool) : Data :=
  if record then Data.ofTextEntries es.list else .map es.list

end Entries

/-!
# Effort

Aliases let a short text stand for a very large value.  The steps of reading a
value out are counted, and so are those behind aliases; a value of which nearly
every part stands behind aliases is refused.
-/

structure Effort where
  steps : Nat
  /-- How many of them were behind an alias. -/
  aliased : Nat
  deriving DecidableEq, Repr

namespace Effort

def start : Effort := ⟨1, 0⟩

/-- How many steps in 360000000 may be behind aliases: 99 in a hundred up to 400000 steps, then less
and less, down to one in ten from 4000000 steps on. -/
def allowedShare (e : Effort) : Nat :=
  356400000 - 89 * (min e.steps 4000000 - 400000)

def isExcessive (e : Effort) : Bool :=
  100 < e.aliased && 1000 < e.steps && e.steps * e.allowedShare < e.aliased * 360000000

end Effort

/-- A value that is read out in steps; it fails if the nodes have no value. -/
abbrev Evaluation := StateT Effort Option

namespace Evaluation

def step (behindAlias : Bool) : Evaluation Unit := do
  let e <- get
  let e : Effort := ⟨e.steps + 1, if behindAlias then e.aliased + 1 else e.aliased⟩
  if e.isExcessive then failure else set e

end Evaluation

/-!
# Values
-/

/-- The key of a record: a scalar as it is written.  There is none for null, which is no key of a
record. -/
def textKey (behindAlias : Bool) : Node -> Evaluation (Option Data)
  | .scalar tag text => do
      Evaluation.step behindAlias
      match ← Data.ofTagged? tag text with
      | .null => return none
      | d => return some (if tag == ("!!binary" : Text) then d else .text text)
  | .alias _ n => do
      Evaluation.step behindAlias
      n.textKey true
  | _ => failure

def asKey? : Data -> Option Data
  | .list _ => none
  | .record _ => none
  | .map _ => none
  | d => some d

def hasMerge (entries : List (Node × Node)) : Bool :=
  entries.any fun e => e.1.isMerge

mutual

/-- The value of a node.  There is none if a scalar does not fit its tag, a key is written twice or
is a collection, something other than a mapping is merged, or too much stands behind aliases. -/
def data (behindAlias : Bool) : Node -> Evaluation Data
  | .scalar tag text => do
      Evaluation.step behindAlias
      Data.ofTagged? tag text
  | .alias _ n => do
      Evaluation.step behindAlias
      data true n
  | .list items => do
      Evaluation.step behindAlias
      return .list (← dataItems behindAlias items)
  | .map entries => do
      Evaluation.step behindAlias
      if distinctKeys entries then
        let record := isRecord entries
        let es <- putEach behindAlias record .empty entries
        if hasMerge entries then
          let taken <- keys behindAlias entries
          let es <- mergeEach behindAlias record (es.take taken) entries
          return es.toData record
        else return es.toData record
      else failure

def dataItems (behindAlias : Bool) : List Node -> Evaluation (List Data)
  | [] => return []
  | n :: ns => do
      let d <- data behindAlias n
      return d :: (← dataItems behindAlias ns)

def putEach (behindAlias record : Bool) (es : Entries) : List (Node × Node) -> Evaluation Entries
  | [] => return es
  | (k, v) :: rest => do
      if k.isMerge then putEach behindAlias record es rest
      else
        let key <-
          if record then k.textKey behindAlias
          else do
            let d <- data behindAlias k
            pure (some (← asKey? d))
        match key with
        | none => putEach behindAlias record es rest
        | some key =>
            if es.isTaken key then putEach behindAlias record es rest
            else
              let d <- data behindAlias v
              putEach behindAlias record (es.put key d) rest

def keys (behindAlias : Bool) : List (Node × Node) -> Evaluation (List Data)
  | [] => return []
  | (k, _) :: rest => do
      let d <- data behindAlias k
      return d :: (← keys behindAlias rest)

def mergeEach (behindAlias record : Bool) (es : Entries) :
    List (Node × Node) -> Evaluation Entries
  | [] => return es
  | (k, v) :: rest => do
      if k.isMerge then
        let es <-
          match v with
          | .list items => mergeItems behindAlias record es items
          | .map entries => mergeMap behindAlias record es (.map entries)
          | .alias name n => mergeMap behindAlias record es (.alias name n)
          | .scalar _ _ => failure
        mergeEach behindAlias record es rest
      else mergeEach behindAlias record es rest

def mergeItems (behindAlias record : Bool) (es : Entries) : List Node -> Evaluation Entries
  | [] => return es
  | n :: ns => do
      let es <- mergeMap behindAlias record es n
      mergeItems behindAlias record es ns

def mergeMap (behindAlias record : Bool) (es : Entries) : Node -> Evaluation Entries
  | .map entries => do
      Evaluation.step behindAlias
      if distinctKeys entries then
        let es <- putEach behindAlias record es entries
        mergeEach behindAlias record es entries
      else failure
  | .alias _ n => do
      Evaluation.step behindAlias
      mergeMap true record es n
  | _ => failure

end

end Node

def value? (s : Text) : Option Data := do
  let n <- parse? s
  let (d, _) <- (n.data false).run .start
  return d

end Yaml

end EffectShader
