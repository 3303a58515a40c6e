import EffectShader.Chunk.Registry
import EffectShader.Diagnostic.Basic
import EffectShader.Text.Rune

/-!
# Resolving includes

An include directive is replaced by the chunk it names, whose own includes are
resolved first.  A chunk is expanded at most once for one source; a repeated
include leaves only the text around it.  Text before and after the directive on
its line is put around every line of the chunk.
-/

namespace EffectShader

/-!
# Similar names

Two names are compared by their edit distance in characters.  The similarity of
names is one less the distance divided by the length of the longer name; it is
compared exactly, as a fraction.
-/

namespace Similarity

/-- One row of the distance table from the row above it: `left` is the entry to the left and
`diagonal` the one above that. -/
def nextRow (a : Char) : (left diagonal : Nat) -> List Char -> List Nat -> List Nat
  | left, _, [], _ => [left]
  | left, _, _ :: _, [] => [left]
  | left, diagonal, b :: bs, above :: row =>
      let cost := if a == b then 0 else 1
      left :: nextRow a (min (min (left + 1) (above + 1)) (diagonal + cost)) above bs row

def firstRow (bs : List Char) : List Nat :=
  List.range (bs.length + 1)

def row (bs : List Char) (previous : List Nat) (a : Char) : List Nat :=
  match previous with
  | [] => []
  | d :: ds => nextRow a (d + 1) d bs ds

/-- The least number of insertions, deletions and replacements that turn `as` into `bs`. -/
def distance (as bs : List Char) : Nat :=
  (as.foldl (row bs) (firstRow bs)).getLast?.getD 0

structure Score where
  distance : Nat
  length : Nat
  deriving DecidableEq, Repr

def score (a b : Text) : Score :=
  let as := a.chars
  let bs := b.chars
  ⟨distance as bs, max as.length bs.length⟩

def Score.atLeast (s t : Score) : Bool :=
  s.distance * t.length ≤ t.distance * s.length

def threshold : Score := ⟨2, 5⟩

/-- The most similar candidate that is similar enough, the later one of equals. -/
def suggest? (name : Text) (candidates : List Text) : Option Text :=
  (candidates.foldl
    (fun (best : Option Text × Score) candidate =>
      let s := score name candidate
      if s.atLeast best.2 then (some candidate, s) else best)
    (none, threshold)).1

end Similarity

/-!
# Include directives
-/

namespace Chunk

structure Include where
  name : Text
  before : Text
  after : Text
  deriving DecidableEq, Repr

def includeName? : Text -> Option (Text × Text)
  | Byte.less :: s => Text.cut? [Byte.greater] s
  | Byte.quote :: s => Text.cut? [Byte.quote] s
  | _ => none

/-- Finds an include directive in a line; one after the start of a line comment does not count. -/
def include? (line : Text) : Option Include :=
  match Text.cut? "#include" line with
  | none => none
  | some (before, rest) =>
      if (Text.cut? "//" line).any fun (b, _) => b.length < before.length then none
      else
        match includeName? (rest.dropWhile Byte.isBlank) with
        | none => none
        | some (name, after) =>
            let name := normalizeName name
            if name.isEmpty then none else some ⟨name, before, after⟩

/-- Where chunks that are not registered are looked for. -/
structure Search where
  /-- The content of the first of the given names that is found. -/
  find : List Text -> Option Text
  /-- Further names to try for a name. -/
  alternatives : Text -> List Text
  /-- Every content that `find` can answer with. -/
  contents : List Text

def Search.ofTable (table : Table Text) (alternatives : Text -> List Text) : Search :=
  ⟨fun names => names.findSome? table.get?, alternatives, table.map (·.2)⟩

structure Resolution where
  registry : Registry
  included : List Text
  /-- The lists of names that the search was asked for. -/
  asked : List (List Text)

def deprecatedFailure (line : Nat) (name message : Text) : Diagnostic :=
  (Diagnostic.error line ("chunk is deprecated: '" ++ name ++ "': " ++ message)).withCause
    .chunkDeprecated

def missingFailure (r : Registry) (line : Nat) (name : Text) : Diagnostic :=
  let hint : Text :=
    match Similarity.suggest? name r.names with
    | some candidate => if candidate.isEmpty then [] else ", did you mean '" ++ candidate ++ "'?"
    | none => []
  (Diagnostic.error line
    ("can not resolve '" ++ name ++ "'" ++ hint ++ ": chunk not found")).withCause .chunkNotFound

/-- The content of a chunk; one that the search finds is registered. -/
def load (search : Option Search) (st : Resolution) (name : Text) (line : Nat) :
    Resolution × Except Diagnostic Text :=
  match st.registry.deprecated.get? name with
  | some message => (st, .error (deprecatedFailure line name message))
  | none =>
      match st.registry.lookup? name with
      | some content => (st, .ok content)
      | none =>
          match search with
          | none => (st, .error (missingFailure st.registry line name))
          | some s =>
              let names := name :: s.alternatives name
              let st := { st with asked := st.asked ++ [names] }
              match s.find names with
              | none => (st, .error (missingFailure st.registry line name))
              | some content =>
                  let registry := st.registry.register name content
                  ({ st with registry := registry }, .ok ((registry.lookup? name).getD []))

/-- Expands the lines of a text; `expand` does the same for a whole chunk. -/
def expandLines (search : Option Search)
    (expand : Resolution -> Text -> Resolution × Except Diagnostic Text) :
    Resolution -> (line : Nat) -> List Text -> Resolution × Except Diagnostic (List Text)
  | st, _, [] => (st, .ok [])
  | st, line, text :: rest =>
      let continueWith (st : Resolution) (lines : List Text) :=
        match expandLines search expand st (line + 1) rest with
        | (st, .error e) => (st, .error e)
        | (st, .ok more) => (st, .ok (lines ++ more))
      match include? text with
      | none => continueWith st [text]
      | some inc =>
          if st.included.contains inc.name then
            let remainder := inc.before ++ inc.after
            continueWith st (if (Text.trim remainder).isEmpty then [] else [remainder])
          else
            match load search st inc.name line with
            | (st, .error e) => (st, .error e)
            | (st, .ok content) =>
                match expand { st with included := inc.name :: st.included } content with
                | (st, .error e) => (st, .error e)
                | (st, .ok expanded) =>
                    continueWith st (expanded.lines.map fun l => inc.before ++ l ++ inc.after)

/-- Expands a text, following at most `depth` nested includes. -/
def expand (search : Option Search) :
    (depth : Nat) -> Resolution -> Text -> Resolution × Except Diagnostic Text
  | 0, st, source => (st, .ok source)
  | depth + 1, st, source =>
      match expandLines search (expand search depth) st 1 source.lines with
      | (st, .error e) => (st, .error e)
      | (st, .ok lines) => (st, .ok (Text.unlines lines))

end Chunk

namespace Registry

open Chunk

/-- Nested includes have different names, and each name stands on a line of the source, of a chunk
or of a content that the search finds, so no deeper nesting arises. -/
def includeDepth (r : Registry) (search : Option Search) (source : Text) : Nat :=
  let texts := source :: r.chunks.map (·.2) ++ search.elim [] (·.contents)
  texts.foldl (fun n t => n + (t.newlines + 1)) 1

def resolve (r : Registry) (search : Option Search) (source : Text) :
    Resolution × Except Diagnostic Text :=
  expand search (r.includeDepth search source) ⟨r, [], []⟩ source

end Registry

end EffectShader
