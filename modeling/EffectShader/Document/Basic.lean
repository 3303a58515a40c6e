import EffectShader.Data.Basic

/-!
# Documents

What is written out: a tree whose records keep the order of their fields.  The
writers decide how each node looks, and in which order a map lists its entries.
-/

namespace EffectShader

inductive Document where
  | null
  /-- A list that was never begun, as opposed to one that is empty. -/
  | noList
  | bool (b : Bool)
  | int (n : Int)
  | float (f : Float)
  | text (s : Text)
  | moment (m : Moment)
  | list (items : List Document)
  /-- Fields in the order in which they are written. -/
  | record (fields : List (Text × Document))
  /-- Entries with texts for keys, in no particular order. -/
  | textMap (entries : List (Text × Document))
  /-- Entries in no particular order. -/
  | map (entries : List (Document × Document))

namespace Document

def growing (items : List Document) : Document :=
  if items.isEmpty then .noList else .list items

def texts : Option (List Text) -> Document
  | none => .noList
  | some ts => .list (ts.map .text)

abbrev Fields := List (Text × Document)

def field (name : String) (d : Document) : Fields :=
  [(Text.ofString name, d)]

def fieldIf (condition : Bool) (name : String) (d : Document) : Fields :=
  if condition then field name d else []

def ofFields (parts : List Fields) : Document :=
  .record parts.flatten

mutual

def ofData : Data -> Document
  | .null => .null
  | .bool b => .bool b
  | .int n => .int n
  | .float f => .float f
  | .text s => .text s
  | .moment m => .moment m
  | .list xs => .list (ofItems xs)
  | .record es => .textMap (ofFieldEntries es)
  | .map es => .map (ofEntries es)

def ofItems : List Data -> List Document
  | [] => []
  | d :: ds => ofData d :: ofItems ds

def ofFieldEntries : List (Text × Data) -> List (Text × Document)
  | [] => []
  | (k, v) :: es => (k, ofData v) :: ofFieldEntries es

def ofEntries : List (Data × Data) -> List (Document × Document)
  | [] => []
  | (k, v) :: es => (ofData k, ofData v) :: ofEntries es

end

end Document

end EffectShader
