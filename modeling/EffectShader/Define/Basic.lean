import EffectShader.Data.Basic
import EffectShader.Resource.Basic
import EffectShader.Table

/-!
# Material defines

A define is a macro that material authors switch.  It is discovered where
conditions test it and may be described by metadata.
-/

namespace EffectShader

inductive DefineType where
  | boolean
  | number
  | string
  | constant
  deriving DecidableEq, Repr

namespace DefineType

def label : DefineType -> String
  | .boolean => "boolean"
  | .number => "number"
  | .string => "string"
  | .constant => "constant"

def all : List DefineType := [boolean, number, string, constant]

def ofLabel? (word : Text) : Option DefineType :=
  all.find? fun t => Text.ofString t.label == word

def rank : DefineType -> Nat
  | .boolean => 0
  | .number => 1
  | .string => 2
  | .constant => 3

end DefineType

structure Define where
  name : Text
  type : DefineType
  range : Option (List Float)
  options : List Text
  /-- The value that authors start with; null if none is given. -/
  default : Data
  /-- What an editor is told, in bytewise order of the keys. -/
  editor : Option (List (Text × Data))
  /-- The macros that gate the define; an exclamation mark stands for negation.  `none` if no list
  was ever given. -/
  defines : Option (List Text)
  rate : Option Rate
  /-- Metadata fixed the type. -/
  explicit : Bool
  /-- The gating macros come from a use and not from metadata alone. -/
  used : Bool

namespace Define

def new (name : Text) : Define :=
  { name, type := .boolean, range := none, options := [], default := .null, editor := none
    defines := none, rate := none, explicit := false, used := false }

def depth (d : Define) : Nat :=
  (d.defines.getD []).length

/-- The range of a define that is compared by order and has no metadata. -/
def defaultRange : List Float := [0, 3]

/-- The gating macros after another record of the define: a use replaces what metadata recorded, and
a shorter list replaces a longer one. -/
def gatedBy (old new : Define) : Define :=
  if !new.used then old
  else if !old.used then { old with defines := new.defines, used := true }
  else if new.depth < old.depth then { old with defines := new.defines }
  else old

def typedBy (old new : Define) : Define :=
  if !old.explicit && old.type.rank < new.type.rank then
    { old with type := new.type, range := old.range.or new.range }
  else old

def updatedBy (old new : Define) : Define :=
  typedBy (gatedBy old new) new

end Define

/-!
# Sets of defines

Defines in the order in which they were first added, each name once.  An index
gives the place of a name, so removing a define moves the places behind it.
-/

structure DefineSet where
  list : List Define
  /-- The place of each name in the list. -/
  index : Table Nat

namespace DefineSet

def empty : DefineSet := ⟨[], []⟩

def get? (s : DefineSet) (name : Text) : Option Define :=
  (s.index.get? name).bind fun i => s.list[i]?

def modify (s : DefineSet) (name : Text) (f : Define -> Define) : DefineSet :=
  match s.index.get? name with
  | none => s
  | some i => { s with list := s.list.modify i f }

def add (s : DefineSet) (d : Define) : DefineSet :=
  match s.index.get? d.name with
  | none => ⟨s.list ++ [d], s.index.put d.name s.list.length⟩
  | some i => { s with list := s.list.modify i fun old => old.updatedBy d }

/-- The index after some defines were given the places from `i` on. -/
def renumber (index : Table Nat) (i : Nat) : List Define -> Table Nat
  | [] => index
  | d :: ds => renumber (index.put d.name i) (i + 1) ds

def remove (s : DefineSet) (name : Text) : DefineSet :=
  match s.index.get? name with
  | none => s
  | some i =>
      let list := s.list.eraseIdx i
      ⟨list, renumber (s.index.erase name) i (list.drop i)⟩

end DefineSet

end EffectShader
