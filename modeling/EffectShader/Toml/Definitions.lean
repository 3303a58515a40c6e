import EffectShader.Toml.Basic

/-!
# Definitions of keys

A key is defined once.  A table may be opened by one header, after headers of
tables inside it, and every header of an array of tables starts with fresh keys.
The tables that dotted keys define are complete when the next header comes.
-/

namespace EffectShader

namespace Toml

inductive Kind where
  | value
  | table
  | arrayTable
  deriving DecidableEq, Repr

def Kind.label : Kind -> String
  | .value => "value"
  | .table => "table"
  | .arrayTable => "array table"

structure Definition where
  key : Key
  kind : Kind
  /-- No header may open the table, and no dotted key may lead into it. -/
  explicit : Bool
  /-- An assignment defined the key, and no header came after it. -/
  assigned : Bool
  deriving DecidableEq, Repr

structure Definitions where
  list : List Definition
  scope : Key
  deriving DecidableEq, Repr

inductive Clash where
  | notTable (name : Text) (kind : Kind)
  | headerNotTable (name : Text) (kind : Kind)
  | tableTwice (name : Text)
  | notArrayTable (name : Text) (kind : Kind)
  | definedTwice (name : Text)
  | reopened (name : Text)
  deriving DecidableEq, Repr

def Clash.message : Clash -> Text
  | .notTable name kind =>
      "toml: expected " ++ name ++ " to be a table, not a " ++ kind.label
  | .headerNotTable name kind =>
      "toml: key " ++ name ++ " should be a table, not a " ++ kind.label
  | .tableTwice name => "toml: table " ++ name ++ " already exists"
  | .notArrayTable name kind =>
      "toml: key " ++ Text.ofString kind.label ++ " already exists as a " ++ name ++
        ",  but should be an array table"
  | .definedTwice name => "toml: key " ++ name ++ " is already defined"
  | .reopened name =>
      "toml: cannot redefine table " ++ name ++ " that has already been explicitly defined"

namespace Definitions

def empty : Definitions := ⟨[], []⟩

def find? (ds : List Definition) (key : Key) : Option Definition :=
  ds.find? fun d => d.key == key

def put (ds : List Definition) (d : Definition) : List Definition :=
  d :: ds.filter fun e => e.key != d.key

def isInside (outer inner : Key) : Bool :=
  outer.isPrefixOf inner && inner != outer

/-- Completes what was assigned in the open table: a header follows. -/
def complete (ds : Definitions) : List Definition :=
  ds.list.map fun d =>
    if d.assigned && isInside ds.scope d.key then { d with explicit := true, assigned := false }
    else d

/-- Makes sure that the names leading to the last one of a header are tables; those that are new
are defined. -/
def openParents (ds : List Definition) (parent : Key) :
    Key -> Except Clash (List Definition)
  | [] => .ok ds
  | [_] => .ok ds
  | name :: rest =>
      let key := parent ++ [name]
      match find? ds key with
      | none => openParents (put ds ⟨key, .table, false, false⟩) key rest
      | some d =>
          if d.kind == .value then .error (.notTable name d.kind) else openParents ds key rest

def lastName (key : Key) : Text :=
  key.getLast?.getD []

def openTable (ds : Definitions) (key : Key) : Except Clash Definitions :=
  match openParents ds.complete [] key with
  | .error e => .error e
  | .ok list =>
      match find? list key with
      | none => .ok ⟨put list ⟨key, .table, true, false⟩, key⟩
      | some d =>
          if d.kind != .table then .error (.headerNotTable (lastName key) d.kind)
          else if d.explicit then .error (.tableTwice (lastName key))
          else .ok ⟨put list { d with explicit := true }, key⟩

/-- Starts an entry of an array of tables; the flag says that it is the first. -/
def openArrayTable (ds : Definitions) (key : Key) : Except Clash (Definitions × Bool) :=
  match openParents ds.complete [] key with
  | .error e => .error e
  | .ok list =>
      match find? list key with
      | none => .ok (⟨put list ⟨key, .arrayTable, true, false⟩, key⟩, true)
      | some d =>
          if d.kind != .arrayTable then .error (.notArrayTable (lastName key) d.kind)
          else .ok (⟨list.filter fun e => !isInside key e.key, key⟩, false)

def assignFrom (ds : List Definition) (parent : Key) : Key -> Except Clash (List Definition)
  | [] => .ok ds
  | name :: rest =>
      let key := parent ++ [name]
      match find? ds key with
      | none =>
          let kind := if rest.isEmpty then Kind.value else Kind.table
          assignFrom (put ds ⟨key, kind, false, true⟩) key rest
      | some d =>
          if rest.isEmpty then .error (.definedTwice name)
          else if d.kind != .table then .error (.notTable name d.kind)
          else if d.explicit then .error (.reopened name)
          else assignFrom ds key rest

def assignKey (ds : Definitions) (key : Key) : Except Clash Definitions :=
  (assignFrom ds.list ds.scope key).map fun list => ⟨list, ds.scope⟩

mutual

def checkValue : Value -> Except Clash Unit
  | .array items => checkItems items
  | .table entries => checkEntries .empty entries
  | _ => .ok ()

def checkItems : List Value -> Except Clash Unit
  | [] => .ok ()
  | v :: vs => do
      checkValue v
      checkItems vs

def checkEntries (ds : Definitions) : List (Key × Value) -> Except Clash Unit
  | [] => .ok ()
  | (key, v) :: es => do
      let ds <- ds.assignKey key
      checkValue v
      checkEntries ds es

end

/-- Defines a key in the open table, whose value must be consistent by itself. -/
def assign (ds : Definitions) (key : Key) (v : Value) : Except Clash Definitions := do
  let ds <- ds.assignKey key
  checkValue v
  return ds

end Definitions

end Toml

end EffectShader
