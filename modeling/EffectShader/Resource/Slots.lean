import EffectShader.Diagnostic.Basic
import EffectShader.Resource.Basic

/-!
# Numbering resources

Material descriptors share one space of bindings; built-in descriptors have two
of their own.  Attributes, varyings and fragment outputs each have a space of
locations.  In a space, numbers that layout qualifiers give are kept if they run
from zero without gaps, and the other resources take the following numbers.
-/

namespace EffectShader

namespace Slots

structure Space where
  /-- By location instead of binding. -/
  byLocation : Bool
  /-- Resources without a number of their own take the index of their declaration where it is
  free. -/
  byIndex : Bool
  deriving DecidableEq, Repr

def Space.key (s : Space) : Text :=
  if s.byLocation then "location" else "binding"

def Space.slot (s : Space) (p : Param) : Option Int :=
  if s.byLocation then p.location else p.binding

def Space.assign (s : Space) (p : Param) (n : Option Int) : Param :=
  if s.byLocation then { p with location := n } else { p with binding := n }

def Space.explicit? (s : Space) (p : Param) : Option Int :=
  layoutInt? p.layout s.key

abbrev Claims := List (Int × Param)

def Claims.owner? (c : Claims) (n : Int) : Option Param :=
  (c.find? fun entry => entry.1 == n).map (·.2)

def noun : Category -> Text
  | .block => "uniform block"
  | .samplerTexture => "sampler texture"
  | .sampler => "sampler"
  | .texture => "texture"
  | .image => "storage image"
  | .subpassInput => "subpass input"
  | .buffer => "storage buffer"
  | .vertexInput => "attribute"
  | .varying => "varying"
  | .fragColor => "fragment output"
  | .uniform => "uniform"

/-- The outcome of numbering: the resources, as far as they were numbered, and a failure. -/
structure Outcome where
  params : List Param
  failure : Option Diagnostic

def clash (s : Space) (p other : Param) (n : Int) : Diagnostic :=
  Diagnostic.error p.line
    (noun p.category ++ " '" ++ p.name ++ "' uses " ++ s.key ++ " " ++ Text.ofInt n ++
      ", already used by " ++ noun other.category ++ " '" ++ other.name ++ "'")

def gap (s : Space) (p : Param) (n : Int) : Diagnostic :=
  Diagnostic.error p.line
    ("explicit " ++ s.key ++ " " ++ Text.ofInt n ++ " of " ++ noun p.category ++ " '" ++ p.name ++
      "' is not consecutive: explicit " ++ s.key ++ "s of " ++ Text.ofString p.category.label ++
      " must start at 0 without gaps")

/-- Claims the explicit numbers; the others lose any number they had. -/
def claim (s : Space) (claims : Claims) : List Param -> Outcome × Claims
  | [] => (⟨[], none⟩, claims)
  | p :: ps =>
      let proceed (p : Param) (claims : Claims) : Outcome × Claims :=
        let (o, claims) := claim s claims ps
        (⟨p :: o.params, o.failure⟩, claims)
      match s.explicit? p with
      | none => proceed (s.assign p none) claims
      | some n =>
          match claims.owner? n with
          | some other =>
              if other.name == p.name then proceed (s.assign p (some n)) ((n, p) :: claims)
              else (⟨p :: ps, some (clash s p other n)⟩, claims)
          | none => proceed (s.assign p (some n)) ((n, p) :: claims)

def claimed (claims : Claims) : List Int :=
  ((claims.map (·.1)).eraseDups).mergeSort fun a b => a ≤ b

def misplaced? : (index : Int) -> List Int -> Option Int
  | _, [] => none
  | index, n :: ns => if n == index then misplaced? (index + 1) ns else some n

/-- The first number from `n` on that nobody holds; `tries` bounds the search. -/
def firstFree (claims : Claims) : (tries : Nat) -> (n : Int) -> Int
  | 0, n => n
  | tries + 1, n => if (claims.owner? n).isSome then firstFree claims tries (n + 1) else n

/-- The number that a resource takes from the order of declarations: that of an earlier resource of
its name, or its own index if that is free. -/
def indexSlot? (s : Space) (claims : Claims) (earlier : List Param) (p : Param) (index : Int) :
    Option Int :=
  match earlier.findSome? fun q =>
      if q.name == p.name then (s.slot q).filter (0 ≤ ·) else none with
  | some n => some n
  | none =>
      match claims.owner? index with
      | none => some index
      | some owner => if owner.name == p.name then some index else none

/-- Numbers the resources that have no number yet; `earlier` are those already passed. -/
def fill (s : Space) (claims : Claims) (next : Int) (earlier : List Param) :
    List Param -> List Param
  | [] => earlier
  | p :: ps =>
      if (s.slot p).any (0 ≤ ·) then fill s claims next (earlier ++ [p]) ps
      else
        let byIndex :=
          if s.byIndex then indexSlot? s claims earlier p earlier.length else none
        match byIndex with
        | some n =>
            let p := s.assign p (some n)
            fill s ((n, p) :: claims) next (earlier ++ [p]) ps
        | none =>
            let n := firstFree claims (claims.length + 1) next
            let p := s.assign p (some n)
            fill s ((n, p) :: claims) (n + 1) (earlier ++ [p]) ps

def allocateSpace (s : Space) (params : List Param) : Outcome :=
  match claim s [] params with
  | (⟨params, some e⟩, _) => ⟨params, some e⟩
  | (⟨params, none⟩, claims) =>
      let explicit := claimed claims
      match misplaced? 0 explicit with
      | some n => ⟨params, (claims.owner? n).map fun p => gap s p n⟩
      | none => ⟨fill s claims explicit.length [] params, none⟩

/-!
# All spaces
-/

def globalSet : Int := 0
def materialSet : Int := 1
def localSet : Int := 2

/-- The descriptor set of a resource without one of its own. -/
def defaultSet (p : Param) : Int :=
  if !p.builtin then materialSet else if p.inGlobalSet then globalSet else localSet

def withSet (p : Param) : Param :=
  if p.category.isDescriptor then
    { p with set := (layoutInt? p.layout "set").getD (defaultSet p) }
  else p

/-- The spaces in the order of numbering, each with the resources it numbers. -/
def spaces (info : ShaderInfo) : List (Space × List Param) :=
  let descriptors := (Category.all.filter Category.isDescriptor).flatMap info.list
  [(⟨false, false⟩, descriptors.filter fun p => !p.builtin),
   (⟨false, false⟩, descriptors.filter fun p => p.builtin && p.inGlobalSet),
   (⟨false, false⟩, descriptors.filter fun p => p.builtin && !p.inGlobalSet),
   (⟨true, true⟩, info.list .vertexInput),
   (⟨true, false⟩, info.list .varying),
   (⟨true, false⟩, info.list .fragColor)]

/-- The information with the resources of `updates` in place of those of the same names. -/
def writeBack (info : ShaderInfo) (updates : List Param) : ShaderInfo :=
  ⟨info.params.map fun p => (updates.find? fun q => q.isNamed p.category p.name).getD p⟩

def allocateAll (info : ShaderInfo) : List (Space × List Param) -> ShaderInfo × Option Diagnostic
  | [] => (info, none)
  | (s, params) :: rest =>
      let o := allocateSpace s params
      let info := writeBack info o.params
      match o.failure with
      | some e => (info, some e)
      | none => allocateAll info rest

/-- Numbers all resources of a program.  A failure keeps the numbers given before it. -/
def allocate (info : ShaderInfo) : ShaderInfo × Option Diagnostic :=
  let info : ShaderInfo := ⟨info.params.map withSet⟩
  allocateAll info (spaces info)

end Slots

end EffectShader
