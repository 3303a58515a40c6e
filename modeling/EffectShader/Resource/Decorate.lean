import EffectShader.Resource.Reflect

/-!
# Writing numbers into declarations

Every interface declaration of a stage gets the set, binding or location of its
resource in its layout qualifier, beside what the qualifier already says.  A
declaration of several variables is split, so that each has its own qualifier.
Lines keep their numbers.
-/

namespace EffectShader

namespace Decorate

def isAllocated (p : Param) : Bool :=
  p.binding.any (0 ≤ ·) || p.location.any (0 ≤ ·)

/-- The numbered resource of each variable of a declaration, or of the block; `none` if no
qualifier is needed. -/
def paramsFor? (d : Declaration) (stage : Stages) (info : ShaderInfo) :
    Option (List (Option Param)) :=
  if d.isBlock then
    let category : Category := if d.storage == .buffer then .buffer else .block
    (info.find? category d.type).bind fun p =>
      if p.binding.any (0 ≤ ·) then some [some p] else none
  else
    match Reflect.categorize d stage with
    | .ok (some category) =>
        let params := d.vars.map fun v => (info.find? category v.name).filter isAllocated
        if category != .uniform && params.any Option.isSome then some params else none
    | _ => none

def withItem (items : List LayoutItem) (key : Text) (n : Int) : List LayoutItem :=
  if items.any fun i => i.key == key then items else items ++ [⟨key, Text.ofInt n⟩]

/-- The entries that a resource's qualifier has in the end. -/
def itemsFor (items : List LayoutItem) (p : Param) : List LayoutItem :=
  if p.category.usesLocation then withItem items "location" (p.location.getD (-1))
  else withItem (withItem items "set" p.set) "binding" (p.binding.getD (-1))

def layoutFor (items : List LayoutItem) (p : Param) : Text :=
  Layout.render ⟨itemsFor items p, 0, 0⟩

def qualify (code : Text) (d : Declaration) (p : Param) : Text :=
  match d.layout with
  | some l =>
      Text.slice code d.start l.start ++ layoutFor l.items p ++ Text.slice code l.stop d.stop
  | none => layoutFor [] p ++ " " ++ Text.slice code d.start d.stop

def splitHead (code : Text) (d : Declaration) : Text :=
  Text.trim
    (match d.layout with
    | some l => Text.slice code d.start l.start ++ Text.slice code l.stop d.typeOffset
    | none => Text.slice code d.start d.typeOffset)

def splitPart (code : Text) (d : Declaration) (head : Text) (v : Variable) (p : Option Param) :
    Text :=
  let declaration := d.type ++ " " ++ Text.slice code v.start v.stop ++ ";"
  let declaration := if head.isEmpty then declaration else head ++ " " ++ declaration
  match p, d.layout with
  | some p, l => layoutFor (l.elim [] (·.items)) p ++ " " ++ declaration
  | none, some l => Text.slice code l.start l.stop ++ " " ++ declaration
  | none, none => declaration

def decorateDeclaration (code : Text) (d : Declaration) (params : List (Option Param)) : Text :=
  match params with
  | [some p] => qualify code d p
  | _ =>
      let head := splitHead code d
      let parts := (d.vars.zip params).map fun (v, p) => splitPart code d head v p
      Text.joinWith " " parts ++
        List.replicate (Text.newlines (Text.slice code d.start d.stop)) Byte.newline

def decorateFrom (code : Text) (stage : Stages) (info : ShaderInfo) (last : Nat) :
    List Declaration -> Text
  | [] => code.drop last
  | d :: ds =>
      match paramsFor? d stage info with
      | none => decorateFrom code stage info last ds
      | some params =>
          Text.slice code last d.start ++ decorateDeclaration code d params ++
            decorateFrom code stage info d.stop ds

end Decorate

/-- A stage's source with the numbers of its resources in the layout qualifiers. -/
def decorate (code : Text) (stage : Stages) (info : ShaderInfo) : Except Failure Text :=
  match tokenize code with
  | .error e => .error (.plain e.message none)
  | .ok ts =>
      match Declaration.ofTokens ts with
      | .error e => .error (.diagnostic e)
      | .ok ds => .ok (Decorate.decorateFrom code stage info 0 ds)

end EffectShader
