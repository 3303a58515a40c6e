import EffectShader.Define.Basic
import EffectShader.Yaml.Value

/-!
# Metadata of defines

The arguments of a `define-meta` pragma: a name and labels such as
`range([0, 4])`, `options([a, b])` or `editor({ x: y })`, each with a data
value.
-/

namespace EffectShader

namespace Metadata

structure Label where
  key : Text
  value : Data

/-- What follows the parenthesis that closes a group of which `depth` levels are open, and what
stands before it. -/
def closeParen? : (depth : Nat) -> Text -> Option (Text × Text)
  | _, [] => none
  | depth, b :: s =>
      if b == Byte.openParen then
        (closeParen? (depth + 1) s).map fun (inside, rest) => (b :: inside, rest)
      else if b == Byte.closeParen then
        if depth ≤ 1 then some ([], s)
        else (closeParen? (depth - 1) s).map fun (inside, rest) => (b :: inside, rest)
      else (closeParen? depth s).map fun (inside, rest) => (b :: inside, rest)

/-- Reads a sequence of labels; the error is the message.  Each label takes at least one byte, so
`fuel` is the length of the text. -/
def parseLabels : (fuel : Nat) -> Text -> Except Text (List Label)
  | 0, _ => .ok []
  | fuel + 1, s =>
      let s := Text.trim s
      if s.isEmpty then .ok []
      else
        match Text.cut? [Byte.openParen] s with
        | none => .error ("expected label(value) at '" ++ s ++ "'")
        | some (before, after) =>
            if before.isEmpty then .error ("expected label(value) at '" ++ s ++ "'")
            else
              let key := Text.trim before
              match closeParen? 1 after with
              | none => .error ("unterminated label '" ++ key ++ "'")
              | some (inside, rest) =>
                  match Yaml.value? inside with
                  | none => .error ("label " ++ key ++ ": yaml: malformed value")
                  | some value =>
                      match parseLabels fuel rest with
                      | .error e => .error e
                      | .ok labels => .ok (⟨key, value⟩ :: labels)

def floats? : Data -> Option (List Float)
  | .list items =>
      items.mapM fun d =>
        match d with
        | .int n => if Numeral.fits n then some (Float.ofInt n) else none
        | .float f => some f
        | _ => none
  | _ => none

/-- Changes a define by a label; the flag says that a label has given the type.  The error is the
message. -/
def applyLabel (d : Define) (typed : Bool) (l : Label) : Except Text (Define × Bool) :=
  let implied (t : DefineType) : DefineType := if typed then d.type else t
  if l.key == ("range" : Text) then
    match floats? l.value with
    | some r =>
        if 2 ≤ r.length && r.length ≤ 3 then
          .ok ({ d with range := some r, type := implied .number }, typed)
        else .error "range must be [min, max] or [min, max, step]"
    | none => .error "range must be [min, max] or [min, max, step]"
  else if l.key == ("options" : Text) then
    match l.value with
    | .list (o :: os) =>
        .ok ({ d with options := (o :: os).map Data.display, type := implied .string }, typed)
    | _ => .error "options must be a non-empty list"
  else if l.key == ("default" : Text) then .ok ({ d with default := l.value }, typed)
  else if l.key == ("type" : Text) then
    match DefineType.ofLabel? l.value.display with
    | some t => .ok ({ d with type := t }, true)
    | none => .error ("unknown type '" ++ l.value.display ++ "'")
  else if l.key == ("editor" : Text) then
    match l.value with
    | .record entries => .ok ({ d with editor := some entries }, typed)
    | _ => .error "editor must be a mapping"
  else if l.key == ("rate" : Text) then
    match Rate.ofLabel? l.value.display with
    | some r => .ok ({ d with rate := some r }, typed)
    | none => .error ("unknown rate '" ++ l.value.display ++ "'")
  else .error ("unknown label '" ++ l.key ++ "'")

/-- Applies labels in order, up to the first that is refused.  When all are accepted the type of the
define is fixed. -/
def applyLabels (d : Define) (typed : Bool) : List Label -> Define × Option Text
  | [] => ({ d with explicit := true }, none)
  | l :: ls =>
      match applyLabel d typed l with
      | .error e => (d, some e)
      | .ok (d, typed) => applyLabels d typed ls

end Metadata

end EffectShader
