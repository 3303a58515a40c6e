import EffectShader.Document.Basic
import EffectShader.Text.Quoted
import EffectShader.Text.Rune

/-!
# JSON

Documents are written with one entry a line and two spaces for each level.
Characters that have a meaning in HTML are escaped, and the entries of maps are
in bytewise order of their keys.
-/

namespace EffectShader

def NumberFormat.json : NumberFormat := ⟨-6, 20, 1⟩

namespace Json

/-- Why a document cannot be written. -/
inductive Error where
  /-- A number that is not finite. -/
  | notFinite (f : Float)
  /-- A map with keys other than texts. -/
  | untypedKeys
  /-- A clock that is a day or more away from universal time. -/
  | distantZone

def Error.message : Error -> Text
  | .notFinite f => "json: unsupported value: " ++ FloatText.general f
  | .untypedKeys =>
      "json: unsupported type: map[interface " ++ [Byte.openBrace, Byte.closeBrace] ++
      "]interface " ++
        [Byte.openBrace, Byte.closeBrace]
  | .distantZone =>
      "json: error calling MarshalJSON for type time.Time: " ++
        "Time.MarshalJSON: timezone hour outside of range [0,23]"

/-!
# Texts
-/

def letterEscape? (c : Char) : Option Char :=
  match c.toNat with
  | 8 => some 'b'
  | 9 => some 't'
  | 10 => some 'n'
  | 12 => some 'f'
  | 13 => some 'r'
  | 34 => some '"'
  | 92 => some '\\'
  | _ => none

/-- The character is written by its code: control characters, those with a meaning in HTML, and the
two line separators that scripts do not allow in texts. -/
def isCoded (c : Char) : Bool :=
  c.toNat < 0x20 || c == '<' || c == '>' || c == '&' || c.toNat == 0x2028 || c.toNat == 0x2029

def code (n : Nat) : Text :=
  [Byte.backslash, Byte.of 'u'] ++ Text.hex 4 n

/-- A character inside quotes; a byte outside every valid encoding is the replacement character. -/
def rune (r : Rune) : Text :=
  if r.isStray then code Rune.replacement.toNat
  else
    match letterEscape? r.char with
    | some e => [Byte.backslash, Byte.of e]
    | none => if isCoded r.char then code r.char.toNat else r.bytes

def string (s : Text) : Text :=
  [Byte.quote] ++ s.runes.flatMap rune ++ [Byte.quote]

/-!
# Nodes
-/

def number (f : Float) : Except Error Text :=
  if FloatText.isSpecial f.toBits then .error (.notFinite f)
  else .ok (FloatText.write .json f)

def moment (m : Moment) : Except Error Text :=
  if m.ahead.natAbs < 1440 then .ok (string m.render) else .error .distantZone

def lineStart (level : Nat) : Text :=
  Byte.newline :: List.replicate (2 * level) Byte.space

def bracketed (opening closing : Text) (level : Nat) (entries : List Text) : Text :=
  if entries.isEmpty then opening ++ closing
  else
    opening ++ Text.joinWith [Byte.comma] (entries.map fun e => lineStart (level + 1) ++ e) ++
      lineStart level ++ closing

def pair (key value : Text) : Text :=
  string key ++ ": " ++ value

def object (level : Nat) (fields : List (Text × Text)) : Text :=
  bracketed [Byte.openBrace] [Byte.closeBrace] level (fields.map fun f => pair f.1 f.2)

def sorted (fields : List (Text × Text)) : List (Text × Text) :=
  fields.mergeSort fun a b => Text.le a.1 b.1

mutual

def write (level : Nat) : Document -> Except Error Text
  | .null | .noList => .ok "null"
  | .bool b => .ok (if b then "true" else "false")
  | .int n => .ok (Text.ofInt n)
  | .float f => number f
  | .text s => .ok (string s)
  | .moment m => moment m
  | .list items =>
      match writeItems level items with
      | .error e => .error e
      | .ok parts => .ok (bracketed "[" "]" level parts)
  | .record fields =>
      match writeFields level fields with
      | .error e => .error e
      | .ok parts => .ok (object level parts)
  | .textMap entries =>
      match writeFields level entries with
      | .error e => .error e
      | .ok parts => .ok (object level (sorted parts))
  | .map _ => .error .untypedKeys

def writeItems (level : Nat) : List Document -> Except Error (List Text)
  | [] => .ok []
  | d :: ds =>
      match write (level + 1) d with
      | .error e => .error e
      | .ok part =>
          match writeItems level ds with
          | .error e => .error e
          | .ok parts => .ok (part :: parts)

def writeFields (level : Nat) : List (Text × Document) -> Except Error (List (Text × Text))
  | [] => .ok []
  | (name, d) :: rest =>
      match write (level + 1) d with
      | .error e => .error e
      | .ok part =>
          match writeFields level rest with
          | .error e => .error e
          | .ok parts => .ok ((name, part) :: parts)

end

end Json

def Document.toJson (d : Document) : Except Json.Error Text :=
  (Json.write 0 d).map (· ++ [Byte.newline])

end EffectShader
