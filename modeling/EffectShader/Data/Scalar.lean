import EffectShader.Data.Basic
import EffectShader.Decimal.Read
import EffectShader.Text.Base64
import EffectShader.Text.Blank

/-!
# Values of scalars

A scalar without quotes is null, a truth value, a number, a point in time or a
text, by its spelling.  A tag asks for a kind of value.
-/

namespace EffectShader

namespace Data

def wordValue? (s : Text) : Option Data :=
  let isOne (words : String) := (Text.words words).contains s
  if s.isEmpty || isOne "~ null Null NULL" then some .null
  else if isOne "true True TRUE" then some (.bool true)
  else if isOne "false False FALSE" then some (.bool false)
  else if isOne ".nan .NaN .NAN" then some (.float (0 / 0))
  else if isOne ".inf .Inf .INF +.inf +.Inf +.INF" then some (.float (1 / 0))
  else if isOne "-.inf -.Inf -.INF" then some (.float (-(1 / 0)))
  else none

/-- A numeral in any base; between 2 ^ 63 and 2 ^ 64 it must have no sign. -/
def integerValue? (s : Text) : Option Data :=
  ((Numeral.integer? s).or ((Numeral.unsigned? s).map Int.ofNat)).map .int

def innerSignValue? : Text -> Option Data
  | Byte.zero :: mark :: s =>
      if mark == Byte.of 'b' then (Numeral.inBase? 2 s).map .int
      else if mark == Byte.of 'o' then (Numeral.inBase? 8 s).map .int
      else none
  | _ => none

/-- The value of a scalar that starts with a digit or a sign; underscores do not count. -/
def numberValue? (s : Text) : Option Data :=
  let plain := s.filter (· != Byte.underscore)
  (integerValue? plain).or (((Decimal.signed? plain).map .float).or (innerSignValue? plain))

/-- Every underscore stands between two digits; `afterDigit` tells that a digit comes before. -/
def separatesDigits : (afterDigit : Bool) -> Text -> Bool
  | _, [] => true
  | afterDigit, b :: s =>
      if b == Byte.underscore then
        afterDigit && s.head?.any Byte.isDigit && separatesDigits false s
      else separatesDigits (Byte.isDigit b) s

/-- The value of a scalar that starts with a point; underscores may separate digits. -/
def fractionValue? (s : Text) : Option Data :=
  if separatesDigits false s then
    (Decimal.unsigned? (s.filter (· != Byte.underscore))).map .float
  else none

def ofPlain (s : Text) : Data :=
  match wordValue? s with
  | some d => d
  | none =>
      match s with
      | [] => .null
      | b :: _ =>
          if Byte.isDigit b || b == Byte.plus || b == Byte.minus then
            (((Moment.parse? s).map .moment).or (numberValue? s)).getD (.text s)
          else if b == Byte.dot then (fractionValue? s).getD (.text s)
          else .text s

/-!
# Tags
-/

def tagOf : Data -> Text
  | .null => "!!null"
  | .bool _ => "!!bool"
  | .int _ => "!!int"
  | .float _ => "!!float"
  | .text _ => "!!str"
  | .moment _ => "!!timestamp"
  | .list _ => "!!seq"
  | _ => "!!map"

def scalarTags : List Text :=
  Text.words "!!null !!bool !!int !!float !!timestamp"

def widened (tag : Text) : Data -> Data
  | .int n => if tag == ("!!float" : Text) && Numeral.fits n then .float (Float.ofInt n) else .int n
  | d => d

/-- The value of a scalar with a tag; `none` if its spelling does not fit.  Any tag that does not
ask for a kind of value leaves a text. -/
def ofTagged? (tag s : Text) : Option Data :=
  if tag == ("!!binary" : Text) then (Base64.decode? s).map .text
  else if !scalarTags.contains tag then some (.text s)
  else
    let d := widened tag (ofPlain s)
    if tagOf d == tag then some d else none

end Data

end EffectShader
