import EffectShader.Decimal.Shortest
import EffectShader.Moment
import EffectShader.Numeral

/-!
# Data values

The values that shader authors write in the labels of define metadata.
-/

namespace EffectShader

inductive Data where
  | null
  | bool (b : Bool)
  | int (n : Int)
  | float (f : Float)
  | text (s : Text)
  | moment (m : Moment)
  | list (items : List Data)
  /-- A mapping from texts, in bytewise order of the keys. -/
  | record (entries : List (Text × Data))
  /-- A mapping from values of any kind. -/
  | map (entries : List (Data × Data))

namespace Data

/-!
# Keys
-/

/-- The kinds of keys in the order in which they are shown; integers that need an unsigned word are
a kind of their own. -/
def keyRank : Data -> Nat
  | .null => 0
  | .bool _ => 1
  | .float _ => 2
  | .int n => if Numeral.fits n then 3 else 5
  | .text _ => 4
  | _ => 6

def keyLe : Data -> Data -> Bool
  | .bool a, .bool b => !a || b
  | .int a, .int b => a ≤ b
  | .float a, .float b => a.isNaN || a ≤ b
  | .text a, .text b => Text.le a b
  | .moment a, .moment b => a.keyLe b
  | a, b => keyRank a ≤ keyRank b

def sameKey : Data -> Data -> Bool
  | .null, .null => true
  | .bool a, .bool b => a == b
  | .int a, .int b => a == b
  | .float a, .float b => a == b
  | .text a, .text b => a == b
  | .moment a, .moment b => a == b
  | _, _ => false

/-- Gives a key its value; an entry with the same key is replaced. -/
def putEntry : List (Data × Data) -> Data -> Data -> List (Data × Data)
  | [], key, v => [(key, v)]
  | (k, w) :: es, key, v => if sameKey k key then (key, v) :: es else (k, w) :: putEntry es key v

def bytes : Data -> Text
  | .text s => s
  | _ => []

def ofTextEntries (entries : List (Data × Data)) : Data :=
  .record ((entries.map fun (e : Data × Data) => (e.1.bytes, e.2)).mergeSort
    fun a b => Text.le a.1 b.1)

/-!
# Showing
-/

mutual

/-- How a value is shown in messages and as a define option. -/
def display : Data -> Text
  | .null => "<nil>"
  | .bool true => "true"
  | .bool false => "false"
  | .int n => Text.ofInt n
  | .float f => FloatText.general f
  | .text s => s
  | .moment m => m.display
  | .list items => "[" ++ Text.joinWith " " (displayItems items) ++ "]"
  | .record entries => "map[" ++ Text.joinWith " " (displayFields entries) ++ "]"
  | .map entries =>
      "map[" ++ Text.joinWith " " (((displayEntries entries).mergeSort
        fun a b => keyLe a.1 b.1).map (·.2)) ++ "]"

def displayItems : List Data -> List Text
  | [] => []
  | d :: ds => display d :: displayItems ds

def displayFields : List (Text × Data) -> List Text
  | [] => []
  | (k, v) :: es => (k ++ ":" ++ display v) :: displayFields es

def displayEntries : List (Data × Data) -> List (Data × Text)
  | [] => []
  | (k, v) :: es => (k, display k ++ ":" ++ display v) :: displayEntries es

end

end Data

end EffectShader
