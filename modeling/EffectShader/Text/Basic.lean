/-!
# Texts

Shader sources, chunk contents and messages are byte strings: a source need not
be valid UTF-8, and every offset in the library counts bytes.  A text is
therefore a list of bytes, and the scanning operations below are recursions on
that list.
-/

namespace EffectShader

abbrev Text := List UInt8

/-!
# Named bytes

The bytes that scanners match on.
-/

namespace Byte

@[match_pattern] abbrev tab : UInt8 := 9
@[match_pattern] abbrev newline : UInt8 := 10
@[match_pattern] abbrev carriage : UInt8 := 13
@[match_pattern] abbrev space : UInt8 := 32
@[match_pattern] abbrev quote : UInt8 := 34
@[match_pattern] abbrev hash : UInt8 := 35
@[match_pattern] abbrev ampersand : UInt8 := 38
@[match_pattern] abbrev apostrophe : UInt8 := 39
@[match_pattern] abbrev openParen : UInt8 := 40
@[match_pattern] abbrev closeParen : UInt8 := 41
@[match_pattern] abbrev star : UInt8 := 42
@[match_pattern] abbrev plus : UInt8 := 43
@[match_pattern] abbrev comma : UInt8 := 44
@[match_pattern] abbrev minus : UInt8 := 45
@[match_pattern] abbrev dot : UInt8 := 46
@[match_pattern] abbrev slash : UInt8 := 47
@[match_pattern] abbrev zero : UInt8 := 48
@[match_pattern] abbrev colon : UInt8 := 58
@[match_pattern] abbrev semicolon : UInt8 := 59
@[match_pattern] abbrev less : UInt8 := 60
@[match_pattern] abbrev equals : UInt8 := 61
@[match_pattern] abbrev greater : UInt8 := 62
@[match_pattern] abbrev openBracket : UInt8 := 91
@[match_pattern] abbrev backslash : UInt8 := 92
@[match_pattern] abbrev closeBracket : UInt8 := 93
@[match_pattern] abbrev underscore : UInt8 := 95
@[match_pattern] abbrev backtick : UInt8 := 96
@[match_pattern] abbrev openBrace : UInt8 := 123
@[match_pattern] abbrev pipe : UInt8 := 124
@[match_pattern] abbrev closeBrace : UInt8 := 125
@[match_pattern] abbrev tilde : UInt8 := 126

abbrev of (c : Char) : UInt8 := c.toUInt8

def isDigit (b : UInt8) : Bool :=
  of '0' ≤ b && b ≤ of '9'

def isUpper (b : UInt8) : Bool :=
  of 'A' ≤ b && b ≤ of 'Z'

def isLower (b : UInt8) : Bool :=
  of 'a' ≤ b && b ≤ of 'z'

def isHexDigit (b : UInt8) : Bool :=
  isDigit b || (of 'a' ≤ b && b ≤ of 'f') || (of 'A' ≤ b && b ≤ of 'F')

def isWordStart (b : UInt8) : Bool :=
  b == underscore || isLower b || isUpper b

/-- A byte that may continue an ASCII identifier. -/
def isWord (b : UInt8) : Bool :=
  isWordStart b || isDigit b

def isBlank (b : UInt8) : Bool :=
  b == space || b == tab

end Byte

namespace Text

def ofString (s : String) : Text :=
  s.toByteArray.data.toList

instance : Coe String Text := ⟨ofString⟩

def toString? (s : Text) : Option String :=
  String.fromUTF8? ⟨s.toArray⟩

/-!
# Searching and cutting
-/

/-- What follows `p` in `s`, if `s` starts with `p`. -/
def afterPrefix? : (p s : Text) -> Option Text
  | [], s => some s
  | _ :: _, [] => none
  | a :: p, b :: s => if a == b then afterPrefix? p s else none

theorem eq_append_of_afterPrefix? {p s r : Text}
    (h : afterPrefix? p s = some r) : s = p ++ r := by
  induction p generalizing s with
  | nil => simpa [afterPrefix?] using h
  | cons a p ih =>
      cases s with
      | nil => simp [afterPrefix?] at h
      | cons b s =>
          by_cases hab : a = b
          · simp only [afterPrefix?, hab, beq_self_eq_true, if_true] at h
            simp [hab, ih h]
          · simp [afterPrefix?, hab] at h

def startsWith (s p : Text) : Bool :=
  p.isPrefixOf s

def endsWith (s p : Text) : Bool :=
  p.isSuffixOf s

def withoutEnding (s p : Text) : Text :=
  if endsWith s p then s.take (s.length - p.length) else s

def withoutBeginning (s p : Text) : Text :=
  (afterPrefix? p s).getD s

/-- The parts of `s` before and after the first occurrence of `sep`. -/
def cut? (sep : Text) : (s : Text) -> Option (Text × Text)
  | [] => if sep.isEmpty then some ([], []) else none
  | b :: s =>
      match afterPrefix? sep (b :: s) with
      | some after => some ([], after)
      | none => (cut? sep s).map fun (before, after) => (b :: before, after)

theorem eq_append_of_cut? {sep s before after : Text}
    (h : cut? sep s = some (before, after)) : s = before ++ (sep ++ after) := by
  induction s generalizing before with
  | nil =>
      by_cases hs : sep = []
      · simp_all [cut?]
      · simp [cut?, hs] at h
  | cons b s ih =>
      rw [cut?] at h
      cases hp : afterPrefix? sep (b :: s) with
      | some r =>
          rw [hp] at h
          simp only [Option.some.injEq, Prod.mk.injEq] at h
          obtain ⟨rfl, rfl⟩ := h
          simpa using eq_append_of_afterPrefix? hp
      | none =>
          rw [hp] at h
          obtain ⟨⟨x, y⟩, hc, he⟩ := Option.map_eq_some_iff.1 h
          simp only [Prod.mk.injEq] at he
          obtain ⟨rfl, rfl⟩ := he
          rw [List.cons_append, ← ih hc]

theorem length_of_cut? {sep s before after : Text}
    (h : cut? sep s = some (before, after)) :
    s.length = before.length + sep.length + after.length := by
  rw [eq_append_of_cut? h]
  simp only [List.length_append]
  omega

def indexOf? (sep s : Text) : Option Nat :=
  (cut? sep s).map fun (before, _) => before.length

def includes (s sep : Text) : Bool :=
  (cut? sep s).isSome

/-- The pieces of a text between occurrences of a byte; there is always one more piece than
occurrences. -/
def splitByte (sep : UInt8) : Text -> List Text
  | [] => [[]]
  | b :: s =>
      if b == sep then
        [] :: splitByte sep s
      else
        match splitByte sep s with
        | [] => [[b]]
        | piece :: pieces => (b :: piece) :: pieces

/-- The lines of a text, without their newlines; there is always one more than newlines. -/
def lines (s : Text) : List Text :=
  splitByte Byte.newline s

def joinWith (sep : Text) (parts : List Text) : Text :=
  List.intercalate sep parts

def unlines (parts : List Text) : Text :=
  joinWith [Byte.newline] parts

/-- The number of newlines of a text. -/
def newlines (s : Text) : Nat :=
  s.count Byte.newline

/-- Each occurrence of `old`, found from the left without overlap, replaced by `new`. -/
def replaceFrom (old new : Text) : (skip : Nat) -> Text -> Text
  | _, [] => []
  | skip + 1, _ :: s => replaceFrom old new skip s
  | 0, b :: s =>
      if old.isPrefixOf (b :: s) then
        new ++ replaceFrom old new (old.length - 1) s
      else
        b :: replaceFrom old new 0 s

def replaceAll (old new s : Text) : Text :=
  replaceFrom old new 0 s

def dropEndWhile (p : UInt8 -> Bool) (s : Text) : Text :=
  if s.getLast?.any p then (s.reverse.dropWhile p).reverse else s

def slice (s : Text) (first last : Nat) : Text :=
  (s.drop first).take (last - first)

/-!
# Numbers
-/

/-- The decimal digits of a number, most significant first. -/
def ofNat (n : Nat) : Text :=
  if n < 10 then
    [Byte.zero + n.toUInt8]
  else
    ofNat (n / 10) ++ [Byte.zero + (n % 10).toUInt8]

def ofInt : Int -> Text
  | .ofNat n => ofNat n
  | .negSucc n => Byte.minus :: ofNat (n + 1)

def digitsValue (s : Text) : Nat :=
  s.foldl (fun n b => 10 * n + (b.toNat - 48)) 0

/-!
# Order
-/

/-- Bytewise order: the order in which names are listed. -/
def le : Text -> Text -> Bool
  | [], _ => true
  | _ :: _, [] => false
  | a :: s, b :: t => if a == b then le s t else a < b

def sort (ts : List Text) : List Text :=
  ts.mergeSort le

end Text

end EffectShader
