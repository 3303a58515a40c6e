import EffectShader.Text.Basic

/-!
# White space

The characters that count as white space when a text is trimmed or split into
fields: the six ASCII ones and the Unicode spaces, each by its UTF-8 spelling.
A spelling starts with an ASCII or a lead byte, so it never begins inside
another character and trimming can work on bytes from either end.
-/

namespace EffectShader

namespace Text

def blankSpellings : List Text :=
  [[0x09], [0x0A], [0x0B], [0x0C], [0x0D], [0x20], [0xC2, 0x85], [0xC2, 0xA0],
   [0xE1, 0x9A, 0x80], [0xE2, 0x80, 0x80], [0xE2, 0x80, 0x81], [0xE2, 0x80, 0x82],
   [0xE2, 0x80, 0x83], [0xE2, 0x80, 0x84], [0xE2, 0x80, 0x85], [0xE2, 0x80, 0x86],
   [0xE2, 0x80, 0x87], [0xE2, 0x80, 0x88], [0xE2, 0x80, 0x89], [0xE2, 0x80, 0x8A],
   [0xE2, 0x80, 0xA8], [0xE2, 0x80, 0xA9], [0xE2, 0x80, 0xAF], [0xE2, 0x81, 0x9F],
   [0xE3, 0x80, 0x80]]

def reversedBlankSpellings : List Text :=
  blankSpellings.map List.reverse

/-- If `b :: s` starts with one of the spellings, how many bytes of `s` belong to it. -/
def blankExtent? (spellings : List Text) (b : UInt8) (s : Text) : Option Nat :=
  if 0x20 < b && b < 0x80 then none
  else (spellings.find? fun w => w.isPrefixOf (b :: s)).map fun w => w.length - 1

def dropBlanks (spellings : List Text) : Text -> Text
  | [] => []
  | b :: s =>
      match blankExtent? spellings b s with
      | some n => dropBlanks spellings (s.drop n)
      | none => b :: s
  termination_by s => s.length
  decreasing_by simp only [List.length_drop, List.length_cons]; omega

theorem length_dropBlanks_le (spellings : List Text) (s : Text) :
    (dropBlanks spellings s).length ≤ s.length := by
  fun_induction dropBlanks spellings s with
  | case1 => simp
  | case2 b s n _ ih =>
      simp only [List.length_drop, List.length_cons] at ih ⊢
      omega
  | case3 b s _ => simp

def trimLeft (s : Text) : Text :=
  dropBlanks blankSpellings s

/-- The byte can be the last one of a white space character. -/
def mayEndBlank (b : UInt8) : Bool :=
  b ≤ 0x20 || 0x80 ≤ b

def trimRight (s : Text) : Text :=
  if s.getLast?.any mayEndBlank then (dropBlanks reversedBlankSpellings s.reverse).reverse else s

def trim (s : Text) : Text :=
  trimRight (trimLeft s)

theorem length_trimRight_le (s : Text) : (trimRight s).length ≤ s.length := by
  rw [trimRight]
  split
  · have h := length_dropBlanks_le reversedBlankSpellings s.reverse
    rw [List.length_reverse] at h ⊢
    exact h
  · exact Nat.le_refl _

theorem length_trim_le (s : Text) : (trim s).length ≤ s.length :=
  Nat.le_trans (length_trimRight_le _) (length_dropBlanks_le blankSpellings s)

/-- Collects fields; `word` is the field being read, last byte first. -/
def fieldsFrom (word : Text) : Text -> List Text
  | [] => if word.isEmpty then [] else [word.reverse]
  | b :: s =>
      match blankExtent? blankSpellings b s with
      | some n =>
          if word.isEmpty then fieldsFrom [] (s.drop n)
          else word.reverse :: fieldsFrom [] (s.drop n)
      | none => fieldsFrom (b :: word) s
  termination_by s => s.length
  decreasing_by all_goals (simp only [List.length_drop, List.length_cons]; omega)

def fields (s : Text) : List Text :=
  fieldsFrom [] s

def words (s : String) : List Text :=
  splitByte Byte.space (ofString s)

end Text

end EffectShader
