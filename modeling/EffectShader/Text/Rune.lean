import EffectShader.Text.Basic

/-!
# Runes

A text read as UTF-8 is a sequence of runes.  A byte that starts no valid
encoding is a rune of its own, shown as the replacement character, so decoding
never fails and never loses a byte: the spellings of the runes concatenate to
the text.
-/

namespace EffectShader

structure Rune where
  char : Char
  bytes : Text
  deriving DecidableEq

namespace Rune

/-- What a byte outside every valid encoding is shown as. -/
def replacement : Char := '\uFFFD'

def isContinuation (b : UInt8) : Bool :=
  0x80 ≤ b && b < 0xC0

def payload (b : UInt8) : Nat :=
  b.toNat % 64

/-- The rune spelled by `bytes`, if `code` is a character and needs that many bytes. -/
def ofCode? (code least : Nat) (bytes : Text) : Option Rune :=
  if least ≤ code && decide code.isValidChar then some ⟨Char.ofNat code, bytes⟩ else none

/-- The encoding of two to four bytes that `b :: s` starts with. -/
def multibyte? (b : UInt8) (s : Text) : Option Rune :=
  match s with
  | [] => none
  | b1 :: s1 =>
      if !isContinuation b1 then none
      else if 0xC0 ≤ b && b < 0xE0 then
        ofCode? (b.toNat % 32 * 64 + payload b1) 0x80 [b, b1]
      else
        match s1 with
        | [] => none
        | b2 :: s2 =>
            if !isContinuation b2 then none
            else if 0xE0 ≤ b && b < 0xF0 then
              ofCode? ((b.toNat % 16 * 64 + payload b1) * 64 + payload b2) 0x800 [b, b1, b2]
            else
              match s2 with
              | [] => none
              | b3 :: _ =>
                  if isContinuation b3 && 0xF0 ≤ b && b < 0xF8 then
                    ofCode? (((b.toNat % 8 * 64 + payload b1) * 64 + payload b2) * 64 + payload b3)
                      0x10000 [b, b1, b2, b3]
                  else none

/-- The rune at the start of `b :: s`. -/
def first (b : UInt8) (s : Text) : Rune :=
  if b < 0x80 then ⟨Char.ofNat b.toNat, [b]⟩
  else (multibyte? b s).getD ⟨replacement, [b]⟩

def isStray (r : Rune) : Bool :=
  r.char == replacement && r.bytes.length == 1

end Rune

namespace Text

def runes : Text -> List Rune
  | [] => []
  | b :: s =>
      let r := Rune.first b s
      r :: runes (s.drop (r.bytes.length - 1))
  termination_by s => s.length
  decreasing_by simp only [List.length_drop, List.length_cons]; omega

def chars (s : Text) : List Char :=
  s.runes.map (·.char)

/-- The bytes of the longest beginning whose characters all satisfy `p`. -/
def takeChars (p : Char -> Bool) : Text -> Text
  | [] => []
  | b :: s =>
      let r := Rune.first b s
      if p r.char then r.bytes ++ takeChars p (s.drop (r.bytes.length - 1)) else []
  termination_by s => s.length
  decreasing_by simp only [List.length_drop, List.length_cons]; omega

def ofChar (c : Char) : Text :=
  String.utf8EncodeChar c

end Text

end EffectShader
