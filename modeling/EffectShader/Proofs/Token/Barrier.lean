import EffectShader.Proofs.Text.Search
import EffectShader.Proofs.Token.Pieces
import Mathlib.Data.List.Find

/-!
# What ends a token

A number, a word or an operator never reads past a barrier: white space, a
bracket, a comma, a semicolon, a backslash, a slash or a hash sign.  What stands
behind the barrier is therefore free to change without changing the tokens before
it.  Most other bytes that are part of no word end a token too, unless they continue
it: a dot or a sign may belong to a number, and an operator may have several bytes.
-/

namespace EffectShader

namespace Lexer

def barriers : Text :=
  [Byte.newline, Byte.space, Byte.tab, Byte.openParen, Byte.closeParen, Byte.comma,
   Byte.semicolon, Byte.openBracket, Byte.closeBracket, Byte.openBrace, Byte.closeBrace,
   Byte.backslash, Byte.carriage, 0x0C, 0x0B, Byte.slash, Byte.hash]

/-- The byte continues no number, word or operator. -/
def isBarrier (b : UInt8) : Bool :=
  barriers.contains b

theorem isBarrier_newline : isBarrier Byte.newline = true := rfl

theorem of_isBarrier {P : UInt8 -> Prop} [DecidablePred P] {c : UInt8}
    (hc : isBarrier c = true) (h : barriers.all (fun b => decide (P b)) = true) : P c := by
  have hmem : c ∈ barriers := by simpa [isBarrier] using hc
  exact of_decide_eq_true (List.all_eq_true.mp h c hmem)

/-!
# Runs of bytes
-/

theorem run_append_stop {p : UInt8 -> Bool} {c : UInt8} (hp : p c = false) (s y : Text) :
    run p (s ++ c :: y) = run p s := by
  unfold run
  induction s with
  | nil => simp [List.takeWhile, hp]
  | cons b s ih =>
      cases hb : p b with
      | false => simp [List.takeWhile, hb]
      | true => simp [List.takeWhile, hb, ih]

theorem run_append_eq_length_iff {p : UInt8 -> Bool} {w r : Text} :
    run p (w ++ r) = w.length ↔
      (forall b, b ∈ w -> p b = true) ∧ forall c, r.head? = some c -> p c = false := by
  unfold run
  induction w with
  | nil =>
      cases r with
      | nil => simp
      | cons c r => cases hc : p c <;> simp [hc]
  | cons b w ih => cases hb : p b <;> simp [hb, ih]

theorem run_of_head? {p : UInt8 -> Bool} {w r r' : Text} (h : run p (w ++ r) = w.length)
    (hhead : r'.head? = r.head?) : run p (w ++ r') = w.length := by
  rw [run_append_eq_length_iff] at h ⊢
  rw [hhead]
  exact h

theorem drop_append_stop {n : Nat} {s : Text} (hn : n ≤ s.length) (r : Text) :
    (s ++ r).drop n = s.drop n ++ r :=
  List.drop_append_of_le_length hn

/-!
# Bytes that end a word
-/

def endsWord (b : UInt8) : Bool :=
  b < 0x80 && !isWordChar (Char.ofNat b.toNat)

theorem of_endsWord {P : UInt8 -> Prop} [DecidablePred P] {c : UInt8} (hc : endsWord c = true)
    (h : (List.range 128).all (fun n =>
      !endsWord (UInt8.ofNat n) || decide (P (UInt8.ofNat n))) = true) : P c := by
  have hsmall : c.toNat < 128 := by
    simpa [UInt8.lt_iff_toNat_lt] using (Bool.and_eq_true_iff.mp hc).1
  have hall := List.all_eq_true.mp h _ (List.mem_range.mpr hsmall)
  rw [UInt8.ofNat_toNat, hc] at hall
  simpa using hall

theorem endsWord_of_isBarrier {c : UInt8} (hc : isBarrier c = true) : endsWord c = true :=
  of_isBarrier (P := fun b => endsWord b = true) hc (by decide +kernel)

theorem lt_of_endsWord {c : UInt8} (hc : endsWord c = true) : c < 0x80 :=
  of_decide_eq_true (Bool.and_eq_true_iff.mp hc).1

theorem isContinuation_of_lt {c : UInt8} (hc : c < 0x80) : Rune.isContinuation c = false := by
  simp [Rune.isContinuation, UInt8.not_le.mpr hc]

theorem isWordChar_endsWord {c : UInt8} (hc : endsWord c = true) (y : Text) :
    isWordChar (Rune.first c y).char = false := by
  rw [Rune.first, if_pos (lt_of_endsWord hc)]
  simpa using (Bool.and_eq_true_iff.mp hc).2

section Ends

variable {c : UInt8} (hc : endsWord c = true)

include hc

theorem isDigit_endsWord : Byte.isDigit c = false :=
  of_endsWord (P := fun b => Byte.isDigit b = false) hc (by decide +kernel)

theorem isHexDigit_endsWord : Byte.isHexDigit c = false :=
  of_endsWord (P := fun b => Byte.isHexDigit b = false) hc (by decide +kernel)

theorem isSuffix_endsWord : isF c = false ∧ isL c = false ∧ isU c = false :=
  of_endsWord (P := fun b => isF b = false ∧ isL b = false ∧ isU b = false) hc (by decide +kernel)

theorem isExponent_endsWord : (c == Byte.of 'e' || c == Byte.of 'E') = false :=
  of_endsWord (P := fun b => (b == Byte.of 'e' || b == Byte.of 'E') = false) hc (by decide +kernel)

theorem isHexMark_endsWord : (c == Byte.of 'x' || c == Byte.of 'X') = false :=
  of_endsWord (P := fun b => (b == Byte.of 'x' || b == Byte.of 'X') = false) hc (by decide +kernel)

end Ends

/-!
# Numbers
-/

/-- The byte behind `first :: s` ends a word, and starts neither the fraction nor the exponent of a
decimal literal. -/
structure Halts (first : UInt8) (s : Text) (c : UInt8) : Prop where
  ends : endsWord c = true
  dot : c = Byte.dot -> first = Byte.dot ∨ run Byte.isDigit s < s.length
  sign : (c == Byte.plus || c == Byte.minus) = true -> forall e,
    s.drop (mantissaExtent first s) = [e] -> (e == Byte.of 'e' || e == Byte.of 'E') = false

theorem exponentExtent_stop {c : UInt8} (hc : endsWord c = true) {s : Text}
    (hsign : (c == Byte.plus || c == Byte.minus) = true -> forall e, s = [e] ->
      (e == Byte.of 'e' || e == Byte.of 'E') = false) (y : Text) :
    exponentExtent (s ++ c :: y) = exponentExtent s := by
  match s with
  | [] =>
      cases y with
      | nil => rfl
      | cons d y => simp only [List.nil_append, exponentExtent, isExponent_endsWord hc]; rfl
  | [e] =>
      simp only [List.cons_append, List.nil_append, exponentExtent, isDigit_endsWord hc]
      cases hc : (c == Byte.plus || c == Byte.minus) with
      | false =>
          rw [Bool.false_and]
          split <;> rfl
      | true =>
          rw [hsign hc e rfl]
          rfl
  | e :: sign :: s =>
      simp only [List.cons_append, exponentExtent, run_append_stop (isDigit_endsWord hc)]

theorem floatSuffixExtent_stop {c : UInt8} (hc : endsWord c = true) (s y : Text) :
    floatSuffixExtent (s ++ c :: y) = floatSuffixExtent s := by
  rcases isSuffix_endsWord hc with ⟨hf, hl, _⟩
  match s with
  | [] => cases y <;> simp [floatSuffixExtent, hf, hl]
  | [b] => simp [floatSuffixExtent, hf]
  | b :: d :: s => simp [floatSuffixExtent]

theorem unsignedSuffixExtent_stop {c : UInt8} (hc : endsWord c = true) (s y : Text) :
    unsignedSuffixExtent (s ++ c :: y) = unsignedSuffixExtent s := by
  cases s with
  | nil => simp [unsignedSuffixExtent, (isSuffix_endsWord hc).2.2]
  | cons b s => simp [unsignedSuffixExtent]

theorem fractionExtent_stop {c : UInt8} (hc : endsWord c = true) {first : UInt8} {s : Text}
    (hdot : c = Byte.dot -> first = Byte.dot ∨ s ≠ []) (y : Text) :
    fractionExtent first (s ++ c :: y) = fractionExtent first s := by
  have hother : forall {b : UInt8} {r : Text}, b ≠ Byte.dot ->
    fractionExtent first (b :: r) = 0 := by
    intro b r hb
    unfold fractionExtent
    split
    · rename_i heq
      exact absurd (List.cons.inj heq).1 hb
    · rfl
  match s with
  | [] =>
      by_cases hb : c = Byte.dot
      · have hfirst : first = Byte.dot := (hdot hb).resolve_right fun hne => hne rfl
        rw [hb, hfirst, List.nil_append, fractionExtent_dot]
        rfl
      · exact hother hb
  | b :: s =>
      by_cases hb : b = Byte.dot
      · subst hb
        rw [List.cons_append, fractionExtent_dot, fractionExtent_dot,
          run_append_stop (isDigit_endsWord hc)]
      · rw [List.cons_append, hother hb, hother hb]

theorem hexExtent_stop {c : UInt8} (hc : endsWord c = true) (s y : Text) :
    hexExtent (s ++ c :: y) = hexExtent s := by
  have hrun := run_append_stop (isHexDigit_endsWord hc) s y
  show run Byte.isHexDigit (s ++ c :: y) + unsignedSuffixExtent
    ((s ++ c :: y).drop (run Byte.isHexDigit (s ++ c :: y))) = _
  rw [hrun, drop_append_stop (run_le _ s), unsignedSuffixExtent_stop hc]
  rfl

section Decimals

variable {first c : UInt8} {s : Text} (h : Halts first s c) (y : Text)

include h

theorem Halts.fractionExtent_eq :
    fractionExtent first ((s ++ c :: y).drop (run Byte.isDigit s)) =
      fractionExtent first (s.drop (run Byte.isDigit s)) := by
  rw [drop_append_stop (run_le _ s), fractionExtent_stop h.ends]
  intro hdot
  refine (h.dot hdot).imp_right fun hlt hnil => ?_
  have hlength := congrArg List.length hnil
  rw [List.length_drop, List.length_nil] at hlength
  omega

theorem Halts.mantissaExtent_eq : mantissaExtent first (s ++ c :: y) = mantissaExtent first s := by
  unfold mantissaExtent
  rw [run_append_stop (isDigit_endsWord h.ends), h.fractionExtent_eq]

theorem Halts.exponentExtent_eq :
    exponentExtent ((s ++ c :: y).drop (mantissaExtent first s)) =
      exponentExtent (s.drop (mantissaExtent first s)) := by
  rw [drop_append_stop (mantissaExtent_le first s), exponentExtent_stop h.ends h.sign]

theorem Halts.unsuffixedExtent_eq :
    unsuffixedExtent first (s ++ c :: y) = unsuffixedExtent first s := by
  unfold unsuffixedExtent
  rw [h.mantissaExtent_eq, h.exponentExtent_eq]

theorem Halts.isFloating_eq : isFloating first (s ++ c :: y) = isFloating first s := by
  unfold isFloating
  rw [run_append_stop (isDigit_endsWord h.ends), h.fractionExtent_eq, h.mantissaExtent_eq,
    h.exponentExtent_eq]

theorem Halts.decimalExtent_eq : decimalExtent first (s ++ c :: y) = decimalExtent first s := by
  rw [Lexer.decimalExtent_eq, Lexer.decimalExtent_eq, h.isFloating_eq, h.unsuffixedExtent_eq,
    drop_append_stop (unsuffixedExtent_le first s), floatSuffixExtent_stop h.ends,
    unsignedSuffixExtent_stop h.ends]

theorem Halts.numberExtent_eq : numberExtent first (s ++ c :: y) = numberExtent first s := by
  have hdecimal := h.decimalExtent_eq y
  cases s with
  | nil =>
      have hmark := isHexMark_endsWord h.ends
      simp only [List.nil_append] at hdecimal ⊢
      simp only [numberExtent, hmark, Bool.and_false, hdecimal]
      rfl
  | cons x s =>
      simp only [List.cons_append] at hdecimal ⊢
      simp only [numberExtent, hexExtent_stop h.ends, hdecimal]

end Decimals

/-!
# Words and operators
-/

section Runes

variable {c : UInt8} (hc : c < 0x80)

include hc

theorem multibyte?_stop (b : UInt8) (s y : Text) :
    Rune.multibyte? b (s ++ c :: y) = Rune.multibyte? b s := by
  have hcont := isContinuation_of_lt hc
  match s with
  | [] => simp [Rune.multibyte?, hcont]
  | [b1] => simp [Rune.multibyte?, hcont]
  | [b1, b2] => simp [Rune.multibyte?, hcont]
  | b1 :: b2 :: b3 :: s => simp [Rune.multibyte?]

theorem first_stop (b : UInt8) (s y : Text) :
    Rune.first b (s ++ c :: y) = Rune.first b s := by
  unfold Rune.first
  rw [multibyte?_stop hc]

theorem operatorExtent_stop (hop : forall op, op ∈ operators -> c ∉ op.tail) (b : UInt8)
    (s y : Text) : operatorExtent b (s ++ c :: y) = operatorExtent b s := by
  have hfind : operators.find? (fun op => op.isPrefixOf (b :: (s ++ c :: y))) =
      operators.find? (fun op => op.isPrefixOf (b :: s)) := by
    apply List.find?_congr
    intro op hmem
    cases op with
    | nil => rfl
    | cons a op =>
        have htail : c ∉ op := hop _ hmem
        simp only [List.isPrefixOf, Text.isPrefixOf_append_stop htail s y]
  unfold operatorExtent
  rw [hfind, first_stop hc]

end Runes

theorem takeChars_endsWord {c : UInt8} (hc : endsWord c = true) (s y : Text) :
    Text.takeChars isWordChar (s ++ c :: y) = Text.takeChars isWordChar s := by
  fun_induction Text.takeChars isWordChar s with
  | case1 => simp [Text.takeChars, isWordChar_endsWord hc]
  | case2 b s r hp ih =>
      rw [List.cons_append, Text.takeChars, first_stop (lt_of_endsWord hc),
        drop_append_stop (length_first_le b s)]
      simp only [show isWordChar (Rune.first b s).char = true from hp, if_true]
      rw [ih]
  | case3 b s r hp =>
      rw [List.cons_append, Text.takeChars, first_stop (lt_of_endsWord hc)]
      simp [show isWordChar (Rune.first b s).char = false by simpa using hp]

theorem wordExtent_stop {c : UInt8} (hc : endsWord c = true) (b : UInt8) (s y : Text) :
    wordExtent b (s ++ c :: y) = wordExtent b s := by
  unfold wordExtent
  rw [first_stop (lt_of_endsWord hc), drop_append_stop (length_first_le b s),
    takeChars_endsWord hc]

def startsNumber (b : UInt8) (s : Text) : Bool :=
  Byte.isDigit b || (b == Byte.dot && s.head?.any Byte.isDigit)

theorem startsNumber_stop {c : UInt8} (hc : Byte.isDigit c = false) (b : UInt8) (s y : Text) :
    startsNumber b (s ++ c :: y) = startsNumber b s := by
  unfold startsNumber
  cases s with
  | nil => simp [hc]
  | cons d s => rfl

theorem plainExtent_stop {b c : UInt8} {s : Text} (hc : endsWord c = true)
    (hnumber : startsNumber b s = true -> Halts b s c)
    (hop : forall op, op ∈ operators -> c ∉ op.tail) (y : Text) :
    plainExtent b (s ++ c :: y) = plainExtent b s := by
  have htake : (s ++ c :: y).take (wordExtent b s) = s.take (wordExtent b s) :=
    List.take_append_of_le_length (wordExtent_le b s)
  have hstart := startsNumber_stop (isDigit_endsWord hc) b s y
  unfold startsNumber at hstart hnumber
  unfold plainExtent
  rw [hstart, first_stop (lt_of_endsWord hc), wordExtent_stop hc, htake,
    operatorExtent_stop (lt_of_endsWord hc) hop]
  split
  · rename_i hn
    exact (hnumber hn).numberExtent_eq y
  · rfl

/-!
# Barriers
-/

section Barriers

variable {c : UInt8} (hc : isBarrier c = true)

include hc

theorem isDigit_barrier : Byte.isDigit c = false :=
  isDigit_endsWord (endsWord_of_isBarrier hc)

theorem ne_dot_barrier : c ≠ Byte.dot :=
  of_isBarrier (P := fun b => b ≠ Byte.dot) hc (by decide)

theorem isSign_barrier : (c == Byte.plus || c == Byte.minus) = false :=
  of_isBarrier (P := fun b => (b == Byte.plus || b == Byte.minus) = false) hc (by decide)

theorem halts_barrier (first : UInt8) (s : Text) : Halts first s c :=
  ⟨endsWord_of_isBarrier hc, fun hdot => absurd hdot (ne_dot_barrier hc),
    fun hsign => by rw [isSign_barrier hc] at hsign; cases hsign⟩

theorem not_mem_tail_operator {op : Text} (hop : op ∈ operators) : c ∉ op.tail := by
  have hall : operators.all (fun op => decide (c ∉ op.tail)) = true :=
    of_isBarrier (P := fun b => operators.all (fun op => decide (b ∉ op.tail)) = true) hc
      (by decide)
  exact of_decide_eq_true (List.all_eq_true.mp hall op hop)

theorem plainExtent_barrier (b : UInt8) (s y : Text) :
    plainExtent b (s ++ c :: y) = plainExtent b s :=
  plainExtent_stop (endsWord_of_isBarrier hc) (fun _ => halts_barrier hc b s)
    (fun _ hop => not_mem_tail_operator hc hop) y

theorem form_barrier (hslash : c ≠ Byte.slash) (fresh : Bool) (b : UInt8) (s y : Text) :
    form fresh b (s ++ c :: y).head? = form fresh b s.head? := by
  cases s with
  | nil =>
      have hstar : c ≠ Byte.star := of_isBarrier (P := fun b => b ≠ Byte.star) hc (by decide)
      unfold form
      simp [hslash, hstar]
  | cons b s => rfl

end Barriers

end Lexer

end EffectShader
