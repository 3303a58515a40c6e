import EffectShader.Proofs.Token.Barrier

/-!
# Longest match

A number, a word or an operator takes all the bytes it can get.  If it ends
inside a text it therefore also ends there when nothing follows the text: every
byte that a scanner looks at and accepts becomes part of the token, and fewer
bytes to look at never make it accept more.
-/

namespace EffectShader

namespace Lexer

/-!
# Runs and suffixes
-/

theorem run_eq_min (p : UInt8 -> Bool) (s r : Text) :
    run p s = min (run p (s ++ r)) s.length := by
  unfold run
  induction s with
  | nil => simp
  | cons b s ih =>
      cases hb : p b with
      | false => simp [List.takeWhile, hb]
      | true => simp [List.takeWhile, hb, ih]

theorem run_of_append_le {p : UInt8 -> Bool} {s r : Text} (h : run p (s ++ r) ≤ s.length) :
    run p s = run p (s ++ r) := by
  rw [run_eq_min p s r]
  exact Nat.min_eq_left h

theorem unsignedSuffixExtent_of_append_le {s r : Text}
    (h : unsignedSuffixExtent (s ++ r) ≤ s.length) :
    unsignedSuffixExtent s = unsignedSuffixExtent (s ++ r) := by
  cases s with
  | nil => exact (Nat.le_zero.mp h).symm
  | cons b s => rfl

theorem floatSuffixExtent_of_append_le {s r : Text}
    (h : floatSuffixExtent (s ++ r) ≤ s.length) :
    floatSuffixExtent s = floatSuffixExtent (s ++ r) := by
  match s with
  | [] => exact (Nat.le_zero.mp h).symm
  | [b] =>
      cases r with
      | nil => rfl
      | cons c r =>
          simp only [List.cons_append, List.nil_append, floatSuffixExtent, List.length_cons,
            List.length_nil] at h ⊢
          split
          · rfl
          · rename_i hf
            rw [if_neg hf] at h
            split
            · rename_i hl
              rw [if_pos hl] at h
              omega
            · rfl
  | b :: c :: s => rfl

theorem exponentExtent_of_append_le {s r : Text} (h : exponentExtent (s ++ r) ≤ s.length) :
    exponentExtent s = exponentExtent (s ++ r) := by
  match s with
  | [] => exact (Nat.le_zero.mp h).symm
  | [e] =>
      cases r with
      | nil => rfl
      | cons sign r =>
          simp only [List.cons_append, List.nil_append, exponentExtent, List.length_cons,
            List.length_nil] at h ⊢
          repeat' split at h
          all_goals first | omega | simp_all
  | e :: sign :: s =>
      simp only [List.cons_append, exponentExtent, List.length_cons] at h ⊢
      split
      · rename_i he
        rw [if_pos he] at h
        split
        · rename_i hdigit
          rw [if_pos hdigit] at h
          rw [run_of_append_le (r := r) (by omega)]
        · rename_i hdigit
          rw [if_neg hdigit] at h
          cases hsign : (sign == Byte.plus || sign == Byte.minus) with
          | false => rfl
          | true =>
              simp only [hsign, Bool.true_and, decide_eq_true_eq] at h ⊢
              have hmin := run_eq_min Byte.isDigit s r
              by_cases hpos : 0 < run Byte.isDigit (s ++ r)
              · rw [if_pos hpos] at h ⊢
                rw [run_of_append_le (r := r) (by omega), if_pos hpos]
              · rw [if_neg hpos, if_neg (by omega)]
      · rfl

theorem fractionExtent_of_append_le {first : UInt8} {s r : Text}
    (h : fractionExtent first (s ++ r) ≤ s.length) :
    fractionExtent first s = fractionExtent first (s ++ r) := by
  cases s with
  | nil => exact (Nat.le_zero.mp h).symm
  | cons b s =>
      by_cases hb : b = Byte.dot
      · subst hb
        rw [List.cons_append, fractionExtent_dot] at h ⊢
        rw [fractionExtent_dot]
        split
        · rfl
        · rename_i hfirst
          rw [if_neg hfirst, List.length_cons] at h
          rw [run_of_append_le (r := r) (by omega)]
      · unfold fractionExtent
        split
        · rename_i heq
          exact absurd (List.cons.inj heq).1 hb
        · split
          · rename_i heq
            exact absurd (List.cons.inj heq).1 hb
          · rfl

/-!
# Numbers
-/

theorem hexExtent_of_append_le {s r : Text} (h : hexExtent (s ++ r) ≤ s.length) :
    hexExtent s = hexExtent (s ++ r) := by
  have hdef : hexExtent (s ++ r) = run Byte.isHexDigit (s ++ r) +
      unsignedSuffixExtent ((s ++ r).drop (run Byte.isHexDigit (s ++ r))) := rfl
  have hrun : run Byte.isHexDigit s = run Byte.isHexDigit (s ++ r) := run_of_append_le (by omega)
  have hdrop : (s ++ r).drop (run Byte.isHexDigit s) = s.drop (run Byte.isHexDigit s) ++ r :=
    drop_append_stop (run_le _ s) r
  rw [← hrun, hdrop] at hdef
  have hsuffix := unsignedSuffixExtent_of_append_le (s := s.drop (run Byte.isHexDigit s)) (r := r)
    (by rw [List.length_drop]; omega)
  rw [hdef, ← hsuffix]
  rfl

theorem mantissaExtent_of_append_le {first : UInt8} {s r : Text}
    (h : mantissaExtent first (s ++ r) ≤ s.length) :
    run Byte.isDigit s = run Byte.isDigit (s ++ r) ∧
      mantissaExtent first s = mantissaExtent first (s ++ r) := by
  unfold mantissaExtent at h ⊢
  have hrun : run Byte.isDigit s = run Byte.isDigit (s ++ r) := run_of_append_le (by omega)
  refine ⟨hrun, ?_⟩
  rw [← hrun, drop_append_stop (run_le _ s)] at h ⊢
  rw [fractionExtent_of_append_le (r := r) (by rw [List.length_drop]; omega)]

theorem unsuffixedExtent_of_append_le {first : UInt8} {s r : Text}
    (h : unsuffixedExtent first (s ++ r) ≤ s.length) :
    isFloating first s = isFloating first (s ++ r) ∧
      unsuffixedExtent first s = unsuffixedExtent first (s ++ r) := by
  unfold unsuffixedExtent at h ⊢
  have hle : mantissaExtent first (s ++ r) ≤ s.length := by omega
  rcases mantissaExtent_of_append_le hle with ⟨hrun, hmantissa⟩
  have hexponent : exponentExtent (s.drop (mantissaExtent first s)) =
      exponentExtent ((s ++ r).drop (mantissaExtent first s)) := by
    rw [← hmantissa, drop_append_stop (mantissaExtent_le first s)] at h
    rw [drop_append_stop (mantissaExtent_le first s)]
    exact exponentExtent_of_append_le (by rw [List.length_drop]; omega)
  have hfraction : fractionExtent first (s.drop (run Byte.isDigit s)) =
      fractionExtent first ((s ++ r).drop (run Byte.isDigit s)) := by
    unfold mantissaExtent at hmantissa
    rw [← hrun] at hmantissa
    omega
  constructor
  · unfold isFloating
    rw [← hrun, ← hmantissa, hfraction, hexponent]
  · rw [← hmantissa, hexponent]

theorem decimalExtent_of_append_le {first : UInt8} {s r : Text}
    (h : (decimalExtent first (s ++ r)).2 ≤ s.length) :
    decimalExtent first s = decimalExtent first (s ++ r) := by
  rw [decimalExtent_eq] at h
  have hle : unsuffixedExtent first (s ++ r) ≤ s.length := by
    split at h
    · exact Nat.le_trans (Nat.le_add_right _ _) h
    · exact Nat.le_trans (Nat.le_add_right _ _) h
  rcases unsuffixedExtent_of_append_le hle with ⟨hfloating, hbare⟩
  have hdrop : (s ++ r).drop (unsuffixedExtent first s) =
      s.drop (unsuffixedExtent first s) ++ r :=
    drop_append_stop (unsuffixedExtent_le first s) r
  rw [decimalExtent_eq, decimalExtent_eq, ← hfloating, ← hbare, hdrop]
  rw [← hfloating, ← hbare, hdrop] at h
  split
  · rename_i hf
    rw [if_pos hf] at h
    rw [floatSuffixExtent_of_append_le (r := r) (by rw [List.length_drop]; dsimp only at h; omega)]
  · rename_i hf
    rw [if_neg hf] at h
    rw [unsignedSuffixExtent_of_append_le (r := r)
      (by rw [List.length_drop]; dsimp only at h; omega)]

theorem numberExtent_of_append_le {first : UInt8} {s r : Text}
    (h : (numberExtent first (s ++ r)).2 ≤ s.length) :
    numberExtent first s = numberExtent first (s ++ r) := by
  match s, r with
  | [], [] => rfl
  | [], x :: r =>
      simp only [List.nil_append, List.length_nil, numberExtent] at h ⊢
      split at h
      · simp at h
      · rename_i hmark
        rw [if_neg hmark]
        exact decimalExtent_of_append_le h
  | x :: s, r =>
      simp only [List.cons_append, List.length_cons, numberExtent] at h ⊢
      split
      · rename_i hmark
        rw [if_pos hmark] at h
        rw [hexExtent_of_append_le (r := r) (by dsimp only at h; omega)]
      · rename_i hmark
        rw [if_neg hmark] at h
        exact decimalExtent_of_append_le (s := x :: s) h

/-!
# Words and operators
-/

theorem multibyte?_append {b : UInt8} {s : Text} {q : Rune}
    (h : Rune.multibyte? b s = some q) (r : Text) : Rune.multibyte? b (s ++ r) = some q := by
  match s with
  | [] => simp [Rune.multibyte?] at h
  | [b1] =>
      simp only [Rune.multibyte?, List.cons_append, List.nil_append] at h ⊢
      split at h
      · cases h
      · rename_i h1
        rw [if_neg h1]
        split at h
        · rename_i h2
          rw [if_pos h2]
          exact h
        · cases h
  | [b1, b2] =>
      simp only [Rune.multibyte?, List.cons_append, List.nil_append] at h ⊢
      repeat' split at h
      all_goals simp_all
  | b1 :: b2 :: b3 :: s => simpa [Rune.multibyte?] using h

/-- The first rune of a text that is cut off is the same, or a stray byte. -/
theorem first_append (b : UInt8) (s r : Text) :
    Rune.first b (s ++ r) = Rune.first b s ∨ Rune.first b s = ⟨Rune.replacement, [b]⟩ := by
  unfold Rune.first
  split
  · exact Or.inl rfl
  · cases hm : Rune.multibyte? b s with
    | none => exact Or.inr rfl
    | some q => exact Or.inl (by rw [multibyte?_append hm])

theorem first_of_append_le {b : UInt8} {s r : Text}
    (h : (Rune.first b (s ++ r)).bytes.length - 1 ≤ s.length) :
    Rune.first b s = Rune.first b (s ++ r) := by
  unfold Rune.first at h ⊢
  split
  · rfl
  · rename_i hb
    rw [if_neg hb] at h
    cases hm : Rune.multibyte? b (s ++ r) with
    | none =>
        cases hs : Rune.multibyte? b s with
        | none => rfl
        | some q =>
            rw [multibyte?_append hs] at hm
            cases hm
    | some q =>
        rw [hm] at h
        rw [← hm]
        congr 1
        have hlen : q.bytes.length - 1 ≤ s.length := h
        match s with
        | [] =>
            rcases Rune.bytes_of_multibyte? hm with ⟨cs, rest, hbytes, _, _⟩
            cases cs with
            | nil =>
                simp only [Rune.multibyte?, List.nil_append] at hm
                repeat' split at hm
                all_goals first
                  | cases hm
                  | (have hone : _ = _ := Rune.bytes_of_ofCode? hm
                     simp [hbytes] at hone)
            | cons c cs => simp [hbytes] at hlen
        | [b1] =>
            simp only [Rune.multibyte?, List.cons_append, List.nil_append] at hm ⊢
            repeat' split at hm
            all_goals first
              | cases hm
              | (have hbytes : _ = _ := Rune.bytes_of_ofCode? hm
                 simp_all)
        | [b1, b2] =>
            simp only [Rune.multibyte?, List.cons_append, List.nil_append] at hm ⊢
            repeat' split at hm
            all_goals first
              | cases hm
              | (have hbytes : _ = _ := Rune.bytes_of_ofCode? hm
                 simp_all)
        | b1 :: b2 :: b3 :: s => simp [Rune.multibyte?]

theorem takeChars_of_append_le {p : Char -> Bool} (hp : p Rune.replacement = false) {s r : Text}
    (h : (Text.takeChars p (s ++ r)).length ≤ s.length) :
    Text.takeChars p s = Text.takeChars p (s ++ r) := by
  fun_induction Text.takeChars p s with
  | case1 => exact (List.length_eq_zero_iff.mp (Nat.le_zero.mp h)).symm
  | case2 b s q hq ih =>
      have hfirst : Rune.first b (s ++ r) = q := by
        rcases first_append b s r with hsame | hstray
        · exact hsame
        · rw [show q = ⟨Rune.replacement, [b]⟩ from hstray, hp] at hq
          cases hq
      have hdrop : (s ++ r).drop (q.bytes.length - 1) = s.drop (q.bytes.length - 1) ++ r :=
        drop_append_stop (length_first_le b s) r
      rcases Rune.bytes_first b s with ⟨cs, rest, hbytes, hs, _⟩
      have hlen : q.bytes.length = cs.length + 1 := by
        rw [show q.bytes = b :: cs from hbytes]
        rfl
      have hle : cs.length ≤ s.length := by simp [hs]
      rw [List.cons_append, Text.takeChars, hfirst] at h ⊢
      simp only [hq, if_true, hdrop] at h ⊢
      rw [ih (by simp only [List.length_append, List.length_drop, List.length_cons] at h ⊢; omega)]
  | case3 b s q hq =>
      have hchar : p (Rune.first b (s ++ r)).char = false := by
        by_contra htaken
        have htrue : p (Rune.first b (s ++ r)).char = true := by simpa using htaken
        rw [List.cons_append, Text.takeChars] at h
        simp only [htrue, if_true, List.length_append, List.length_cons] at h
        have hfirst : Rune.first b s = Rune.first b (s ++ r) := first_of_append_le (by omega)
        rw [show q = Rune.first b (s ++ r) from hfirst] at hq
        exact hq htrue
      rw [List.cons_append, Text.takeChars]
      simp [hchar]

theorem isWordChar_replacement :
    isWordChar Rune.replacement = false ∧ isWordStart Rune.replacement = false := by
  decide +kernel

theorem wordExtent_of_append_le {b : UInt8} {s r : Text} (h : wordExtent b (s ++ r) ≤ s.length) :
    Rune.first b s = Rune.first b (s ++ r) ∧ wordExtent b s = wordExtent b (s ++ r) := by
  unfold wordExtent at h ⊢
  have hfirst : Rune.first b s = Rune.first b (s ++ r) := first_of_append_le (by omega)
  refine ⟨hfirst, ?_⟩
  rw [← hfirst, drop_append_stop (length_first_le b s)] at h ⊢
  rw [takeChars_of_append_le isWordChar_replacement.1 (r := r) (by rw [List.length_drop]; omega)]

theorem find?_of_imp {p q : Text -> Bool} {ops : List Text} {op : Text}
    (himp : forall x, q x = true -> p x = true) (h : ops.find? p = some op) (hop : q op = true) :
    ops.find? q = some op := by
  rcases List.find?_eq_some_iff_append.mp h with ⟨_, before, after, hops, hbefore⟩
  apply List.find?_eq_some_iff_append.mpr
  refine ⟨hop, before, after, hops, ?_⟩
  intro x hx
  have hfalse := hbefore x hx
  cases hq : q x with
  | false => rfl
  | true => simp [himp x hq] at hfalse

theorem operatorExtent_of_append_le {b : UInt8} {s r : Text}
    (h : operatorExtent b (s ++ r) ≤ s.length) :
    operatorExtent b s = operatorExtent b (s ++ r) := by
  have himp : forall op : Text,
      op.isPrefixOf (b :: s) = true -> op.isPrefixOf (b :: (s ++ r)) = true := by
    intro op hop
    rw [List.isPrefixOf_iff_prefix] at hop ⊢
    exact hop.trans (List.prefix_append (b :: s) r)
  unfold operatorExtent at h ⊢
  cases hfind : operators.find? fun op => op.isPrefixOf (b :: (s ++ r)) with
  | none =>
      rw [hfind] at h
      have hnone : (operators.find? fun op => op.isPrefixOf (b :: s)) = none := by
        rw [List.find?_eq_none] at hfind ⊢
        intro op hop htrue
        exact hfind op hop (himp op htrue)
      rw [hnone]
      dsimp only at h ⊢
      rw [first_of_append_le h]
  | some op =>
      rw [hfind] at h
      have hop : op.isPrefixOf (b :: s) = true := by
        have hfull : op.isPrefixOf (b :: (s ++ r)) = true := by simpa using List.find?_some hfind
        rw [List.isPrefixOf_iff_prefix] at hfull ⊢
        apply List.prefix_of_prefix_length_le hfull (List.prefix_append (b :: s) r)
        simp only [List.length_cons]
        dsimp only at h
        omega
      rw [find?_of_imp himp hfind hop]

/-!
# Plain tokens
-/

theorem pos_of_numberExtent_dot {c : UInt8} (hc : Byte.isDigit c = true) (s : Text) :
    0 < (numberExtent Byte.dot (c :: s)).2 := by
  have hrun : 0 < run Byte.isDigit (c :: s) := by simp [run, hc]
  have hdecimal : numberExtent Byte.dot (c :: s) = decimalExtent Byte.dot (c :: s) := rfl
  rw [hdecimal, decimalExtent_eq]
  unfold unsuffixedExtent mantissaExtent
  split
  · dsimp only
    omega
  · dsimp only
    omega

theorem plainExtent_of_append_le {b : UInt8} {s r : Text}
    (h : (plainExtent b (s ++ r)).2 ≤ s.length) : plainExtent b s = plainExtent b (s ++ r) := by
  have hnumber : (Byte.isDigit b || (b == Byte.dot && s.head?.any Byte.isDigit)) =
      (Byte.isDigit b || (b == Byte.dot && (s ++ r).head?.any Byte.isDigit)) := by
    cases s with
    | cons c s => rfl
    | nil =>
        cases r with
        | nil => rfl
        | cons c r =>
            cases hb : b == Byte.dot with
            | false => simp
            | true =>
                have hdot : b = Byte.dot := eq_of_beq hb
                subst hdot
                cases hc : Byte.isDigit c with
                | false => simp [hc]
                | true =>
                    have hpos := pos_of_numberExtent_dot hc r
                    simp [plainExtent, hc] at h
                    omega
  unfold plainExtent at h ⊢
  rw [hnumber]
  split
  · rename_i hn
    rw [if_pos hn] at h
    exact numberExtent_of_append_le h
  · rename_i hn
    rw [if_neg hn] at h
    cases hword : isWordStart (Rune.first b (s ++ r)).char with
    | true =>
        rw [if_pos hword] at h
        rcases wordExtent_of_append_le h with ⟨hfirst, hextent⟩
        rw [hfirst, hextent, if_pos hword, if_pos rfl]
        rw [List.take_append_of_le_length h]
    | false =>
        rw [if_neg (by simp [hword])] at h
        have hstill : isWordStart (Rune.first b s).char = false := by
          rcases first_append b s r with hsame | hstray
          · rw [← hsame]
            exact hword
          · rw [hstray]
            exact isWordChar_replacement.2
        rw [if_neg (by simp [hstill]), if_neg (by simp), operatorExtent_of_append_le h]

/-!
# One byte of lookahead

No number, word or operator looks further than one byte behind its end: where it ends
before a small byte, it ends whatever follows the byte, but for a number before a
letter, which may be the mark of an exponent.
-/

theorem takeChars_stop {p : Char -> Bool} {x y : Text} {c : UInt8}
    (h : (Text.takeChars p (x ++ c :: y)).length = x.length) : p (Rune.first c y).char = false := by
  induction hn : x.length using Nat.strong_induction_on generalizing x with
  | _ n ih =>
      subst hn
      cases x with
      | nil =>
          rw [List.nil_append, Text.takeChars] at h
          cases hp : p (Rune.first c y).char with
          | false => rfl
          | true =>
              rcases Rune.bytes_first c y with ⟨cs, rest, hbytes, _, _⟩
              simp [hp, hbytes] at h
      | cons b x =>
          rw [List.cons_append, Text.takeChars] at h
          rcases Rune.bytes_first b (x ++ c :: y) with ⟨cs, rest, hbytes, _, _⟩
          cases hp : p (Rune.first b (x ++ c :: y)).char with
          | false => simp [hp] at h
          | true =>
              have hlen : (Rune.first b (x ++ c :: y)).bytes.length = cs.length + 1 := by
                rw [hbytes]
                rfl
              simp only [hp, if_true, List.length_append, hlen, List.length_cons,
                Nat.add_sub_cancel] at h
              have hle : cs.length ≤ x.length := by omega
              rw [drop_append_stop hle] at h
              refine ih (x.drop cs.length).length ?_ ?_ rfl
              · simp only [List.length_drop, List.length_cons]
                omega
              · rw [List.length_drop]
                omega

theorem mantissaExtent_le_decimalExtent (first : UInt8) (s : Text) :
    mantissaExtent first s ≤ (decimalExtent first s).2 := by
  rw [decimalExtent_eq]
  unfold unsuffixedExtent
  split
  · dsimp only
    omega
  · dsimp only
    omega

theorem decimalExtent_lone_exponent {first e : UInt8} {s : Text}
    (hs : s.drop (mantissaExtent first s) = [e])
    (he : (e == Byte.of 'e' || e == Byte.of 'E') = true) :
    (decimalExtent first s).2 = mantissaExtent first s := by
  have hexponent : exponentExtent [e] = 0 := rfl
  have hsuffix : isF e = false ∧ isU e = false := by
    rcases Bool.or_eq_true_iff.mp he with he | he
    · rw [eq_of_beq he]
      decide
    · rw [eq_of_beq he]
      decide
  have hbare : unsuffixedExtent first s = mantissaExtent first s := by
    unfold unsuffixedExtent
    rw [hs, hexponent, Nat.add_zero]
  rw [decimalExtent_eq, hbare, hs]
  split
  · simp [floatSuffixExtent, hsuffix.1]
  · simp [unsignedSuffixExtent, hsuffix.2]

theorem halts_of_decimalExtent {first c : UInt8} {s y : Text} (hc : endsWord c = true)
    (h : (decimalExtent first (s ++ c :: y)).2 = s.length) : Halts first s c := by
  have hsame : (decimalExtent first s).2 = s.length := by
    rw [decimalExtent_of_append_le (Nat.le_of_eq h), h]
  refine ⟨hc, ?_, ?_⟩
  · rintro rfl
    by_contra hnot
    rcases not_or.mp hnot with ⟨hfirst, hdigits⟩
    have hrun : run Byte.isDigit s = s.length :=
      Nat.le_antisymm (run_le _ s) (Nat.not_lt.mp hdigits)
    have hle := mantissaExtent_le_decimalExtent first (s ++ Byte.dot :: y)
    unfold mantissaExtent at hle
    rw [run_append_stop (by decide), hrun, List.drop_left, fractionExtent_dot,
      if_neg (by simpa using hfirst), h] at hle
    omega
  · intro _ e hs
    by_contra hexponent
    have hlone := decimalExtent_lone_exponent hs (by simpa only [Bool.not_eq_false] using hexponent)
    have hlength := congrArg List.length hs
    rw [List.length_drop, List.length_singleton] at hlength
    omega

theorem halts_of_numberExtent {first c : UInt8} {s y : Text} (hc : endsWord c = true)
    (h : (numberExtent first (s ++ c :: y)).2 = s.length) : Halts first s c := by
  cases s with
  | nil =>
      have hmark := isHexMark_endsWord hc
      simp only [List.nil_append, numberExtent, hmark, Bool.and_false] at h
      exact halts_of_decimalExtent (s := []) hc h
  | cons x s =>
      simp only [List.cons_append, numberExtent] at h
      split at h
      · rename_i hmark
        have hx : x = Byte.of 'x' ∨ x = Byte.of 'X' := by
          simpa using (Bool.and_eq_true_iff.mp hmark).2
        have hrun : run Byte.isDigit (x :: s) = 0 := by
          rcases hx with rfl | rfl <;> rfl
        have hmantissa : mantissaExtent first (x :: s) = 0 := by
          unfold mantissaExtent
          rw [hrun]
          rcases hx with rfl | rfl <;> rfl
        refine ⟨hc, fun _ => Or.inr ?_, ?_⟩
        · rw [hrun]
          exact Nat.succ_pos _
        · intro _ e he
          rw [hmantissa] at he
          rw [← (List.cons.inj he).1]
          rcases hx with rfl | rfl <;> rfl
      · exact halts_of_decimalExtent (s := x :: s) hc h

theorem length_of_mem_operators {op : Text} (hop : op ∈ operators) :
    2 ≤ op.length ∧ op.length ≤ 3 ∧ op.take 2 ∈ operators := by
  have hall : forall op, op ∈ operators ->
      2 ≤ op.length ∧ op.length ≤ 3 ∧ op.take 2 ∈ operators := by decide
  exact hall op hop

theorem isPrefixOf_of_length_le {p x : Text} (h : p.length ≤ x.length) (r : Text) :
    p.isPrefixOf (x ++ r) = p.isPrefixOf x := by
  rw [Bool.eq_iff_iff, List.isPrefixOf_iff_prefix, List.isPrefixOf_iff_prefix]
  constructor
  · intro hp
    exact List.prefix_of_prefix_length_le hp (List.prefix_append x r) h
  · intro hp
    exact hp.trans (List.prefix_append x r)

/-- An operator that ends before a byte ends there whatever follows the byte. -/
theorem operatorExtent_lookahead {b c : UInt8} {v y : Text} (hc : c < 0x80)
    (h : operatorExtent b (v ++ c :: y) = v.length) (y' : Text) :
    operatorExtent b (v ++ c :: y') = operatorExtent b (v ++ c :: y) := by
  have hfind : operators.find? (fun op => op.isPrefixOf (b :: (v ++ c :: y'))) =
      operators.find? (fun op => op.isPrefixOf (b :: (v ++ c :: y))) := by
    apply List.find?_congr
    intro op hop
    rcases length_of_mem_operators hop with ⟨hleast, hmost, htwo⟩
    have hshape : forall z, b :: (v ++ c :: z) = (b :: (v ++ [c])) ++ z := by simp
    by_cases hlength : op.length ≤ v.length + 2
    · rw [hshape y', hshape y, isPrefixOf_of_length_le (by simpa using hlength),
        isPrefixOf_of_length_le (by simpa using hlength)]
    · -- only an operator of three bytes reaches behind the byte, and two of them are one as well
      have hv : v = [] := List.length_eq_zero_iff.mp (by omega)
      subst hv
      have hnone : (b :: [c]) ∉ operators := by
        intro hmem
        unfold operatorExtent at h
        split at h
        · rename_i found hfound
          have := (length_of_mem_operators (List.mem_of_find?_eq_some hfound)).1
          simp only [List.length_nil] at h
          omega
        · rename_i hnone
          refine List.find?_eq_none.mp hnone _ hmem ?_
          rw [List.isPrefixOf_iff_prefix]
          exact List.prefix_append [b, c] y
      have hfalse : forall z, op.isPrefixOf (b :: ([] ++ c :: z)) = false := by
        intro z
        rw [Bool.eq_false_iff]
        intro hprefix
        rw [List.isPrefixOf_iff_prefix] at hprefix
        rcases hprefix with ⟨rest, hrest⟩
        have htake := congrArg (List.take 2) hrest
        rw [List.take_append_of_le_length hleast] at htake
        rw [htake] at htwo
        exact hnone htwo
      rw [hfalse, hfalse]
  unfold operatorExtent
  rw [hfind, first_stop hc, first_stop hc]

theorem endsWord_of_isWordChar {c : UInt8} {y : Text} (hc : c < 0x80)
    (h : isWordChar (Rune.first c y).char = false) : endsWord c = true := by
  rw [Rune.first, if_pos hc] at h
  unfold endsWord
  rw [h, decide_eq_true hc]
  rfl

section Kinds

variable {b : UInt8} {s : Text}

theorem plainExtent_eq_number (h : startsNumber b s = true) :
    plainExtent b s = numberExtent b s :=
  if_pos h

theorem plainExtent_eq_word (h : startsNumber b s = false)
    (hword : isWordStart (Rune.first b s).char = true) :
    plainExtent b s = (classify (b :: s.take (wordExtent b s)), wordExtent b s) :=
  (if_neg (by rw [show (Byte.isDigit b || _) = false from h]; exact Bool.false_ne_true)).trans
    (if_pos hword)

theorem plainExtent_eq_operator (h : startsNumber b s = false)
    (hword : isWordStart (Rune.first b s).char = false) :
    plainExtent b s = (.operator, operatorExtent b s) :=
  (if_neg (by rw [show (Byte.isDigit b || _) = false from h]; exact Bool.false_ne_true)).trans
    (if_neg (by rw [hword]; exact Bool.false_ne_true))

end Kinds

/-- A number, word or operator that ends before a small byte ends there whatever follows the byte; a
number, if the byte ends words. -/
theorem plainExtent_lookahead {b c : UInt8} {v y : Text} (hc : c < 0x80)
    (h : (plainExtent b (v ++ c :: y)).2 = v.length)
    (hnumber : startsNumber b (v ++ c :: y) = true -> endsWord c = true) (y' : Text) :
    plainExtent b (v ++ c :: y') = plainExtent b (v ++ c :: y) := by
  have hstart : startsNumber b (v ++ c :: y') = startsNumber b (v ++ c :: y) := by
    unfold startsNumber
    cases v <;> rfl
  have hfirst : Rune.first b (v ++ c :: y') = Rune.first b (v ++ c :: y) := by
    rw [first_stop hc, first_stop hc]
  cases hn : startsNumber b (v ++ c :: y) with
  | true =>
      rw [hn] at hstart
      rw [plainExtent_eq_number hn] at h
      have hhalts := halts_of_numberExtent (hnumber hn) h
      rw [plainExtent_eq_number hn, plainExtent_eq_number hstart, hhalts.numberExtent_eq,
        hhalts.numberExtent_eq]
  | false =>
      rw [hn] at hstart
      cases hw : isWordStart (Rune.first b (v ++ c :: y)).char with
      | true =>
          rw [plainExtent_eq_word hn hw] at h
          have hends : endsWord c = true := by
            have hword : wordExtent b (v ++ c :: y) = v.length := h
            apply endsWord_of_isWordChar (y := y) hc
            unfold wordExtent at hword
            have hle : (Rune.first b (v ++ c :: y)).bytes.length - 1 ≤ v.length := by omega
            rw [drop_append_stop hle] at hword
            apply takeChars_stop (p := isWordChar)
              (x := v.drop ((Rune.first b (v ++ c :: y)).bytes.length - 1))
            rw [List.length_drop]
            omega
          rw [← hfirst] at hw
          have htake : forall z, (v ++ c :: z).take (wordExtent b v) = v.take (wordExtent b v) :=
            fun z => List.take_append_of_le_length (wordExtent_le b v)
          rw [plainExtent_eq_word hstart hw, plainExtent_eq_word hn (hfirst ▸ hw),
            wordExtent_stop hends, wordExtent_stop hends, htake, htake]
      | false =>
          rw [plainExtent_eq_operator hn hw] at h
          have hsame := operatorExtent_lookahead hc h y'
          rw [plainExtent_eq_operator hn hw, plainExtent_eq_operator hstart (hfirst.symm ▸ hw),
            hsame]

theorem startsNumber_of_plainExtent {b : UInt8} {s : Text} (h : startsNumber b s = true) :
    (plainExtent b s).1 = .float ∨ (plainExtent b s).1 = .integer := by
  rw [plainExtent_eq_number h]
  exact numberExtent_kind b s

end Lexer

end EffectShader
