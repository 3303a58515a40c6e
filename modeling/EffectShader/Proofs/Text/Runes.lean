import EffectShader.Proofs.Token.Cuts
import EffectShader.Proofs.Token.Munch
import Mathlib.Data.List.TakeWhile

/-!
# Runes and tokens

A text may be cut behind a whole rune, and every token ends behind one.  So the tokens of a source
can be decoded one by one.
-/

namespace EffectShader

/-!
# Where runes end

A text may be cut in two such that both parts are decoded as they are in the whole.
That is so behind every ASCII byte, before every byte that continues no encoding and
behind every whole rune; inside an encoding of several bytes it is not.
-/

namespace Text

def Boundary (w r : Text) : Prop :=
  runes (w ++ r) = runes w ++ runes r

theorem runes_nil : runes [] = [] := by
  rw [runes]

theorem runes_cons (b : UInt8) (s : Text) :
    runes (b :: s) = Rune.first b s :: runes (s.drop ((Rune.first b s).bytes.length - 1)) := by
  rw [runes]

theorem nil_boundary (r : Text) : Boundary [] r := by
  unfold Boundary
  rw [runes_nil, List.nil_append, List.nil_append]

theorem boundary_cons_iff {b : UInt8} {s r : Text} :
    Boundary (b :: s) r ↔ Rune.first b (s ++ r) = Rune.first b s ∧
      Boundary (s.drop ((Rune.first b s).bytes.length - 1)) r := by
  have hdrop : (s ++ r).drop ((Rune.first b s).bytes.length - 1) =
      s.drop ((Rune.first b s).bytes.length - 1) ++ r :=
    Lexer.drop_append_stop (Lexer.length_first_le b s) r
  unfold Boundary
  rw [List.cons_append, runes_cons, runes_cons, List.cons_append, List.cons.injEq]
  constructor
  · rintro ⟨hfirst, hrest⟩
    rw [hfirst, hdrop] at hrest
    exact ⟨hfirst, hrest⟩
  · rintro ⟨hfirst, hrest⟩
    rw [hfirst, hdrop]
    exact ⟨rfl, hrest⟩

theorem Boundary.left {w v r : Text} (h : Boundary w (v ++ r)) : Boundary w v := by
  fun_induction runes w with
  | case1 => exact nil_boundary v
  | case2 b s q ih =>
      rcases boundary_cons_iff.mp h with ⟨hfirst, hrest⟩
      refine boundary_cons_iff.mpr ⟨?_, ih hrest⟩
      rw [← List.append_assoc] at hfirst
      have hle := Lexer.length_first_le b s
      rw [Lexer.first_of_append_le (r := r), hfirst]
      rw [hfirst, List.length_append]
      omega

theorem Boundary.append {w v r : Text} (h : Boundary w (v ++ r)) (hv : Boundary v r) :
    Boundary (w ++ v) r := by
  have hleft : runes (w ++ v) = runes w ++ runes v := h.left
  unfold Boundary at *
  rw [List.append_assoc, h, hv, hleft, List.append_assoc]

theorem first_append_of_head {r : Text}
    (h : forall c, r.head? = some c -> Rune.isContinuation c = false) (b : UInt8) (s : Text) :
    Rune.first b (s ++ r) = Rune.first b s := by
  rcases Rune.bytes_first b (s ++ r) with ⟨cs, rest, hbytes, hs, hcs⟩
  symm
  apply Lexer.first_of_append_le
  rw [hbytes, List.length_cons, Nat.add_sub_cancel]
  by_contra hlong
  -- The encoding would contain the first byte of `r`.
  cases r with
  | nil =>
      have := congrArg List.length hs
      simp only [List.length_append, List.length_nil] at this
      omega
  | cons c r =>
      have hc : cs[s.length]? = some c := by
        have hget := congrArg (fun l : Text => l[s.length]?) hs
        simp only [List.getElem?_append_right (Nat.le_refl s.length), Nat.sub_self] at hget
        rw [List.getElem?_append_left (by omega)] at hget
        exact hget.symm
      have hcont := hcs c (List.mem_of_getElem? hc)
      rw [h c rfl] at hcont
      cases hcont

theorem boundary_of_head {r : Text}
    (h : forall c, r.head? = some c -> Rune.isContinuation c = false) (w : Text) :
    Boundary w r := by
  fun_induction runes w with
  | case1 => exact nil_boundary r
  | case2 b s q ih => exact boundary_cons_iff.mpr ⟨first_append_of_head h b s, ih⟩

theorem isContinuation_of_ascii {c : UInt8} (hc : c < 0x80) : Rune.isContinuation c = false := by
  unfold Rune.isContinuation
  have : ¬ (0x80 ≤ c) := UInt8.not_le.mpr hc
  simp [this]

theorem boundary_of_ascii {c : UInt8} (hc : c < 0x80) (w r : Text) : Boundary (w ++ [c]) r := by
  apply Boundary.append
  · apply boundary_of_head
    intro d hd
    cases hd
    exact isContinuation_of_ascii hc
  · have hfirst : forall s, Rune.first c s = ⟨Char.ofNat c.toNat, [c]⟩ := by
      intro s
      unfold Rune.first
      rw [if_pos hc]
    apply boundary_cons_iff.mpr
    rw [hfirst, hfirst]
    exact ⟨rfl, nil_boundary r⟩

theorem boundary_first (b : UInt8) (s : Text) :
    Boundary (Rune.first b s).bytes (s.drop ((Rune.first b s).bytes.length - 1)) := by
  rcases Rune.bytes_first b s with ⟨cs, rest, hbytes, hs, _⟩
  have hlength : (Rune.first b s).bytes.length - 1 = cs.length := by
    rw [hbytes, List.length_cons, Nat.add_sub_cancel]
  have hfirst : Rune.first b cs = Rune.first b s := by
    rw [hs]
    apply Lexer.first_of_append_le
    rw [← hs, hlength]
  rw [hlength, hbytes, hs, List.drop_left]
  apply boundary_cons_iff.mpr
  rw [← hs, hfirst, hlength, List.drop_length]
  exact ⟨rfl, nil_boundary rest⟩

theorem runes_bytes_first (b : UInt8) (s : Text) :
    runes (Rune.first b s).bytes = [Rune.first b s] := by
  rcases Rune.bytes_first b s with ⟨cs, rest, hbytes, hs, _⟩
  have hfirst : Rune.first b cs = Rune.first b s := by
    rw [hs]
    apply Lexer.first_of_append_le
    rw [← hs, hbytes]
    simp
  rw [hbytes, runes_cons, hfirst, hbytes]
  simp [runes_nil]

theorem mem_of_mem_runes {s : Text} {q : Rune} (h : q ∈ runes s) {c : UInt8} (hc : c ∈ q.bytes) :
    c ∈ s := by
  fun_induction runes s with
  | case1 => cases h
  | case2 b s r ih =>
      rcases List.mem_cons.mp h with rfl | h
      · rcases Rune.bytes_first b s with ⟨cs, rest, hbytes, hs, _⟩
        rw [hbytes] at hc
        rw [hs, ← List.cons_append]
        exact List.mem_append_left rest hc
      · exact List.mem_cons_of_mem b (List.mem_of_mem_drop (ih h))

theorem takeChars_append_drop (p : Char -> Bool) (s : Text) :
    takeChars p s ++ s.drop (takeChars p s).length = s := by
  rcases Lexer.exists_takeChars_append p s with ⟨rest, hs⟩
  have hdrop : s.drop (takeChars p s).length = rest := by
    have hcut := congrArg (List.drop (takeChars p s).length) hs
    rwa [List.drop_left] at hcut
  rw [hdrop]
  exact hs.symm

theorem boundary_takeChars (p : Char -> Bool) (s : Text) :
    Boundary (takeChars p s) (s.drop (takeChars p s).length) := by
  fun_induction takeChars p s with
  | case1 => exact nil_boundary _
  | case2 b s q hq ih =>
      rcases Rune.bytes_first b s with ⟨cs, rest, hbytes, hs, _⟩
      have hbytes : q.bytes = b :: cs := hbytes
      have hdrop : s.drop (q.bytes.length - 1) = rest := by
        rw [hbytes, hs]
        simp
      have hfirst : Boundary q.bytes (s.drop (q.bytes.length - 1)) := boundary_first b s
      rw [hdrop] at ih hfirst ⊢
      have hrest : (b :: s).drop (q.bytes ++ takeChars p rest).length =
          rest.drop (takeChars p rest).length := by
        rw [List.length_append, hbytes, hs, List.length_cons, ← List.cons_append, ← List.drop_drop]
        congr 1
        exact List.drop_left
      rw [hrest]
      apply Boundary.append _ ih
      rw [takeChars_append_drop]
      exact hfirst
  | case3 b s q hq => exact nil_boundary _

theorem char_of_mem_takeChars {p : Char -> Bool} {s : Text} {q : Rune}
    (h : q ∈ runes (takeChars p s)) : p q.char = true := by
  fun_induction takeChars p s with
  | case1 =>
      rw [runes_nil] at h
      cases h
  | case2 b s r hr ih =>
      have hboundary := boundary_first b s
      rw [← takeChars_append_drop p (s.drop ((Rune.first b s).bytes.length - 1))] at hboundary
      rw [hboundary.left, runes_bytes_first, List.singleton_append] at h
      rcases List.mem_cons.mp h with rfl | h
      · exact hr
      · exact ih h
  | case3 =>
      rw [runes_nil] at h
      cases h

end Text

/-!
# Tokens end where runes end

White space, numbers and operators are ASCII, directives and line comments end at a
newline or with the source, block comments end with a slash, and words take whole runes.
So the source is decoded token by token as it is decoded at once.
-/

namespace Lexer

open Text (Boundary)

/-!
# ASCII tokens
-/

def IsAscii (w : Text) : Prop :=
  forall c, c ∈ w -> c < 0x80

theorem IsAscii.cons {b : UInt8} {w : Text} (hb : b < 0x80) (hw : IsAscii w) :
    IsAscii (b :: w) := by
  intro c hc
  rcases List.mem_cons.mp hc with rfl | hc
  · exact hb
  · exact hw c hc

theorem IsAscii.append {v w : Text} (hv : IsAscii v) (hw : IsAscii w) : IsAscii (v ++ w) := by
  intro c hc
  rcases List.mem_append.mp hc with hc | hc
  · exact hv c hc
  · exact hw c hc

theorem isAscii_take_add {s : Text} {m n : Nat} (hm : IsAscii (s.take m))
    (hn : IsAscii ((s.drop m).take n)) : IsAscii (s.take (m + n)) := by
  rw [List.take_add]
  exact hm.append hn

theorem boundary_of_isAscii {w : Text} (h : IsAscii w) (r : Text) : Boundary w r := by
  rcases List.eq_nil_or_concat w with rfl | ⟨v, c, rfl⟩
  · exact Text.nil_boundary r
  · rw [List.concat_eq_append] at h ⊢
    exact Text.boundary_of_ascii (h c (by simp)) v r

theorem isAscii_run {p : UInt8 -> Bool} (hp : forall c, p c = true -> c < 0x80) (s : Text) :
    IsAscii (s.take (run p s)) := by
  have htake : s.take (run p s) = s.takeWhile p := by
    have hsplit := List.takeWhile_append_dropWhile (p := p) (l := s)
    have hcut := congrArg (List.take (run p s)) hsplit
    unfold run at hcut ⊢
    rw [List.take_left] at hcut
    exact hcut.symm
  rw [htake]
  intro c hc
  exact hp c (List.mem_takeWhile_imp hc)

theorem ascii_of_any {c : UInt8}
    (h : Byte.isDigit c = true ∨ Byte.isHexDigit c = true ∨ isSeparator c = true ∨
      (isF c = true ∨ isL c = true ∨ isU c = true) ∨
      (c == Byte.of 'e' || c == Byte.of 'E') = true ∨ (c == Byte.plus || c == Byte.minus) = true) :
    c < 0x80 := by
  simp only [Byte.isDigit, Byte.isHexDigit, isSeparator, isF, isL, isU, Bool.or_eq_true,
    Bool.and_eq_true, decide_eq_true_iff, beq_iff_eq, or_assoc] at h
  rcases h with ⟨_, h⟩ | ⟨_, h⟩ | ⟨_, h⟩ | ⟨_, h⟩ | h
  all_goals first
    | exact UInt8.lt_of_le_of_lt h (by decide)
    | rcases h with rfl | rfl | rfl | rfl | rfl | rfl | rfl | rfl | rfl | rfl | rfl | rfl | rfl |
        rfl | rfl | rfl <;> decide

theorem ascii_of_isDigit {c : UInt8} (h : Byte.isDigit c = true) : c < 0x80 :=
  ascii_of_any (Or.inl h)

theorem ascii_of_isHexDigit {c : UInt8} (h : Byte.isHexDigit c = true) : c < 0x80 :=
  ascii_of_any (Or.inr (Or.inl h))

theorem ascii_of_isSeparator {c : UInt8} (h : isSeparator c = true) : c < 0x80 :=
  ascii_of_any (Or.inr (Or.inr (Or.inl h)))

theorem ascii_of_isSuffix {c : UInt8} (h : isF c = true ∨ isL c = true ∨ isU c = true) :
    c < 0x80 :=
  ascii_of_any (Or.inr (Or.inr (Or.inr (Or.inl h))))

theorem ascii_of_isExponent {c : UInt8} (h : (c == Byte.of 'e' || c == Byte.of 'E') = true) :
    c < 0x80 :=
  ascii_of_any (Or.inr (Or.inr (Or.inr (Or.inr (Or.inl h)))))

theorem ascii_of_isSign {c : UInt8} (h : (c == Byte.plus || c == Byte.minus) = true) :
    c < 0x80 :=
  ascii_of_any (Or.inr (Or.inr (Or.inr (Or.inr (Or.inr h)))))

theorem isAscii_nil : IsAscii [] := by
  intro c hc
  cases hc

theorem isAscii_unsignedSuffix (s : Text) : IsAscii (s.take (unsignedSuffixExtent s)) := by
  unfold unsignedSuffixExtent
  split
  · exact isAscii_nil
  · split
    · rename_i b s hb
      exact (isAscii_nil).cons (ascii_of_isSuffix (Or.inr (Or.inr hb)))
    · exact isAscii_nil

theorem isAscii_floatSuffix (s : Text) : IsAscii (s.take (floatSuffixExtent s)) := by
  unfold floatSuffixExtent
  split
  · exact isAscii_nil
  · split
    · rename_i b hb
      exact isAscii_nil.cons (ascii_of_isSuffix (Or.inl hb))
    · exact isAscii_nil
  · split
    · rename_i b c s hb
      exact isAscii_nil.cons (ascii_of_isSuffix (Or.inl hb))
    · split
      · rename_i b c s _ hsuffix
        rcases Bool.and_eq_true_iff.mp hsuffix with ⟨hb, hc⟩
        exact (isAscii_nil.cons (ascii_of_isSuffix (Or.inl hc))).cons
          (ascii_of_isSuffix (Or.inr (Or.inl hb)))
      · exact isAscii_nil

theorem isAscii_hex (s : Text) : IsAscii (s.take (hexExtent s)) :=
  isAscii_take_add (isAscii_run (fun _ => ascii_of_isHexDigit) s) (isAscii_unsignedSuffix _)

theorem isAscii_exponent (s : Text) : IsAscii (s.take (exponentExtent s)) := by
  have hdigits := isAscii_run (p := Byte.isDigit) fun _ => ascii_of_isDigit
  unfold exponentExtent
  split
  · rename_i e sign s
    split
    · rename_i he
      have he := ascii_of_isExponent he
      rw [Nat.add_comm 2]
      split
      · rename_i hsign
        exact ((hdigits s).cons (ascii_of_isDigit hsign)).cons he
      · split
        · rename_i hsign
          exact ((hdigits s).cons (ascii_of_isSign (Bool.and_eq_true_iff.mp hsign).1)).cons he
        · exact isAscii_nil
    · exact isAscii_nil
  · exact isAscii_nil

theorem isAscii_fraction (first : UInt8) (s : Text) :
    IsAscii (s.take (fractionExtent first s)) := by
  unfold fractionExtent
  split
  · rename_i r
    split
    · exact isAscii_nil
    · rw [Nat.add_comm 1]
      exact (isAscii_run (fun _ => ascii_of_isDigit) r).cons (by decide)
  · exact isAscii_nil

theorem isAscii_decimal (first : UInt8) (s : Text) :
    IsAscii (s.take (decimalExtent first s).2) := by
  have hmantissa : IsAscii (s.take (mantissaExtent first s)) :=
    isAscii_take_add (isAscii_run (fun _ => ascii_of_isDigit) s) (isAscii_fraction first _)
  have hunsuffixed : IsAscii (s.take (unsuffixedExtent first s)) :=
    isAscii_take_add hmantissa (isAscii_exponent _)
  rw [decimalExtent_eq]
  split
  · exact isAscii_take_add hunsuffixed (isAscii_floatSuffix _)
  · exact isAscii_take_add hunsuffixed (isAscii_unsignedSuffix _)

theorem isAscii_number (first : UInt8) (s : Text) :
    IsAscii (s.take (numberExtent first s).2) := by
  unfold numberExtent
  split
  · rename_i x r
    split
    · rename_i hmark
      have hx : x < 0x80 := by
        rcases Bool.or_eq_true_iff.mp (Bool.and_eq_true_iff.mp hmark).2 with hx | hx
        · rw [eq_of_beq hx]
          decide
        · rw [eq_of_beq hx]
          decide
      rw [Nat.add_comm 1]
      exact (isAscii_hex r).cons hx
    · exact isAscii_decimal first (x :: r)
  · exact isAscii_decimal first []

theorem isAscii_of_numberExtent {b : UInt8} {w r : Text} {kind : TokenKind}
    (hb : (Byte.isDigit b || (b == Byte.dot && (w ++ r).head?.any Byte.isDigit)) = true)
    (h : numberExtent b (w ++ r) = (kind, w.length)) : IsAscii (b :: w) := by
  have hascii := isAscii_number b (w ++ r)
  rw [h, List.take_left] at hascii
  apply hascii.cons
  rcases Bool.or_eq_true_iff.mp hb with hdigit | hdot
  · exact ascii_of_isDigit hdigit
  · rw [eq_of_beq (Bool.and_eq_true_iff.mp hdot).1]
    decide

/-!
# The end of a token
-/

/-- What a word consists of: its first rune and the characters that are taken behind it. -/
theorem exists_of_wordExtent {b : UInt8} {w r : Text} (h : wordExtent b (w ++ r) = w.length) :
    exists cs rest, (Rune.first b (w ++ r)).bytes = b :: cs ∧
      w = cs ++ Text.takeChars isWordChar rest ∧
      r = rest.drop (Text.takeChars isWordChar rest).length ∧ Boundary (b :: cs) rest := by
  rcases Rune.bytes_first b (w ++ r) with ⟨cs, rest, hbytes, hs, _⟩
  have hdrop : (w ++ r).drop ((Rune.first b (w ++ r)).bytes.length - 1) = rest := by
    rw [hbytes, hs, List.length_cons, Nat.add_sub_cancel, List.drop_left]
  have hfirst := Text.boundary_first b (w ++ r)
  have hsplit := Text.takeChars_append_drop isWordChar rest
  unfold wordExtent at h
  rw [hdrop, hbytes, List.length_cons, Nat.add_sub_cancel] at h
  rw [hdrop, hbytes] at hfirst
  have hboth : w ++ r = (cs ++ Text.takeChars isWordChar rest) ++
      rest.drop (Text.takeChars isWordChar rest).length := by
    rw [List.append_assoc, hsplit, hs]
  rcases List.append_inj hboth (by rw [← h, List.length_append]) with ⟨hw, hr⟩
  exact ⟨cs, rest, hbytes, hw, hr, hfirst⟩

theorem boundary_word {b : UInt8} {w r : Text} (h : wordExtent b (w ++ r) = w.length) :
    Boundary (b :: w) r := by
  rcases exists_of_wordExtent h with ⟨cs, rest, _, hw, hr, hfirst⟩
  rw [hw, hr, ← List.cons_append]
  apply Boundary.append _ (Text.boundary_takeChars isWordChar rest)
  rw [Text.takeChars_append_drop]
  exact hfirst

theorem ascii_of_mem_operators {op : Text} (h : op ∈ operators) : op ≠ [] ∧ IsAscii op := by
  have hall :
      operators.all (fun op => !op.isEmpty && op.all fun c => decide (c < 0x80)) = true := by
    decide
  simpa [IsAscii] using List.all_eq_true.mp hall op h

theorem boundary_operator {b : UInt8} {w r : Text} (h : operatorExtent b (w ++ r) = w.length) :
    Boundary (b :: w) r := by
  unfold operatorExtent at h
  cases hfind : operators.find? fun op => op.isPrefixOf (b :: (w ++ r)) with
  | none =>
      rw [hfind] at h
      rcases Rune.bytes_first b (w ++ r) with ⟨cs, rest, hbytes, hs, _⟩
      have hfirst := Text.boundary_first b (w ++ r)
      rw [hbytes, List.length_cons, Nat.add_sub_cancel] at h hfirst
      have hlength : cs.length = w.length := h
      rcases List.append_inj hs hlength.symm with ⟨hw, hr⟩
      rw [hlength, List.drop_left] at hfirst
      rw [hw]
      exact hfirst
  | some op =>
      rw [hfind] at h
      have hlength : op.length - 1 = w.length := h
      have hmem := List.mem_of_find?_eq_some hfind
      have hprefix : op.isPrefixOf (b :: (w ++ r)) = true := by
        simpa using List.find?_some hfind
      rcases List.isPrefixOf_iff_prefix.mp hprefix with ⟨rest, hrest⟩
      rcases ascii_of_mem_operators hmem with ⟨hne, hascii⟩
      have hpos := List.length_pos_iff.mpr hne
      rcases List.append_inj (hrest.trans (List.cons_append ..).symm)
        (by rw [List.length_cons]; omega) with ⟨hop, _⟩
      rw [← hop]
      exact boundary_of_isAscii hascii r

theorem boundary_blockComment {b : UInt8} {w r : Text}
    (h : blockCommentExtent? (w ++ r) = some w.length) : Boundary (b :: w) r := by
  rcases exists_of_blockCommentExtent? h with ⟨c, inner, rfl, _⟩
  have hlast : b :: c :: (inner ++ ("*/" : Text)) =
      (b :: c :: (inner ++ [Byte.star])) ++ [Byte.slash] := by
    simp
    rfl
  rw [hlast]
  exact Text.boundary_of_ascii (by decide) _ r

theorem boundary_of_extent? {fresh : Bool} {b : UInt8} {w r : Text} {kind : TokenKind}
    (h : extent? fresh b (w ++ r) = some (kind, w.length)) : Boundary (b :: w) r := by
  rw [extent?_eq] at h
  have hspec := form_spec fresh b (w ++ r).head?
  cases hform : form fresh b (w ++ r).head? with
  | space =>
      rw [hform] at h hspec
      have hrun : run isSeparator (w ++ r) = w.length := congrArg Prod.snd (Option.some.inj h)
      have hw := (run_append_eq_length_iff.mp hrun).1
      apply boundary_of_isAscii
      exact IsAscii.cons (ascii_of_isSeparator hspec) fun c hc => ascii_of_isSeparator (hw c hc)
  | directive =>
      rw [hform] at h
      have hextent : directiveExtent (w ++ r) = w.length := congrArg Prod.snd (Option.some.inj h)
      apply Text.boundary_of_head
      intro c hc
      rcases (continued_of_directiveExtent hextent).2 with rfl | hnewline
      · cases hc
      · rw [hc] at hnewline
        cases hnewline
        decide
  | lineComment =>
      rw [hform] at h
      have hrun : run (· != Byte.newline) (w ++ r) = w.length :=
        congrArg Prod.snd (Option.some.inj h)
      apply Text.boundary_of_head
      intro c hc
      have hnewline : (c != Byte.newline) = false := (run_append_eq_length_iff.mp hrun).2 c hc
      rw [show c = Byte.newline by simpa using hnewline]
      decide
  | blockComment =>
      rw [hform] at h
      rcases Option.map_eq_some_iff.mp h with ⟨n, hn, heq⟩
      rw [(Prod.mk.inj heq).2] at hn
      exact boundary_blockComment hn
  | plain =>
      rw [hform] at h
      have hplain : plainExtent b (w ++ r) = (kind, w.length) := Option.some.inj h
      unfold plainExtent at hplain
      split at hplain
      · rename_i hdigit
        exact boundary_of_isAscii (isAscii_of_numberExtent hdigit hplain) r
      · split at hplain
        · exact boundary_word (Prod.mk.inj hplain).2
        · exact boundary_operator (Prod.mk.inj hplain).2

end Lexer

end EffectShader
