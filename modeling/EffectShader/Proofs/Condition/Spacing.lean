import EffectShader.Proofs.Condition.Grammar
import EffectShader.Proofs.Declaration.Block
import EffectShader.Proofs.Declaration.Head
import EffectShader.Proofs.Text.Runes
import EffectShader.Proofs.Token.FirstLine

/-!
# The condition of a directive

A directive is read without its comments and without white space at its ends.  A
text that reads as a condition still reads as the same condition then: its comments
become spaces between the same tokens, and no token starts or ends in white space.
-/

namespace EffectShader

/-!
# Tokens and comments
-/

namespace Lexer

open Directive (stripComments stripComments_block stripComments_line stripComments_cons
  head?_stripComments)

theorem slash_isBarrier : isBarrier Byte.slash = true := rfl

theorem not_isBarrier_of_plainExtent {b c : UInt8} {w r : Text} {kind : TokenKind}
    (h : plainExtent b (w ++ r) = (kind, w.length)) (hc : c ∈ w) : isBarrier c = false := by
  rw [Bool.eq_false_iff]
  intro hbarrier
  rcases List.append_of_mem hc with ⟨x, y, rfl⟩
  have hle := plainExtent_le b x
  rw [List.append_assoc, List.cons_append, plainExtent_barrier hbarrier] at h
  rw [h] at hle
  simp only [List.length_append, List.length_cons] at hle
  omega

theorem stripComments_append {x : Text} (hx : Byte.slash ∉ x) (s : Text) :
    stripComments (x ++ s) = x ++ stripComments s := by
  induction x with
  | nil => rfl
  | cons b x ih =>
      simp only [List.mem_cons, not_or] at hx
      have hb : (b == Byte.slash) = false := beq_false_of_ne (Ne.symm hx.1)
      rw [List.cons_append, List.cons_append, ← ih hx.2]
      cases hrest : x ++ s with
      | nil => simp [stripComments]
      | cons c u =>
          rw [stripComments]
          simp [hb]

theorem plainExtent_stripComments (b : UInt8) (w s : Text) :
    plainExtent b (w ++ stripComments s) = plainExtent b (w ++ s) := by
  fun_induction stripComments s generalizing w with
  | case1 => rfl
  | case2 c => rfl
  | case3 c d s hline =>
      rw [eq_of_beq (Bool.and_eq_true_iff.mp hline).1, List.append_nil,
        plainExtent_barrier slash_isBarrier]
  | case4 c d s hline hblock hcut =>
      rw [eq_of_beq (Bool.and_eq_true_iff.mp hblock).1, List.append_nil,
        plainExtent_barrier slash_isBarrier]
  | case5 c d s hline hblock before after hcut hlen ih =>
      rw [eq_of_beq (Bool.and_eq_true_iff.mp hblock).1, plainExtent_barrier slash_isBarrier,
        plainExtent_barrier rfl]
  | case6 c d s hline hblock ih =>
      have hstep := ih (w ++ [c])
      simpa using hstep

theorem stripComments_lineComment {f : Bool} {b : UInt8} {v r : Text}
    (h : extent? f b (v ++ r) = some (.lineComment, v.length))
    (hline : Byte.newline ∉ b :: (v ++ r)) : r = [] ∧ stripComments (b :: (v ++ r)) = [] := by
  have hform : form f b (v ++ r).head? = .lineComment := form_of_extent? h
  have hspec := form_spec f b (v ++ r).head?
  rw [hform] at hspec
  rw [extent?_eq, hform] at h
  have hrun : run (· != Byte.newline) (v ++ r) = v.length := congrArg Prod.snd (Option.some.inj h)
  constructor
  · cases r with
    | nil => rfl
    | cons c r =>
        have hc : c = Byte.newline := by simpa using (run_append_eq_length_iff.mp hrun).2 c rfl
        simp [hc] at hline
  · cases hrest : v ++ r with
    | nil =>
        rw [hrest] at hspec
        cases hspec.2
    | cons c u =>
        rw [hrest] at hspec
        rw [stripComments_line (by simp [hspec.1, Option.some.inj hspec.2])]

theorem stripComments_blockComment {f : Bool} {b : UInt8} {v r : Text}
    (h : extent? f b (v ++ r) = some (.blockComment, v.length)) :
    stripComments (b :: (v ++ r)) = Byte.space :: stripComments r := by
  have hform : form f b (v ++ r).head? = .blockComment := form_of_extent? h
  have hspec := form_spec f b (v ++ r).head?
  rw [hform] at hspec
  rw [extent?_eq, hform] at h
  simp only [Option.map_eq_some_iff, Prod.mk.injEq, true_and] at h
  rcases h with ⟨n, hn, rfl⟩
  rcases exists_of_blockCommentExtent? hn with ⟨c, inner, rfl, hcut⟩
  have hc : c = Byte.star := Option.some.inj hspec.2
  rw [hspec.1, hc, List.cons_append, List.append_assoc,
    stripComments_block (by decide) (by decide), hcut r]
  rfl

theorem head?_stripComments_cases (s : Text) :
    (stripComments s).head? = s.head? ∨ (stripComments s).head? = none ∨
      (stripComments s).head? = some Byte.space := by
  fun_induction stripComments s with
  | case1 | case2 => exact Or.inl rfl
  | case3 | case4 => exact Or.inr (Or.inl rfl)
  | case5 => exact Or.inr (Or.inr rfl)
  | case6 => exact Or.inl rfl

end Lexer

namespace Condition

open Lexer Directive

/-!
# Tokens with white space between them
-/

def IsPart (w : Piece) : Prop :=
  isPart ⟨w.kind, w.text, Position.start⟩ = true

theorem IsPart.isPlain {w : Piece} (h : IsPart w) : formOf w.kind = .plain := by
  unfold IsPart isPart at h
  cases hkind : w.kind <;> simp_all [Token.isWord, formOf]

inductive Spaced : Text -> List Piece -> Prop where
  | nil : Spaced [] []
  | space {c : UInt8} {s : Text} {ws : List Piece} :
      isSeparator c = true -> Spaced s ws -> Spaced (c :: s) ws
  | part {kind : TokenKind} {b : UInt8} {v r : Text} {ws : List Piece} :
      IsPart ⟨kind, b :: v⟩ -> extent? true b (v ++ r) = some (kind, v.length) -> Spaced r ws ->
      Spaced (b :: (v ++ r)) (⟨kind, b :: v⟩ :: ws)

theorem Spaced.separators {x s : Text} {ws : List Piece}
    (hx : forall c, c ∈ x -> isSeparator c = true) (h : Spaced s ws) : Spaced (x ++ s) ws := by
  induction x with
  | nil => exact h
  | cons c x ih =>
      rcases List.forall_mem_cons.mp hx with ⟨hc, hx⟩
      exact Spaced.space hc (ih hx)

theorem plain_of_extent? {b : UInt8} {s : Text} {kind : TokenKind} {n : Nat}
    (h : extent? true b s = some (kind, n)) (hkind : formOf kind = .plain) :
    b ≠ Byte.hash ∧ isSeparator b = false ∧
      (b = Byte.slash -> s.head? ≠ some Byte.slash ∧ s.head? ≠ some Byte.star) := by
  have hform : form true b s.head? = .plain := (form_of_extent? h).trans hkind
  have hspec := form_spec true b s.head?
  rw [hform] at hspec
  refine ⟨fun hb => absurd (hspec.2 hb) (by decide), hspec.1, ?_⟩
  rintro rfl
  constructor
  all_goals
    intro hhead
    rw [hhead] at hform
    cases hform

theorem form_eq_plain {b : UInt8} {next : Option UInt8} (hsep : isSeparator b = false)
    (hhash : b ≠ Byte.hash)
    (hnext : b = Byte.slash -> next ≠ some Byte.slash ∧ next ≠ some Byte.star) :
    form true b next = .plain := by
  unfold form
  by_cases hslash : b = Byte.slash
  · rcases hnext hslash with ⟨hslash', hstar⟩
    simp [hsep, hhash, hslash', hstar]
  · simp [hsep, hhash, hslash]

theorem extent?_of_plainExtent {b : UInt8} {v r r' : Text} {kind : TokenKind}
    (h : extent? true b (v ++ r) = some (kind, v.length)) (hkind : formOf kind = .plain)
    (hhead : b = Byte.slash ->
      (v ++ r').head? ≠ some Byte.slash ∧ (v ++ r').head? ≠ some Byte.star)
    (hplain : plainExtent b (v ++ r') = plainExtent b (v ++ r)) :
    extent? true b (v ++ r') = some (kind, v.length) := by
  rcases plain_of_extent? h hkind with ⟨hhash, hsep, _⟩
  rw [extent?_eq, form_eq_plain hsep hhash hhead]
  dsimp only
  rw [hplain, plainExtent_of_extent? h hkind]

theorem extent?_of_isPart {f : Bool} {kind : TokenKind} {b : UInt8} {v r : Text}
    (hpart : IsPart ⟨kind, b :: v⟩) (h : extent? f b (v ++ r) = some (kind, v.length)) :
    extent? true b (v ++ r) = some (kind, v.length) := by
  rw [extent?_of_ne_hash _ true f]
  · exact h
  · rintro rfl
    have hplain := plainExtent_of_extent? h hpart.isPlain
    rw [plainExtent_single rfl] at hplain
    rcases Prod.mk.inj hplain with ⟨rfl, hlen⟩
    rw [List.length_eq_zero_iff.mp hlen.symm] at hpart
    exact Bool.false_ne_true hpart

theorem spaced_part {kind : TokenKind} {b : UInt8} {v r : Text} {ws : List Piece}
    (hpart : IsPart ⟨kind, b :: v⟩) (h : extent? true b (v ++ r) = some (kind, v.length))
    (hr : Spaced (stripComments r) ws) :
    Spaced (stripComments (b :: (v ++ r))) (⟨kind, b :: v⟩ :: ws) := by
  have hplain := hpart.isPlain
  rcases plain_of_extent? h hplain with ⟨_, _, hslash⟩
  have hv : Byte.slash ∉ v := fun hmem => by
    have hnot := not_isBarrier_of_plainExtent (plainExtent_of_extent? h hplain) hmem
    cases hnot
  have hstrip : stripComments (b :: (v ++ r)) = b :: (v ++ stripComments r) := by
    rw [← stripComments_append hv]
    by_cases hb : b = Byte.slash
    · rcases hslash hb with ⟨hhead, hstar⟩
      cases hrest : v ++ r with
      | nil => simp [stripComments]
      | cons c u =>
          rw [hrest] at hhead hstar
          exact stripComments_cons (by simpa using hhead) (by simpa using hstar) u
    · have hb : Byte.slash ∉ [b] := by simpa using Ne.symm hb
      exact stripComments_append hb (v ++ r)
  rw [hstrip]
  refine Spaced.part hpart (extent?_of_plainExtent h hplain ?_ (plainExtent_stripComments b v r)) hr
  intro hb
  have hhead := hslash hb
  cases v with
  | cons c v => exact hhead
  | nil =>
      simp only [List.nil_append] at hhead ⊢
      rcases head?_stripComments_cases r with heq | heq | heq
      · rw [heq]
        exact hhead
      · rw [heq]
        simp
      · rw [heq]
        decide

theorem spaced_of_lexes {f : Bool} {s : Text} {ws : List Piece} (h : Lexes f s ws)
    (hline : Byte.newline ∉ s)
    (hws : forall w, w ∈ ws -> IsPart w ∨ w.kind = .whitespace ∨ w.kind = .lineComment ∨
      w.kind = .blockComment) : Spaced (stripComments s) (solid ws) := by
  induction h with
  | nil f =>
      rw [stripComments]
      exact Spaced.nil
  | @cons f kind b v r ws hextent hrest ih =>
      rcases List.forall_mem_cons.mp hws with ⟨hw, hws⟩
      have hline' : Byte.newline ∉ r := fun hmem =>
        hline (List.mem_cons_of_mem b (List.mem_append_right v hmem))
      have hr := ih hline' hws
      rcases hw with hpart | rfl | rfl | rfl
      · rw [solid_cons_of_isPlain (beq_iff_eq.mpr hpart.isPlain)]
        exact spaced_part hpart (extent?_of_isPart hpart hextent) hr
      · have hcut : IsCut ⟨.whitespace, b :: v⟩ := ⟨f, b, v, r, rfl, hextent⟩
        have hsep := (separators_of_isCut hcut rfl).2
        have hslash : Byte.slash ∉ b :: v := fun hmem => absurd (hsep _ hmem) (by decide)
        rw [solid_cons_of_not_isPlain rfl, ← List.cons_append, stripComments_append hslash]
        exact hr.separators hsep
      · rcases stripComments_lineComment hextent hline with ⟨rfl, hstrip⟩
        cases hrest
        rw [hstrip]
        exact Spaced.nil
      · rw [stripComments_blockComment hextent]
        exact Spaced.space rfl hr

theorem Spaced.exists_lexes {s : Text} {ws : List Piece} (h : Spaced s ws) (f : Bool) :
    exists us, Lexes f s us ∧ solid us = ws ∧ forall u, u ∈ us -> u.kind ≠ .directive := by
  induction h generalizing f with
  | nil => exact ⟨[], Lexes.nil f, rfl, by simp⟩
  | @space c s ws hc _ ih =>
      rcases ih (f || [c].contains Byte.newline) with ⟨us, hus, rfl, hkinds⟩
      have hsep : forall d, d ∈ [c] -> isSeparator d = true := by simpa using hc
      rcases exists_lexes_separators hsep hus with ⟨vs, hvs, hshape⟩
      rcases hshape with ⟨hnil, _⟩ | rfl | ⟨v, ts, rfl, rfl⟩
      · cases hnil
      · exact ⟨_, hvs, rfl, List.forall_mem_cons.mpr ⟨by simp, hkinds⟩⟩
      · exact ⟨_, hvs, rfl, List.forall_mem_cons.mpr ⟨by simp, (List.forall_mem_cons.mp hkinds).2⟩⟩
  | @part kind b v r ws hpart hextent _ ih =>
      have hplain := hpart.isPlain
      rcases ih (staysFresh f kind (b :: v)) with ⟨us, hus, rfl, hkinds⟩
      have hextent' : extent? f b (v ++ r) = some (kind, v.length) := by
        rw [extent?_of_ne_hash (plain_of_extent? hextent hplain).1 f true]
        exact hextent
      refine ⟨⟨kind, b :: v⟩ :: us, Lexes.cons hextent' hus,
        solid_cons_of_isPlain (beq_iff_eq.mpr hplain) us, List.forall_mem_cons.mpr ⟨?_, hkinds⟩⟩
      rintro rfl
      cases hplain

/-!
# White space at the ends
-/

theorem Spaced.of_separators {x s : Text} {ws : List Piece}
    (hx : forall c, c ∈ x -> isSeparator c = true) (h : Spaced (x ++ s) ws) : Spaced s ws := by
  induction x with
  | nil => exact h
  | cons c x ih =>
      rcases List.forall_mem_cons.mp hx with ⟨hc, hx⟩
      rw [List.cons_append] at h
      generalize ht : x ++ s = t at h
      cases h with
      | space _ hrest =>
          subst ht
          exact ih hx hrest
      | part hpart hextent _ =>
          rw [(plain_of_extent? hextent hpart.isPlain).2.1] at hc
          cases hc

theorem Spaced.eq_nil {y : Text} {ws : List Piece} (hy : forall c, c ∈ y -> isSeparator c = true)
    (h : Spaced y ws) : ws = [] := by
  rw [← List.append_nil y] at h
  cases h.of_separators hy
  rfl

theorem Spaced.of_append_separators {s y : Text} {ws : List Piece}
    (hy : forall c, c ∈ y -> isSeparator c = true) (h : Spaced (s ++ y) ws) : Spaced s ws := by
  generalize ht : s ++ y = t at h
  induction h generalizing s with
  | nil =>
      rw [(List.append_eq_nil_iff.mp ht).1]
      exact Spaced.nil
  | @space c t ws hc hrest ih =>
      cases s with
      | nil =>
          rw [List.nil_append] at ht
          subst ht
          rw [hrest.eq_nil fun d hd => hy d (List.mem_cons_of_mem c hd)]
          exact Spaced.nil
      | cons b s =>
          rcases List.cons.inj ht with ⟨rfl, ht'⟩
          exact Spaced.space hc (ih ht')
  | @part kind b v r ws hpart hextent hrest ih =>
      have hplain := hpart.isPlain
      rcases plain_of_extent? hextent hplain with ⟨_, hsep, hslash⟩
      cases s with
      | nil =>
          rw [List.nil_append] at ht
          have hb := hy b (by rw [ht]; exact List.mem_cons_self)
          rw [hsep] at hb
          cases hb
      | cons c s =>
          rcases List.cons.inj ht with ⟨rfl, ht'⟩
          have hsplit : exists u, s = v ++ u ∧ r = u ++ y := by
            rcases List.append_eq_append_iff.mp ht' with ⟨u, rfl, rfl⟩ | ⟨u, hs, hr⟩
            · -- no white space is inside a token
              cases u with
              | nil => exact ⟨[], by simp, by simp⟩
              | cons c u =>
                  have hc := not_isBarrier_of_plainExtent (plainExtent_of_extent? hextent hplain)
                    (List.mem_append_right s List.mem_cons_self)
                  rw [isBarrier_of_isSeparator (hy c List.mem_cons_self)] at hc
                  cases hc
            · exact ⟨u, hs, hr⟩
          rcases hsplit with ⟨u, rfl, rfl⟩
          refine Spaced.part hpart (extent?_of_plainExtent hextent hplain ?_ ?_) (ih rfl)
          · intro hb
            have hhead := hslash hb
            cases hvu : v ++ u with
            | nil => simp
            | cons c t =>
                rw [← List.append_assoc, hvu] at hhead
                exact hhead
          · cases y with
            | nil => rw [List.append_nil]
            | cons c y =>
                rw [← List.append_assoc,
                  plainExtent_barrier (isBarrier_of_isSeparator (hy c List.mem_cons_self))]

end Condition

/-!
# Characters of a condition
-/

namespace Text

open Lexer (IsAscii)

def IsLegible (q : Rune) : Prop :=
  IsAscii q.bytes ∨ Lexer.isWordChar q.char = true

theorem isLegible_of_isAscii {s : Text} (h : IsAscii s) {q : Rune} (hq : q ∈ runes s) :
    IsLegible q :=
  Or.inl fun _ hc => h _ (mem_of_mem_runes hq hc)

theorem first_blank {b : UInt8} {t : Text} (h : b :: t ∈ blankSpellings) (z : Text) :
    Rune.first b (t ++ z) = Rune.first b t := by
  simp only [blankSpellings, List.mem_cons, List.cons.injEq, List.not_mem_nil, or_false] at h
  rcases h with ⟨rfl, rfl⟩ | ⟨rfl, rfl⟩ | ⟨rfl, rfl⟩ | ⟨rfl, rfl⟩ | ⟨rfl, rfl⟩ | ⟨rfl, rfl⟩ |
    ⟨rfl, rfl⟩ | ⟨rfl, rfl⟩ | ⟨rfl, rfl⟩ | ⟨rfl, rfl⟩ | ⟨rfl, rfl⟩ | ⟨rfl, rfl⟩ | ⟨rfl, rfl⟩ |
    ⟨rfl, rfl⟩ | ⟨rfl, rfl⟩ | ⟨rfl, rfl⟩ | ⟨rfl, rfl⟩ | ⟨rfl, rfl⟩ | ⟨rfl, rfl⟩ | ⟨rfl, rfl⟩ |
    ⟨rfl, rfl⟩ | ⟨rfl, rfl⟩ | ⟨rfl, rfl⟩ | ⟨rfl, rfl⟩ | ⟨rfl, rfl⟩ <;> rfl

theorem isLegible_blank {w : Text} (hw : w ∈ blankSpellings) {a z : Text}
    (h : forall q, q ∈ runes (a ++ (w ++ z)) -> IsLegible q) :
    exists c, w = [c] ∧ Lexer.isSeparator c = true := by
  have hall : (blankSpellings.all fun w => !w.isEmpty && !Rune.isContinuation (w.headD 0) &&
      (w.tail.isEmpty && Lexer.isSeparator (w.headD 0) ||
        !((Rune.first (w.headD 0) w.tail).bytes.all fun c => decide (c < 0x80)) &&
          !Lexer.isWordChar (Rune.first (w.headD 0) w.tail).char)) = true := by
    decide +kernel
  have hspelling := List.all_eq_true.mp hall w hw
  simp only [Bool.and_eq_true, Bool.or_eq_true, Bool.not_eq_true', List.isEmpty_eq_false_iff,
    List.isEmpty_iff] at hspelling
  rcases hspelling with ⟨⟨hne, hlead⟩, hcases⟩
  cases w with
  | nil => exact absurd rfl hne
  | cons b t =>
      have hboundary : Boundary a (b :: t ++ z) := by
        apply boundary_of_head
        intro c hc
        cases hc
        exact hlead
      rw [hboundary, List.cons_append, runes_cons, first_blank hw] at h
      rcases hcases with ⟨hnil, hsep⟩ | ⟨hascii, hword⟩
      · exact ⟨b, congrArg (b :: ·) hnil, hsep⟩
      · rcases h _ (List.mem_append_right _ List.mem_cons_self) with hq | hq
        · have hbytes := List.all_eq_true.mpr fun c hc => decide_eq_true (hq c hc)
          exact Bool.noConfusion (hascii.symm.trans hbytes)
        · exact Bool.noConfusion (hword.symm.trans hq)

theorem Blank.isSeparator {y : Text} (hy : Blank y) {a z : Text}
    (h : forall q, q ∈ runes (a ++ (y ++ z)) -> IsLegible q) :
    forall c, c ∈ y -> Lexer.isSeparator c = true := by
  induction hy generalizing a with
  | nil => simp
  | @cons w y hw _ ih =>
      rw [List.append_assoc] at h
      rcases isLegible_blank hw h with ⟨c, rfl, hc⟩
      refine List.forall_mem_cons.mpr ⟨hc, ih (a := a ++ [c]) ?_⟩
      rw [List.append_assoc]
      exact h

end Text

namespace Condition

open Lexer Directive

theorem isWordChar_of_isWordStart {c : Char} (h : isWordStart c = true) : isWordChar c = true := by
  unfold isWordStart at h
  unfold isWordChar
  rcases Bool.or_eq_true_iff.mp h with h | h <;> simp [h]

theorem isLegible_of_isPart {kind : TokenKind} {b : UInt8} {v r : Text}
    (hpart : IsPart ⟨kind, b :: v⟩) (h : extent? true b (v ++ r) = some (kind, v.length))
    {q : Rune} (hq : q ∈ Text.runes (b :: v)) : Text.IsLegible q := by
  have hextent := plainExtent_of_extent? h hpart.isPlain
  unfold plainExtent at hextent
  split at hextent
  · rename_i hdigit
    exact Text.isLegible_of_isAscii (isAscii_of_numberExtent hdigit hextent) hq
  · split at hextent
    · rename_i hstart
      rcases exists_of_wordExtent (Prod.mk.inj hextent).2 with ⟨cs, rest, hbytes, rfl, _, hfirst⟩
      rw [← Text.takeChars_append_drop isWordChar rest] at hfirst
      have hone := Text.runes_bytes_first b (cs ++ Text.takeChars isWordChar rest ++ r)
      rw [← List.cons_append, hfirst.left, ← hbytes, hone] at hq
      rcases List.mem_cons.mp hq with rfl | hq
      · refine Or.inr ?_
        exact isWordChar_of_isWordStart hstart
      · exact Or.inr (Text.char_of_mem_takeChars hq)
    · have hkind : kind = .operator := (Prod.mk.inj hextent).1.symm
      subst hkind
      have hsymbol : b :: v ∈ symbols := by simpa [IsPart, isPart, Token.isWord] using hpart
      have hall : symbols.all (fun op => op.all fun c => decide (c < 0x80)) = true := by
        decide
      have hascii : Lexer.IsAscii (b :: v) := by
        simpa [Lexer.IsAscii] using List.all_eq_true.mp hall _ hsymbol
      exact Text.isLegible_of_isAscii hascii hq

theorem Spaced.isLegible {s : Text} {ws : List Piece} (h : Spaced s ws) :
    forall q, q ∈ Text.runes s -> Text.IsLegible q := by
  induction h with
  | nil =>
      intro q hq
      rw [Text.runes_nil] at hq
      cases hq
  | @space c s ws hc _ ih =>
      intro q hq
      have hascii : IsAscii [c] := by
        intro d hd
        rw [List.mem_singleton.mp hd]
        exact ascii_of_isSeparator hc
      rw [← List.singleton_append, boundary_of_isAscii hascii s] at hq
      rcases List.mem_append.mp hq with hq | hq
      · exact Text.isLegible_of_isAscii hascii hq
      · exact ih q hq
  | @part kind b v r ws hpart hextent _ ih =>
      intro q hq
      rw [← List.cons_append, boundary_of_extent? hextent] at hq
      rcases List.mem_append.mp hq with hq | hq
      · exact isLegible_of_isPart hpart hextent hq
      · exact ih q hq

theorem Spaced.trim {s : Text} {ws : List Piece} (h : Spaced s ws) : Spaced (Text.trim s) ws := by
  rcases Text.exists_blank_trimLeft s with ⟨x, hx, hs⟩
  rcases Text.exists_blank_trimRight (Text.trimLeft s) with ⟨y, hy, ht⟩
  have hlegible := h.isLegible
  have hx' : forall c, c ∈ x -> isSeparator c = true := by
    apply hx.isSeparator (a := []) (z := Text.trimLeft s)
    rw [List.nil_append, ← hs]
    exact hlegible
  have hy' : forall c, c ∈ y -> isSeparator c = true := by
    apply hy.isSeparator (a := x ++ Text.trim s) (z := [])
    rw [List.append_nil, List.append_assoc, show Text.trim s ++ y = Text.trimLeft s from ht.symm,
      ← hs]
    exact hlegible
  rw [hs] at h
  have hleft := h.of_separators hx'
  rw [ht] at hleft
  exact hleft.of_append_separators hy'

/-!
# Reading the condition again
-/

theorem kind_congr {t u : Token} (h : t.piece = u.piece) : t.kind = u.kind :=
  congrArg Piece.kind h

theorem text_congr {t u : Token} (h : t.piece = u.piece) : t.text = u.text :=
  congrArg Piece.text h

theorem isReserved_congr {t u : Token} (h : t.piece = u.piece) : isReserved t = isReserved u := by
  unfold isReserved
  rw [kind_congr h, text_congr h]

theorem Derives.alike {n : Nat} {ts us : List Token} {c : Condition} (h : Derives n ts c)
    (hus : us.map Token.piece = ts.map Token.piece) : Derives n us c := by
  induction h generalizing us with
  | tighter _ ih => exact (ih hus).tighter
  | binary ht _ _ ihl ihr =>
      rw [List.map_append, List.map_cons] at hus
      rcases List.map_eq_append_iff.mp hus with ⟨ls, rs, rfl, hls, hrs⟩
      rcases List.map_eq_cons_iff.mp hrs with ⟨u, rs, rfl, hu, hrs⟩
      exact Derives.binary ((Declaration.isOp_congr hu _).trans ht) (ihl hls) (ihr hrs)
  | unary ht _ ih =>
      rcases List.map_eq_cons_iff.mp hus with ⟨u, us, rfl, hu, hus⟩
      exact Derives.unary ((Declaration.isOp_congr hu _).trans ht) (ih hus)
  | integer hkind hvalue =>
      rcases List.map_eq_singleton_iff.mp hus with ⟨u, rfl, hu⟩
      rw [← text_congr hu] at hvalue
      exact Derives.integer ((kind_congr hu).trans hkind) hvalue
  | float hkind hvalue =>
      rcases List.map_eq_singleton_iff.mp hus with ⟨u, rfl, hu⟩
      rw [← text_congr hu] at hvalue
      exact Derives.float ((kind_congr hu).trans hkind) hvalue
  | yes hkind htext =>
      rcases List.map_eq_singleton_iff.mp hus with ⟨u, rfl, hu⟩
      exact Derives.yes ((kind_congr hu).trans hkind) ((text_congr hu).trans htext)
  | no hkind htext =>
      rcases List.map_eq_singleton_iff.mp hus with ⟨u, rfl, hu⟩
      exact Derives.no ((kind_congr hu).trans hkind) ((text_congr hu).trans htext)
  | name ht hreserved =>
      rcases List.map_eq_singleton_iff.mp hus with ⟨u, rfl, hu⟩
      rw [← text_congr hu]
      exact Derives.name ((Declaration.isWord_congr hu).trans ht)
        ((isReserved_congr hu).trans hreserved)
  | defined hkind htext hname =>
      rcases List.map_eq_cons_iff.mp hus with ⟨u, us, rfl, hu, hus⟩
      rcases List.map_eq_singleton_iff.mp hus with ⟨v, rfl, hv⟩
      rw [← text_congr hv]
      exact Derives.defined ((kind_congr hu).trans hkind)
        ((text_congr hu).trans htext) ((Declaration.isWord_congr hv).trans hname)
  | definedIn hkind htext hopen hname hclose =>
      rcases List.map_eq_cons_iff.mp hus with ⟨u, us, rfl, hu, hus⟩
      rcases List.map_eq_cons_iff.mp hus with ⟨o, us, rfl, ho, hus⟩
      rcases List.map_eq_cons_iff.mp hus with ⟨v, us, rfl, hv, hus⟩
      rcases List.map_eq_singleton_iff.mp hus with ⟨e, rfl, he⟩
      rw [← text_congr hv]
      exact Derives.definedIn ((kind_congr hu).trans hkind)
        ((text_congr hu).trans htext) ((Declaration.isOp_congr ho _).trans hopen)
        ((Declaration.isWord_congr hv).trans hname) ((Declaration.isOp_congr he _).trans hclose)
  | paren hopen _ hclose ih =>
      rcases List.map_eq_cons_iff.mp hus with ⟨o, us, rfl, ho, hus⟩
      rw [List.map_append] at hus
      rcases List.map_eq_append_iff.mp hus with ⟨inner, last, rfl, hinner, hlast⟩
      rcases List.map_eq_singleton_iff.mp hlast with ⟨e, rfl, he⟩
      exact Derives.paren ((Declaration.isOp_congr ho _).trans hopen) (ih hinner)
        ((Declaration.isOp_congr he _).trans hclose)

theorem map_piece_significant {ws : List Piece} (h : forall w, w ∈ ws -> w.kind ≠ .directive)
    (p : Position) :
    (significant (place p ws)).map Token.piece = solid ws ++ [⟨.eof, []⟩] := by
  induction ws generalizing p with
  | nil => rfl
  | cons w ws ih =>
      rcases List.forall_mem_cons.mp h with ⟨hw, hws⟩
      have hrest := ih hws (p.advance w.text)
      unfold significant at hrest ⊢
      rw [place_cons]
      cases hplain : w.isPlain with
      | true =>
          rw [solid_cons_of_isPlain hplain, List.filter_cons_of_pos, List.map_cons, hrest]
          · rfl
          · unfold Piece.isPlain at hplain
            cases hkind : w.kind <;> simp_all [Token.isTrivia, formOf]
      | false =>
          rw [solid_cons_of_not_isPlain hplain, List.filter_cons_of_neg, hrest]
          unfold Piece.isPlain at hplain
          cases hkind : w.kind <;> simp_all [Token.isTrivia, formOf]

theorem parse_trim_stripComments {source : Text} {c : Condition} (hline : Byte.newline ∉ source)
    (h : parse source = .ok c) : parse (Text.trim (stripComments source)) = .ok c := by
  rcases parts_of_parse h with ⟨ts, htokens, hparts, _⟩
  rcases parse_eq_ok_iff.mp h with ⟨ts', htokens', hder⟩
  cases htokens'.symm.trans htokens
  rcases tokenize_eq_ok_iff.mp htokens with ⟨ws, hlexes, rfl⟩
  have hws : forall w, w ∈ ws -> IsPart w ∨ w.kind = .whitespace ∨ w.kind = .lineComment ∨
      w.kind = .blockComment := by
    intro w hw
    rcases exists_mem_place hw Position.start with ⟨q, hq⟩
    rcases hparts _ hq with htrivia | hpart | heof
    · right
      simpa [Token.isTrivia, or_assoc] using htrivia
    · exact Or.inl hpart
    · rcases hlexes.exists_extent? hw with ⟨f, b, v, rest, _, hextent⟩
      exact absurd heof (kind_ne_eof_of_extent? hextent)
  have hkinds : forall w, w ∈ ws -> w.kind ≠ .directive := by
    intro w hw hkind
    rcases hws w hw with hpart | hcases
    · have hplain := hpart.isPlain
      rw [hkind] at hplain
      cases hplain
    · simp [hkind] at hcases
  rcases (spaced_of_lexes hlexes hline hws).trim.exists_lexes true with ⟨us, hus, hsolid, hkinds'⟩
  refine parse_eq_ok_iff.mpr ⟨_, tokenize_eq_ok_iff.mpr ⟨us, hus, rfl⟩, hder.alike ?_⟩
  rw [List.map_dropLast, List.map_dropLast, map_piece_significant hkinds,
    map_piece_significant hkinds', hsolid]

end Condition

end EffectShader
