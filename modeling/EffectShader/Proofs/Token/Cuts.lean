import EffectShader.Proofs.Preprocess
import EffectShader.Proofs.Token.DirectiveText
import EffectShader.Proofs.Token.Munch

/-!
# Cutting a text in front of another

Pieces are cut off one after the other with the rest of the source in view.  The
judgement below keeps that rest apart, so that it can be exchanged: pieces stay
pieces in front of every text before which the last of them ends.
-/

namespace EffectShader

namespace Lexer

def spell (ws : List Piece) : Text :=
  (ws.map Piece.text).flatten

@[simp] theorem spell_nil : spell [] = [] := rfl

@[simp] theorem spell_cons (w : Piece) (ws : List Piece) :
    spell (w :: ws) = w.text ++ spell ws := rfl

@[simp] theorem spell_append (us ws : List Piece) :
    spell (us ++ ws) = spell us ++ spell ws := by
  simp [spell]

/-- The pieces are cut off in front of a text; the flags say whether a directive may start before
and after them. -/
inductive Cuts : Bool -> List Piece -> Bool -> Text -> Prop where
  | nil (fresh : Bool) (r : Text) : Cuts fresh [] fresh r
  | cons {fresh after : Bool} {kind : TokenKind} {b : UInt8} {v r : Text} {us : List Piece} :
      extent? fresh b (v ++ (spell us ++ r)) = some (kind, v.length) ->
      Cuts (staysFresh fresh kind (b :: v)) us after r ->
      Cuts fresh (⟨kind, b :: v⟩ :: us) after r

theorem Cuts.append {f g h : Bool} {us vs : List Piece} {r : Text}
    (hus : Cuts f us g (spell vs ++ r)) (hvs : Cuts g vs h r) : Cuts f (us ++ vs) h r := by
  generalize hs : spell vs ++ r = s at hus
  induction hus with
  | nil fresh s => exact hvs
  | @cons fresh after kind b v s us hextent _ ih =>
      subst hs
      rw [List.cons_append]
      apply Cuts.cons
      · rw [spell_append, List.append_assoc]
        exact hextent
      · exact ih hvs rfl

theorem Cuts.split {f h : Bool} {us vs : List Piece} {r : Text} (hcuts : Cuts f (us ++ vs) h r) :
    exists g, Cuts f us g (spell vs ++ r) ∧ Cuts g vs h r := by
  induction us generalizing f with
  | nil => exact ⟨f, Cuts.nil f _, hcuts⟩
  | cons u us ih =>
      rw [List.cons_append] at hcuts
      cases hcuts with
      | cons hextent hrest =>
          rcases ih hrest with ⟨g, hus, hvs⟩
          refine ⟨g, Cuts.cons ?_ hus, hvs⟩
          rw [spell_append, List.append_assoc] at hextent
          exact hextent

theorem Cuts.lexes {f g : Bool} {us ws : List Piece} {r : Text} (hus : Cuts f us g r)
    (hws : Lexes g r ws) : Lexes f (spell us ++ r) (us ++ ws) := by
  induction hus with
  | nil fresh r => exact hws
  | @cons fresh after kind b v r us hextent _ ih =>
      have hcons := Lexes.cons hextent (ih hws)
      simpa using hcons

theorem Lexes.cuts {f : Bool} {s : Text} {us ws : List Piece} (h : Lexes f s (us ++ ws)) :
    exists g r, s = spell us ++ r ∧ Cuts f us g r ∧ Lexes g r ws := by
  induction us generalizing f s with
  | nil => exact ⟨f, s, rfl, Cuts.nil f s, h⟩
  | cons u us ih =>
      cases h with
      | @cons _ kind b v rest _ hextent hrest =>
          rcases ih hrest with ⟨g, r, rfl, hus, hws⟩
          exact ⟨g, r, by simp, Cuts.cons hextent hus, hws⟩

theorem Lexes.spell_eq {f : Bool} {s : Text} {ws : List Piece} (h : Lexes f s ws) :
    spell ws = s :=
  h.flatten_eq

/-!
# Extents and the text behind them
-/

theorem directiveExtent_of_head? {w r r' : Text} (h : directiveExtent (w ++ r) = w.length)
    (hhead : r'.head? = r.head?) : directiveExtent (w ++ r') = w.length := by
  rcases continued_of_directiveExtent h with ⟨hw, hr⟩
  apply directiveExtent_of_continued hw
  rcases hr with rfl | hr
  · exact Or.inl (List.head?_eq_none_iff.mp hhead)
  · exact Or.inr ⟨hhead.trans hr, endsOpen_of_directiveExtent h hr⟩

theorem length_of_blockCommentExtent? {s : Text} {n : Nat}
    (h : blockCommentExtent? s = some n) : 3 ≤ n := by
  unfold blockCommentExtent? at h
  rcases Option.map_eq_some_iff.mp h with ⟨m, _, rfl⟩
  omega

/-- What a block comment consists of, without its first slash; it ends by itself. -/
theorem exists_of_blockCommentExtent? {w r : Text}
    (h : blockCommentExtent? (w ++ r) = some w.length) :
    exists (c : UInt8) (inner : Text), w = c :: (inner ++ ("*/" : Text)) ∧
      forall r', Text.cut? "*/" (inner ++ ("*/" ++ r')) = some (inner, r') := by
  cases w with
  | nil => exact absurd (length_of_blockCommentExtent? h) (by simp)
  | cons c w =>
      unfold blockCommentExtent? Text.indexOf? at h
      simp only [List.cons_append, List.drop_succ_cons, List.drop_zero, Option.map_map,
        Option.map_eq_some_iff] at h
      rcases h with ⟨⟨inner, after⟩, hcut, hlen⟩
      have hsplit := Text.eq_append_of_cut? hcut
      have hlen : inner.length + 3 = w.length + 1 := by simpa using hlen
      have hmark : (("*/" : Text)).length = 2 := rfl
      rw [← List.append_assoc] at hsplit
      rcases List.append_inj hsplit (by rw [List.length_append, hmark]; omega) with ⟨hw, _⟩
      exact ⟨c, inner, by rw [hw], Text.cut?_append_of_cut? (by decide) hcut⟩

theorem blockCommentExtent?_append {w r : Text}
    (h : blockCommentExtent? (w ++ r) = some w.length) (r' : Text) :
    blockCommentExtent? (w ++ r') = some w.length := by
  rcases exists_of_blockCommentExtent? h with ⟨c, inner, rfl, hcut⟩
  unfold blockCommentExtent? Text.indexOf?
  rw [List.cons_append, List.drop_succ_cons, List.drop_zero, List.append_assoc, hcut r',
    List.length_cons, List.length_append]
  rfl

theorem extent?_blockComment {fresh : Bool} {b : UInt8} {w r : Text}
    (h : extent? fresh b (w ++ r) = some (.blockComment, w.length)) (r' : Text) :
    extent? fresh b (w ++ r') = some (.blockComment, w.length) := by
  have hform : form fresh b (w ++ r).head? = .blockComment := form_of_extent? h
  rw [extent?_eq, hform] at h
  rcases Option.map_eq_some_iff.mp h with ⟨n, hn, heq⟩
  have hlen : n = w.length := (Prod.mk.inj heq).2
  subst hlen
  have hhead : (w ++ r').head? = (w ++ r).head? := by
    cases w with
    | nil => exact absurd (length_of_blockCommentExtent? hn) (by simp)
    | cons c w => rfl
  rw [extent?_eq, hhead, hform]
  simp only [blockCommentExtent?_append hn r', Option.map_some]

theorem plainExtent_of_extent? {fresh : Bool} {b : UInt8} {s : Text} {kind : TokenKind} {n : Nat}
    (h : extent? fresh b s = some (kind, n)) (hkind : formOf kind = .plain) :
    plainExtent b s = (kind, n) := by
  have hform : form fresh b s.head? = .plain := (form_of_extent? h).trans hkind
  rw [extent?_eq, hform] at h
  exact Option.some.inj h

theorem extent?_of_head? {fresh : Bool} {b : UInt8} {w r r' : Text} {kind : TokenKind}
    (h : extent? fresh b (w ++ r) = some (kind, w.length)) (hhead : r'.head? = r.head?)
    (hplain : formOf kind = .plain -> plainExtent b (w ++ r') = plainExtent b (w ++ r)) :
    extent? fresh b (w ++ r') = some (kind, w.length) := by
  have hkind : form fresh b (w ++ r).head? = formOf kind := form_of_extent? h
  have hform : form fresh b (w ++ r').head? = form fresh b (w ++ r).head? := by
    cases w with
    | nil => simp [hhead]
    | cons c w => rfl
  rw [extent?_eq] at h ⊢
  rw [hform]
  cases hf : form fresh b (w ++ r).head? with
  | space =>
      simp only [hf, Option.some.injEq, Prod.mk.injEq] at h ⊢
      exact ⟨h.1, run_of_head? h.2 hhead⟩
  | directive =>
      simp only [hf, Option.some.injEq, Prod.mk.injEq] at h ⊢
      exact ⟨h.1, directiveExtent_of_head? h.2 hhead⟩
  | lineComment =>
      simp only [hf, Option.some.injEq, Prod.mk.injEq] at h ⊢
      exact ⟨h.1, run_of_head? h.2 hhead⟩
  | blockComment =>
      simp only [hf, Option.map_eq_some_iff, Prod.mk.injEq] at h ⊢
      rcases h with ⟨n, hn, hkind, rfl⟩
      exact ⟨w.length, blockCommentExtent?_append hn r', hkind, rfl⟩
  | plain =>
      simp only [hf] at h ⊢
      rw [hplain (by rw [← hkind, hf])]
      exact h

/-!
# Exchanging what follows
-/

theorem extent?_of_separators {fresh : Bool} {b : UInt8} {w r : Text}
    (hb : isSeparator b = true) (hw : forall c, c ∈ w -> isSeparator c = true)
    (hr : forall c, r.head? = some c -> isSeparator c = false) :
    extent? fresh b (w ++ r) = some (.whitespace, w.length) := by
  have hform : form fresh b (w ++ r).head? = .space := by
    unfold form
    rw [if_pos hb]
  rw [extent?_eq, hform]
  simp only [run_append_eq_length_iff.mpr ⟨hw, hr⟩]

theorem separators_of_extent? {fresh : Bool} {b : UInt8} {w r : Text}
    (h : extent? fresh b (w ++ r) = some (.whitespace, w.length)) :
    forall c, c ∈ b :: w -> isSeparator c = true := by
  have hform : form fresh b (w ++ r).head? = .space := form_of_extent? h
  have hspec := form_spec fresh b (w ++ r).head?
  rw [hform] at hspec
  rw [extent?_eq, hform] at h
  have hrun : run isSeparator (w ++ r) = w.length := congrArg Prod.snd (Option.some.inj h)
  intro c hc
  rcases List.mem_cons.mp hc with rfl | hc
  · exact hspec
  · exact (run_append_eq_length_iff.mp hrun).1 c hc

theorem isBarrier_of_isSeparator {b : UInt8} (h : isSeparator b = true) : isBarrier b = true := by
  have hcases : b = Byte.newline ∨ b = Byte.space ∨ b = Byte.tab ∨ b = Byte.carriage ∨
      b = 0x0C ∨ b = 0x0B := by
    simpa [isSeparator, or_assoc] using h
  rcases hcases with rfl | rfl | rfl | rfl | rfl | rfl <;> rfl

/-- The barriers that are tokens of their own, whatever follows them. -/
def isSingle (b : UInt8) : Bool :=
  isBarrier b && b != Byte.slash

theorem plainExtent_single {b : UInt8} (hb : isSingle b = true) (s : Text) :
    plainExtent b s = (.operator, 0) := by
  rcases Bool.and_eq_true_iff.mp hb with ⟨hbarrier, hslash⟩
  have hsmall : b < 0x80 := of_isBarrier (P := fun b => b < 0x80) hbarrier (by decide)
  have hfirst : Rune.first b s = ⟨Char.ofNat b.toNat, [b]⟩ := by rw [Rune.first, if_pos hsmall]
  have hword : isWordStart (Char.ofNat b.toNat) = false :=
    of_isBarrier (P := fun b => isWordStart (Char.ofNat b.toNat) = false) hbarrier (by decide)
  have hhead : (b == Byte.slash) = false ->
      operators.all (fun op => op.head?.any fun c => c != b) = true :=
    of_isBarrier (P := fun b => (b == Byte.slash) = false ->
      operators.all (fun op => op.head?.any fun c => c != b) = true) hbarrier (by decide)
  have hnone : (operators.find? fun op => op.isPrefixOf (b :: s)) = none := by
    rw [List.find?_eq_none]
    intro op hop htrue
    have hop := List.all_eq_true.mp (hhead (by simpa using hslash)) op hop
    cases op with
    | nil => cases hop
    | cons a op =>
        simp only [List.isPrefixOf, Bool.and_eq_true, beq_iff_eq] at htrue
        simp [htrue.1] at hop
  have hdigit : (Byte.isDigit b || (b == Byte.dot && s.head?.any Byte.isDigit)) = false := by
    rw [isDigit_barrier hbarrier, beq_false_of_ne (ne_dot_barrier hbarrier)]
    rfl
  unfold plainExtent operatorExtent
  rw [hdigit, hfirst, hnone]
  simp [hword]

def Closes (w : Piece) (r r' : Text) : Prop :=
  match formOf w.kind with
  | .space => forall c, r'.head? = some c -> isSeparator c = false
  | .directive | .lineComment => r'.head? = r.head?
  | .blockComment => True
  | .plain => (exists c, w.text = [c] ∧ isSingle c = true) ∨ r'.head?.all isSingle = true

theorem plainExtent_shielded {b : UInt8} {x r r' : Text}
    (h : (plainExtent b (x ++ r)).2 ≤ x.length)
    (hshield : (exists c, c ∈ x ∧ isBarrier c = true) ∨ r'.head?.all isSingle = true) :
    plainExtent b (x ++ r') = plainExtent b (x ++ r) := by
  rcases hshield with ⟨c, hmem, hc⟩ | hhead
  · rcases List.append_of_mem hmem with ⟨before, after, rfl⟩
    rw [List.append_assoc, List.append_assoc, List.cons_append, List.cons_append,
      plainExtent_barrier hc, plainExtent_barrier hc]
  · rw [← plainExtent_of_append_le h]
    cases r' with
    | nil => rw [List.append_nil]
    | cons c y =>
        have hsingle : isSingle c = true := by simpa using hhead
        exact plainExtent_barrier (Bool.and_eq_true_iff.mp hsingle).1 b x y

theorem form_of_single {fresh : Bool} {b : UInt8} {next next' : Option UInt8}
    (h : form fresh b next = .plain) (hnext : next'.all isSingle = true) :
    form fresh b next' = .plain := by
  have hspec := form_spec fresh b next
  rw [h] at hspec
  rcases hspec with ⟨hsep, hhash⟩
  have hslash : next' ≠ some Byte.slash := by
    intro heq
    rw [heq] at hnext
    cases hnext
  have hstar : next' ≠ some Byte.star := by
    intro heq
    rw [heq] at hnext
    cases hnext
  unfold form
  simp only [hsep, beq_false_of_ne hslash, beq_false_of_ne hstar, Bool.and_false]
  cases hb : b == Byte.hash with
  | false => rfl
  | true =>
      rw [hhash (eq_of_beq hb)]
      rfl

theorem extent?_of_closes {fresh : Bool} {b : UInt8} {v r r' : Text} {kind : TokenKind}
    (h : extent? fresh b (v ++ r) = some (kind, v.length)) (hcloses : Closes ⟨kind, b :: v⟩ r r') :
    extent? fresh b (v ++ r') = some (kind, v.length) := by
  have hkind : form fresh b (v ++ r).head? = formOf kind := form_of_extent? h
  unfold Closes at hcloses
  cases hform : formOf kind with
  | space =>
      simp only [hform] at hcloses
      rw [extent?_eq, hkind, hform] at h
      simp only [Option.some.injEq, Prod.mk.injEq] at h
      have hsep : isSeparator b = true := by
        have hspec := form_spec fresh b (v ++ r).head?
        rw [hkind, hform] at hspec
        exact hspec
      have hspace : form fresh b (v ++ r').head? = .space := by
        unfold form
        rw [if_pos hsep]
      rw [extent?_eq, hspace]
      simp only [Option.some.injEq, Prod.mk.injEq]
      refine ⟨h.1, ?_⟩
      rw [run_append_eq_length_iff] at h ⊢
      exact ⟨h.2.1, hcloses⟩
  | directive | lineComment =>
      simp only [hform] at hcloses
      exact extent?_of_head? h hcloses (by simp [hform])
  | blockComment =>
      cases kind <;> first | exact extent?_blockComment h r' | cases hform
  | plain =>
      simp only [hform] at hcloses
      have hplain : plainExtent b (v ++ r) = (kind, v.length) := plainExtent_of_extent? h hform
      have hform' : form fresh b (v ++ r').head? = .plain := by
        rcases hcloses with ⟨c, htext, hc⟩ | hhead
        · rcases List.cons.inj htext with ⟨rfl, rfl⟩
          have hslash : (b == Byte.slash) = false := by
            simpa using (Bool.and_eq_true_iff.mp hc).2
          have hspec : form fresh b (([] : Text) ++ r).head? = .plain := hkind.trans hform
          unfold form at hspec ⊢
          simpa [hslash] using hspec
        · cases v with
          | nil => exact form_of_single (hkind.trans hform) hhead
          | cons c v =>
              rw [← hform, ← hkind]
              rfl
      rw [extent?_eq, hform']
      dsimp only
      rcases hcloses with ⟨c, htext, hc⟩ | hhead
      · rcases List.cons.inj htext with ⟨rfl, rfl⟩
        rw [plainExtent_single hc] at hplain ⊢
        rw [hplain]
      · rw [plainExtent_shielded (by rw [hplain]) (Or.inr hhead), hplain]

theorem shielded_of_closes {fresh : Bool} {b : UInt8} {v r r' : Text} {kind : TokenKind}
    (h : extent? fresh b (v ++ r) = some (kind, v.length)) (hcloses : Closes ⟨kind, b :: v⟩ r r') :
    isBarrier b = true ∨ r'.head?.all isSingle = true := by
  have hspec := form_spec fresh b (v ++ r).head?
  rw [form_of_extent? h] at hspec
  unfold Closes at hcloses
  cases hform : formOf kind with
  | space =>
      rw [hform] at hspec
      exact Or.inl (isBarrier_of_isSeparator hspec)
  | directive | lineComment | blockComment =>
      rw [hform] at hspec
      rw [hspec.1]
      exact Or.inl rfl
  | plain =>
      simp only [hform] at hcloses
      rcases hcloses with ⟨c, htext, hc⟩ | hhead
      · rw [(List.cons.inj htext).1]
        exact Or.inl (Bool.and_eq_true_iff.mp hc).1
      · exact Or.inr hhead

theorem Cuts.shielded {f g : Bool} {us : List Piece} {r r' : Text} (h : Cuts f us g r)
    (hcloses : forall w, us.getLast? = some w -> Closes w r r') (hus : us ≠ []) :
    (exists c, c ∈ spell us ∧ isBarrier c = true) ∨ r'.head?.all isSingle = true := by
  induction h with
  | nil => exact absurd rfl hus
  | @cons fresh after kind b v r us hextent hrest ih =>
      cases us with
      | nil =>
          rw [spell_nil, List.nil_append] at hextent
          rcases shielded_of_closes hextent (hcloses _ rfl) with hb | hhead
          · exact Or.inl ⟨b, by simp, hb⟩
          · exact Or.inr hhead
      | cons u us =>
          rcases ih (by simpa using hcloses) (by simp) with ⟨c, hc, hbarrier⟩ | hhead
          · exact Or.inl ⟨c, by rw [spell_cons]; exact List.mem_append_right _ hc, hbarrier⟩
          · exact Or.inr hhead

theorem Cuts.exchange {f g : Bool} {us : List Piece} {r r' : Text} (h : Cuts f us g r)
    (hcloses : forall w, us.getLast? = some w -> Closes w r r') : Cuts f us g r' := by
  induction h with
  | nil fresh r => exact Cuts.nil fresh r'
  | @cons fresh after kind b v r us hextent hrest ih =>
      cases us with
      | nil =>
          rw [spell_nil, List.nil_append] at hextent
          exact Cuts.cons (extent?_of_closes hextent (hcloses _ rfl)) (ih (by simp))
      | cons u us =>
          have htail : forall w, (u :: us).getLast? = some w -> Closes w r r' := by
            simpa using hcloses
          refine Cuts.cons ?_ (ih htail)
          have hshield := hrest.shielded htail (by simp)
          cases hrest with
          | @cons _ _ kind' c x _ _ _ _ =>
              apply extent?_of_head? hextent
              · simp
              · intro hplain
                have hextent' := plainExtent_of_extent? hextent hplain
                rw [← List.append_assoc, ← List.append_assoc] at *
                apply plainExtent_shielded
                · rw [hextent']
                  simp
                · exact hshield.imp_left fun ⟨d, hd, hbarrier⟩ =>
                    ⟨d, List.mem_append_right _ hd, hbarrier⟩

/-!
# Exchanging what stands before
-/

theorem staysFresh_of_plain {kind : TokenKind} (h : formOf kind = .plain) (fresh : Bool)
    (text : Text) : staysFresh fresh kind text = false := by
  cases kind <;> first | rfl | cases h

/-- A hash sign that starts no directive. -/
def strayHash : Piece :=
  ⟨.operator, [Byte.hash]⟩

theorem extent?_of_ne_hash {b : UInt8} (hb : b ≠ Byte.hash) (f f' : Bool) (s : Text) :
    extent? f b s = extent? f' b s := by
  have hform : form f b s.head? = form f' b s.head? := by
    unfold form
    rw [beq_false_of_ne hb]
    rfl
  rw [extent?_eq, extent?_eq, hform]

theorem Lexes.outside {f : Bool} {s : Text} {ws : List Piece} (h : Lexes f s ws)
    (hhash : strayHash ∉ ws) : Lexes true s ws := by
  induction h with
  | nil fresh => exact Lexes.nil true
  | @cons fresh kind b w rest ws hextent hrest ih =>
      have hrest' : Lexes true rest ws := ih fun hmem => hhash (List.mem_cons_of_mem _ hmem)
      have hextent' : extent? true b (w ++ rest) = some (kind, w.length) := by
        cases fresh with
        | true => exact hextent
        | false =>
            rw [extent?_of_ne_hash _ true false]
            · exact hextent
            · intro hb
              subst hb
              have hform : form false Byte.hash (w ++ rest).head? = .plain := rfl
              rw [extent?_eq, hform, plainExtent_single rfl] at hextent
              rcases Prod.mk.inj (Option.some.inj hextent) with ⟨rfl, hlen⟩
              have hw : w = [] := List.length_eq_zero_iff.mp hlen.symm
              subst hw
              exact hhash List.mem_cons_self
      refine Lexes.cons hextent' ?_
      cases kind with
      | whitespace | blockComment => exact hrest'
      | _ => exact hrest

/-!
# What follows a piece
-/

/-- A piece that ends before a small byte ends there whatever follows the byte. -/
theorem extent?_lookahead {fresh : Bool} {b c : UInt8} {v y : Text} {kind : TokenKind}
    (h : extent? fresh b (v ++ c :: y) = some (kind, v.length)) (hc : c < 0x80)
    (hnumber : kind = .float ∨ kind = .integer -> endsWord c = true) (y' : Text) :
    extent? fresh b (v ++ c :: y') = some (kind, v.length) := by
  refine extent?_of_head? h (by cases v <;> rfl) fun hplain => ?_
  have hextent := plainExtent_of_extent? h hplain
  refine plainExtent_lookahead hc (congrArg Prod.snd hextent) (fun hn => hnumber ?_) y'
  have hkind := startsNumber_of_plainExtent hn
  rw [hextent] at hkind
  exact hkind

/-- A byte that continues no operator and starts neither a number nor a comment behind one. -/
def endsOperator (c : UInt8) : Bool :=
  c < 0x80 && !Byte.isDigit c && c != Byte.slash && c != Byte.star &&
    operators.all fun op => !op.tail.contains c

theorem extent?_operator {fresh : Bool} {b c : UInt8} {v r : Text}
    (h : extent? fresh b (v ++ r) = some (.operator, v.length)) (hc : endsOperator c = true)
    (y : Text) : extent? fresh b (v ++ c :: y) = some (.operator, v.length) := by
  simp only [endsOperator, Bool.and_eq_true, decide_eq_true_eq, Bool.not_eq_true', bne_iff_ne,
    List.all_eq_true, List.contains_eq_mem, decide_eq_false_iff_not] at hc
  rcases hc with ⟨⟨⟨⟨hsmall, hdigit⟩, hslash⟩, hstar⟩, hop⟩
  have hplain := plainExtent_of_extent? h rfl
  have hbare : plainExtent b v = (.operator, v.length) := by
    rw [plainExtent_of_append_le (Nat.le_of_eq (congrArg Prod.snd hplain)), hplain]
  have hnumber : startsNumber b v = false := by
    rw [Bool.eq_false_iff]
    intro hn
    have hkind := startsNumber_of_plainExtent hn
    rw [hbare] at hkind
    rcases hkind with hkind | hkind <;> cases hkind
  have hword : isWordStart (Rune.first b v).char = false := by
    rw [Bool.eq_false_iff]
    intro hw
    rw [plainExtent_eq_word hnumber hw] at hbare
    have hkind : classify (b :: v.take (wordExtent b v)) = .operator := congrArg Prod.fst hbare
    unfold classify at hkind
    split at hkind
    · cases hkind
    · split at hkind <;> cases hkind
  have hform : form fresh b (v ++ c :: y).head? = .plain := by
    have hkind : form fresh b (v ++ r).head? = .plain := form_of_extent? h
    cases v with
    | cons d v => exact hkind
    | nil =>
        have hspec := form_spec fresh b r.head?
        rw [show form fresh b r.head? = .plain from hkind] at hspec
        unfold form
        cases hb : b == Byte.hash with
        | false => simp [hspec.1, hslash, hstar]
        | true => simp [hspec.1, hslash, hstar, hspec.2 (eq_of_beq hb)]
  rw [plainExtent_eq_operator hnumber hword] at hbare
  have hstart := (startsNumber_stop hdigit b v y).trans hnumber
  rw [← first_stop hsmall b v y] at hword
  rw [extent?_eq, hform]
  dsimp only
  rw [plainExtent_eq_operator hstart hword, operatorExtent_stop hsmall hop, hbare]

theorem classify_of_extent? {fresh : Bool} {b : UInt8} {v r : Text} {kind : TokenKind}
    (h : extent? fresh b (v ++ r) = some (kind, v.length))
    (hkind : kind = .ident ∨ kind = .keyword ∨ kind = .builtin) : kind = classify (b :: v) := by
  have hform : formOf kind = .plain := by rcases hkind with rfl | rfl | rfl <;> rfl
  have hplain := plainExtent_of_extent? h hform
  cases hn : startsNumber b (v ++ r) with
  | true =>
      have hnumber := startsNumber_of_plainExtent hn
      rw [hplain] at hnumber
      rcases hkind with rfl | rfl | rfl <;> rcases hnumber with hnumber | hnumber <;> cases hnumber
  | false =>
      cases hw : isWordStart (Rune.first b (v ++ r)).char with
      | true =>
          rw [plainExtent_eq_word hn hw] at hplain
          rcases Prod.mk.inj hplain with ⟨hclass, hlength⟩
          rw [hlength, List.take_left] at hclass
          exact hclass.symm
      | false =>
          rw [plainExtent_eq_operator hn hw] at hplain
          rw [← (Prod.mk.inj hplain).1] at hkind
          rcases hkind with hkind | hkind | hkind <;> cases hkind

theorem isWordChar_after {fresh : Bool} {b c : UInt8} {v y : Text} {kind : TokenKind}
    (h : extent? fresh b (v ++ c :: y) = some (kind, v.length))
    (hkind : kind = .ident ∨ kind = .keyword ∨ kind = .builtin) :
    isWordChar (Rune.first c y).char = false := by
  have hplain : formOf kind = .plain := by rcases hkind with rfl | rfl | rfl <;> rfl
  have hstart := isWordStart_of_extent? h hkind
  have hextent := plainExtent_of_extent? h hplain
  unfold plainExtent at hextent
  split at hextent
  · have hnumber := numberExtent_kind b (v ++ c :: y)
    rw [hextent] at hnumber
    rcases hkind with rfl | rfl | rfl <;> simp at hnumber
  · have hlen : wordExtent b (v ++ c :: y) = v.length := congrArg Prod.snd hextent
    unfold wordExtent at hlen
    have hle : (Rune.first b (v ++ c :: y)).bytes.length - 1 ≤ v.length := by omega
    rw [drop_append_stop hle] at hlen
    apply takeChars_stop (p := isWordChar)
      (x := v.drop ((Rune.first b (v ++ c :: y)).bytes.length - 1))
    rw [List.length_drop]
    omega

theorem of_isLower {P : UInt8 -> Prop} [DecidablePred P] {b : UInt8} (hb : Byte.isLower b = true)
    (h : (List.range 26).all (fun n => decide (P (UInt8.ofNat (97 + n)))) = true) : P b := by
  have hbounds : 97 ≤ b.toNat ∧ b.toNat ≤ 122 := by
    have hle : (Byte.of 'a').toNat ≤ b.toNat ∧ b.toNat ≤ (Byte.of 'z').toNat := by
      simpa [Byte.isLower, UInt8.le_iff_toNat_le] using hb
    exact hle
  have hmem : b.toNat - 97 ∈ List.range 26 := List.mem_range.mpr (by omega)
  have hall := of_decide_eq_true (List.all_eq_true.mp h _ hmem)
  rw [Nat.add_sub_cancel' hbounds.1, UInt8.ofNat_toNat] at hall
  exact hall

theorem isWord_of_isLower {fresh : Bool} {b : UInt8} {s : Text} {kind : TokenKind} {n : Nat}
    (h : extent? fresh b s = some (kind, n)) (hb : Byte.isLower b = true) :
    kind = .ident ∨ kind = .keyword ∨ kind = .builtin := by
  have hletter : (b < 0x80 ∧ isSeparator b = false ∧ b ≠ Byte.hash ∧ b ≠ Byte.slash) ∧
      Byte.isDigit b = false ∧ b ≠ Byte.dot ∧ isWordStart (Char.ofNat b.toNat) = true :=
    of_isLower (P := fun b => (b < 0x80 ∧ isSeparator b = false ∧ b ≠ Byte.hash ∧
      b ≠ Byte.slash) ∧ Byte.isDigit b = false ∧ b ≠ Byte.dot ∧
      isWordStart (Char.ofNat b.toNat) = true) hb (by decide)
  rcases hletter with ⟨⟨hsmall, hsep, hhash, hslash⟩, hdigit, hdot, hstart⟩
  have hform : form fresh b s.head? = .plain := by
    unfold form
    simp [hsep, hhash, hslash]
  have hfirst : (Rune.first b s).char = Char.ofNat b.toNat := by rw [Rune.first, if_pos hsmall]
  rw [extent?_eq, hform] at h
  have hplain : plainExtent b s = (kind, n) := Option.some.inj h
  unfold plainExtent at hplain
  rw [if_neg (by simp [hdigit, hdot]), if_pos (by rw [hfirst]; exact hstart)] at hplain
  rw [show kind = classify _ from (congrArg Prod.fst hplain).symm]
  unfold classify
  split
  · exact Or.inr (Or.inl rfl)
  · split
    · exact Or.inr (Or.inr rfl)
    · exact Or.inl rfl

end Lexer

/-!
# Cutting and joining sources

A piece stays a piece when the text behind it is replaced, as long as the line
it stands on stays.  White space in front of a source changes its lexemes only
by the lines they stand on.
-/

namespace Lexer

/-!
# Text up to a barrier
-/

inductive SameUntilBarrier : Text -> Text -> Prop where
  | refl (s : Text) : SameUntilBarrier s s
  | barrier {c : UInt8} (hc : isBarrier c = true) (x y y' : Text) :
      SameUntilBarrier (x ++ c :: y) (x ++ c :: y')

theorem SameUntilBarrier.append {r r' : Text} (h : SameUntilBarrier r r') (w : Text) :
    SameUntilBarrier (w ++ r) (w ++ r') := by
  cases h with
  | refl => exact SameUntilBarrier.refl (w ++ r)
  | barrier hc x y y' =>
      rw [← List.append_assoc, ← List.append_assoc]
      exact SameUntilBarrier.barrier hc (w ++ x) y y'

theorem SameUntilBarrier.head?_eq {r r' : Text} (h : SameUntilBarrier r r') :
    r'.head? = r.head? := by
  cases h with
  | refl => rfl
  | barrier hc x y y' => cases x <;> rfl

theorem extent?_sameUntilBarrier {fresh : Bool} {b : UInt8} {w r r' : Text} {kind : TokenKind}
    (h : extent? fresh b (w ++ r) = some (kind, w.length)) (hr : SameUntilBarrier r r') :
    extent? fresh b (w ++ r') = some (kind, w.length) := by
  refine extent?_of_head? h hr.head?_eq fun _ => ?_
  cases hr with
  | refl => rfl
  | barrier hc x y y' =>
      rw [← List.append_assoc, ← List.append_assoc, plainExtent_barrier hc, plainExtent_barrier hc]

inductive SameLine : Text -> Text -> Prop where
  | refl (s : Text) : SameLine s s
  | newline (x y y' : Text) : SameLine (x ++ Byte.newline :: y) (x ++ Byte.newline :: y')

theorem SameLine.append {r r' : Text} (h : SameLine r r') (w : Text) :
    SameLine (w ++ r) (w ++ r') := by
  cases h with
  | refl => exact SameLine.refl (w ++ r)
  | newline x y y' =>
      rw [← List.append_assoc, ← List.append_assoc]
      exact SameLine.newline (w ++ x) y y'

theorem SameLine.untilBarrier {r r' : Text} (h : SameLine r r') : SameUntilBarrier r r' := by
  cases h with
  | refl => exact SameUntilBarrier.refl r
  | newline x y y' => exact SameUntilBarrier.barrier isBarrier_newline x y y'

theorem extent?_sameLine {fresh : Bool} {b : UInt8} {w r r' : Text} {kind : TokenKind}
    (h : extent? fresh b (w ++ r) = some (kind, w.length)) (hr : SameLine r r') :
    extent? fresh b (w ++ r') = some (kind, w.length) :=
  extent?_sameUntilBarrier h hr.untilBarrier

/-!
# White space in front
-/

def lexemesFrom (line : Nat) : List Piece -> List Lexeme
  | [] => [⟨.eof, [], line⟩]
  | w :: ws =>
      if w.kind == .whitespace || w.kind == .lineComment || w.kind == .blockComment then
        lexemesFrom (line + w.text.newlines) ws
      else ⟨w.kind, w.text, line⟩ :: lexemesFrom (line + w.text.newlines) ws

theorem lexemes_place (p : Position) (ws : List Piece) :
    lexemes (place p ws) = lexemesFrom p.line ws := by
  induction ws generalizing p with
  | nil => rfl
  | cons w ws ih =>
      have hrest := ih (p.advance w.text)
      rw [Position.line_advance] at hrest
      unfold lexemes significant at hrest ⊢
      rw [place_cons, lexemesFrom, ← hrest]
      cases htrivia : (w.kind == .whitespace || w.kind == .lineComment ||
          w.kind == .blockComment) with
      | false =>
          rw [List.filter_cons_of_pos (by simp [Token.isTrivia, htrivia])]
          rfl
      | true =>
          rw [List.filter_cons_of_neg (by simp [Token.isTrivia, htrivia])]
          rfl

/-- White space in front of a source is a piece, or goes to the first one; it lets a directive
follow if it holds a newline. -/
theorem exists_lexes_separators {fresh : Bool} {w s : Text} {ws : List Piece}
    (hw : forall c, c ∈ w -> isSeparator c = true)
    (hs : Lexes (fresh || w.contains Byte.newline) s ws) :
    exists us, Lexes fresh (w ++ s) us ∧
      ((w = [] ∧ us = ws) ∨ us = ⟨.whitespace, w⟩ :: ws ∨
        exists v vs, ws = ⟨.whitespace, v⟩ :: vs ∧ us = ⟨.whitespace, w ++ v⟩ :: vs) := by
  cases w with
  | nil =>
      simp only [List.contains_nil, Bool.or_false] at hs
      exact ⟨ws, hs, Or.inl ⟨rfl, rfl⟩⟩
  | cons b w =>
      have hb : isSeparator b = true := hw b List.mem_cons_self
      have hw : forall c, c ∈ w -> isSeparator c = true :=
        fun c hc => hw c (List.mem_cons_of_mem b hc)
      cases hs with
      | nil =>
          refine ⟨[⟨.whitespace, b :: w⟩], ?_, Or.inr (Or.inl rfl)⟩
          exact Lexes.cons (extent?_of_separators hb hw (by simp)) (Lexes.nil _)
      | @cons _ kind c v rest vs hextent hrest =>
          cases hc : isSeparator c with
          | false =>
              refine ⟨⟨.whitespace, b :: w⟩ :: ⟨kind, c :: v⟩ :: vs, ?_, Or.inr (Or.inl rfl)⟩
              apply Lexes.cons (extent?_of_separators hb hw (by simpa using hc))
              exact Lexes.cons hextent hrest
          | true =>
              have hform : form (fresh || (b :: w).contains Byte.newline) c (v ++ rest).head? =
                  .space := by
                unfold form
                rw [if_pos hc]
              rw [extent?_eq, hform] at hextent
              simp only [Option.some.injEq, Prod.mk.injEq] at hextent
              rcases hextent with ⟨rfl, hrun⟩
              rcases run_append_eq_length_iff.mp hrun with ⟨hv, hrest'⟩
              refine ⟨⟨.whitespace, b :: (w ++ c :: v)⟩ :: vs, ?_,
                Or.inr (Or.inr ⟨c :: v, vs, rfl, rfl⟩)⟩
              have hall : forall d, d ∈ w ++ c :: v -> isSeparator d = true := by
                intro d hd
                rcases List.mem_append.mp hd with hd | hd
                · exact hw d hd
                · rcases List.mem_cons.mp hd with rfl | hd
                  · exact hc
                  · exact hv d hd
              have hmerged : Lexes fresh (b :: ((w ++ c :: v) ++ rest))
                  (⟨.whitespace, b :: (w ++ c :: v)⟩ :: vs) := by
                apply Lexes.cons (extent?_of_separators hb hall hrest')
                simpa [staysFresh, Bool.or_assoc] using hrest
              simpa using hmerged

theorem lexes_separators_append {fresh : Bool} {w s : Text} {ws : List Piece}
    (hw : forall c, c ∈ w -> isSeparator c = true)
    (hs : Lexes (fresh || w.contains Byte.newline) s ws) :
    exists us, Lexes fresh (w ++ s) us ∧
      forall line, lexemesFrom line us = lexemesFrom (line + w.newlines) ws := by
  rcases exists_lexes_separators hw hs with ⟨us, hus, hshape⟩
  refine ⟨us, hus, fun line => ?_⟩
  rcases hshape with ⟨rfl, rfl⟩ | rfl | ⟨v, vs, rfl, rfl⟩
  · rfl
  · rfl
  · simp [lexemesFrom, Text.newlines, List.count_append, Nat.add_assoc]

end Lexer

end EffectShader
