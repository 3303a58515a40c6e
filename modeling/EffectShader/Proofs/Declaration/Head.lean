import EffectShader.Proofs.Declaration.Qualifiers
import EffectShader.Proofs.Text.Trim

/-!
# Words between white space

The qualifiers in front of a type are words between white space and comments.
They stay the same words when a layout qualifier is taken out from among them and
white space is taken off at both ends.
-/

namespace EffectShader

namespace Lexer

/-!
# Pieces anywhere in a line
-/

theorem Cuts.isCut {f g : Bool} {us : List Piece} {r : Text} (h : Cuts f us g r) :
    forall u, u ∈ us -> IsCut u := by
  induction h with
  | nil => simp
  | @cons fresh after kind b v r us hextent _ ih =>
      intro u hu
      rcases List.mem_cons.mp hu with rfl | hu
      · exact ⟨fresh, b, v, spell us ++ r, rfl, hextent⟩
      · exact ih u hu

def CutsAnywhere (us : List Piece) (r : Text) : Prop :=
  forall f, exists g, Cuts f us g r

theorem CutsAnywhere.nil (r : Text) : CutsAnywhere [] r :=
  fun f => ⟨f, Cuts.nil f r⟩

theorem CutsAnywhere.append {us vs : List Piece} {r : Text}
    (hus : CutsAnywhere us (spell vs ++ r)) (hvs : CutsAnywhere vs r) :
    CutsAnywhere (us ++ vs) r := by
  intro f
  rcases hus f with ⟨g, hus⟩
  rcases hvs g with ⟨h, hvs⟩
  exact ⟨h, hus.append hvs⟩

theorem CutsAnywhere.exchange {us : List Piece} {r r' : Text} (h : CutsAnywhere us r)
    (hcloses : forall w, us.getLast? = some w -> Closes w r r') : CutsAnywhere us r' := by
  intro f
  rcases h f with ⟨g, hus⟩
  exact ⟨g, hus.exchange hcloses⟩

theorem CutsAnywhere.isCut {us : List Piece} {r : Text} (h : CutsAnywhere us r) :
    forall u, u ∈ us -> IsCut u := by
  rcases h true with ⟨g, hcuts⟩
  exact hcuts.isCut

theorem Cuts.anywhere {f g : Bool} {us : List Piece} {r : Text} (h : Cuts f us g r)
    (hhash : forall u, u ∈ us -> u.text.head? ≠ some Byte.hash) : CutsAnywhere us r := by
  induction h with
  | nil fresh r => exact CutsAnywhere.nil r
  | @cons fresh after kind b v r us hextent _ ih =>
      intro f
      have hb : b ≠ Byte.hash := by
        intro hb
        exact hhash _ List.mem_cons_self (by rw [hb]; rfl)
      have hrest := ih fun u hu => hhash u (List.mem_cons_of_mem _ hu)
      rcases hrest (staysFresh f kind (b :: v)) with ⟨g, hg⟩
      refine ⟨g, Cuts.cons ?_ hg⟩
      rw [extent?_of_ne_hash hb f fresh]
      exact hextent

theorem Cuts.anywhere_of_plain {f g : Bool} {w : Piece} {us : List Piece} {r : Text}
    (h : Cuts f (w :: us) g r) (hw : w.isPlain = true) (hhash : w ≠ strayHash) :
    forall f', Cuts f' (w :: us) g r := by
  intro f'
  have hcut := h.isCut w List.mem_cons_self
  cases h with
  | @cons _ _ kind b v _ _ hextent hrest =>
      have hb : b ≠ Byte.hash := by
        intro hb
        subst hb
        exact hhash (hcut.eq_singleton hw rfl List.mem_cons_self)
      have hform : formOf kind = .plain := eq_of_beq hw
      rw [staysFresh_of_plain hform] at hrest
      refine Cuts.cons ?_ ?_
      · rw [extent?_of_ne_hash hb f' f]
        exact hextent
      · rw [staysFresh_of_plain hform]
        exact hrest

/-!
# Bytes at which pieces start and end
-/

theorem extent?_letters {fresh f : Bool} {b : UInt8} {v r r' : Text} {kind : TokenKind}
    (h : extent? fresh b (v ++ r) = some (kind, v.length)) (hb : Byte.isLower b = true)
    (hr : r'.head?.all isBarrier = true) : extent? f b (v ++ r') = some (kind, v.length) := by
  have hform : forall next, form f b next = .plain := by
    intro next
    have hletter : isSeparator b = false ∧ b ≠ Byte.hash ∧ b ≠ Byte.slash :=
      of_isLower (P := fun b => isSeparator b = false ∧ b ≠ Byte.hash ∧ b ≠ Byte.slash) hb
        (by decide)
    unfold form
    simp [hletter]
  have hkind : formOf kind = .plain := by
    rcases isWord_of_isLower h hb with rfl | rfl | rfl <;> rfl
  have hextent := plainExtent_of_extent? h hkind
  have hshort : plainExtent b v = (kind, v.length) := by
    rw [plainExtent_of_append_le (r := r) (by rw [hextent]), hextent]
  rw [extent?_eq, hform]
  cases r' with
  | nil => rw [List.append_nil, hshort]
  | cons c y => rw [plainExtent_barrier (by simpa using hr), hshort]

theorem not_isLower_after {fresh : Bool} {b c : UInt8} {v y : Text} {kind : TokenKind}
    (h : extent? fresh b (v ++ c :: y) = some (kind, v.length))
    (hkind : kind = .ident ∨ kind = .keyword ∨ kind = .builtin) : Byte.isLower c = false := by
  cases hc : Byte.isLower c with
  | false => rfl
  | true =>
      have hletter : c < 0x80 ∧ isWordChar (Char.ofNat c.toNat) = true :=
        of_isLower (P := fun c => c < 0x80 ∧ isWordChar (Char.ofNat c.toNat) = true) hc (by decide)
      have hafter := isWordChar_after h hkind
      rw [Rune.first, if_pos hletter.1, hletter.2] at hafter
      cases hafter

theorem separators_of_isCut {w : Piece} (h : IsCut w) (hw : w.kind = .whitespace) :
    w.text ≠ [] ∧ forall c, c ∈ w.text -> isSeparator c = true := by
  rcases h with ⟨fresh, b, v, rest, htext, hextent⟩
  rw [hw] at hextent
  rw [htext]
  exact ⟨List.cons_ne_nil b v, separators_of_extent? hextent⟩

theorem slash_of_isCut {w : Piece} (h : IsCut w) (hw : w.kind = .blockComment) :
    w.text.head? = some Byte.slash ∧ w.text.getLast? = some Byte.slash := by
  rcases h with ⟨fresh, b, v, rest, htext, hextent⟩
  rw [hw] at hextent
  have hform : form fresh b (v ++ rest).head? = .blockComment := form_of_extent? hextent
  have hspec := form_spec fresh b (v ++ rest).head?
  rw [hform] at hspec
  rw [extent?_eq, hform] at hextent
  simp only [Option.map_eq_some_iff, Prod.mk.injEq, true_and] at hextent
  rcases hextent with ⟨n, hn, rfl⟩
  rw [htext]
  rcases exists_of_blockCommentExtent? hn with ⟨c, inner, rfl, _⟩
  refine ⟨congrArg some hspec.1, ?_⟩
  rw [show (("*/" : Text)) = [Byte.star] ++ [Byte.slash] from rfl, ← List.append_assoc,
    ← List.cons_append, ← List.cons_append, List.getLast?_concat]

/-!
# White space in front
-/

theorem CutsAnywhere.space {us : List Piece} {r s : Text} (h : CutsAnywhere us r) (hs : s ≠ [])
    (hsep : forall c, c ∈ s -> isSeparator c = true)
    (hr : forall c, r.head? = some c -> isSeparator c = false) :
    exists us', spell us' = s ++ spell us ∧ CutsAnywhere us' r ∧
      exists t vs, us' = ⟨.whitespace, t⟩ :: vs ∧ solid vs = solid us ∧
        forall v, v ∈ vs -> v ∈ us := by
  cases s with
  | nil => exact absurd rfl hs
  | cons b s =>
      have hb : isSeparator b = true := hsep b List.mem_cons_self
      have hs : forall c, c ∈ s -> isSeparator c = true :=
        fun c hc => hsep c (List.mem_cons_of_mem b hc)
      cases us with
      | nil =>
          refine ⟨[⟨.whitespace, b :: s⟩], by simp, ?_, _, _, rfl, rfl, by simp⟩
          intro f
          exact ⟨_, Cuts.cons (extent?_of_separators hb hs hr) (Cuts.nil _ r)⟩
      | cons u us =>
          rcases h.isCut u List.mem_cons_self with ⟨fresh, c, v, rest, htext, hextent⟩
          rcases u with ⟨kind, text⟩
          dsimp only at htext hextent
          subst htext
          cases hc : isSeparator c with
          | false =>
              refine ⟨⟨.whitespace, b :: s⟩ :: ⟨kind, c :: v⟩ :: us, by simp, ?_, _, _, rfl, rfl,
                fun v hv => hv⟩
              intro f
              rcases h (staysFresh f .whitespace (b :: s)) with ⟨g, hg⟩
              refine ⟨g, Cuts.cons (extent?_of_separators hb hs ?_) hg⟩
              intro d hd
              rw [show d = c from (Option.some.inj hd).symm, hc]
          | true =>
              have hform : form fresh c (v ++ rest).head? = .space := by
                unfold form
                rw [if_pos hc]
              have hkind : kind = .whitespace := by
                rw [extent?_eq, hform] at hextent
                exact (Prod.mk.inj (Option.some.inj hextent)).1.symm
              subst hkind
              refine ⟨⟨.whitespace, b :: (s ++ c :: v)⟩ :: us, by simp, ?_, _, us, rfl, ?_, ?_⟩
              · intro f
                -- a newline in front counts like one at which the pieces start
                rcases h (f || (b :: s).contains Byte.newline) with ⟨g, hg⟩
                cases hg with
                | cons hextent' hrest =>
                    rw [extent?_eq, show form _ c _ = .space by unfold form; rw [if_pos hc]]
                      at hextent'
                    have hrun := congrArg Prod.snd (Option.some.inj hextent')
                    rcases run_append_eq_length_iff.mp hrun with ⟨hv, hnext⟩
                    have hall : forall d, d ∈ s ++ c :: v -> isSeparator d = true := by
                      intro d hd
                      rcases List.mem_append.mp hd with hd | hd
                      · exact hs d hd
                      · rcases List.mem_cons.mp hd with rfl | hd
                        · exact hc
                        · exact hv d hd
                    refine ⟨g, Cuts.cons (extent?_of_separators hb hall hnext) ?_⟩
                    simpa [staysFresh, Bool.or_assoc] using hrest
              · rw [solid_cons_of_not_isPlain rfl]
              · exact fun v hv => List.mem_cons_of_mem _ hv

/-!
# Heads of statements
-/

inductive IsHead : Piece -> Prop where
  | space (text : Text) : IsHead ⟨.whitespace, text⟩
  | comment (text : Text) : IsHead ⟨.blockComment, text⟩
  | word {kind : TokenKind} {text : Text} :
      kind = .ident ∨ kind = .keyword ∨ kind = .builtin -> text ≠ [] ->
      (forall c, c ∈ text -> Byte.isLower c = true) -> IsHead ⟨kind, text⟩

theorem IsHead.isPlain_of_word {kind : TokenKind} {text : Text}
    (h : kind = .ident ∨ kind = .keyword ∨ kind = .builtin) :
    Piece.isPlain ⟨kind, text⟩ = true := by
  rcases h with rfl | rfl | rfl <;> rfl

theorem IsHead.head?_eq {w : Piece} (h : IsHead w) (hcut : IsCut w) :
    exists b v, w.text = b :: v ∧ b ≠ Byte.hash ∧
      ((isBarrier b = true ∧ w.isPlain = false) ∨ (Byte.isLower b = true ∧ w.isPlain = true)) := by
  cases h with
  | space text =>
      rcases separators_of_isCut hcut rfl with ⟨hne, hsep⟩
      cases text with
      | nil => exact absurd rfl hne
      | cons b v =>
          have hb := hsep b List.mem_cons_self
          refine ⟨b, v, rfl, ?_, Or.inl ⟨isBarrier_of_isSeparator hb, rfl⟩⟩
          intro hhash
          rw [hhash] at hb
          cases hb
  | comment text =>
      have hslash := (slash_of_isCut hcut rfl).1
      cases text with
      | nil => cases hslash
      | cons b v =>
          rw [show b = Byte.slash from Option.some.inj hslash]
          exact ⟨Byte.slash, v, rfl, by decide, Or.inl ⟨rfl, rfl⟩⟩
  | @word kind text hkind hne hlower =>
      cases text with
      | nil => exact absurd rfl hne
      | cons b v =>
          have hb := hlower b List.mem_cons_self
          refine ⟨b, v, rfl, ?_, Or.inr ⟨hb, isPlain_of_word hkind⟩⟩
          exact of_isLower (P := fun b => b ≠ Byte.hash) hb (by decide)

theorem IsHead.isBoundary_eq_false {w : Piece} (h : IsHead w) : w.isBoundary = false := by
  cases h with
  | space text => rfl
  | comment text => rfl
  | word hkind _ _ => rcases hkind with rfl | rfl | rfl <;> rfl

theorem IsHead.isSeparator_eq_false {w : Piece} (h : IsHead w) (hcut : IsCut w)
    (hkind : w.kind ≠ .whitespace) :
    exists b v, w.text = b :: v ∧ isSeparator b = false := by
  rcases h.head?_eq hcut with ⟨b, v, htext, _, hb⟩
  refine ⟨b, v, htext, ?_⟩
  cases h with
  | space text => exact absurd rfl hkind
  | comment text =>
      have hslash := (slash_of_isCut hcut rfl).1
      rw [htext] at hslash
      rw [Option.some.inj hslash]
      rfl
  | word hword _ _ =>
      rcases hb with ⟨_, hplain⟩ | ⟨hlower, _⟩
      · rw [IsHead.isPlain_of_word hword] at hplain
        cases hplain
      · exact of_isLower (P := fun b => isSeparator b = false) hlower (by decide)

theorem Cuts.anywhere_of_isHead {f g : Bool} {us : List Piece} {r : Text} (h : Cuts f us g r)
    (hhead : forall u, u ∈ us -> IsHead u) : CutsAnywhere us r := by
  apply h.anywhere
  intro u hu hhash
  rcases (hhead u hu).head?_eq (h.isCut u hu) with ⟨b, v, htext, hb, _⟩
  rw [htext] at hhash
  exact hb (Option.some.inj hhash)

theorem exists_cuts_joined {f g : Bool} {as bs : List Piece} {c : UInt8} {y r : Text}
    (has : Cuts f as g (c :: y)) (hc : Byte.isLower c = true)
    (hahead : forall u, u ∈ as -> IsHead u) (hbs : CutsAnywhere bs r)
    (hbhead : forall u, u ∈ bs -> IsHead u)
    (hr : forall c, r.head? = some c -> isSeparator c = false) :
    exists us, spell us = spell as ++ spell bs ∧ solid us = solid as ++ solid bs ∧
      (forall u, u ∈ us -> IsHead u) ∧ CutsAnywhere us r := by
  generalize hs : c :: y = s at has
  induction has with
  | nil fresh s => exact ⟨bs, rfl, rfl, hbhead, hbs⟩
  | @cons fresh after kind b v s as hextent has ih =>
      subst hs
      have hw := hahead _ List.mem_cons_self
      have hwcut : IsCut ⟨kind, b :: v⟩ := ⟨fresh, b, v, _, rfl, hextent⟩
      have hahead : forall u, u ∈ as -> IsHead u :=
        fun u hu => hahead u (List.mem_cons_of_mem _ hu)
      rcases ih hahead rfl with ⟨us, hspell, hsolid, hhead, hus⟩
      rcases hw.head?_eq hwcut with ⟨b', v', htext, hhash, hfirst⟩
      rcases List.cons.inj htext with ⟨rfl, rfl⟩
      generalize hpiece : (⟨kind, b :: v⟩ : Piece) = w at hw hwcut
      cases hw with
      | space text =>
          rcases Piece.mk.inj hpiece with ⟨rfl, rfl⟩
          rcases separators_of_isCut hwcut rfl with ⟨hne, hsep⟩
          rcases hus.space hne hsep hr with ⟨us', hspell', hus', t, vs, rfl, hvs, hmem⟩
          refine ⟨⟨.whitespace, t⟩ :: vs, ?_, ?_, ?_, hus'⟩
          · rw [hspell', hspell]
            simp
          · rw [solid_cons_of_not_isPlain rfl, hvs, hsolid, solid_cons_of_not_isPlain rfl]
          · intro u hu
            rcases List.mem_cons.mp hu with rfl | hu
            · exact IsHead.space t
            · exact hhead u (hmem u hu)
      | comment text =>
          rcases Piece.mk.inj hpiece with ⟨rfl, rfl⟩
          refine ⟨⟨.blockComment, b :: v⟩ :: us, ?_, ?_, ?_, ?_⟩
          · simp [hspell]
          · rw [solid_cons_of_not_isPlain rfl, hsolid, solid_cons_of_not_isPlain rfl]
          · intro u hu
            rcases List.mem_cons.mp hu with rfl | hu
            · exact IsHead.comment (b :: v)
            · exact hhead u hu
          · intro f
            rcases hus (staysFresh f .blockComment (b :: v)) with ⟨g, hg⟩
            refine ⟨g, Cuts.cons ?_ hg⟩
            rw [extent?_of_ne_hash hhash f fresh]
            exact extent?_blockComment hextent (spell us ++ r)
      | @word kind' text hkind hne hlower =>
          rcases Piece.mk.inj hpiece with ⟨rfl, rfl⟩
          have hplain : Piece.isPlain ⟨kind, b :: v⟩ = true := IsHead.isPlain_of_word hkind
          refine ⟨⟨kind, b :: v⟩ :: us, ?_, ?_, ?_, ?_⟩
          · simp [hspell]
          · rw [solid_cons_of_isPlain hplain, hsolid, solid_cons_of_isPlain hplain]
            rfl
          · intro u hu
            rcases List.mem_cons.mp hu with rfl | hu
            · exact IsHead.word hkind hne hlower
            · exact hhead u hu
          · -- another word cannot follow at once, so trivia does
            have hnext : (spell us ++ r).head?.all isBarrier = true := by
              cases as with
              | nil =>
                  rw [not_isLower_after hextent hkind] at hc
                  cases hc
              | cons a as =>
                  rcases (hahead a List.mem_cons_self).head?_eq
                    (has.isCut a List.mem_cons_self) with ⟨d, x, hd, _, hcase⟩
                  rw [spell_cons, hd] at hextent
                  rcases hcase with ⟨hbarrier, _⟩ | ⟨hletter, _⟩
                  · rw [hspell, spell_cons, hd]
                    simpa using hbarrier
                  · rw [not_isLower_after hextent hkind] at hletter
                    cases hletter
            intro f
            rcases hus (staysFresh f kind (b :: v)) with ⟨g, hg⟩
            exact ⟨g, Cuts.cons (extent?_letters hextent (hlower b List.mem_cons_self) hnext) hg⟩

/-!
# Trimmed heads
-/

theorem exists_core (us : List Piece) :
    exists x ms y, us = x ++ (ms ++ y) ∧ (forall u, u ∈ x ++ y -> u.kind = .whitespace) ∧
      (forall u, ms.head? = some u -> u.kind ≠ .whitespace) ∧
      forall u, ms.getLast? = some u -> u.kind ≠ .whitespace := by
  induction us with
  | nil => exact ⟨[], [], [], rfl, by simp, by simp, by simp⟩
  | cons w us ih =>
      rcases ih with ⟨x, ms, y, rfl, hends, hhead, hlast⟩
      by_cases hw : w.kind = .whitespace
      · refine ⟨w :: x, ms, y, rfl, ?_, hhead, hlast⟩
        intro u hu
        rcases List.mem_cons.mp hu with rfl | hu
        · exact hw
        · exact hends u hu
      · cases ms with
        | nil =>
            refine ⟨[], [w], x ++ y, by simp, by simpa using hends, ?_, ?_⟩
            · intro u hu
              rw [← Option.some.inj hu]
              exact hw
            · intro u hu
              rw [← Option.some.inj hu]
              exact hw
        | cons m ms =>
            refine ⟨[], w :: (x ++ m :: ms), y, by simp, ?_, ?_, ?_⟩
            · intro u hu
              exact hends u (List.mem_append_right x hu)
            · intro u hu
              rw [← Option.some.inj hu]
              exact hw
            · intro u hu
              apply hlast u
              rw [← List.cons_append, List.getLast?_append] at hu
              cases hlast' : (m :: ms).getLast? with
              | none => simp at hlast'
              | some v =>
                  rw [hlast'] at hu
                  exact hu

theorem mem_blankSpellings {c : UInt8} (h : isSeparator c = true) : [c] ∈ Text.blankSpellings := by
  have hcases : c = Byte.newline ∨ c = Byte.space ∨ c = Byte.tab ∨ c = Byte.carriage ∨
      c = 0x0C ∨ c = 0x0B := by
    simpa [isSeparator, or_assoc] using h
  rcases hcases with rfl | rfl | rfl | rfl | rfl | rfl <;> decide

theorem mem_blankSpellings_of_spell {us : List Piece} {r : Text} (h : CutsAnywhere us r)
    {vs : List Piece} (hvs : forall v, v ∈ vs -> v ∈ us ∧ v.kind = .whitespace) :
    forall c, c ∈ spell vs -> [c] ∈ Text.blankSpellings := by
  intro c hc
  rcases List.mem_flatten.mp hc with ⟨text, htext, hc⟩
  rcases List.mem_map.mp htext with ⟨v, hv, rfl⟩
  rcases hvs v hv with ⟨hmem, hkind⟩
  exact mem_blankSpellings ((separators_of_isCut (h.isCut v hmem) hkind).2 c hc)

theorem IsHead.graphic {w : Piece} (h : IsHead w) (hcut : IsCut w) (hkind : w.kind ≠ .whitespace) :
    (exists c, w.text.head? = some c ∧ Text.mayEndBlank c = false) ∧
      exists c, w.text.getLast? = some c ∧ Text.mayEndBlank c = false := by
  cases h with
  | space => exact absurd rfl hkind
  | comment text =>
      rcases slash_of_isCut hcut rfl with ⟨hhead, hlast⟩
      exact ⟨⟨_, hhead, rfl⟩, ⟨_, hlast, rfl⟩⟩
  | @word kind text _ hne hlower =>
      have hgraphic : forall c, c ∈ text -> Text.mayEndBlank c = false := fun c hc =>
        of_isLower (P := fun c => Text.mayEndBlank c = false) (hlower c hc) (by decide)
      have hlast : text.getLast? = some (text.getLast hne) := List.getLast?_eq_some_getLast hne
      have hhead : text.head? = some (text.head hne) := List.head?_eq_some_head hne
      exact ⟨⟨_, hhead, hgraphic _ (List.head_mem hne)⟩,
        ⟨_, hlast, hgraphic _ (List.getLast_mem hne)⟩⟩

theorem exists_cuts_trimmed {us : List Piece} {r : Text} (h : CutsAnywhere us r)
    (hhead : forall u, u ∈ us -> IsHead u) :
    exists ms, Text.trim (spell us) = spell ms ∧ solid ms = solid us ∧
      (forall u, u ∈ ms -> IsHead u) ∧ (forall r', CutsAnywhere ms (Byte.space :: r')) ∧
      (forall u, ms.head? = some u -> u.kind ≠ .whitespace) ∧
      forall u, us.head? = some u -> u.isPlain = true -> ms.head? = some u := by
  rcases exists_core us with ⟨x, ms, y, rfl, hends, hfirst, hlast⟩
  have hloose : forall vs, (forall v, v ∈ vs -> v.kind = .whitespace) -> solid vs = [] := by
    intro vs hvs
    apply List.filter_eq_nil_iff.mpr
    intro v hv
    unfold Piece.isPlain
    rw [hvs v hv]
    decide
  have hms : forall u, u ∈ ms -> IsHead u ∧ IsCut u := by
    intro u hu
    have hmem : u ∈ x ++ (ms ++ y) := by simp [hu]
    exact ⟨hhead u hmem, h.isCut u hmem⟩
  refine ⟨ms, ?_, ?_, fun u hu => (hms u hu).1, ?_, hfirst, ?_⟩
  · rw [spell_append, spell_append]
    apply Text.trim_append
    · exact mem_blankSpellings_of_spell h fun v hv =>
        ⟨List.mem_append_left _ hv, hends v (List.mem_append_left _ hv)⟩
    · exact mem_blankSpellings_of_spell h fun v hv =>
        ⟨by simp [hv], hends v (List.mem_append_right _ hv)⟩
    · intro c hc
      cases ms with
      | nil => cases hc
      | cons m ms =>
          rcases hms m List.mem_cons_self with ⟨hm, hcut⟩
          rcases (hm.graphic hcut (hfirst m rfl)).1 with ⟨d, hd, hgraphic⟩
          rw [spell_cons, List.head?_append, hd] at hc
          rw [← Option.some.inj hc]
          exact hgraphic
    · intro c hc
      rcases List.eq_nil_or_concat ms with rfl | ⟨ns, m, rfl⟩
      · cases hc
      · rcases hms m (by simp) with ⟨hm, hcut⟩
        rcases (hm.graphic hcut (hlast m (by simp))).2 with ⟨d, hd, hgraphic⟩
        rw [List.concat_eq_append, spell_append, spell_cons, spell_nil, List.append_nil,
          List.getLast?_append, hd] at hc
        rw [← Option.some.inj hc]
        exact hgraphic
  · rw [solid_append, solid_append, hloose x fun v hv => hends v (List.mem_append_left _ hv),
      hloose y fun v hv => hends v (List.mem_append_right _ hv), List.nil_append, List.append_nil]
  · intro r'
    rcases h true with ⟨g, hcuts⟩
    rcases hcuts.split with ⟨_, _, hcuts⟩
    rcases hcuts.split with ⟨_, hcuts, _⟩
    have hanywhere := hcuts.anywhere_of_isHead fun u hu => (hms u hu).1
    apply hanywhere.exchange
    intro w hw
    have hwmem : w ∈ ms := List.mem_of_getLast? hw
    cases (hms w hwmem).1 with
    | space text => exact absurd rfl (hlast _ hw)
    | comment text => exact trivial
    | @word kind text hkind _ _ => rcases hkind with rfl | rfl | rfl <;> exact Or.inr rfl
  · intro u hu hplain
    have hspace : u.kind ≠ .whitespace := by
      intro hkind
      unfold Piece.isPlain at hplain
      rw [hkind] at hplain
      cases hplain
    cases x with
    | cons v x =>
        rw [← Option.some.inj hu] at hspace
        exact absurd (hends v (List.mem_append_left _ List.mem_cons_self)) hspace
    | nil =>
        cases ms with
        | cons m ms => exact hu
        | nil => exact absurd (hends u (List.mem_append_right _ (List.mem_of_head? hu))) hspace

end Lexer

namespace Declaration

open Lexer

/-!
# Qualifiers of one word
-/

def qualifierWords : List Text :=
  Storage.all.map (fun s => Text.ofString s.keyword) ++ otherQualifiers ++
    (["lowp", "mediump", "highp"] : List Text)

theorem mem_qualifierWords {q q' : Qualifiers} {t : Token} (h : qualifyWord? q t = some q') :
    t.text ∈ qualifierWords := by
  unfold qualifierWords
  unfold qualifyWord? at h
  split at h
  · rename_i hstorage
    rcases Bool.and_eq_true_iff.mp hstorage with ⟨_, hsome⟩
    rcases Option.isSome_iff_exists.mp hsome with ⟨s, hs⟩
    have hs' : Text.ofString s.keyword = t.text := by
      simpa using List.find?_some hs
    rw [← hs']
    exact List.mem_append_left _ (List.mem_append_left _
      (List.mem_map_of_mem (List.mem_of_find?_eq_some hs)))
  · split at h
    · rename_i hother
      have hmem : t.text ∈ otherQualifiers := by
        simpa using (Bool.and_eq_true_iff.mp hother).2
      exact List.mem_append_left _ (List.mem_append_right _ hmem)
    · split at h
      · rename_i hprecision
        have hmem : t.text ∈ (["lowp", "mediump", "highp"] : List Text) := by
          simpa [Word.isPrecision, or_assoc] using hprecision
        exact List.mem_append_right _ hmem
      · cases h

theorem letters_of_mem {s : Text} (h : s ∈ qualifierWords) :
    s ≠ [] ∧ forall c, c ∈ s -> Byte.isLower c = true := by
  have hall : qualifierWords.all (fun s => !s.isEmpty && s.all Byte.isLower) = true := by
    decide
  have hs := List.all_eq_true.mp hall s h
  rcases Bool.and_eq_true_iff.mp hs with ⟨hne, hlower⟩
  exact ⟨by simpa using hne, List.all_eq_true.mp hlower⟩

theorem isHead_of_qualifyWord? {q q' : Qualifiers} {t : Token} (hcut : IsCut t.piece)
    (h : qualifyWord? q t = some q') : IsHead t.piece := by
  rcases letters_of_mem (mem_qualifierWords h) with ⟨hne, hlower⟩
  rcases hcut with ⟨fresh, b, v, rest, htext, hextent⟩
  have htext : t.text = b :: v := htext
  have hb : Byte.isLower b = true := hlower b (by rw [htext]; exact List.mem_cons_self)
  exact IsHead.word (isWord_of_isLower hextent hb) hne hlower

theorem Qualifies.Words.qualify {q q' : Qualifiers} {ts : List Token} (h : Words q ts q') :
    forall t, t ∈ ts -> exists q₁ q₂, qualifyWord? q₁ t = some q₂ := by
  induction h with
  | nil => simp
  | @cons q q₁ q' t ts _ hqualify _ ih =>
      intro u hu
      rcases List.mem_cons.mp hu with rfl | hu
      · exact ⟨q, q₁, hqualify⟩
      · exact ih u hu

end Declaration

end EffectShader
