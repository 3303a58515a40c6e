import EffectShader.Proofs.Resource.Qualify

/-!
# Split declarations

A declaration of several variables becomes one declaration for each of them, with
the qualifiers and the type of the whole.  Each part declares its variable with the
layout that it was given.
-/

namespace EffectShader

open Lexer

/-!
# Spans of tokens
-/

theorem exists_span {raw before ts after : List Token} (hts : ts ≠ [])
    (h : solidTokens raw = before ++ (ts ++ after)) :
    exists x m y, raw = x ++ (m ++ y) ∧ solidTokens m = ts ∧ m.head? = ts.head? ∧
      m.getLast? = ts.getLast? := by
  have hplain : forall t, t ∈ ts -> t.piece.isPlain = true := by
    intro t ht
    have hmem : t ∈ solidTokens raw := by
      rw [h]
      exact List.mem_append_right _ (List.mem_append_left _ ht)
    exact (List.mem_filter.mp hmem).2
  have hsingle : forall t, t ∈ ts -> solidTokens [t] = [t] := by
    intro t ht
    simp [solidTokens, hplain t ht]
  cases ts with
  | nil => exact absurd rfl hts
  | cons t ts =>
      rcases exists_of_solidTokens h with ⟨x, rest, rfl, _, hrest⟩
      rcases List.eq_nil_or_concat ts with rfl | ⟨mid, last, rfl⟩
      · exact ⟨x, [t], rest, rfl, hsingle t List.mem_cons_self, rfl, rfl⟩
      · rw [List.concat_eq_append] at hsingle hrest ⊢
        have hrest : solidTokens rest = mid ++ last :: after := by
          rw [hrest]
          simp
        rcases exists_of_solidTokens hrest with ⟨mid', y, rfl, hmid, _⟩
        refine ⟨x, t :: (mid' ++ [last]), y, by simp, ?_, rfl, ?_⟩
        · rw [← List.singleton_append, solidTokens_append, solidTokens_append, hmid,
            hsingle t List.mem_cons_self, hsingle last (by simp)]
          rfl
        · rw [← List.cons_append, ← List.cons_append, List.getLast?_concat, List.getLast?_concat]

theorem Situated.slice_span {code s : Text} {o : Nat} {f g : Bool} {x m y : List Token}
    {first last : Token} (h : Situated code o f g (x ++ (m ++ y)) s)
    (hfirst : m.head? = some first) (hlast : m.getLast? = some last) :
    Text.slice code first.offset last.stop = textOf m := by
  have hplaced := h.placed
  have hoffset : first.offset = o + (textOf x).length :=
    (placed_append.mp hplaced).2.head hfirst
  have hstop : last.stop = o + (textOf x).length + (textOf m).length := by
    rcases List.getLast?_eq_some_iff.mp hlast with ⟨front, rfl⟩
    have hshape : x ++ (front ++ [last] ++ y) = (x ++ front) ++ last :: y := by simp
    rw [hshape] at hplaced
    rw [(Placed.offset hplaced).2]
    simp [Nat.add_assoc]
  rw [hoffset, hstop]
  exact h.slice_eq

namespace Declaration

/-!
# One variable of several
-/

theorem exists_of_spellsVariables {names : List Token} {vs : List Variable}
    (h : SpellsVariables names vs) {v : Variable} (hv : v ∈ vs) :
    exists before ts after, names = before ++ (ts ++ after) ∧ SpellsVariable ts v := by
  induction h with
  | nil => cases hv
  | @single ts u hu =>
      rw [List.mem_singleton.mp hv]
      exact ⟨[], ts, [], by simp, hu⟩
  | @cons ts us comma u vs hu _ _ ih =>
      rcases List.mem_cons.mp hv with rfl | hv
      · exact ⟨[], ts, comma :: us, rfl, hu⟩
      · rcases ih hv with ⟨before, ts', after, rfl, hts'⟩
        exact ⟨ts ++ comma :: before, ts', after, by simp, hts'⟩

structure ReadsNames (text : Text) (us : List Piece) (names : List Token) : Prop where
  spell_eq : spell us = text
  cuts : forall f r, Cuts f us false (Byte.semicolon :: r)
  inner : forall u, u ∈ us -> u.isBoundary = false
  start : exists c, text.head? = some c ∧ isSeparator c = false
  solid_eq : solid us = names.map Token.piece

theorem exists_readsNames {code s : Text} {o : Nat} {f g : Bool} {raw post : List Token}
    {before names after : List Token} {first last : Token}
    (h : Situated code o f g (raw ++ post) s) (hopen : IsOpen raw)
    (hsolid : solidTokens raw = before ++ (names ++ after)) (hfirst : names.head? = some first)
    (hlast : names.getLast? = some last) :
    exists us, ReadsNames (Text.slice code first.offset last.stop) us names := by
  have hne : names ≠ [] := List.ne_nil_of_mem (List.mem_of_head? hfirst)
  rcases exists_span hne hsolid with ⟨x, m, y, rfl, hm, hmhead, hmlast⟩
  rw [hfirst] at hmhead
  rw [hlast] at hmlast
  rw [List.append_assoc, List.append_assoc] at h
  have hslice := h.slice_span hmhead hmlast
  rcases h.split with ⟨g₁, _, hrest⟩
  rcases hrest.split with ⟨g₂, hmid, _⟩
  have hplain : forall t, t ∈ names -> t.piece.isPlain = true := by
    intro t ht
    rw [← hm] at ht
    exact (List.mem_filter.mp ht).2
  have hlast' : (m.map Token.piece).getLast? = some last.piece := by
    rw [List.getLast?_map, hmlast]
    rfl
  have hg₂ : g₂ = false := Cuts.after_plain hmid.cuts hlast'
    (hplain last (List.mem_of_getLast? hlast))
  subst hg₂
  refine ⟨m.map Token.piece, hslice.symm, ?_, ?_, ?_, ?_⟩
  · intro f' r
    have hcuts : Cuts f' (m.map Token.piece) false (textOf (y ++ post) ++ s) := by
      rcases List.head?_eq_some_iff.mp hmhead with ⟨rest, rfl⟩
      apply hmid.cuts.anywhere_of_plain (hplain first (List.mem_of_head? hfirst))
      intro heq
      apply hmid.noHash
      rw [← heq]
      exact List.mem_cons_self
    apply hcuts.exchange
    intro w hw
    rw [hlast'] at hw
    rw [← Option.some.inj hw]
    have hform : formOf last.piece.kind = .plain :=
      eq_of_beq (hplain last (List.mem_of_getLast? hlast))
    unfold Closes
    rw [hform]
    exact Or.inr rfl
  · intro u hu
    rcases List.mem_map.mp hu with ⟨t, ht, rfl⟩
    exact hopen.inner t (List.mem_append_right _ (List.mem_append_left _ ht))
  · rw [hslice]
    rcases List.head?_eq_some_iff.mp hmhead with ⟨rest, rfl⟩
    have hcut := hmid.cuts.isCut first.piece List.mem_cons_self
    have htoken := hcut.isToken (hplain first (List.mem_of_head? hfirst))
    rcases hcut with ⟨_, b, v, _, htext, _⟩
    refine ⟨b, ?_, isSeparator_of_isToken htoken [] b ?_⟩
    · rw [textOf_cons, ← Token.text_piece, htext]
      rfl
    · rw [htext]
      rfl
  · rw [← map_piece_solidTokens, hm]

structure ReadsVariable (text : Text) (us : List Piece) (v : Variable) : Prop where
  spell_eq : spell us = text
  cuts : forall f r, Cuts f us false (Byte.semicolon :: r)
  inner : forall u, u ∈ us -> u.isBoundary = false
  start : exists c, text.head? = some c ∧ isSeparator c = false
  reads : exists names : List Token, solid us = names.map Token.piece ∧ SpellsNames names [v]

theorem exists_readsVariable {code s : Text} {o : Nat} {f g : Bool} {raw names : List Token}
    {before post : List Token} {vs : List Variable} {v : Variable}
    (h : Situated code o f g (raw ++ post) s) (hopen : IsOpen raw)
    (hsolid : solidTokens raw = before ++ names) (hnames : SpellsVariables names vs)
    (hv : v ∈ vs) : exists us, ReadsVariable (Text.slice code v.start v.stop) us v := by
  rcases exists_of_spellsVariables hnames hv with ⟨pre, ts, after, rfl, hts⟩
  rcases hts.ends with ⟨first, last, hfirst, hlast, _, hstart, hstop⟩
  rw [← List.append_assoc] at hsolid
  rcases exists_readsNames h hopen hsolid hfirst hlast with ⟨us, hus⟩
  rw [hstart, hstop]
  exact ⟨us, hus.spell_eq, hus.cuts, hus.inner, hus.start, ts, hus.solid_eq, hts.spellsNames⟩

/-!
# The qualifiers of a part
-/

theorem Qualifies.words {q q' : Qualifiers} {ts : List Token} (h : Qualifies q ts q')
    (hts : forall t, t ∈ ts -> isLayoutWord t = false) : Qualifies.Words q ts q' := by
  induction h with
  | nil q => exact Qualifies.Words.nil q
  | word hlayout hword _ ih =>
      exact Qualifies.Words.cons hlayout hword (ih fun t ht => hts t (List.mem_cons_of_mem _ ht))
  | layout hspan _ _ =>
      rcases hspan with ⟨word, paren, inner, rfl, hword, _⟩
      rw [hts word List.mem_cons_self] at hword
      cases hword

theorem isHead_of_words {f g : Bool} {x : List Token} {r : Text} {q q' : Qualifiers}
    (hcuts : Cuts f (x.map Token.piece) g r) (hwords : Qualifies.Words q (solidTokens x) q')
    (hx : forall t, t ∈ x -> t.kind ≠ .lineComment ∧ t.kind ≠ .directive) :
    forall u, u ∈ x.map Token.piece -> IsHead u := by
  intro u hu
  rcases List.mem_map.mp hu with ⟨t, ht, rfl⟩
  cases hplain : t.piece.isPlain with
  | true =>
      rcases hwords.qualify t (List.mem_filter.mpr ⟨ht, hplain⟩) with ⟨q₁, q₂, hword⟩
      exact isHead_of_qualifyWord? (hcuts.isCut _ hu) hword
  | false =>
      rcases hx t ht with ⟨hcomment, hdirective⟩
      have hform : formOf t.kind ≠ .plain := ne_of_beq_false hplain
      unfold Token.piece
      cases hkind : t.kind with
      | whitespace => exact IsHead.space t.text
      | blockComment => exact IsHead.comment t.text
      | lineComment => exact absurd hkind hcomment
      | directive => exact absurd hkind hdirective
      | _ =>
          rw [hkind] at hform
          exact absurd rfl hform

structure ReadsHead (text : Text) (ms : List Piece) (q : Qualifiers) : Prop where
  spell_eq : spell ms = text
  cuts : forall r, CutsAnywhere ms (Byte.space :: r)
  isHead : forall u, u ∈ ms -> IsHead u
  first : forall u, ms.head? = some u -> u.kind ≠ .whitespace
  reads : exists words : List Token, solid ms = words.map Token.piece ∧
    Qualifies.Words Qualifiers.none words q

theorem ReadsHead.ne_nil {text : Text} {ms : List Piece} {q : Qualifiers} (h : ReadsHead text ms q)
    (hq : q.storage ≠ none) : ms ≠ [] := by
  rintro rfl
  rcases h.reads with ⟨words, hsolid, hwords⟩
  rw [List.map_eq_nil_iff.mp hsolid.symm] at hwords
  cases hwords with
  | nil => exact hq rfl

end Declaration

namespace Decorate

open Declaration

def PlainHead (ts : List Token) (d : Declaration) : Prop :=
  forall t, t ∈ ts -> d.start ≤ t.offset -> t.stop ≤ d.typeOffset ->
    (forall l, l ∈ d.layout -> t.stop ≤ l.start ∨ l.stop ≤ t.offset) ->
    t.kind ≠ .lineComment ∧ t.kind ≠ .directive ∧ isLayoutWord t = false

instance (ts : List Token) (d : Declaration) : Decidable (PlainHead ts d) :=
  inferInstanceAs (Decidable (forall t, t ∈ ts -> _))

theorem exists_readsHead_words {code s : Text} {o : Nat} {f g : Bool} {x : List Token}
    {q : Qualifiers} (h : Situated code o f g x s)
    (hwords : Qualifies.Words Qualifiers.none (solidTokens x) q)
    (hx : forall t, t ∈ x -> t.kind ≠ .lineComment ∧ t.kind ≠ .directive)
    (hfirst : forall t, x.head? = some t -> t.piece.isPlain = true) :
    exists ms, ReadsHead (Text.trim (textOf x)) ms q ∧
      forall u, ms.head? = some u -> u.isPlain = true := by
  have hhead := isHead_of_words h.cuts hwords hx
  have hcuts := h.cuts.anywhere_of_isHead hhead
  rcases exists_cuts_trimmed hcuts hhead with ⟨ms, hspell, hsolid, hmhead, hmcuts, hmfirst, hsame⟩
  refine ⟨ms, ⟨hspell.symm, hmcuts, hmhead, hmfirst, solidTokens x, ?_, hwords⟩, ?_⟩
  · rw [hsolid, map_piece_solidTokens]
  · intro u hu
    cases x with
    | nil =>
        have hnil : spell ms = [] := by
          rw [← hspell]
          exact List.infix_nil.mp (Text.trim_infix [])
        rcases (hmcuts []).isCut u (List.mem_of_head? hu) with ⟨_, b, v, _, htext, _⟩
        rcases List.head?_eq_some_iff.mp hu with ⟨us, rfl⟩
        rw [spell_cons, htext] at hnil
        cases hnil
    | cons t x =>
        have hplain := hfirst t rfl
        rw [hsame t.piece rfl hplain] at hu
        rw [← Option.some.inj hu]
        exact hplain

theorem exists_readsHead_layout {code s : Text} {o : Nat} {f g : Bool}
    {x m y : List Token} {q₁ q : Qualifiers} {l : Option Layout}
    (h : Situated code o f g (x ++ (m ++ y)) s)
    (hs : forall c, s.head? = some c -> isSeparator c = false)
    (hm : exists word rest, m = word :: rest ∧ isLayoutWord word = true)
    (hbefore : Qualifies.Words Qualifiers.none (solidTokens x) q₁)
    (hafter : Qualifies.Words { q₁ with layout := l } (solidTokens y) q)
    (hxy : forall t, t ∈ x ++ y -> t.kind ≠ .lineComment ∧ t.kind ≠ .directive) :
    exists ms, ReadsHead (Text.trim (textOf x ++ textOf y)) ms { q with layout := none } := by
  rcases h.split with ⟨g₁, hx, hrest⟩
  rcases hrest.split with ⟨g₂, _, hy⟩
  have hxhead := isHead_of_words hx.cuts hbefore fun t ht => hxy t (List.mem_append_left _ ht)
  have hyhead := isHead_of_words hy.cuts hafter fun t ht => hxy t (List.mem_append_right _ ht)
  have hlayout : exists z, textOf (m ++ y) ++ s = Byte.of 'l' :: z := by
    rcases hm with ⟨word, rest, rfl, hword⟩
    have htext : word.text = ("layout" : Text) := eq_of_beq (Bool.and_eq_true_iff.mp hword).2
    rw [List.cons_append, textOf_cons, htext]
    exact ⟨_, rfl⟩
  rcases hlayout with ⟨z, hz⟩
  have hxcuts := hx.cuts
  rw [hz] at hxcuts
  rcases exists_cuts_joined hxcuts rfl hxhead (hy.cuts.anywhere_of_isHead hyhead) hyhead hs with
    ⟨us, hspell, hsolid, huhead, hucuts⟩
  rcases exists_cuts_trimmed hucuts huhead with ⟨ms, htrim, hmsolid, hmhead, hmcuts, hmfirst, _⟩
  refine ⟨ms, ?_, hmcuts, hmhead, hmfirst, solidTokens x ++ solidTokens y, ?_, ?_⟩
  · rw [← htrim, hspell]
    rfl
  · rw [hmsolid, hsolid, List.map_append, map_piece_solidTokens, map_piece_solidTokens]
  · have hnone : { q₁ with layout := none } = q₁ := by
      rw [← show q₁.layout = none from hbefore.layout_eq]
    have hwords := hafter.with_layout none
    rw [hnone] at hwords
    exact hbefore.append hwords

theorem exists_readsHead {code s : Text} {o : Nat} {f g : Bool} {x : List Token} {q : Qualifiers}
    {d : Declaration} (h : Situated code o f g x s)
    (hs : forall c, s.head? = some c -> isSeparator c = false)
    (hquals : Qualifies Qualifiers.none (solidTokens x) q) (hlayout : d.layout = q.layout)
    (hstart : d.start = o) (htype : d.typeOffset = o + (textOf x).length)
    (hplain : PlainHead x d) (hfirst : forall t, x.head? = some t -> t.piece.isPlain = true) :
    exists ms, ReadsHead (splitHead code d) ms { q with layout := none } ∧
      (d.layout = none -> forall u, ms.head? = some u -> u.isPlain = true) := by
  have hinside : forall t, t ∈ x -> d.start ≤ t.offset ∧ t.stop ≤ d.typeOffset := by
    intro t ht
    rw [hstart, htype]
    exact h.placed.within ht
  rcases hquals.split_layout with hwords | ⟨before, span, after, l, q₁, hsplit, hspan, hbefore,
    hafter⟩
  · have hnone : d.layout = none := hlayout.trans hwords.layout_eq
    have hx : forall t, t ∈ x -> t.kind ≠ .lineComment ∧ t.kind ≠ .directive := by
      intro t ht
      have hkinds := hplain t ht (hinside t ht).1 (hinside t ht).2 (by simp [hnone])
      exact ⟨hkinds.1, hkinds.2.1⟩
    have htext : splitHead code d = Text.trim (textOf x) := by
      unfold splitHead
      rw [hnone, hstart, htype]
      exact congrArg Text.trim h.slice_all
    have hq : { q with layout := none } = q := by
      rw [← show q.layout = none from hwords.layout_eq]
    rcases exists_readsHead_words h hwords hx hfirst with ⟨ms, hms, hmfirst⟩
    rw [htext, hq]
    exact ⟨ms, hms, fun _ => hmfirst⟩
  · have hsome : d.layout = some l := hlayout.trans hafter.layout_eq
    rcases exists_of_spellsLayout hsplit hspan with
      ⟨x, word, mid, last, y, rfl, hx, _, hy, hword, _, hplaced⟩
    rcases hplaced o h.placed with ⟨hlstart, hlstop⟩
    generalize hm : word :: (mid ++ [last]) = m at h hlstop htype hinside hplain
    have houter : forall t, t ∈ x ++ y -> t ∈ x ++ (m ++ y) ∧
      (t.stop ≤ l.start ∨ l.stop ≤ t.offset) := by
      intro t ht
      rcases placed_append.mp h.placed with ⟨hxplaced, hrest⟩
      rcases placed_append.mp hrest with ⟨_, hyplaced⟩
      rcases List.mem_append.mp ht with ht | ht
      · rw [hlstart]
        exact ⟨List.mem_append_left _ ht, Or.inl (hxplaced.within ht).2⟩
      · rw [hlstop]
        exact ⟨List.mem_append_right _ (List.mem_append_right _ ht), Or.inr (hyplaced.within ht).1⟩
    have hkinds : forall t, t ∈ x ++ y ->
        t.kind ≠ .lineComment ∧ t.kind ≠ .directive ∧ isLayoutWord t = false := by
      intro t ht
      rcases houter t ht with ⟨hmem, hapart⟩
      apply hplain t hmem (hinside t hmem).1 (hinside t hmem).2
      intro l' hl'
      rw [← Option.some.inj (hsome.symm.trans hl')]
      exact hapart
    have hbefore' : Qualifies.Words Qualifiers.none (solidTokens x) q₁ := by
      rw [← hx] at hbefore
      apply hbefore.words
      intro t ht
      exact (hkinds t (List.mem_append_left _ (List.mem_filter.mp ht).1)).2.2
    rw [← hy] at hafter
    rcases exists_readsHead_layout h hs ⟨word, _, hm.symm, hword⟩ hbefore' hafter
      (fun t ht => ⟨(hkinds t ht).1, (hkinds t ht).2.1⟩) with ⟨ms, hms⟩
    refine ⟨ms, ?_, fun hnone => by rw [hsome] at hnone; cases hnone⟩
    have hfront : Text.slice code d.start l.start = textOf x := by
      have hslice := Situated.slice_eq (x := []) (y := x) (z := m ++ y) h
      rw [hstart, hlstart]
      simpa using hslice
    have hback : Text.slice code l.stop d.typeOffset = textOf y := by
      have hslice := Situated.slice_eq (x := x ++ m) (y := y) (z := []) (by simpa using h)
      rw [hlstop, htype]
      simpa [Nat.add_assoc] using hslice
    have htext : splitHead code d = Text.trim (textOf x ++ textOf y) := by
      unfold splitHead
      rw [hsome]
      dsimp only
      rw [hfront, hback]
    rw [htext]
    exact hms

/-!
# The parts of a declaration
-/

theorem cuts_of_isCut {w : Piece} (hcut : IsCut w) (hplain : w.isPlain = true)
    (hhash : w ≠ strayHash)
    {c : UInt8} (hc : isSingle c = true) (f : Bool) (r : Text) : Cuts f [w] false (c :: r) := by
  rcases hcut with ⟨fresh, b, v, rest, htext, hextent⟩
  have hw : w = ⟨w.kind, b :: v⟩ := by rw [← htext]
  have hform : formOf w.kind = .plain := eq_of_beq hplain
  have hcuts : Cuts fresh [w] false rest := by
    rw [hw]
    refine Cuts.cons hextent ?_
    rw [staysFresh_of_plain hform]
    exact Cuts.nil _ _
  apply (hcuts.anywhere_of_plain hplain hhash f).exchange
  intro w' hw'
  rw [show w' = w from (Option.some.inj hw').symm]
  unfold Closes
  rw [hform]
  right
  simpa using hc

def space : Piece :=
  ⟨.whitespace, [Byte.space]⟩

theorem cutsAnywhere_space {b : UInt8} {r : Text} (hb : isSeparator b = false) :
    CutsAnywhere [space] (b :: r) := by
  have hcuts : Cuts false [space] false (b :: r) := by
    apply cuts_space
    intro c hc
    rw [← Option.some.inj hc]
    exact hb
  apply hcuts.anywhere
  intro u hu
  rw [List.mem_singleton.mp hu]
  decide

/-- The pieces of a part up to its semicolon, but for a layout in front. -/
structure ReadsPart (text : Text) (bs : List Piece) (q : Qualifiers) (type : Token)
    (v : Variable) : Prop where
  spell_eq : spell bs = text
  cuts : forall r, CutsAnywhere bs (Byte.semicolon :: r)
  inner : forall u, u ∈ bs -> u.isBoundary = false
  start : exists c, text.head? = some c ∧ isSeparator c = false
  reads : exists words names : List Token, solid bs = (words ++ type :: names).map Token.piece ∧
    Qualifies.Words Qualifiers.none words q ∧ SpellsNames names [v]

theorem kind_of_isWord {t : Token} (h : t.isWord = true) :
    t.kind = .ident ∨ t.kind = .keyword ∨ t.kind = .builtin := by
  simpa [Token.isWord, or_assoc] using h

theorem readsTyped {head text : Text} {ms us : List Piece} {q : Qualifiers}
    {words names : List Token} {type : Token} (hhead : ReadsHead head ms q) (hq : q.storage ≠ none)
    (hwords : solid ms = words.map Token.piece) (hword : type.isWord = true)
    (htype : IsCut type.piece) (hnames : ReadsNames text us names) :
    ReadsNames (head ++ (" " ++ (type.text ++ (" " ++ text))))
      (ms ++ ([space] ++ ([type.piece] ++ ([space] ++ us)))) (words ++ type :: names) := by
  have hkind := kind_of_isWord hword
  have hplain : type.piece.isPlain = true := IsHead.isPlain_of_word hkind
  have hhash : type.piece ≠ strayHash := by
    intro heq
    have hoperator : type.kind = .operator := congrArg Piece.kind heq
    rw [hoperator] at hkind
    rcases hkind with hkind | hkind | hkind <;> cases hkind
  have hinner : type.piece.isBoundary = false := by
    unfold Piece.isBoundary
    rw [Token.kind_piece]
    rcases hkind with hkind | hkind | hkind <;> rw [hkind] <;> rfl
  refine ⟨?_, ?_, ?_, ?_, ?_⟩
  · rw [spell_append, spell_append, spell_append, spell_append, hhead.spell_eq, hnames.spell_eq]
    simp [space]
    rfl
  · intro f r
    have hgap : CutsAnywhere [space] (spell us ++ Byte.semicolon :: r) := by
      rcases hnames.start with ⟨c, hc, hsep⟩
      rcases List.head?_eq_some_iff.mp hc with ⟨rest, hrest⟩
      rw [hnames.spell_eq, hrest]
      exact cutsAnywhere_space hsep
    have htyped : CutsAnywhere ([type.piece] ++ [space]) (spell us ++ Byte.semicolon :: r) :=
      CutsAnywhere.append (fun f => ⟨false, cuts_of_isCut htype hplain hhash rfl f _⟩) hgap
    have hfront : CutsAnywhere (ms ++ ([space] ++ ([type.piece] ++ [space])))
        (spell us ++ Byte.semicolon :: r) := by
      refine CutsAnywhere.append (hhead.cuts _) (CutsAnywhere.append ?_ htyped)
      have htoken := isSeparator_of_isToken (htype.isToken hplain) []
      rcases htype with ⟨_, b, w, _, htext, _⟩
      rw [htext] at htoken
      rw [spell_append, spell_cons, htext]
      exact cutsAnywhere_space (htoken b rfl)
    rcases hfront f with ⟨g, hfront⟩
    have hall := hfront.append (hnames.cuts g r)
    simpa using hall
  · intro u hu
    simp only [List.mem_append, List.mem_singleton] at hu
    rcases hu with hu | rfl | rfl | rfl | hu
    · exact (hhead.isHead u hu).isBoundary_eq_false
    · rfl
    · exact hinner
    · rfl
    · exact hnames.inner u hu
  · cases ms with
    | nil => exact absurd rfl (hhead.ne_nil hq)
    | cons m ms =>
        rcases (hhead.isHead m List.mem_cons_self).isSeparator_eq_false
          ((hhead.cuts []).isCut m List.mem_cons_self) (hhead.first m rfl) with ⟨b, w, htext, hb⟩
        refine ⟨b, ?_, hb⟩
        rw [← hhead.spell_eq, spell_cons, htext]
        rfl
  · rw [solid_append, solid_append, solid_append, solid_append, hwords, hnames.solid_eq,
      show solid [space] = [] from rfl, solid_cons_of_isPlain hplain]
    simp

theorem readsPart {head text : Text} {ms us : List Piece} {q : Qualifiers} {type : Token}
    {v : Variable} (hhead : ReadsHead head ms q) (hq : q.storage ≠ none)
    (hword : type.isWord = true) (htype : IsCut type.piece) (hv : ReadsVariable text us v) :
    ReadsPart (head ++ (" " ++ (type.text ++ (" " ++ text))))
      (ms ++ ([space] ++ ([type.piece] ++ ([space] ++ us)))) q type v := by
  rcases hhead.reads with ⟨words, hwords, hqualify⟩
  rcases hv.reads with ⟨names, hnames, hspells⟩
  have htyped := readsTyped hhead hq hwords hword htype
    ⟨hv.spell_eq, hv.cuts, hv.inner, hv.start, hnames⟩
  exact ⟨htyped.spell_eq, fun r f => ⟨false, htyped.cuts f r⟩, htyped.inner, htyped.start,
    words, names, htyped.solid_eq, hqualify, hspells⟩

def partLayout (d : Declaration) (p : Option Param) : Option Layout :=
  match p with
  | some p => some ⟨itemsFor (entries d.layout) p, 0, 0⟩
  | none => d.layout.map Layout.unplaced

theorem yields_layout_part {st : List Token} {semi : Token} {d : Declaration}
    (parts : Parts st semi d) {f : Bool} {us bs : List Piece} {w : Piece} {text r : Text}
    {items : List LayoutItem} {v : Variable}
    (hpart : ReadsPart text bs { parts.q with layout := none } parts.type v)
    (hcuts : Cuts f us false (Byte.space :: (text ++ Byte.semicolon :: r)))
    (hinner : forall u, u ∈ us -> u.isBoundary = false) (hreads : SpellsItems us items)
    (hfirst : us.head? = some w) (hplain : w.isPlain = true) (hhash : w ≠ strayHash) :
    Yields (spell us ++ (" " ++ (text ++ [Byte.semicolon])))
      [{ d with layout := some ⟨items, 0, 0⟩, body := .variables [v] }] := by
  rcases hpart.reads with ⟨words, names, hsolid, hwords, hnames⟩
  rcases hpart.start with ⟨c, hc, hsep⟩
  rcases List.head?_eq_some_iff.mp hc with ⟨rest, hrest⟩
  have hgap : CutsAnywhere [space] (text ++ Byte.semicolon :: r) := by
    rw [hrest]
    exact cutsAnywhere_space hsep
  have htail : CutsAnywhere ([space] ++ (bs ++ [⟨.operator, [Byte.semicolon]⟩])) r := by
    refine CutsAnywhere.append ?_ (CutsAnywhere.append (hpart.cuts r) ?_)
    · rw [spell_append, hpart.spell_eq, List.append_assoc]
      exact hgap
    · exact (Cuts.anywhere (cuts_single rfl rfl) (by decide))
  rcases htail false with ⟨g, htail⟩
  have hall : Cuts f ((us ++ ([space] ++ bs)) ++ [⟨.operator, [Byte.semicolon]⟩]) g r := by
    rw [List.append_assoc, List.append_assoc]
    refine Cuts.append ?_ htail
    rw [spell_append, spell_append, hpart.spell_eq]
    simpa [space] using hcuts
  have htext : spell us ++ (" " ++ (text ++ [Byte.semicolon])) =
      spell (us ++ ([space] ++ bs)) ++ [Byte.semicolon] := by
    rw [spell_append, spell_append, hpart.spell_eq]
    simp [space]
    rfl
  rw [htext]
  have hhead : (us ++ ([space] ++ bs)).head? = some w := by
    rw [List.head?_append, hfirst]
    rfl
  refine yields_statement hall ⟨?_, ?_⟩ ?_ (parts.statementDeclares ?_ hnames)
  · intro u hu
    rw [hhead] at hu
    rw [← Option.some.inj hu]
    exact hplain
  · intro u hu
    simp only [List.mem_append, List.mem_singleton] at hu
    rcases hu with hu | rfl | hu
    · exact hinner u hu
    · rfl
    · exact hpart.inner u hu
  · rw [hhead]
    exact fun heq => hhash (Option.some.inj heq)
  · have hsolid' : solid ([space] ++ bs) = (words ++ parts.type :: names).map Token.piece := by
      rw [solid_append]
      exact hsolid
    have hspells := spells_of_front hreads hsolid' hwords
    exact hspells

theorem yields_bare_part {st : List Token} {semi : Token} {d : Declaration}
    (parts : Parts st semi d)
    {bs : List Piece} {text : Text} {v : Variable}
    (hpart : ReadsPart text bs { parts.q with layout := none } parts.type v)
    {w : Piece} (hfirst : bs.head? = some w) (hplain : w.isPlain = true) (hhash : w ≠ strayHash) :
    Yields (text ++ [Byte.semicolon]) [{ d with layout := none, body := .variables [v] }] := by
  rcases hpart.reads with ⟨words, names, hsolid, hwords, hnames⟩
  have hall : CutsAnywhere (bs ++ [⟨.operator, [Byte.semicolon]⟩]) [] :=
    CutsAnywhere.append (hpart.cuts []) (Cuts.anywhere (cuts_single rfl rfl) (by decide))
  rcases hall true with ⟨g, hall⟩
  rw [← hpart.spell_eq]
  refine yields_statement hall ⟨?_, hpart.inner⟩ ?_ (parts.statementDeclares ?_ hnames)
  · intro u hu
    rw [hfirst] at hu
    rw [← Option.some.inj hu]
    exact hplain
  · rw [hfirst]
    exact fun heq => hhash (Option.some.inj heq)
  · exact spells_of_qualifies hsolid hwords.qualifies

theorem splitPart_eq {code head : Text} {d : Declaration} {v : Variable} {p : Option Param}
    (hhead : head ≠ []) :
    splitPart code d head v p =
      (match p, d.layout with
      | some p, l => layoutFor (entries l) p ++ " "
      | none, some l => Text.slice code l.start l.stop ++ " "
      | none, none => []) ++
        ((head ++ (" " ++ (d.type ++ (" " ++ Text.slice code v.start v.stop)))) ++
          [Byte.semicolon]) := by
  have hempty : head.isEmpty = false := by
    cases head with
    | nil => exact absurd rfl hhead
    | cons b head => rfl
  have hsemi : (";" : Text) = [Byte.semicolon] := rfl
  unfold splitPart
  rw [hempty]
  cases p <;> cases d.layout <;> simp [hsemi] <;> rfl

theorem exists_source_layout {code s : Text} {o : Nat} {f g : Bool} {raw post quals : List Token}
    {q : Qualifiers} {tail : List Token} {l : Layout} (h : Situated code o f g (raw ++ post) s)
    (hopen : IsOpen raw) (hsolid : solidTokens raw = quals ++ tail)
    (hquals : Qualifies Qualifiers.none quals q) (hlayout : q.layout = some l) :
    exists us w, spell us = Text.slice code l.start l.stop ∧ (forall f r, Cuts f us false r) ∧
      (forall u, u ∈ us -> u.isBoundary = false) ∧ SpellsItems us l.items ∧
      us.head? = some w ∧ w.isPlain = true ∧ w ≠ strayHash := by
  rcases hquals.split_layout with hwords | ⟨before, span, after, l', q₁, rfl, hspan, _, hafter⟩
  · have hnone : q.layout = none := hwords.layout_eq
    rw [hlayout] at hnone
    cases hnone
  · have hl : l' = l := Option.some.inj (hafter.layout_eq.symm.trans hlayout)
    subst hl
    have hshape : solidTokens raw = before ++ (span ++ (after ++ tail)) := by
      rw [hsolid]
      simp
    rcases exists_of_spellsLayout hshape hspan with
      ⟨x, word, mid, last, y, rfl, _, hm, _, hword, hlast, hplaced⟩
    rcases hplaced o (placed_append.mp h.placed).1 with ⟨hstart, hstop⟩
    have hplain : word.piece.isPlain = true :=
      IsHead.isPlain_of_word (Or.inr (Or.inl (eq_of_beq (Bool.and_eq_true_iff.mp hword).1)))
    have hhash : word.piece ≠ strayHash := by
      intro heq
      have hkind : word.kind = .keyword := eq_of_beq (Bool.and_eq_true_iff.mp hword).1
      rw [show word.kind = .operator from congrArg Piece.kind heq] at hkind
      cases hkind
    have hend : ((word :: (mid ++ [last])).map Token.piece).getLast? =
        some ⟨.operator, [Byte.closeParen]⟩ := by
      rw [← List.cons_append, List.map_append, List.map_singleton, List.getLast?_concat,
        piece_of_isOp hlast]
      rfl
    rw [List.append_assoc, List.append_assoc] at h
    rcases h.split with ⟨g₁, _, hrest⟩
    rcases hrest.split with ⟨g₂, hspan', _⟩
    have hg₂ : g₂ = false := Cuts.after_plain hspan'.cuts hend rfl
    subst hg₂
    refine ⟨(word :: (mid ++ [last])).map Token.piece, word.piece, ?_, ?_, ?_, ?_, rfl, hplain,
      hhash⟩
    · rw [hstart, hstop]
      exact h.slice_eq.symm
    · intro f' r
      apply (hspan'.cuts.anywhere_of_plain hplain hhash f').exchange
      intro w hw
      rw [← Option.some.inj (hend.symm.trans hw)]
      exact Or.inl ⟨Byte.closeParen, rfl, rfl⟩
    · intro u hu
      rcases List.mem_map.mp hu with ⟨t, ht, rfl⟩
      exact hopen.inner t (List.mem_append_right _ (List.mem_append_left _ ht))
    · apply SpellsLayout.spellsItems
      rw [hm]
      exact hspan

theorem exists_readsPart {code s : Text} {o : Nat} {f g : Bool} {raw : List Token} {semi : Token}
    {d : Declaration} {v : Variable} (h : Situated code o f g (raw ++ [semi]) s)
    (hopen : IsOpen raw) (hstart : d.start = o) (parts : Parts (solidTokens raw) semi d)
    (hplain : PlainHead raw d) (hv : v ∈ d.vars) :
    exists bs w, ReadsPart (splitHead code d ++
        (" " ++ (d.type ++ (" " ++ Text.slice code v.start v.stop)))) bs
        { parts.q with layout := none } parts.type v ∧ splitHead code d ≠ [] ∧
      bs.head? = some w ∧ w ≠ strayHash ∧ (d.layout = none -> w.isPlain = true) := by
  rcases exists_of_solidTokens parts.split with ⟨x, y, hraw, hx, _⟩
  have hsituated : Situated code o f g (x ++ (parts.type :: (y ++ [semi]))) s := by
    have hshape : x ++ (parts.type :: (y ++ [semi])) = raw ++ [semi] := by simp [hraw]
    rw [hshape]
    exact h
  have hcut : IsCut parts.type.piece :=
    hsituated.cuts.isCut _ (List.mem_map_of_mem (List.mem_append_right _ List.mem_cons_self))
  have hword : parts.type.piece.isPlain = true :=
    IsHead.isPlain_of_word (kind_of_isWord parts.isWord)
  have htype : d.typeOffset = o + (textOf x).length := by
    rw [parts.eq]
    exact hsituated.placed.offset.1
  rcases hsituated.split with ⟨g₁, hxsituated, _⟩
  have hnext : forall c, (textOf (parts.type :: (y ++ [semi])) ++ s).head? = some c ->
      isSeparator c = false := by
    rw [textOf_cons, List.append_assoc]
    exact isSeparator_of_isToken (hcut.isToken hword) _
  have hquals : Qualifies Qualifiers.none (solidTokens x) parts.q := by
    rw [hx]
    exact parts.qualifies
  have hplain' : PlainHead x d := by
    intro t ht
    apply hplain t
    rw [hraw]
    exact List.mem_append_left _ ht
  have hfirst : forall t, x.head? = some t -> t.piece.isPlain = true := by
    intro t ht
    apply hopen.head t
    rw [hraw, List.head?_append, ht]
    rfl
  have hlayout : d.layout = parts.q.layout := congrArg Declaration.layout parts.eq
  rcases exists_readsHead hxsituated hnext hquals hlayout hstart htype hplain' hfirst with
    ⟨ms, hms, hmplain⟩
  have hnames : solidTokens raw = (parts.quals ++ [parts.type]) ++ parts.names :=
    parts.split.trans (by simp)
  have hvars : v ∈ parts.vars := by
    rw [show d.vars = parts.vars from congrArg Declaration.vars parts.eq] at hv
    exact hv
  rcases exists_readsVariable h hopen hnames (spellsVariables_of_declarators? parts.declares) hvars
    with ⟨us, hus⟩
  have hstorage : ({ parts.q with layout := none } : Qualifiers).storage ≠ none := by
    rw [show ({ parts.q with layout := none } : Qualifiers).storage = some d.storage from
      parts.storage]
    exact Option.some_ne_none _
  have hpart := readsPart hms hstorage parts.isWord hcut hus
  rw [show parts.type.text = d.type from (congrArg Declaration.type parts.eq).symm] at hpart
  cases ms with
  | nil => exact absurd rfl (hms.ne_nil hstorage)
  | cons m ms =>
      have hmhead := hms.isHead m List.mem_cons_self
      have hmcut := (hms.cuts []).isCut m List.mem_cons_self
      rcases hmhead.head?_eq hmcut with ⟨b, rest, htext, hhash, _⟩
      refine ⟨_, m, hpart, ?_, rfl, ?_, fun hnone => hmplain hnone m rfl⟩
      · rw [← hms.spell_eq, spell_cons, htext]
        exact List.cons_ne_nil _ _
      · rintro rfl
        exact hhash (List.cons.inj htext).1.symm

theorem yields_splitPart {code s : Text} {o : Nat} {f g : Bool} {raw : List Token} {semi : Token}
    {d : Declaration} {v : Variable} (p : Option Param) (h : Situated code o f g (raw ++ [semi]) s)
    (hopen : IsOpen raw) (hd : ofStatement? (solidTokens raw) semi = .ok (some d))
    (hcomments : NoComments d.layout) (hplain : PlainHead raw d) (hv : v ∈ d.vars) :
    Yields (splitPart code d (splitHead code d) v p)
      [{ d with layout := partLayout d p, body := .variables [v] }] := by
  rcases parts_of_ofStatement? hd with ⟨parts⟩
  have hstart := (span_of_ofStatement? h.placed hopen hd).1
  rcases exists_readsPart h hopen hstart parts hplain hv with
    ⟨bs, w, hpart, hhead, hfirst, hhash, hword⟩
  have hlayout : d.layout = parts.q.layout := congrArg Declaration.layout parts.eq
  rw [splitPart_eq hhead]
  cases p with
  | some p =>
      have hitems : forall i, i ∈ itemsFor (entries d.layout) p -> i.Readable := by
        rcases h.split with ⟨_, hraw, _⟩
        rw [hlayout] at hcomments ⊢
        exact readable_itemsFor
          (readable_entries hopen hraw.cuts parts.split parts.qualifies hcomments) p
      rcases exists_cuts_render hitems false _ with ⟨us, hus, hcuts, hinner, hreads⟩
      rcases exists_head_of_isLower hcuts (by rw [hus]; exact head?_render _) rfl with
        ⟨w, hw, hwplain, hwhash⟩
      have hyields := yields_layout_part parts (r := []) hpart hcuts hinner hreads hw hwplain hwhash
      rw [hus] at hyields
      simpa [partLayout, layoutFor] using hyields
  | none =>
      cases hsome : d.layout with
      | none =>
          have hyields := yields_bare_part parts hpart hfirst (hword hsome) hhash
          simpa [partLayout, hsome] using hyields
      | some l =>
          rcases exists_source_layout h hopen parts.split parts.qualifies
            (hlayout.symm.trans hsome) with ⟨us, w, hus, hcuts, hinner, hreads, hw, hwplain, hwhash⟩
          have hyields := yields_layout_part parts (r := []) hpart (hcuts false _) hinner hreads hw
            hwplain hwhash
          rw [hus] at hyields
          simpa [partLayout, hsome, Layout.unplaced] using hyields

end Decorate

end EffectShader
