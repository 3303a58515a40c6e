import EffectShader.Proofs.Declaration.Replacements

/-!
# Layouts taken out of a source

The layout qualifier that counts is the last one of a declaration.  It is taken out of
the source, or replaced, together with blanks behind it, and the declaration is left with
the layout qualifier in front of it, or with the new one.  What stands in front ends by
itself, apart from white space, which joins the white space behind.
-/

namespace EffectShader

namespace Declaration

open Lexer

/-!
# Before a layout
-/

theorem getLast?_of_qualifies {q q' : Qualifiers} {ts : List Token} (h : Qualifies q ts q')
    {t : Token} (ht : ts.getLast? = some t) :
    (exists q₁ q₂, qualifyWord? q₁ t = some q₂) ∨ t.isOp ")" = true := by
  induction h with
  | nil => cases ht
  | @word q q₁ q' u ts _ hqualify _ ih =>
      cases ts with
      | nil =>
          rw [← Option.some.inj ht]
          exact Or.inl ⟨q, q₁, hqualify⟩
      | cons v ts => exact ih (by rwa [List.getLast?_cons_cons] at ht)
  | @layout q q' span ts l hspells _ ih =>
      rw [List.getLast?_append] at ht
      cases hlast : ts.getLast? with
      | some u =>
          rw [hlast] at ht
          exact ih (hlast.trans ht)
      | none =>
          rw [hlast, Option.none_or] at ht
          rcases hspells with ⟨word, paren, inner, rfl, _, _, _, hitems⟩
          rcases exists_of_layoutItems? hitems with ⟨mid, last, rfl, _, hop, _⟩
          right
          rw [← List.cons_append, ← List.cons_append, List.getLast?_concat] at ht
          rw [← Option.some.inj ht]
          exact hop

theorem isOp_of_qualifies {f g : Bool} {x : List Token} {t : Token} {q q' : Qualifiers} {y : Text}
    {b : UInt8} (h : Cuts f ((x ++ [t]).map Token.piece) g (b :: y)) (hb : Byte.isLower b = true)
    (hx : Qualifies q (solidTokens (x ++ [t])) q') (hplain : t.piece.isPlain = true) :
    t.isOp ")" = true := by
  have hlast : (solidTokens (x ++ [t])).getLast? = some t := by
    rw [solidTokens_append, show solidTokens [t] = [t] from by simp [solidTokens, hplain],
      List.getLast?_concat]
  rcases getLast?_of_qualifies hx hlast with ⟨q₁, q₂, hqualify⟩ | hparen
  · -- a word would go on with the letter
    rw [List.map_append] at h
    rcases h.split with ⟨g', _, hcut⟩
    have hcut : Cuts g' [t.piece] g (b :: y) := hcut
    have hhead := isHead_of_qualifyWord? (hcut.isCut _ List.mem_cons_self) hqualify
    generalize t.piece = p at hcut hhead hplain
    cases hcut with
    | @cons _ _ kind c v _ _ hextent hnil =>
        cases hhead with
        | space => cases hplain
        | comment => cases hplain
        | word hkind _ _ =>
            rw [not_isLower_after hextent hkind] at hb
            cases hb
  · exact hparen

theorem closes_of_isOp {t : Token} (h : t.isOp ")" = true) (r r' : Text) : Closes t.piece r r' := by
  rw [piece_of_isOp h]
  exact Or.inl ⟨Byte.closeParen, rfl, rfl⟩

theorem isPlain_of_formOf {w : Piece} (h : formOf w.kind = .plain) : w.isPlain = true := by
  unfold Piece.isPlain
  rw [h]
  rfl

/-- What stands before the word `layout` ends before every text that starts with its letter. -/
theorem closes_of_qualifies {f g : Bool} {x : List Token} {q q' : Qualifiers} {y r : Text}
    {b : UInt8} (h : Cuts f (x.map Token.piece) g (b :: y)) (hb : Byte.isLower b = true)
    (hx : Qualifies q (solidTokens x) q') (hr : r.head? = some b) :
    forall w, (x.map Token.piece).getLast? = some w -> Closes w (b :: y) r := by
  intro w hw
  rw [List.getLast?_map] at hw
  rcases Option.map_eq_some_iff.mp hw with ⟨t, ht, rfl⟩
  rcases List.getLast?_eq_some_iff.mp ht with ⟨x, rfl⟩
  cases hform : formOf t.piece.kind with
  | plain => exact closes_of_isOp (isOp_of_qualifies h hb hx (isPlain_of_formOf hform)) _ _
  | space =>
      unfold Closes
      rw [hform]
      intro c hc
      rw [hr] at hc
      rw [← Option.some.inj hc]
      exact of_isLower (P := fun b => isSeparator b = false) hb (by decide)
  | directive | lineComment =>
      unfold Closes
      rw [hform]
      exact hr
  | blockComment =>
      unfold Closes
      rw [hform]
      exact trivial

/-- What stands before the word `layout` ends before every text, apart from white space at its
end. -/
theorem exists_front {f g : Bool} {x : List Token} {q q' : Qualifiers} {y : Text} {b : UInt8}
    (h : Cuts f (x.map Token.piece) g (b :: y)) (hb : Byte.isLower b = true)
    (hx : Qualifies q (solidTokens x) q') :
    exists vs w g', x.map Token.piece = vs ++ padding w ∧
      (forall c, c ∈ w -> isSeparator c = true) ∧ forall r, Cuts f vs g' (w ++ r) := by
  rcases List.eq_nil_or_concat x with rfl | ⟨x, t, rfl⟩
  · cases h
    exact ⟨[], [], f, rfl, List.forall_mem_nil _, Cuts.nil f⟩
  · rw [List.concat_eq_append] at h hx ⊢
    have hsplit := h
    rw [List.map_append] at hsplit
    rcases hsplit.split with ⟨g', hfront, hlast⟩
    have hlast : Cuts g' [t.piece] g (b :: y) := hlast
    by_cases hspace : t.piece.kind = .whitespace
    · rcases separators_of_isCut (hlast.isCut _ List.mem_cons_self) hspace with ⟨hnil, hsep⟩
      refine ⟨x.map Token.piece, t.text, g', ?_, hsep, ?_⟩
      · unfold padding
        rw [List.map_append, if_neg (by simpa using hnil), ← hspace]
        rfl
      · intro r
        cases htext : t.text with
        | nil => exact absurd htext hnil
        | cons c v =>
            have hshape : spell ([t].map Token.piece) ++ b :: y = c :: (v ++ b :: y) := by
              simp [htext]
            rw [hshape] at hfront
            exact hfront.before_separator (hsep c (by simp [htext])) (v ++ r)
    · refine ⟨(x ++ [t]).map Token.piece, [], g, by simp [padding], List.forall_mem_nil _, ?_⟩
      intro r
      apply h.exchange
      intro w hw
      rw [List.map_append, List.map_singleton, List.getLast?_concat] at hw
      rw [← Option.some.inj hw]
      cases hform : formOf t.piece.kind with
      | plain => exact closes_of_isOp (isOp_of_qualifies h hb hx (isPlain_of_formOf hform)) _ _
      | space => exact absurd (eq_whitespace hform) hspace
      | directive | lineComment =>
          -- these end before a newline
          have hsep : isSeparator b = true := by
            generalize t.piece = p at hlast hform
            cases hlast with
            | cons hextent _ =>
                rw [spell_nil, List.nil_append] at hextent
                exact isSeparator_after hextent (by simp [hform]) rfl
          rw [of_isLower (P := fun b => isSeparator b = false) hb (by decide)] at hsep
          cases hsep
      | blockComment =>
          unfold Closes
          rw [hform]
          exact trivial

/-!
# The parts of a statement around its layout
-/

theorem ne_strayHash {f g : Bool} {r : Text} {raw after tail : List Token} {word : Token}
    {q q' : Qualifiers} (hcuts : Cuts f (raw.map Token.piece) g r)
    (hafter : Qualifies.Words q after q') (hword : word.isWord = true)
    (hraw : solidTokens raw = after ++ word :: tail) :
    exists w, (solid (raw.map Token.piece)).head? = some w ∧ w ≠ strayHash := by
  rw [← map_piece_solidTokens, hraw]
  cases hafter with
  | nil =>
      refine ⟨word.piece, rfl, ?_⟩
      intro heq
      have hkind : word.kind = .operator := congrArg Piece.kind heq
      unfold Token.isWord at hword
      rw [hkind] at hword
      cases hword
  | @cons _ _ _ t after _ hqualify _ =>
      refine ⟨t.piece, rfl, ?_⟩
      have hmem : t ∈ solidTokens raw := by
        rw [hraw]
        exact List.mem_cons_self
      have hcut := hcuts.isCut t.piece (List.mem_map_of_mem (List.mem_filter.mp hmem).1)
      have hhead := isHead_of_qualifyWord? hcut hqualify
      intro heq
      rw [heq] at hhead
      cases hhead with
      | word hkind _ _ => rcases hkind with hkind | hkind | hkind <;> cases hkind

structure Around (f g : Bool) (r : Text) (raw before after : List Token) (l : Layout) where
  x : List Token
  m : List Token
  y : List Token
  front : List Piece
  w : Text
  h : Bool
  v : Text
  back : List Piece
  split : raw = x ++ (m ++ y)
  solid_front : solidTokens x = before
  solid_back : solidTokens y = after
  place : forall o, Placed o raw -> l.start = o + (textOf x).length ∧
    l.stop = o + (textOf x).length + (textOf m).length
  front_eq : x.map Token.piece = front ++ padding w
  back_eq : y.map Token.piece = padding v ++ back
  w_sep : forall c, c ∈ w -> isSeparator c = true
  v_sep : forall c, c ∈ v -> isSeparator c = true
  back_sep : forall c, (spell back ++ r).head? = some c -> isSeparator c = false
  front_cuts : forall s, Cuts f front h (w ++ s)
  back_cuts : forall h', (v.contains Byte.newline = true -> h' = true) -> Cuts h' back g r

theorem exists_around {f g : Bool} {r : Text} {raw before span after tail : List Token}
    {word : Token} {q₁ q : Qualifiers} {l : Layout} (hcuts : Cuts f (raw.map Token.piece) g r)
    (hsolid : solidTokens raw = before ++ (span ++ (after ++ word :: tail)))
    (hspan : SpellsLayout span l) (hbefore : Qualifies Qualifiers.none before q₁)
    (hafter : Qualifies.Words { q₁ with layout := some l } after q) (hword : word.isWord = true) :
    Nonempty (Around f g r raw before (after ++ word :: tail) l) := by
  rcases exists_of_spellsLayout hsolid hspan with
    ⟨x, first, mid, last, y, rfl, hx, hm, hy, hfirst, hlast, hplaced⟩
  have htext : first.text = ("layout" : Text) := eq_of_beq (Bool.and_eq_true_iff.mp hfirst).2
  rw [List.map_append, List.map_append] at hcuts
  rcases hcuts.split with ⟨g₁, hxcuts, hrest⟩
  rcases hrest.split with ⟨g₂, hmcuts, hycuts⟩
  have hg₂ : g₂ = false := by
    apply Cuts.after_plain hmcuts (w := last.piece)
    · rw [← List.cons_append, List.map_append, List.map_singleton, List.getLast?_concat]
    · unfold Piece.isPlain
      rw [Token.kind_piece, kind_of_isOp hlast]
      rfl
  subst hg₂
  have hletter : exists z, spell ((first :: (mid ++ [last])).map Token.piece ++
      y.map Token.piece) ++ r = Byte.of 'l' :: z := by
    rw [List.map_cons, List.cons_append, spell_cons, Token.text_piece, htext]
    exact ⟨_, rfl⟩
  rcases hletter with ⟨z, hz⟩
  rw [hz] at hxcuts
  rcases exists_front hxcuts rfl (by rw [hx]; exact hbefore) with
    ⟨front, w, h, hfront, hw, hfrontCuts⟩
  rcases ne_strayHash hycuts hafter hword hy with ⟨u, hu, hhash⟩
  have hne : y.map Token.piece ≠ [] := by
    intro hnil
    rw [hnil] at hu
    cases hu
  rcases exists_padding hycuts hne with ⟨v, back, hback, hv, hbackCuts, hsep⟩
  rw [hback, solid_append, solid_padding, List.nil_append] at hu
  refine ⟨⟨x, _, y, front, w, h, v, back, rfl, hx, hy, hplaced, hfront, hback, hw, hv, hsep,
    hfrontCuts, ?_⟩⟩
  intro h' hh
  rw [Bool.false_or] at hbackCuts
  exact hbackCuts.fresher hh hu hhash

/-!
# Statements with another layout
-/

/-- What is written in the place of a layout: nothing, or a layout and a space. -/
def substitute : Option (List LayoutItem) -> Text
  | none => []
  | some items => Layout.render ⟨items, 0, 0⟩ ++ [Byte.space]

section Around

variable {f g : Bool} {r : Text} {raw before after tail : List Token} {q₁ q : Qualifiers}
  {l : Layout} {p : UInt8 -> Bool}

theorem contains_dropWhile (hp : p Byte.newline = false) (v : Text) :
    (v.dropWhile p).contains Byte.newline = v.contains Byte.newline := by
  have hnone : Byte.newline ∉ v.takeWhile p := by
    intro hmem
    rw [List.all_eq_true.mp List.all_takeWhile _ hmem] at hp
    cases hp
  have hmem : Byte.newline ∈ v ↔ Byte.newline ∈ v.dropWhile p := by
    rw [← List.takeWhile_append_dropWhile (p := p) (l := v), List.mem_append,
      List.takeWhile_append_dropWhile]
    exact or_iff_right hnone
  simp [hmem]

theorem Around.isBoundary (a : Around f g r raw before after l) (hopen : IsOpen raw) :
    forall u, u ∈ a.front ++ a.back -> u.isBoundary = false := by
  intro u hu
  have hmem : u ∈ raw.map Token.piece := by
    rw [a.split, List.map_append, List.map_append, a.front_eq, a.back_eq]
    rcases List.mem_append.mp hu with hu | hu <;> simp [hu]
  rcases List.mem_map.mp hmem with ⟨t, ht, rfl⟩
  exact hopen.inner t ht

theorem Around.solid_front_eq (a : Around f g r raw before after l) :
    solid a.front = before.map Token.piece := by
  have hsolid := map_piece_solidTokens a.x
  rw [a.front_eq, solid_append, solid_padding, List.append_nil, a.solid_front] at hsolid
  exact hsolid.symm

theorem Around.solid_back_eq (a : Around f g r raw before after l) :
    solid a.back = after.map Token.piece := by
  have hsolid := map_piece_solidTokens a.y
  rw [a.back_eq, solid_append, solid_padding, List.nil_append, a.solid_back] at hsolid
  exact hsolid.symm

theorem Around.textOf_x (a : Around f g r raw before after l) :
    textOf a.x = spell a.front ++ a.w := by
  unfold textOf
  rw [a.front_eq, spell_append, spell_padding]

theorem Around.textOf_raw (a : Around f g r raw before after l) :
    textOf raw = textOf a.x ++ (textOf a.m ++ (a.v ++ spell a.back)) := by
  have hy : textOf a.y = a.v ++ spell a.back := by
    unfold textOf
    rw [a.back_eq, spell_append, spell_padding]
  rw [← hy, ← textOf_append, ← textOf_append]
  exact congrArg textOf a.split

/-- White space around a layout that is taken out becomes one piece. -/
theorem Around.exists_removed (a : Around f g r raw before (after ++ tail) l) (hopen : IsOpen raw)
    (hbefore : Qualifies Qualifiers.none before q₁)
    (hafter : Qualifies.Words { q₁ with layout := some l } after q) (hp : p Byte.newline = false) :
    exists us, spell us = textOf a.x ++ (a.v.dropWhile p ++ spell a.back) ∧ Cuts f us g r ∧
      (forall u, u ∈ us -> u.isBoundary = false) ∧
      Spells us { q with layout := q₁.layout } (tail.map Token.piece) := by
  refine ⟨a.front ++ (padding (a.w ++ a.v.dropWhile p) ++ a.back), ?_, ?_, ?_, ?_⟩
  · rw [a.textOf_x]
    simp
  · have hsep : forall c, c ∈ a.w ++ a.v.dropWhile p -> isSeparator c = true := by
      intro c hc
      rcases List.mem_append.mp hc with hc | hc
      · exact a.w_sep c hc
      · exact a.v_sep c ((List.dropWhile_suffix p).mem hc)
    have hpadding := cuts_padding hsep a.back_sep a.h
    refine Cuts.append ?_ (hpadding.append (a.back_cuts _ ?_))
    · have hfront := a.front_cuts (a.v.dropWhile p ++ (spell a.back ++ r))
      simpa using hfront
    · intro hnewline
      rw [← contains_dropWhile hp] at hnewline
      simp only [List.contains_eq_mem, List.mem_append, decide_eq_true_eq, Bool.or_eq_true]
        at hnewline ⊢
      exact Or.inr (Or.inr hnewline)
  · intro u hu
    rcases List.mem_append.mp hu with hu | hu
    · exact a.isBoundary hopen u (List.mem_append_left _ hu)
    · rcases List.mem_append.mp hu with hu | hu
      · exact isBoundary_padding u hu
      · exact a.isBoundary hopen u (List.mem_append_right _ hu)
  · refine spells_of_qualifies ?_ (hbefore.append (hafter.with_layout q₁.layout).qualifies)
    rw [solid_append, solid_append, solid_padding, a.solid_front_eq, a.solid_back_eq,
      List.nil_append, ← List.map_append, List.append_assoc]

theorem Around.exists_replaced (a : Around f g r raw before (after ++ tail) l) (hopen : IsOpen raw)
    (hbefore : Qualifies Qualifiers.none before q₁)
    (hafter : Qualifies.Words { q₁ with layout := some l } after q) (hp : p Byte.newline = false)
    {items : List LayoutItem} (hitems : forall i, i ∈ items -> i.Readable) :
    exists us, spell us = textOf a.x ++ (Layout.render ⟨items, 0, 0⟩ ++
        (Byte.space :: a.v.dropWhile p ++ spell a.back)) ∧ Cuts f us g r ∧
      (forall u, u ∈ us -> u.isBoundary = false) ∧
      Spells us { q with layout := some ⟨items, 0, 0⟩ } (tail.map Token.piece) := by
  have hsep : forall c, c ∈ Byte.space :: a.v.dropWhile p -> isSeparator c = true := by
    intro c hc
    rcases List.mem_cons.mp hc with rfl | hc
    · rfl
    · exact a.v_sep c ((List.dropWhile_suffix p).mem hc)
  have hpadding := cuts_padding hsep a.back_sep false
  have htail : Cuts false (padding (Byte.space :: a.v.dropWhile p) ++ a.back) g r := by
    refine hpadding.append (a.back_cuts _ ?_)
    intro hnewline
    rw [← contains_dropWhile hp] at hnewline
    simp only [List.contains_eq_mem, decide_eq_true_eq, Bool.or_eq_true] at hnewline ⊢
    exact Or.inr (List.mem_cons_of_mem _ hnewline)
  rcases exists_cuts_render hitems (a.h || a.w.contains Byte.newline)
    (spell (padding (Byte.space :: a.v.dropWhile p) ++ a.back) ++ r) with
    ⟨ls, hls, hlsCuts, hinner, hreads⟩
  have hletter : forall c,
      (spell (ls ++ (padding (Byte.space :: a.v.dropWhile p) ++ a.back)) ++ r).head? = some c ->
        isSeparator c = false := by
    intro c hc
    rw [spell_append, hls, List.append_assoc, List.head?_append] at hc
    rw [← Option.some.inj hc]
    rfl
  refine ⟨(a.front ++ padding a.w) ++ (ls ++ (padding (Byte.space :: a.v.dropWhile p) ++ a.back)),
    ?_, ?_, ?_, ?_⟩
  · rw [a.textOf_x, spell_append, spell_append, spell_append, spell_append, spell_padding,
      spell_padding, hls]
  · refine Cuts.append (Cuts.append ?_ (cuts_padding a.w_sep hletter a.h)) (hlsCuts.append htail)
    have hfront := a.front_cuts
      (spell (ls ++ (padding (Byte.space :: a.v.dropWhile p) ++ a.back)) ++ r)
    rw [spell_padding]
    exact hfront
  · intro u hu
    simp only [List.mem_append] at hu
    rcases hu with (hu | hu) | (hu | (hu | hu))
    · exact a.isBoundary hopen u (List.mem_append_left _ hu)
    · exact isBoundary_padding u hu
    · exact hinner u hu
    · exact isBoundary_padding u hu
    · exact a.isBoundary hopen u (List.mem_append_right _ hu)
  · refine spells_of_layout ?_ hbefore hreads ?_ hafter
    · rw [solid_append, solid_padding, List.append_nil, a.solid_front_eq]
    · rw [solid_append, solid_padding, List.nil_append, a.solid_back_eq]

theorem Around.exists_substituted (a : Around f g r raw before (after ++ tail) l)
    (hopen : IsOpen raw) (hbefore : Qualifies Qualifiers.none before q₁)
    (hafter : Qualifies.Words { q₁ with layout := some l } after q) (hp : p Byte.newline = false)
    {items? : Option (List LayoutItem)}
    (hitems : forall items, items? = some items -> forall i, i ∈ items -> i.Readable) :
    exists us, spell us = textOf a.x ++ (substitute items? ++ (a.v.dropWhile p ++ spell a.back)) ∧
      Cuts f us g r ∧ (forall u, u ∈ us -> u.isBoundary = false) ∧
      Spells us { q with layout := items?.elim q₁.layout fun items => some ⟨items, 0, 0⟩ }
        (tail.map Token.piece) := by
  cases items? with
  | none => exact a.exists_removed hopen hbefore hafter hp
  | some items =>
      rcases a.exists_replaced hopen hbefore hafter hp (hitems items rfl) with ⟨us, hspell, hus⟩
      refine ⟨us, ?_, hus⟩
      rw [hspell]
      simp [substitute]

end Around

/-!
# Statements behind trivia
-/

theorem Declares.skips {lead ws : List Piece} {ds : List Declaration}
    (hlead : forall u, u ∈ lead -> u.isPlain = false) (h : Declares ws ds) :
    Declares (lead ++ ws) ds := by
  induction lead with
  | nil => exact h
  | cons u lead ih =>
      rcases List.forall_mem_cons.mp hlead with ⟨hu, hlead⟩
      exact Declares.skip hu (ih hlead)

theorem exists_open {us : List Piece} (h : forall u, u ∈ us -> u.isBoundary = false) :
    exists lead vs, us = lead ++ vs ∧ (forall u, u ∈ lead -> u.isPlain = false) ∧
      IsOpenPieces vs := by
  refine ⟨us.takeWhile (!·.isPlain), us.dropWhile (!·.isPlain),
    List.takeWhile_append_dropWhile.symm, ?_, ?_, ?_⟩
  · intro u hu
    simpa using List.all_eq_true.mp List.all_takeWhile u hu
  · intro u hu
    have hnot := List.head?_dropWhile_not (fun u : Piece => !u.isPlain) us
    rw [hu] at hnot
    simpa using hnot
  · exact fun u hu => h u ((List.dropWhile_suffix _).mem hu)

theorem Spells.of_skips {lead vs : List Piece} {q : Qualifiers} {tail : List Piece}
    (hlead : forall u, u ∈ lead -> u.isPlain = false) (h : Spells (lead ++ vs) q tail) :
    Spells vs q tail := by
  intro raw hraw
  let front : List Token := lead.map fun w => ⟨w.kind, w.text, Position.start⟩
  have hfront : front.map Token.piece = lead := by
    rw [List.map_map]
    exact List.map_id lead
  have hsolid : solidTokens front = [] := by
    apply List.filter_eq_nil_iff.mpr
    intro t ht
    rw [hlead t.piece (by rw [← hfront]; exact List.mem_map_of_mem ht)]
    exact Bool.false_ne_true
  rcases h (front ++ raw) (by rw [List.map_append, hfront, hraw]) with
    ⟨quals, q', rest, hsplit, hquals⟩
  rw [solidTokens_append, hsolid, List.nil_append] at hsplit
  exact ⟨quals, q', rest, hsplit, hquals⟩

/-!
# The layout in front of the last one
-/

def earlierLayout (ts : List Token) (d : Declaration) : Option Layout :=
  d.layout.bind fun l =>
    let front := ts.filter fun t => decide (d.start ≤ t.offset) && decide (t.offset < l.start)
    match parseQualifiers Qualifiers.none (solidTokens front) with
    | .ok (q, _) => q.layout
    | .error _ => none

theorem earlierLayout_append {ts us : List Token} {d : Declaration}
    (h : forall l t, d.layout = some l -> t ∈ us -> t.offset < d.start ∨ l.start ≤ t.offset) :
    earlierLayout (ts ++ us) d = earlierLayout ts d ∧
      earlierLayout (us ++ ts) d = earlierLayout ts d := by
  unfold earlierLayout
  cases hl : d.layout with
  | none => exact ⟨rfl, rfl⟩
  | some l =>
      have hnil : us.filter (fun t => decide (d.start ≤ t.offset) && decide (t.offset < l.start)) =
          [] := by
        apply List.filter_eq_nil_iff.mpr
        intro t ht
        have hout := h l t hl ht
        simp
        omega
      simp only [Option.bind_some, List.filter_append, hnil, List.append_nil, List.nil_append,
        and_self]

theorem earlierLayout_of_qualifies {x y : List Token} {d : Declaration} {l : Layout}
    {before : List Token} {q : Qualifiers} (hl : d.layout = some l)
    (hx : forall t, t ∈ x -> d.start ≤ t.offset ∧ t.offset < l.start)
    (hy : forall t, t ∈ y -> l.start ≤ t.offset) (hbefore : solidTokens x = before)
    (hquals : Qualifies Qualifiers.none before q) : earlierLayout (x ++ y) d = q.layout := by
  have hskip : forall l' t, d.layout = some l' -> t ∈ y ->
      t.offset < d.start ∨ l'.start ≤ t.offset := by
    intro l' t hl' ht
    rw [hl] at hl'
    cases hl'
    exact Or.inr (hy t ht)
  rw [(earlierLayout_append hskip).1]
  have hall : x.filter (fun t => decide (d.start ≤ t.offset) && decide (t.offset < l.start)) =
      x := by
    apply List.filter_eq_self.mpr
    intro t ht
    simpa using hx t ht
  have hparse : parseQualifiers Qualifiers.none (before ++ []) = .ok (q, []) :=
    hquals.parseQualifiers_eq (by simp)
  rw [List.append_nil] at hparse
  unfold earlierLayout
  rw [hl, Option.bind_some]
  dsimp only
  rw [hall, hbefore, hparse]

theorem Chunk.exists_substituted {p : UInt8 -> Bool}
    (hp : forall b, p b = true -> isSeparator b = true ∧ b ≠ Byte.newline) {code s : Text} {o : Nat}
    {f g : Bool} {us : List Token} {d : Declaration} {l : Layout} (h : Chunk us (some d))
    (hs : Standing code o f g us s) (hl : d.layout = some l) {items? : Option (List LayoutItem)}
    (hitems : forall items, items? = some items -> forall i, i ∈ items -> i.Readable) :
    exists x m y vs, textOf us = x ++ (m ++ y) ∧ l.start = o + x.length ∧
      l.stop + ((code.drop l.stop).takeWhile p).length = o + x.length + m.length ∧
      spell vs = x ++ (substitute items? ++ y) ∧ (forall r, Cuts f vs false r) ∧
      forall ws ds, Declares ws ds -> Declares (vs ++ ws)
        ({ d with
          layout := items?.elim (earlierLayout us d) fun items => some ⟨items, 0, 0⟩ } :: ds) := by
  have hg : g = false := h.flag hs
  have hspan := h.span hs.placed
  subst hg
  rcases h.head with ⟨raw, post, quals, word, tail, q, rfl, hopen, hsolid, hword, hquals, hlayout,
    ⟨front, hends⟩, hdeclares⟩
  rcases hs.split with ⟨g', hraw, hpost⟩
  rw [hlayout] at hl
  rcases hquals.split_layout with
    hwords | ⟨before, span, after, l', q₁, rfl, hspells, hbefore, hafter⟩
  · rw [show q.layout = none from hwords.layout_eq] at hl
    cases hl
  · rw [show q.layout = some l' from hafter.layout_eq] at hl hlayout
    cases hl
    have hshape : solidTokens raw = before ++ (span ++ (after ++ word :: tail)) := by
      rw [hsolid]
      simp
    rcases exists_around hraw.cuts hshape hspells hbefore hafter hword with ⟨a⟩
    have hnewline : p Byte.newline = false := by
      rw [Bool.eq_false_iff]
      exact fun hblank => (hp _ hblank).2 rfl
    rcases a.place o hraw.placed with ⟨hstart, hstop⟩
    rcases a.exists_substituted hopen hbefore hafter hnewline hitems with
      ⟨vs, hspell, hcuts, hinner, hread⟩
    have hblanks : (code.drop l.stop).takeWhile p = a.v.takeWhile p := by
      have htext := hraw.text
      rw [a.textOf_raw] at htext
      simp only [List.append_assoc] at htext
      rw [hstop, Text.drop_of_drop (Text.drop_of_drop htext)]
      exact takeWhile_blanks (fun b hb => (hp b hb).1) a.back_sep
    have hearlier : earlierLayout (raw ++ post) d = q₁.layout := by
      have hplaced := hs.placed
      rw [a.split, List.append_assoc] at hplaced ⊢
      rcases placed_append.mp hplaced with ⟨hx, hrest⟩
      refine earlierLayout_of_qualifies hlayout ?_ ?_ a.solid_front hbefore
      · intro t ht
        rcases hx.within ht with ⟨hlow, hhigh⟩
        have hmem : t.piece ∈ raw.map Token.piece := by
          rw [a.split]
          exact List.mem_map_of_mem (List.mem_append_left _ ht)
        rcases hraw.cuts.isCut _ hmem with ⟨_, b, v, _, hbytes, _⟩
        have hbytes : t.text = b :: v := hbytes
        have hlength : t.stop = t.offset + (v.length + 1) := by
          show t.offset + t.text.length = _
          rw [hbytes, List.length_cons]
        omega
      · intro t ht
        have hlow := (hrest.within ht).1
        omega
    refine ⟨textOf a.x, textOf a.m ++ a.v.takeWhile p,
      a.v.dropWhile p ++ (spell a.back ++ textOf post), vs ++ post.map Token.piece, ?_, hstart, ?_,
      ?_, ?_, ?_⟩
    · rw [textOf_append, a.textOf_raw]
      simp only [List.append_assoc]
      rw [← List.append_assoc (a.v.takeWhile p), List.takeWhile_append_dropWhile]
    · rw [hblanks, hstop, List.length_append]
      omega
    · rw [spell_append, hspell]
      simp only [List.append_assoc]
      rfl
    · intro r
      refine (hcuts.append hpost.cuts).exchange ?_
      intro w hw
      rw [hends, ← List.append_assoc, List.getLast?_concat] at hw
      rw [← Option.some.inj hw]
      exact Or.inl ⟨Byte.semicolon, rfl, rfl⟩
    · intro ws ds hws
      rcases exists_open hinner with ⟨lead, vs', rfl, hlead, hvs'⟩
      rw [hearlier]
      simp only [List.append_assoc]
      exact Declares.skips hlead (hdeclares hvs' (hread.of_skips hlead) hws)

end Declaration

end EffectShader
