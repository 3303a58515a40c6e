import EffectShader.Proofs.Declaration.LayoutRemoval
import EffectShader.Resource.Decorate

/-!
# Completed qualifiers

A declaration of one resource gets a new layout qualifier: in place of its own, or
in front if it has none.  What it declares stays the same but for the layout.
-/

namespace EffectShader

namespace Declaration

open Lexer

/-!
# Exchanged layouts in a text
-/

structure Requalified (f g : Bool) (r : Text) (us : List Piece) (q : Qualifiers)
    (tail : List Piece) : Prop where
  cuts : Cuts f us g r
  isOpen : IsOpenPieces us
  notHash : us.head? ≠ some strayHash
  spells : Spells us q tail

theorem exists_head_of_isLower {f g : Bool} {us : List Piece} {r : Text} {b : UInt8}
    (h : Cuts f us g r) (hb : (spell us).head? = some b) (hlower : Byte.isLower b = true) :
    exists w, us.head? = some w ∧ w.isPlain = true ∧ w ≠ strayHash := by
  cases h with
  | nil => cases hb
  | @cons _ _ kind c v _ us hextent _ =>
      have hc : c = b := Option.some.inj hb
      subst hc
      refine ⟨⟨kind, c :: v⟩, rfl, IsHead.isPlain_of_word (isWord_of_isLower hextent hlower), ?_⟩
      intro heq
      rw [(List.cons.inj (Piece.mk.inj heq).2).1] at hlower
      cases hlower

theorem head?_render (items : List LayoutItem) :
    (Layout.render ⟨items, 0, 0⟩).head? = some (Byte.of 'l') := rfl

theorem exists_requalified {f g : Bool} {r : Text} {raw before span after tail : List Token}
    {q₁ q : Qualifiers} {l : Layout} {items : List LayoutItem} (hopen : IsOpen raw)
    (hcuts : Cuts f (raw.map Token.piece) g r) (hhash : strayHash ∉ raw.map Token.piece)
    (hsolid : solidTokens raw = before ++ (span ++ (after ++ tail))) (hspan : SpellsLayout span l)
    (hbefore : Qualifies Qualifiers.none before q₁)
    (hafter : Qualifies.Words { q₁ with layout := some l } after q)
    (hitems : forall i, i ∈ items -> i.Readable) :
    exists us x m y, raw = x ++ (m ++ y) ∧
      (forall o, Placed o raw -> l.start = o + (textOf x).length ∧
        l.stop = o + (textOf x).length + (textOf m).length) ∧
      spell us = textOf x ++ (Layout.render ⟨items, 0, 0⟩ ++ textOf y) ∧
      Requalified f g r us { q with layout := some ⟨items, 0, 0⟩ } (tail.map Token.piece) := by
  rcases exists_of_spellsLayout hsolid hspan with
    ⟨x, word, mid, last, y, rfl, hx, hm, hy, hword, hlast, hplaced⟩
  have htext : word.text = ("layout" : Text) := eq_of_beq (Bool.and_eq_true_iff.mp hword).2
  rw [List.map_append, List.map_append] at hcuts
  rcases hcuts.split with ⟨g₁, hxcuts, hrest⟩
  rcases hrest.split with ⟨g₂, hmcuts, hycuts⟩
  have hparen : ((word :: (mid ++ [last])).map Token.piece).getLast? = some last.piece := by
    rw [← List.cons_append, List.map_append, List.map_singleton, List.getLast?_concat]
  have hg₂ : g₂ = false := by
    apply Cuts.after_plain hmcuts hparen
    unfold Piece.isPlain
    rw [Token.kind_piece, kind_of_isOp hlast]
    rfl
  subst hg₂
  rcases exists_cuts_render hitems g₁ (spell (y.map Token.piece) ++ r) with
    ⟨us, hus, huscuts, hinner, hreads⟩
  have hxcuts' : Cuts f (x.map Token.piece) g₁ (spell (us ++ y.map Token.piece) ++ r) := by
    apply hxcuts.exchange
    have hold : exists z, spell ((word :: (mid ++ [last])).map Token.piece ++
        y.map Token.piece) ++ r = Byte.of 'l' :: z := by
      rw [List.map_cons, List.cons_append, spell_cons, Token.text_piece, htext]
      exact ⟨_, rfl⟩
    rcases hold with ⟨z, hz⟩
    rw [hz] at hxcuts ⊢
    refine closes_of_qualifies hxcuts rfl (by rw [hx]; exact hbefore) ?_
    rw [spell_append, hus, List.append_assoc, List.head?_append, head?_render]
    rfl
  refine ⟨x.map Token.piece ++ (us ++ y.map Token.piece), x, _, y, rfl, hplaced, ?_, ?_⟩
  · rw [spell_append, spell_append, hus]
    rfl
  · have hfirst := exists_head_of_isLower huscuts (by rw [hus]; exact head?_render items) rfl
    rcases hfirst with ⟨w, hw, hplain, hne⟩
    refine ⟨hxcuts'.append (huscuts.append hycuts), ⟨?_, ?_⟩, ?_, ?_⟩
    · intro u hu
      cases x with
      | nil =>
          rw [List.map_nil, List.nil_append, List.head?_append, hw] at hu
          rw [← Option.some.inj hu]
          exact hplain
      | cons t x =>
          rw [← Option.some.inj hu]
          exact hopen.head t rfl
    · intro u hu
      rcases List.mem_append.mp hu with hu | hu
      · rcases List.mem_map.mp hu with ⟨t, ht, rfl⟩
        exact hopen.inner t (List.mem_append_left _ ht)
      · rcases List.mem_append.mp hu with hu | hu
        · exact hinner u hu
        · rcases List.mem_map.mp hu with ⟨t, ht, rfl⟩
          exact hopen.inner t (List.mem_append_right _ (List.mem_append_right _ ht))
    · cases x with
      | nil =>
          rw [List.map_nil, List.nil_append, List.head?_append, hw]
          exact fun heq => hne (Option.some.inj heq)
      | cons t x =>
          intro heq
          have heq : t.piece = strayHash := Option.some.inj heq
          apply hhash
          rw [← heq]
          exact List.mem_cons_self
    · refine spells_of_layout ?_ hbefore hreads ?_ hafter
      · rw [← map_piece_solidTokens, hx]
      · rw [← map_piece_solidTokens, hy]

theorem exists_requalified_front {f g : Bool} {r : Text} {raw quals tail : List Token}
    {q : Qualifiers} {items : List LayoutItem} (hopen : IsOpen raw) (hne : raw ≠ [])
    (hcuts : Cuts f (raw.map Token.piece) g r) (hhash : strayHash ∉ raw.map Token.piece)
    (hsolid : solidTokens raw = quals ++ tail) (hquals : Qualifies.Words Qualifiers.none quals q)
    (hitems : forall i, i ∈ items -> i.Readable) :
    exists us, spell us = Layout.render ⟨items, 0, 0⟩ ++ (Byte.space :: textOf raw) ∧
      Requalified f g r us { q with layout := some ⟨items, 0, 0⟩ } (tail.map Token.piece) := by
  cases raw with
  | nil => exact absurd rfl hne
  | cons t raw =>
      have hplain : t.piece.isPlain = true := hopen.head t rfl
      have hraw : Cuts false ((t :: raw).map Token.piece) g r := by
        apply hcuts.anywhere_of_plain hplain
        intro heq
        apply hhash
        rw [← heq]
        exact List.mem_cons_self
      have hspace : Cuts false [⟨.whitespace, [Byte.space]⟩] false
          (spell ((t :: raw).map Token.piece) ++ r) := by
        apply cuts_space
        rcases hraw.isCut t.piece List.mem_cons_self with ⟨fresh, b, v, rest, htext, hextent⟩
        have hspec := form_spec fresh b (v ++ rest).head?
        rw [form_of_extent? hextent, show formOf t.piece.kind = .plain from eq_of_beq hplain]
          at hspec
        intro c hc
        rw [List.map_cons, spell_cons, htext] at hc
        rw [← Option.some.inj hc]
        exact hspec.1
      have htail := hspace.append hraw
      rcases exists_cuts_render hitems f
        (spell ([⟨.whitespace, [Byte.space]⟩] ++ (t :: raw).map Token.piece) ++ r) with
        ⟨us, hus, huscuts, hinner, hreads⟩
      rcases exists_head_of_isLower huscuts (by rw [hus]; exact head?_render items) rfl with
        ⟨w, hw, hwplain, hwhash⟩
      refine ⟨us ++ ([⟨.whitespace, [Byte.space]⟩] ++ (t :: raw).map Token.piece), ?_,
        huscuts.append htail, ⟨?_, ?_⟩, ?_, ?_⟩
      · rw [spell_append, spell_append, hus]
        rfl
      · intro u hu
        rw [List.head?_append, hw] at hu
        rw [← Option.some.inj hu]
        exact hwplain
      · intro u hu
        rcases List.mem_append.mp hu with hu | hu
        · exact hinner u hu
        · rcases List.mem_append.mp hu with hu | hu
          · rw [List.mem_singleton.mp hu]
            rfl
          · rcases List.mem_map.mp hu with ⟨v, hv, rfl⟩
            exact hopen.inner v hv
      · rw [List.head?_append, hw]
        exact fun heq => hwhash (Option.some.inj heq)
      · refine spells_of_front hreads ?_ hquals
        rw [solid_append, show solid [⟨.whitespace, [Byte.space]⟩] = [] from rfl, List.nil_append,
          ← map_piece_solidTokens, hsolid]

end Declaration

/-!
# Entries of completed qualifiers
-/

namespace Decorate

open Declaration Lexer

/-- The entries of an optional qualifier. -/
def entries (l : Option Layout) : List LayoutItem :=
  l.elim [] (·.items)

theorem readable_ofInt {key : Text} (hkey : IsToken key)
    (hbytes : key.all (fun b => !LayoutItem.isEnd b) = true) (n : Int) :
    LayoutItem.Readable ⟨key, Text.ofInt n⟩ := by
  have hvalue : forall b, b ∈ Text.ofInt n -> LayoutItem.isEnd b = false ∧ b ≠ Byte.slash := by
    intro b hb
    rcases Text.mem_ofInt hb with hdigit | rfl
    · have hbounds : Byte.of '0' ≤ b ∧ b ≤ Byte.of '9' := by simpa [Byte.isDigit] using hdigit
      have hcases : b = 48 ∨ b = 49 ∨ b = 50 ∨ b = 51 ∨ b = 52 ∨ b = 53 ∨ b = 54 ∨ b = 55 ∨
          b = 56 ∨ b = 57 := by
        have hlow : 48 ≤ b.toNat := UInt8.le_iff_toNat_le.mp hbounds.1
        have hhigh : b.toNat ≤ 57 := UInt8.le_iff_toNat_le.mp hbounds.2
        simp only [← UInt8.toNat_inj]
        simp
        omega
      rcases hcases with rfl | rfl | rfl | rfl | rfl | rfl | rfl | rfl | rfl | rfl <;>
        exact ⟨rfl, by decide⟩
    · exact ⟨rfl, by decide⟩
  refine ⟨hkey, ?_, ?_⟩
  · intro b hb
    rcases List.mem_append.mp hb with hb | hb
    · simpa using List.all_eq_true.mp hbytes b hb
    · exact (hvalue b hb).1
  · apply Directive.hasComment_of_not_mem
    intro hslash
    exact (hvalue _ hslash).2 rfl

theorem readable_number {key : Text} (hkey : key = "location" ∨ key = "set" ∨ key = "binding")
    (n : Int) : LayoutItem.Readable ⟨key, Text.ofInt n⟩ := by
  rcases hkey with rfl | rfl | rfl
  · exact readable_ofInt ⟨_, _, _, rfl, rfl, Prod.ext rfl (by decide +kernel)⟩ (by decide) n
  · exact readable_ofInt ⟨_, _, _, rfl, rfl, Prod.ext rfl (by decide +kernel)⟩ (by decide) n
  · exact readable_ofInt ⟨_, _, _, rfl, rfl, Prod.ext rfl (by decide +kernel)⟩ (by decide) n

theorem readable_withItem {items : List LayoutItem} {key : Text}
    (hkey : key = "location" ∨ key = "set" ∨ key = "binding") (n : Int)
    (h : forall i, i ∈ items -> i.Readable) : forall i, i ∈ withItem items key n -> i.Readable := by
  intro i hi
  unfold withItem at hi
  split at hi
  · exact h i hi
  · rcases List.mem_append.mp hi with hi | hi
    · exact h i hi
    · rw [List.mem_singleton.mp hi]
      exact readable_number hkey n

theorem readable_itemsFor {items : List LayoutItem} (h : forall i, i ∈ items -> i.Readable)
    (p : Param) : forall i, i ∈ itemsFor items p -> i.Readable := by
  unfold itemsFor
  split
  · exact readable_withItem (Or.inl rfl) _ h
  · exact readable_withItem (Or.inr (Or.inr rfl)) _ (readable_withItem (Or.inr (Or.inl rfl)) _ h)

/-!
# Completed declarations
-/

def NoComments (l : Option Layout) : Prop :=
  forall i, i ∈ entries l -> Directive.hasComment i.value = false

instance (l : Option Layout) : Decidable (NoComments l) :=
  inferInstanceAs (Decidable (forall i, i ∈ entries l -> Directive.hasComment i.value = false))

theorem readable_entries {f g : Bool} {r : Text} {raw quals tail : List Token} {q : Qualifiers}
    (hopen : IsOpen raw) (hcuts : Cuts f (raw.map Token.piece) g r)
    (hsolid : solidTokens raw = quals ++ tail) (hquals : Qualifies Qualifiers.none quals q)
    (hcomments : NoComments q.layout) : forall i, i ∈ entries q.layout -> i.Readable := by
  rcases hquals.split_layout with hwords | ⟨before, span, after, l, q₁, rfl, hspan, _, hafter⟩
  · rw [show q.layout = none from hwords.layout_eq]
    simp [entries]
  · rw [show q.layout = some l from hafter.layout_eq] at hcomments ⊢
    apply hspan.readable _ hcomments
    intro t ht
    have hmem : t ∈ solidTokens raw := by
      rw [hsolid]
      simp [ht]
    rcases List.mem_filter.mp hmem with ⟨hraw, hplain⟩
    exact ⟨hcuts.isCut _ (List.mem_map_of_mem hraw), hplain, hopen.inner t hraw⟩

/-- Completing the qualifier of a declaration changes the statement before `post` only. -/
theorem exists_qualify {code s : Text} {o : Nat} {f g : Bool} {raw post quals tail : List Token}
    {q : Qualifiers} {d : Declaration} {p : Param} (h : Situated code o f g (raw ++ post) s)
    (hopen : IsOpen raw) (hne : raw ≠ []) (hsolid : solidTokens raw = quals ++ tail)
    (hquals : Qualifies Qualifiers.none quals q) (hlayout : d.layout = q.layout)
    (hstart : d.start = o) (hstop : d.stop = o + (textOf (raw ++ post)).length)
    (hcomments : NoComments d.layout) :
    exists g' us, qualify code d p = spell us ++ textOf post ∧
      Cuts g' (post.map Token.piece) g s ∧
      Requalified f g' (textOf post ++ s) us
        { q with layout := some ⟨itemsFor (entries d.layout) p, 0, 0⟩ } (tail.map Token.piece) := by
  rcases h.split with ⟨g', hraw, hpost⟩
  have hitems : forall i, i ∈ itemsFor (entries d.layout) p -> i.Readable := by
    rw [hlayout] at hcomments ⊢
    exact readable_itemsFor (readable_entries hopen hraw.cuts hsolid hquals hcomments) p
  rcases hquals.split_layout with hwords | ⟨before, span, after, l, q₁, rfl, hspan, hbefore, hafter⟩
  · have hnone : d.layout = none := hlayout.trans hwords.layout_eq
    rcases exists_requalified_front hopen hne hraw.cuts hraw.noHash hsolid hwords hitems with
      ⟨us, hspell, hus⟩
    refine ⟨g', us, ?_, hpost.cuts, hus⟩
    have hslice : Text.slice code d.start d.stop = textOf (raw ++ post) := by
      rw [hstart, hstop]
      exact h.slice_all
    unfold qualify layoutFor
    rw [hspell, hnone, hslice, textOf_append]
    simp only [List.append_assoc, List.cons_append]
    rfl
  · have hsome : d.layout = some l := hlayout.trans hafter.layout_eq
    have hshape : solidTokens raw = before ++ (span ++ (after ++ tail)) := by
      rw [hsolid]
      simp
    rcases exists_requalified hopen hraw.cuts hraw.noHash hshape hspan hbefore hafter hitems with
      ⟨us, x, m, y, rfl, hplaced, hspell, hus⟩
    refine ⟨g', us, ?_, hpost.cuts, hus⟩
    rcases hplaced o hraw.placed with ⟨hlstart, hlstop⟩
    have hfront : Text.slice code d.start l.start = textOf x := by
      have hx := Situated.slice_eq (x := []) (y := x) (z := m ++ (y ++ post)) (by simpa using h)
      rw [hstart, hlstart]
      simpa using hx
    have hback : Text.slice code l.stop d.stop = textOf y ++ textOf post := by
      have hy := Situated.slice_eq (x := x ++ m) (y := y ++ post) (z := []) (by simpa using h)
      rw [hlstop, hstop]
      simpa [Nat.add_assoc] using hy
    unfold qualify layoutFor
    rw [hsome] at hspell ⊢
    dsimp only
    rw [hspell, hfront, hback]
    simp only [List.append_assoc]
    rfl

theorem yields_qualify_statement {code s : Text} {o : Nat} {f g : Bool} {raw : List Token}
    {semi : Token} {d : Declaration} (p : Param) (h : Situated code o f g (raw ++ [semi]) s)
    (hopen : IsOpen raw) (hsemi : semi.isOp ";" = true)
    (hd : ofStatement? (solidTokens raw) semi = .ok (some d)) (hcomments : NoComments d.layout) :
    Yields (qualify code d p)
      [{ d with layout := some ⟨itemsFor (entries d.layout) p, 0, 0⟩ }] := by
  rcases parts_of_ofStatement? hd with ⟨parts⟩
  rcases span_of_ofStatement? h.placed hopen hd with ⟨hstart, hstop⟩
  have hne : raw ≠ [] := raw_ne_nil parts.head
  have hlayout : d.layout = parts.q.layout := congrArg Declaration.layout parts.eq
  rcases exists_qualify (p := p) h hopen hne parts.split parts.qualifies hlayout hstart hstop
    hcomments with ⟨g', us, htext, hpost, hus⟩
  rw [htext]
  rw [List.map_singleton, piece_of_isOp hsemi] at hpost
  have hsemi' : textOf [semi] = [Byte.semicolon] := by
    rw [textOf_cons, textOf_nil, List.append_nil]
    exact congrArg Piece.text (piece_of_isOp hsemi)
  have hcuts := hus.cuts
  rw [hsemi'] at hcuts ⊢
  have hdeclares := parts.statementDeclares hus.spells (spellsNames_of_declarators? parts.declares)
  have hbody : d.body = .variables parts.vars := congrArg Declaration.body parts.eq
  rw [← hbody] at hdeclares
  exact yields_statement (hcuts.append hpost) hus.isOpen hus.notHash hdeclares

theorem yields_qualify_block {code s : Text} {o : Nat} {f g : Bool} {raw ts after : List Token}
    {brace : Token} {d : Declaration} (p : Param) (parts : BlockParts (solidTokens raw) ts d after)
    (h : Situated code o f g (raw ++ brace :: (parts.body ++ [parts.semi])) s) (hopen : IsOpen raw)
    (hbrace : brace.isOp Op.openBrace = true) (hcomments : NoComments d.layout) :
    Yields (qualify code d p)
      [{ d with layout := some ⟨itemsFor (entries d.layout) p, 0, 0⟩ }] := by
  rcases span_of_block parts h.placed hopen with ⟨hstart, hstop⟩
  have hne : raw ≠ [] := raw_ne_nil parts.head
  rcases exists_qualify (p := p) h hopen hne parts.split parts.qualifies parts.layout hstart hstop
    hcomments with ⟨g', us, htext, hpost, hus⟩
  rw [htext]
  rw [List.map_cons, List.map_append, List.map_singleton, piece_of_isOp hbrace,
    piece_of_isOp parts.isSemi] at hpost
  have hpostText : textOf (brace :: (parts.body ++ [parts.semi])) =
      Byte.openBrace :: (textOf parts.body ++ [Byte.semicolon]) := by
    have hbraceText : brace.text = [Byte.openBrace] := congrArg Piece.text (piece_of_isOp hbrace)
    have hsemiText : parts.semi.text = [Byte.semicolon] :=
      congrArg Piece.text (piece_of_isOp parts.isSemi)
    simp [hbraceText, hsemiText]
  have hcuts := hus.cuts
  rw [hpostText] at hcuts ⊢
  have hspell : Byte.openBrace :: (textOf parts.body ++ [Byte.semicolon]) ++ s =
      spell (⟨.operator, Op.openBrace⟩ :: (parts.body.map Token.piece ++
        [⟨.operator, [Byte.semicolon]⟩])) ++ s := by
    simp [textOf]
    rfl
  rw [hspell] at hcuts
  exact yields_block (hcuts.append hpost) hus.isOpen hus.notHash
    (parts.blockDeclares_layout hus.spells)

end Decorate

end EffectShader
