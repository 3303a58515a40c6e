import EffectShader.Declaration.Parser
import EffectShader.Proofs.Numeral
import EffectShader.Proofs.Token.Cuts
import EffectShader.Proofs.Token.DirectiveText

/-!
# Written layout qualifiers read back

A layout qualifier is written from its entries alone.  Reading it again gives the
same entries, because the texts of an entry are cut into tokens that spell the
same entry, wherever the qualifier is put.
-/

namespace EffectShader

def Token.piece (t : Token) : Lexer.Piece :=
  ⟨t.kind, t.text⟩

@[simp] theorem Token.kind_piece (t : Token) : t.piece.kind = t.kind := rfl

@[simp] theorem Token.text_piece (t : Token) : t.piece.text = t.text := rfl

namespace Lexer

/-- The piece is a number, a word, an operator or the end marker. -/
def Piece.isPlain (w : Piece) : Bool :=
  formOf w.kind == .plain

/-- The piece ends a statement, or it is the end marker. -/
def Piece.isBoundary (w : Piece) : Bool :=
  w.kind == .eof ||
    (w.kind == .operator &&
      (w.text == (";" : Text) || w.text == Op.openBrace || w.text == Op.closeBrace))

/-- The pieces without white space, comments and directives. -/
def solid (ws : List Piece) : List Piece :=
  ws.filter Piece.isPlain

@[simp] theorem solid_nil : solid [] = [] := rfl

@[simp] theorem solid_append (us ws : List Piece) : solid (us ++ ws) = solid us ++ solid ws := by
  simp [solid]

theorem solid_cons_of_isPlain {w : Piece} (h : w.isPlain = true) (ws : List Piece) :
    solid (w :: ws) = w :: solid ws := by
  simp [solid, h]

theorem solid_cons_of_not_isPlain {w : Piece} (h : w.isPlain = false) (ws : List Piece) :
    solid (w :: ws) = solid ws := by
  simp [solid, h]

theorem solid_eq_self {ws : List Piece} (h : forall w, w ∈ ws -> w.isPlain = true) :
    solid ws = ws :=
  List.filter_eq_self.mpr h

/-!
# Texts of numbers, words and operators
-/

def IsToken (s : Text) : Prop :=
  exists kind b v, s = b :: v ∧ form false b v.head? = .plain ∧ plainExtent b v = (kind, v.length)

theorem cuts_plain {kind : TokenKind} {b : UInt8} {v r : Text}
    (hform : form false b v.head? = .plain) (hextent : plainExtent b v = (kind, v.length))
    (hr : r.head?.all isSingle = true) : Cuts false [⟨kind, b :: v⟩] false r := by
  have hform' : form false b (v ++ r).head? = .plain := by
    cases v with
    | nil => exact form_of_single hform hr
    | cons c v => exact hform
  have hextent' : plainExtent b (v ++ r) = (kind, v.length) := by
    have hle : (plainExtent b (v ++ [])).2 ≤ v.length := by rw [List.append_nil, hextent]
    rw [plainExtent_shielded hle (Or.inr hr), List.append_nil, hextent]
  have hkind : formOf kind = .plain := by
    have hmem := plainExtent_mem_plainKinds b v
    rw [hextent] at hmem
    exact formOf_of_mem_plainKinds hmem
  have hcut : extent? false b (v ++ (spell [] ++ r)) = some (kind, v.length) := by
    rw [spell_nil, List.nil_append, extent?_eq, hform']
    exact congrArg some hextent'
  apply Cuts.cons hcut
  rw [staysFresh_of_plain hkind]
  exact Cuts.nil false r

theorem exists_cuts {s r : Text} (hsep : forall b, b ∈ s -> isSeparator b = false)
    (hcomment : Directive.hasComment s = false) (hr : r.head?.all isSingle = true) :
    exists us, spell us = s ∧ Cuts false us false r ∧ forall u, u ∈ us -> u.isPlain = true := by
  induction hn : s.length using Nat.strong_induction_on generalizing s with
  | _ n ih =>
      subst hn
      cases s with
      | nil => exact ⟨[], rfl, Cuts.nil false r, by simp⟩
      | cons b s =>
          have hb : isSeparator b = false := hsep b List.mem_cons_self
          have hform : form false b s.head? = .plain := by
            unfold form
            cases s with
            | nil => simp [hb]
            | cons c s =>
                rw [Directive.hasComment, Bool.or_eq_false_iff] at hcomment
                cases hslash : b == Byte.slash with
                | false => simp [hb]
                | true =>
                    have hnext : (c == Byte.slash) = false ∧ (c == Byte.star) = false := by
                      simpa [hslash] using hcomment.1
                    simp [hb, hnext.1, hnext.2]
          -- the first token reaches at most to the end of the text
          have hle := plainExtent_le b s
          generalize hextent : plainExtent b s = e at hle
          rcases e with ⟨kind, n⟩
          have hsplit : s.take n ++ s.drop n = s := List.take_append_drop n s
          have hlen : (s.take n).length = n := List.length_take_of_le hle
          have hsuffix : s.drop n <:+ b :: s :=
            (List.drop_suffix n s).trans (List.suffix_cons b s)
          rcases ih (s.drop n).length (by simp only [List.length_drop, List.length_cons]; omega)
              (fun c hc => hsep c (hsuffix.subset hc))
              (Directive.hasComment_of_suffix hsuffix hcomment) rfl with ⟨us, hspell, hcuts, hplain⟩
          have hkind : formOf kind = .plain := by
            have hmem := plainExtent_mem_plainKinds b s
            rw [hextent] at hmem
            exact formOf_of_mem_plainKinds hmem
          refine ⟨⟨kind, b :: s.take n⟩ :: us, by simp [hspell], ?_, ?_⟩
          · have hform' : form false b (s ++ r).head? = .plain := by
              cases s with
              | nil => exact form_of_single hform hr
              | cons c s => exact hform
            have hcut : extent? false b (s.take n ++ (spell us ++ r)) =
                some (kind, (s.take n).length) := by
              have hle' : (plainExtent b (s ++ [])).2 ≤ s.length := by
                rw [List.append_nil, hextent]
                exact hle
              rw [hspell, ← List.append_assoc, hsplit, hlen, extent?_eq, hform']
              dsimp only
              rw [plainExtent_shielded hle' (Or.inr hr), List.append_nil, hextent]
            apply Cuts.cons hcut
            rw [staysFresh_of_plain hkind]
            exact hcuts
          · intro u hu
            rcases List.mem_cons.mp hu with rfl | hu
            · exact beq_iff_eq.mpr hkind
            · exact hplain u hu

theorem cuts_space {r : Text} (hr : forall c, r.head? = some c -> isSeparator c = false) :
    Cuts false [⟨.whitespace, [Byte.space]⟩] false r := by
  apply Cuts.cons
  · rw [spell_nil, List.nil_append]
    have hextent : extent? false Byte.space (([] : Text) ++ r) = some (.whitespace, 0) := by
      rw [extent?_eq, show form false Byte.space _ = Form.space from rfl]
      dsimp only
      rw [(run_append_eq_length_iff (w := [])).mpr ⟨by simp, hr⟩]
      rfl
    exact hextent
  · exact Cuts.nil false r

theorem cuts_single {b : UInt8} {r : Text} (hsingle : isSingle b = true)
    (hform : form false b none = .plain) : Cuts false [⟨.operator, [b]⟩] false r := by
  have hslash : (b == Byte.slash) = false := by
    simpa using (Bool.and_eq_true_iff.mp hsingle).2
  have hform' : form false b r.head? = .plain := by
    unfold form at hform ⊢
    simpa [hslash] using hform
  have hcut : extent? false b (([] : Text) ++ (spell [] ++ r)) = some (.operator, 0) := by
    rw [spell_nil, List.nil_append, List.nil_append, extent?_eq, hform']
    exact congrArg some (plainExtent_single hsingle r)
  exact Cuts.cons hcut (Cuts.nil false r)

theorem Cuts.kind_ne_eof {f g : Bool} {us : List Piece} {r : Text} (h : Cuts f us g r) :
    forall u, u ∈ us -> u.kind ≠ .eof := by
  induction h with
  | nil => simp
  | cons hextent _ ih =>
      intro u hu
      rcases List.mem_cons.mp hu with rfl | hu
      · exact kind_ne_eof_of_extent? hextent
      · exact ih u hu

theorem isSeparator_of_isToken {s : Text} (h : IsToken s) (r : Text) :
    forall c, (s ++ r).head? = some c -> isSeparator c = false := by
  rcases h with ⟨kind, b, v, rfl, hform, _⟩
  intro c hc
  have hspec := form_spec false b v.head?
  rw [hform] at hspec
  rw [← Option.some.inj hc]
  exact hspec.1

end Lexer

theorem Text.joinWith_cons_cons (sep s t : Text) (parts : List Text) :
    Text.joinWith sep (s :: t :: parts) = s ++ (sep ++ Text.joinWith sep (t :: parts)) := by
  simp [Text.joinWith, List.intercalate]

theorem Text.exists_joinWith_cons (sep s : Text) (parts : List Text) :
    exists r, Text.joinWith sep (s :: parts) = s ++ r := by
  cases parts with
  | nil => exact ⟨[], by simp [Text.joinWith, List.intercalate]⟩
  | cons t parts => exact ⟨_, Text.joinWith_cons_cons sep s t parts⟩

/-!
# Entries
-/

namespace LayoutItem

def isEnd (b : UInt8) : Bool :=
  Lexer.isSeparator b || b == Byte.comma || b == Byte.closeParen || b == Byte.semicolon ||
    b == Byte.openBrace || b == Byte.closeBrace

structure Readable (i : LayoutItem) : Prop where
  key : Lexer.IsToken i.key
  bytes : forall b, b ∈ i.key ++ i.value -> isEnd b = false
  value : Directive.hasComment i.value = false

theorem render_of_nil {i : LayoutItem} (h : i.value = []) : i.render = i.key := by
  simp [render, h]

theorem render_of_cons {i : LayoutItem} {b : UInt8} {v : Text} (h : i.value = b :: v) :
    i.render = i.key ++ (Byte.space :: Byte.equals :: Byte.space :: i.value) := by
  have hnonempty : i.value.isEmpty = false := by rw [h]; rfl
  unfold render
  rw [hnonempty]
  simp [show ((" = " : Text)) = [Byte.space, Byte.equals, Byte.space] from rfl]

theorem isSeparator_of_isEnd {b : UInt8} (h : isEnd b = false) : Lexer.isSeparator b = false := by
  unfold isEnd at h
  simp only [Bool.or_eq_false_iff] at h
  exact h.1.1.1.1.1

open Lexer in
theorem Readable.exists_cuts {i : LayoutItem} (h : i.Readable) {r : Text}
    (hr : r.head?.all isSingle = true) :
    exists us, spell us = i.render ∧ Cuts false us false r ∧
      Declaration.layoutItem? ((solid us).map Piece.text) = some i ∧
      forall u, u ∈ us -> forall b, b ∈ u.text -> b = Byte.space ∨ isEnd b = false := by
  rcases h.key with ⟨kind, b, v, hkey, hform, hextent⟩
  have hkind : formOf kind = .plain := by
    have hmem := plainExtent_mem_plainKinds b v
    rw [hextent] at hmem
    exact formOf_of_mem_plainKinds hmem
  have hplain : Piece.isPlain ⟨kind, b :: v⟩ = true := beq_iff_eq.mpr hkind
  cases hvalue : i.value with
  | nil =>
      refine ⟨[⟨kind, b :: v⟩], ?_, cuts_plain hform hextent hr, ?_, ?_⟩
      · rw [render_of_nil hvalue, hkey]
        simp
      · rw [solid_cons_of_isPlain hplain]
        show some (LayoutItem.mk (b :: v) []) = some i
        rw [← hkey, ← hvalue]
      · intro u hu c hc
        rw [List.mem_singleton.mp hu, ← hkey] at hc
        exact Or.inr (h.bytes c (List.mem_append_left _ hc))
  | cons c cs =>
      have hsep : forall d, d ∈ i.value -> isSeparator d = false := fun d hd =>
        isSeparator_of_isEnd (h.bytes d (List.mem_append_right _ hd))
      rcases Lexer.exists_cuts hsep h.value hr with ⟨us, hspell, hcuts, hus⟩
      have hhead : forall d, (spell us ++ r).head? = some d -> isSeparator d = false := by
        intro d hd
        rw [hspell, hvalue] at hd
        rw [← Option.some.inj hd]
        exact hsep c (by rw [hvalue]; exact List.mem_cons_self)
      let space : Piece := ⟨.whitespace, [Byte.space]⟩
      let equals : Piece := ⟨.operator, [Byte.equals]⟩
      have hright : Cuts false ([space] ++ us) false r := (cuts_space hhead).append hcuts
      have hequals : Cuts false ([equals] ++ ([space] ++ us)) false r :=
        (cuts_plain rfl rfl rfl).append hright
      have hleft : Cuts false ([space] ++ ([equals] ++ ([space] ++ us))) false r := by
        refine (cuts_space ?_).append hequals
        intro d hd
        rw [← Option.some.inj hd]
        rfl
      refine ⟨[⟨kind, b :: v⟩] ++ ([space] ++ ([equals] ++ ([space] ++ us))), ?_,
        (cuts_plain hform hextent rfl).append hleft, ?_, ?_⟩
      · rw [render_of_cons hvalue, hkey]
        simp [hspell, space, equals]
      · have hsolid : solid ([⟨kind, b :: v⟩] ++ ([space] ++ ([equals] ++ ([space] ++ us)))) =
            ⟨kind, b :: v⟩ :: equals :: us := by
          simp only [solid_append, solid_eq_self hus, solid_cons_of_isPlain hplain, solid_nil]
          rfl
        have htexts : (us.map Piece.text).flatten = i.value := hspell
        rw [hsolid]
        cases us with
        | nil =>
            rw [hvalue] at htexts
            cases htexts
        | cons u us =>
            show some (LayoutItem.mk (b :: v) ((u :: us).map Piece.text).flatten) = some i
            rw [htexts, ← hkey]
      · intro u hu d hd
        simp only [List.mem_append, List.mem_singleton] at hu
        rcases hu with rfl | rfl | rfl | rfl | hu
        · rw [← hkey] at hd
          exact Or.inr (h.bytes d (List.mem_append_left _ hd))
        · exact Or.inl (List.mem_singleton.mp hd)
        · rw [List.mem_singleton.mp hd]
          exact Or.inr rfl
        · exact Or.inl (List.mem_singleton.mp hd)
        · refine Or.inr (h.bytes d (List.mem_append_right _ ?_))
          rw [← hspell]
          exact List.mem_flatten.mpr ⟨u.text, List.mem_map_of_mem hu, hd⟩

theorem Readable.head?_render {i : LayoutItem} (h : i.Readable) (r : Text) :
    forall c, (i.render ++ r).head? = some c -> Lexer.isSeparator c = false := by
  cases hvalue : i.value with
  | nil =>
      rw [render_of_nil hvalue]
      exact Lexer.isSeparator_of_isToken h.key r
  | cons b v =>
      rw [render_of_cons hvalue, List.append_assoc]
      exact Lexer.isSeparator_of_isToken h.key _

end LayoutItem

/-!
# Qualifiers
-/

namespace Declaration

theorem layoutItems?_append {us : List Token} (item : List Text) (ts : List Token)
    (h : forall u, u ∈ us -> u.isOp ")" = false ∧ u.isOp "," = false) :
    layoutItems? item (us ++ ts) = layoutItems? (item ++ us.map Token.text) ts := by
  induction us generalizing item with
  | nil => simp
  | cons u us ih =>
      rcases h u List.mem_cons_self with ⟨hparen, hcomma⟩
      rw [List.cons_append, layoutItems?, hparen, hcomma]
      simp only [Bool.false_eq_true, if_false]
      rw [ih _ fun v hv => h v (List.mem_cons_of_mem u hv)]
      simp

theorem isOp_of_piece {t : Token} {op : Text} (h : t.piece = ⟨.operator, op⟩) :
    t.isOp op = true := by
  unfold Token.isOp
  rw [show t.kind = .operator from congrArg Lexer.Piece.kind h,
    show t.text = op from congrArg Lexer.Piece.text h]
  simp

theorem isOp_congr {t u : Token} (h : t.piece = u.piece) (op : Text) : t.isOp op = u.isOp op := by
  unfold Token.isOp
  rw [show t.kind = u.kind from congrArg Lexer.Piece.kind h,
    show t.text = u.text from congrArg Lexer.Piece.text h]

theorem exists_of_layoutItems? {item : List Text} {ts rest : List Token}
    {items : List LayoutItem} {stop : Nat} (h : layoutItems? item ts = some (items, stop, rest)) :
    exists inner last, ts = inner ++ last :: rest ∧ stop = last.stop ∧ last.isOp ")" = true ∧
      forall inner' last' rest', inner'.map Token.piece = inner.map Token.piece ->
        last'.piece = last.piece ->
        layoutItems? item (inner' ++ last' :: rest') = some (items, last'.stop, rest') := by
  induction ts generalizing item items with
  | nil => cases h
  | cons t ts ih =>
      rw [layoutItems?] at h
      cases hparen : t.isOp ")" with
      | true =>
          rw [if_pos hparen] at h
          cases h
          refine ⟨[], t, rfl, rfl, hparen, ?_⟩
          intro inner' last' rest' hinner hlast
          rw [List.map_eq_nil_iff.mp hinner, List.nil_append, layoutItems?,
            isOp_congr hlast, if_pos hparen]
      | false =>
          rw [if_neg (by simp [hparen])] at h
          cases hcomma : t.isOp "," with
          | true =>
              rw [if_pos hcomma] at h
              rcases Option.map_eq_some_iff.mp h with ⟨⟨items', stop', rest'⟩, hread, heq⟩
              cases heq
              rcases ih hread with ⟨inner, last, rfl, rfl, hlast, hfree⟩
              refine ⟨t :: inner, last, rfl, rfl, hlast, ?_⟩
              intro inner' last' rest' hinner' hlast'
              rcases List.map_eq_cons_iff.mp hinner' with ⟨t', inner', rfl, ht', hinner'⟩
              rw [List.cons_append, layoutItems?, isOp_congr ht', isOp_congr ht',
                if_neg (by simp [hparen]), if_pos hcomma, hfree inner' last' rest' hinner' hlast']
              rfl
          | false =>
              rw [if_neg (by simp [hcomma])] at h
              rcases ih h with ⟨inner, last, rfl, rfl, hlast, hfree⟩
              refine ⟨t :: inner, last, rfl, rfl, hlast, ?_⟩
              intro inner' last' rest' hinner' hlast'
              rcases List.map_eq_cons_iff.mp hinner' with ⟨t', inner', rfl, ht', hinner'⟩
              rw [List.cons_append, layoutItems?, isOp_congr ht', isOp_congr ht',
                if_neg (by simp [hparen]), if_neg (by simp [hcomma]),
                show t'.text = t.text from congrArg Lexer.Piece.text ht',
                hfree inner' last' rest' hinner' hlast']

def SpellsLayout (ts : List Token) (l : Layout) : Prop :=
  exists word paren inner, ts = word :: paren :: inner ∧ isLayoutWord word = true ∧
    paren.isOp "(" = true ∧ l.start = word.offset ∧
    layoutItems? [] inner = some (l.items, l.stop, [])

theorem isLayoutWord_congr {t u : Token} (h : t.piece = u.piece) :
    isLayoutWord t = isLayoutWord u := by
  unfold isLayoutWord
  rw [show t.kind = u.kind from congrArg Lexer.Piece.kind h,
    show t.text = u.text from congrArg Lexer.Piece.text h]

theorem SpellsLayout.alike {ts us : List Token} {l : Layout} (h : SpellsLayout ts l)
    (hus : us.map Token.piece = ts.map Token.piece) :
    exists m, m.items = l.items ∧ SpellsLayout us m := by
  rcases h with ⟨word, paren, inner, rfl, hword, hparen, hstart, hread⟩
  rcases exists_of_layoutItems? hread with ⟨inner, last, rfl, hstop, hlast, hfree⟩
  rcases List.map_eq_cons_iff.mp hus with ⟨word', us, rfl, hword', hus⟩
  rcases List.map_eq_cons_iff.mp hus with ⟨paren', us, rfl, hparen', hus⟩
  rw [List.map_append] at hus
  rcases List.map_eq_append_iff.mp hus with ⟨inner', us, rfl, hinner', hus⟩
  rcases List.map_eq_singleton_iff.mp hus with ⟨last', rfl, hlast'⟩
  refine ⟨⟨l.items, word'.offset, last'.stop⟩, rfl, word', paren', inner' ++ [last'], rfl, ?_, ?_,
    rfl, hfree inner' last' [] hinner' hlast'⟩
  · rw [isLayoutWord_congr hword', hword]
  · rw [isOp_congr hparen', hparen]

theorem isBoundary_of_isEnd {u : Lexer.Piece} (hkind : u.kind ≠ .eof)
    (hbytes : forall b, b ∈ u.text -> b = Byte.space ∨ LayoutItem.isEnd b = false) :
    u.isBoundary = false := by
  have hne : forall b, LayoutItem.isEnd b = true -> b ≠ Byte.space -> u.text ≠ [b] := by
    intro b hend hspace htext
    rcases hbytes b (by rw [htext]; exact List.mem_cons_self) with hb | hb
    · exact hspace hb
    · rw [hend] at hb
      cases hb
  have hsemi := hne Byte.semicolon rfl (by decide)
  have hopen := hne Byte.openBrace rfl (by decide)
  have hclose := hne Byte.closeBrace rfl (by decide)
  unfold Lexer.Piece.isBoundary
  rw [beq_false_of_ne hkind, show ((";" : Text)) = [Byte.semicolon] from rfl, Op.openBrace,
    Op.closeBrace, beq_false_of_ne hsemi, beq_false_of_ne hopen, beq_false_of_ne hclose]
  simp

theorem isOp_of_isEnd {t : Token} {b : UInt8} (hend : LayoutItem.isEnd b = true)
    (hspace : b ≠ Byte.space)
    (hbytes : forall c, c ∈ t.text -> c = Byte.space ∨ LayoutItem.isEnd c = false) :
    t.isOp [b] = false := by
  have hne : t.text ≠ [b] := by
    intro htext
    rcases hbytes b (by rw [htext]; exact List.mem_cons_self) with hb | hb
    · exact hspace hb
    · rw [hend] at hb
      cases hb
  unfold Token.isOp
  rw [beq_false_of_ne hne, Bool.and_false]

theorem layoutItems?_entry {us : List Lexer.Piece} {i : LayoutItem} {ts : List Token}
    (hts : ts.map Token.piece = Lexer.solid us)
    (hitem : layoutItem? ((Lexer.solid us).map Lexer.Piece.text) = some i)
    (hbytes : forall u, u ∈ us -> forall b, b ∈ u.text ->
      b = Byte.space ∨ LayoutItem.isEnd b = false) (rest : List Token) :
    exists item, layoutItem? item = some i ∧
      layoutItems? [] (ts ++ rest) = layoutItems? item rest := by
  refine ⟨ts.map Token.text, ?_, ?_⟩
  · rw [← hitem, ← hts, List.map_map]
    rfl
  · have hopen : forall t, t ∈ ts -> t.isOp ")" = false ∧ t.isOp "," = false := by
      intro t ht
      have hmem : t.piece ∈ Lexer.solid us := hts ▸ List.mem_map_of_mem ht
      have htext := hbytes t.piece (List.mem_filter.mp hmem).1
      exact ⟨isOp_of_isEnd rfl (by decide) htext, isOp_of_isEnd rfl (by decide) htext⟩
    rw [layoutItems?_append [] rest hopen, List.nil_append]

open Lexer in
/-- The entries of a qualifier and its closing parenthesis read back, whatever follows. -/
theorem exists_cuts_entries {items : List LayoutItem}
    (h : forall i, i ∈ items -> LayoutItem.Readable i) (r : Text) :
    exists us,
      spell us = Text.joinWith ", " (items.map LayoutItem.render) ++ [Byte.closeParen] ∧
      Cuts false us false r ∧ (forall u, u ∈ us -> u.isBoundary = false) ∧
      forall ts, ts.map Token.piece = solid us ->
        exists stop, forall rest, layoutItems? [] (ts ++ rest) = some (items, stop, rest) := by
  let paren : Piece := ⟨.operator, [Byte.closeParen]⟩
  have hparen : Cuts false [paren] false r := cuts_single rfl rfl
  have hclosing : forall (t : Token) (item : List Text) (rest : List Token), t.piece = paren ->
      layoutItems? item (t :: rest) = some ((layoutItem? item).toList, t.stop, rest) := by
    intro t item rest ht
    have hop : t.isOp ")" = true := isOp_of_piece ht
    rw [layoutItems?, hop]
    rfl
  induction items with
  | nil =>
      refine ⟨[paren], rfl, hparen, by simp [paren]; decide, ?_⟩
      intro ts hts
      rcases List.map_eq_singleton_iff.mp hts with ⟨t, rfl, ht⟩
      exact ⟨t.stop, fun rest => hclosing t [] rest ht⟩
  | cons i items ih =>
      have hi : i.Readable := h i List.mem_cons_self
      cases items with
      | nil =>
          have hsingle : (spell [paren] ++ r).head?.all isSingle = true := rfl
          rcases hi.exists_cuts hsingle with ⟨us, hspell, hcuts, hitem, hbytes⟩
          refine ⟨us ++ [paren], ?_, hcuts.append hparen, ?_, ?_⟩
          · rw [spell_append, hspell]
            simp [Text.joinWith, paren]
          · intro u hu
            rcases List.mem_append.mp hu with hu | hu
            · exact isBoundary_of_isEnd (hcuts.kind_ne_eof u hu) (hbytes u hu)
            · rw [List.mem_singleton.mp hu]
              rfl
          · intro ts hts
            rw [solid_append] at hts
            rcases List.map_eq_append_iff.mp hts with ⟨t₁, t₂, rfl, ht₁, ht₂⟩
            rcases List.map_eq_singleton_iff.mp ht₂ with ⟨t, rfl, ht⟩
            refine ⟨t.stop, fun rest => ?_⟩
            rcases layoutItems?_entry ht₁ hitem hbytes (t :: rest) with ⟨item, hitem', hread⟩
            rw [List.append_assoc, List.singleton_append, hread, hclosing t item rest ht, hitem']
            rfl
      | cons j items =>
          let comma : Piece := ⟨.operator, [Byte.comma]⟩
          let space : Piece := ⟨.whitespace, [Byte.space]⟩
          rcases ih fun k hk => h k (List.mem_cons_of_mem i hk) with
            ⟨vs, hvs, hright, hinner, hreads⟩
          have hj : j.Readable := h j (by simp)
          have hspace : Cuts false ([space] ++ vs) false r := by
            refine (cuts_space ?_).append hright
            rcases Text.exists_joinWith_cons ", " j.render
              (items.map LayoutItem.render) with ⟨x, hx⟩
            rw [hvs, List.map_cons, hx, List.append_assoc, List.append_assoc]
            exact hj.head?_render _
          have hcomma : Cuts false ([comma] ++ ([space] ++ vs)) false r :=
            (cuts_single rfl rfl).append hspace
          have hsingle : (spell ([comma] ++ ([space] ++ vs)) ++ r).head?.all isSingle = true := rfl
          rcases hi.exists_cuts hsingle with ⟨us, hspell, hcuts, hitem, hbytes⟩
          refine ⟨us ++ ([comma] ++ ([space] ++ vs)), ?_, hcuts.append hcomma, ?_, ?_⟩
          · have hjoin := Text.joinWith_cons_cons ", " i.render j.render
              (items.map LayoutItem.render)
            simp only [List.map_cons] at hvs ⊢
            rw [spell_append, spell_append, spell_append, hspell, hvs, hjoin]
            simp [comma, space, show ((", " : Text)) = [Byte.comma, Byte.space] from rfl]
          · intro u hu
            simp only [List.mem_append, List.mem_singleton] at hu
            rcases hu with hu | rfl | rfl | hu
            · exact isBoundary_of_isEnd (hcuts.kind_ne_eof u hu) (hbytes u hu)
            · rfl
            · rfl
            · exact hinner u hu
          · intro ts hts
            have hsolid : solid ([comma] ++ ([space] ++ vs)) = comma :: solid vs := rfl
            rw [solid_append, hsolid] at hts
            rcases List.map_eq_append_iff.mp hts with ⟨t₁, t₂, rfl, ht₁, ht₂⟩
            rcases List.map_eq_cons_iff.mp ht₂ with ⟨t, t₃, rfl, ht, ht₃⟩
            rcases hreads t₃ ht₃ with ⟨stop, hreads⟩
            refine ⟨stop, fun rest => ?_⟩
            rcases layoutItems?_entry ht₁ hitem hbytes (t :: (t₃ ++ rest)) with
              ⟨item, hitem', hread⟩
            have hop : t.isOp ")" = false ∧ t.isOp "," = true := by
              unfold Token.isOp
              rw [show t.kind = .operator from congrArg Piece.kind ht,
                show t.text = [Byte.comma] from congrArg Piece.text ht]
              exact ⟨rfl, rfl⟩
            rw [List.append_assoc, List.cons_append, hread, layoutItems?, hop.1, hop.2, hreads rest,
              hitem']
            rfl

open Lexer in
/-- A written qualifier reads back, wherever it stands and whatever follows. -/
theorem exists_cuts_render {items : List LayoutItem}
    (h : forall i, i ∈ items -> LayoutItem.Readable i) (f : Bool) (r : Text) :
    exists us, spell us = Layout.render ⟨items, 0, 0⟩ ∧ Cuts f us false r ∧
      (forall u, u ∈ us -> u.isBoundary = false) ∧
      forall ts, ts.map Token.piece = solid us ->
        exists l, l.items = items ∧ SpellsLayout ts l := by
  let word : Piece := ⟨.keyword, "layout"⟩
  let paren : Piece := ⟨.operator, [Byte.openParen]⟩
  rcases exists_cuts_entries h r with ⟨us, hspell, hcuts, hinner, hreads⟩
  have hparen : Cuts false ([paren] ++ us) false r := (cuts_single rfl rfl).append hcuts
  have hword : extent? f (Byte.of 'l') ("ayout" ++ (spell ([paren] ++ us) ++ r)) =
      some (.keyword, 5) := by
    have hplain : plainExtent (Byte.of 'l') "ayout" = (.keyword, 5) := by decide +kernel
    have hform : form f (Byte.of 'l') (("ayout" : Text) ++ (spell ([paren] ++ us) ++ r)).head? =
        .plain := by
      cases f <;> rfl
    rw [extent?_eq, hform]
    refine congrArg some ?_
    rw [← hplain]
    exact plainExtent_barrier (c := Byte.openParen) rfl _ _ (spell us ++ r)
  refine ⟨word :: ([paren] ++ us), ?_, ?_, ?_, ?_⟩
  · show ("layout" : Text) ++ ([Byte.openParen] ++ spell us) = Layout.render ⟨items, 0, 0⟩
    rw [hspell]
    simp [Layout.render, show (("layout(" : Text)) = "layout" ++ [Byte.openParen] from rfl,
      show ((")" : Text)) = [Byte.closeParen] from rfl]
  · refine Cuts.cons hword ?_
    rw [staysFresh_of_plain rfl]
    exact hparen
  · intro u hu
    rcases List.mem_cons.mp hu with rfl | hu
    · rfl
    · rcases List.mem_append.mp hu with hu | hu
      · rw [List.mem_singleton.mp hu]
        rfl
      · exact hinner u hu
  · intro ts hts
    have hsolid : solid (word :: ([paren] ++ us)) = word :: paren :: solid us := rfl
    rw [hsolid] at hts
    rcases List.map_eq_cons_iff.mp hts with ⟨t, ts, rfl, ht, hts⟩
    rcases List.map_eq_cons_iff.mp hts with ⟨t', ts, rfl, ht', hts⟩
    rcases hreads ts hts with ⟨stop, hreads⟩
    have hread : layoutItems? [] ts = some (items, stop, []) := by simpa using hreads []
    refine ⟨⟨items, t.offset, stop⟩, rfl, t, t', ts, rfl, ?_, isOp_of_piece ht', rfl, hread⟩
    unfold isLayoutWord
    rw [show t.kind = .keyword from congrArg Piece.kind ht,
      show t.text = "layout" from congrArg Piece.text ht]
    rfl

end Declaration

/-!
# Entries of a source
-/

namespace Lexer

def IsCut (w : Piece) : Prop :=
  exists fresh b v rest, w.text = b :: v ∧
    extent? fresh b (v ++ rest) = some (w.kind, v.length)

theorem IsCut.isToken {w : Piece} (h : IsCut w) (hplain : w.isPlain = true) : IsToken w.text := by
  rcases h with ⟨fresh, b, v, rest, htext, hextent⟩
  have hkind : formOf w.kind = .plain := eq_of_beq hplain
  have hform : form fresh b (v ++ rest).head? = .plain := (form_of_extent? hextent).trans hkind
  have hspec := form_spec fresh b (v ++ rest).head?
  rw [hform] at hspec
  have hextent' := plainExtent_of_extent? hextent hkind
  refine ⟨w.kind, b, v, htext, ?_, ?_⟩
  · cases v with
    | nil =>
        unfold form
        simp [hspec.1]
    | cons c v =>
        have hfresh : form fresh b (some c) = .plain := hform
        show form false b (some c) = .plain
        unfold form at hfresh ⊢
        simp only [hspec.1, Bool.false_eq_true, if_false, Bool.and_false] at hfresh ⊢
        split at hfresh
        · cases hfresh
        · exact hfresh
  · rw [plainExtent_of_append_le (r := rest) (by rw [hextent']), hextent']

theorem IsCut.eq_singleton {w : Piece} (h : IsCut w) (hplain : w.isPlain = true) {c : UInt8}
    (hc : isSingle c = true) (hmem : c ∈ w.text) : w = ⟨.operator, [c]⟩ := by
  rcases h with ⟨fresh, b, v, rest, htext, hextent⟩
  have hextent' := plainExtent_of_extent? hextent (eq_of_beq hplain)
  rw [htext] at hmem
  rcases List.mem_cons.mp hmem with rfl | hmem
  · rw [plainExtent_single hc] at hextent'
    rcases Prod.mk.inj hextent' with ⟨hkind, hlen⟩
    have hv : v = [] := List.length_eq_zero_iff.mp hlen.symm
    rcases w with ⟨kind, text⟩
    simp_all
  · rcases List.append_of_mem hmem with ⟨x, y, rfl⟩
    rw [List.append_assoc, List.cons_append,
      plainExtent_barrier (Bool.and_eq_true_iff.mp hc).1] at hextent'
    have hle := plainExtent_le b x
    rw [hextent'] at hle
    simp only [List.length_append, List.length_cons] at hle
    omega

end Lexer

namespace Declaration

theorem isEnd_of_isCut {t : Token} (hcut : Lexer.IsCut t.piece) (hplain : t.piece.isPlain = true)
    (hboundary : t.piece.isBoundary = false) (hparen : t.isOp ")" = false)
    (hcomma : t.isOp "," = false) : forall b, b ∈ t.text -> LayoutItem.isEnd b = false := by
  intro b hb
  have hnot : Lexer.isSingle b = true -> t.piece = ⟨.operator, [b]⟩ := fun hsingle =>
    hcut.eq_singleton hplain hsingle hb
  unfold LayoutItem.isEnd
  cases hsep : Lexer.isSeparator b with
  | true =>
      have hslash : b ≠ Byte.slash := by
        rintro rfl
        cases hsep
      have hpiece := hnot (by
        simp [Lexer.isSingle, Lexer.isBarrier_of_isSeparator hsep, hslash])
      rcases hcut.isToken hplain with ⟨kind, c, v, htext, hform, _⟩
      have hspec := Lexer.form_spec false c v.head?
      rw [hform] at hspec
      rw [hpiece] at htext
      rw [← (List.cons.inj htext).1, hsep] at hspec
      cases hspec.1
  | false =>
      have hbytes : b ≠ Byte.comma ∧ b ≠ Byte.closeParen ∧ b ≠ Byte.semicolon ∧
          b ≠ Byte.openBrace ∧ b ≠ Byte.closeBrace := by
        refine ⟨?_, ?_, ?_, ?_, ?_⟩
        · rintro rfl
          rw [show t.isOp "," = true from isOp_of_piece (hnot rfl)] at hcomma
          cases hcomma
        · rintro rfl
          rw [show t.isOp ")" = true from isOp_of_piece (hnot rfl)] at hparen
          cases hparen
        · rintro rfl
          rw [hnot rfl] at hboundary
          cases hboundary
        · rintro rfl
          rw [hnot rfl] at hboundary
          cases hboundary
        · rintro rfl
          rw [hnot rfl] at hboundary
          cases hboundary
      simp [hbytes]

def IsInner (t : Token) : Prop :=
  Lexer.IsCut t.piece ∧ t.piece.isPlain = true ∧ t.piece.isBoundary = false

theorem readable_of_layoutItem? {texts : List Text} {i : LayoutItem}
    (h : layoutItem? texts = some i)
    (htexts : forall s, s ∈ texts ->
      Lexer.IsToken s ∧ forall b, b ∈ s -> LayoutItem.isEnd b = false)
    (hcomment : Directive.hasComment i.value = false) : i.Readable := by
  match texts with
  | [] => cases h
  | [key] =>
      cases h
      rcases htexts key (by simp) with ⟨htoken, hbytes⟩
      exact ⟨htoken, by simpa using hbytes, hcomment⟩
  | [key, equals] =>
      cases h
      rcases htexts key (by simp) with ⟨htoken, hbytes⟩
      exact ⟨htoken, by simpa using hbytes, hcomment⟩
  | key :: equals :: v :: vs =>
      cases h
      rcases htexts key (by simp) with ⟨htoken, hbytes⟩
      refine ⟨htoken, ?_, hcomment⟩
      intro b hb
      rcases List.mem_append.mp hb with hb | hb
      · exact hbytes b hb
      · dsimp only at hb
        split at hb
        · rcases List.mem_flatten.mp hb with ⟨s, hs, hb⟩
          exact (htexts s (List.mem_cons_of_mem _ (List.mem_cons_of_mem _ hs))).2 b hb
        · cases hb

theorem readable_of_layoutItems? {item : List Text} {ts rest : List Token}
    {items : List LayoutItem} {stop : Nat} (h : layoutItems? item ts = some (items, stop, rest))
    (hitem : forall s, s ∈ item -> Lexer.IsToken s ∧ forall b, b ∈ s -> LayoutItem.isEnd b = false)
    (hts : forall t, t ∈ ts -> IsInner t)
    (hcomment : forall i, i ∈ items -> Directive.hasComment i.value = false) :
    forall i, i ∈ items -> i.Readable := by
  induction ts generalizing item items with
  | nil => cases h
  | cons t ts ih =>
      have hrest : forall u, u ∈ ts -> IsInner u := fun u hu => hts u (List.mem_cons_of_mem t hu)
      rw [layoutItems?] at h
      cases hparen : t.isOp ")" with
      | true =>
          rw [if_pos hparen] at h
          cases h
          intro i hi
          exact readable_of_layoutItem? (Option.mem_toList.mp hi) hitem (hcomment i hi)
      | false =>
          rw [if_neg (by simp [hparen])] at h
          cases hcomma : t.isOp "," with
          | true =>
              rw [if_pos hcomma] at h
              rcases Option.map_eq_some_iff.mp h with ⟨⟨items', stop', rest'⟩, hread, heq⟩
              cases heq
              intro i hi
              rcases List.mem_append.mp hi with hi | hi
              · exact readable_of_layoutItem? (Option.mem_toList.mp hi) hitem
                  (hcomment i (List.mem_append_left _ hi))
              · exact ih hread (by simp) hrest
                  (fun j hj => hcomment j (List.mem_append_right _ hj)) i hi
          | false =>
              rw [if_neg (by simp [hcomma])] at h
              refine ih h ?_ hrest hcomment
              intro s hs
              rcases List.mem_append.mp hs with hs | hs
              · exact hitem s hs
              · rcases hts t List.mem_cons_self with ⟨hcut, hplain, hboundary⟩
                rw [List.mem_singleton.mp hs]
                exact ⟨hcut.isToken hplain, isEnd_of_isCut hcut hplain hboundary hparen hcomma⟩

theorem SpellsLayout.readable {ts : List Token} {l : Layout} (h : SpellsLayout ts l)
    (hts : forall t, t ∈ ts -> IsInner t)
    (hcomment : forall i, i ∈ l.items -> Directive.hasComment i.value = false) :
    forall i, i ∈ l.items -> i.Readable := by
  rcases h with ⟨word, paren, inner, rfl, _, _, _, hread⟩
  exact readable_of_layoutItems? hread (by simp)
    (fun t ht => hts t (List.mem_cons_of_mem _ (List.mem_cons_of_mem _ ht))) hcomment

end Declaration

end EffectShader
