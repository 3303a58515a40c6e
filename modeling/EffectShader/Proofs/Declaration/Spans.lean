import EffectShader.Proofs.Declaration.Head
import EffectShader.Proofs.Declaration.Units

/-!
# Places in a source

The tokens of a source follow each other without gaps, so the bytes between two
of them are the texts of the tokens in between.
-/

namespace EffectShader

def textOf (ts : List Token) : Text :=
  Lexer.spell (ts.map Token.piece)

@[simp] theorem textOf_nil : textOf [] = [] := rfl

@[simp] theorem textOf_cons (t : Token) (ts : List Token) :
    textOf (t :: ts) = t.text ++ textOf ts := rfl

@[simp] theorem textOf_append (ts us : List Token) :
    textOf (ts ++ us) = textOf ts ++ textOf us := by
  simp [textOf]

def Placed : Nat -> List Token -> Prop
  | _, [] => True
  | o, t :: ts => t.offset = o ∧ Placed t.stop ts

theorem placed_append {o : Nat} {ts us : List Token} :
    Placed o (ts ++ us) ↔ Placed o ts ∧ Placed (o + (textOf ts).length) us := by
  induction ts generalizing o with
  | nil => simp [Placed]
  | cons t ts ih =>
      rw [List.cons_append, Placed, Placed, ih, textOf_cons, List.length_append, ← and_assoc]
      constructor
      · rintro ⟨⟨rfl, hts⟩, hus⟩
        exact ⟨⟨rfl, hts⟩, by rw [← Nat.add_assoc]; exact hus⟩
      · rintro ⟨⟨rfl, hts⟩, hus⟩
        exact ⟨⟨rfl, hts⟩, by rw [← Nat.add_assoc] at hus; exact hus⟩

theorem Placed.offset {o : Nat} {ts us : List Token} {t : Token} (h : Placed o (ts ++ t :: us)) :
    t.offset = o + (textOf ts).length ∧ t.stop = o + (textOf ts).length + t.text.length := by
  rcases placed_append.mp h with ⟨_, hoffset, _⟩
  refine ⟨hoffset, ?_⟩
  show t.offset + t.text.length = _
  rw [hoffset]

theorem Placed.within {o : Nat} {ts : List Token} {t : Token} (h : Placed o ts) (ht : t ∈ ts) :
    o ≤ t.offset ∧ t.stop ≤ o + (textOf ts).length := by
  rcases List.append_of_mem ht with ⟨before, after, rfl⟩
  rcases h.offset with ⟨hoffset, hstop⟩
  rw [hoffset, hstop]
  simp only [textOf_append, textOf_cons, List.length_append]
  omega

theorem Placed.head {o : Nat} {ts us : List Token} {t : Token} (h : Placed o (ts ++ us))
    (ht : ts.head? = some t) : t.offset = o := by
  rcases List.head?_eq_some_iff.mp ht with ⟨rest, rfl⟩
  exact h.1

namespace Lexer

theorem placed_place (p : Position) (ws : List Piece) : Placed p.offset (place p ws) := by
  induction ws generalizing p with
  | nil => exact ⟨rfl, trivial⟩
  | cons w ws ih =>
      refine ⟨rfl, ?_⟩
      have hrest := ih (p.advance w.text)
      rw [Position.offset_advance] at hrest
      exact hrest

theorem map_piece_place (p : Position) (ws : List Piece) :
    (place p ws).map Token.piece = ws ++ [Declaration.endPiece] := by
  induction ws generalizing p with
  | nil => rfl
  | cons w ws ih =>
      rw [place_cons, List.map_cons, ih]
      rfl

end Lexer

/-!
# Slices
-/

theorem Text.slice_of_drop {s x y z : Text} {o : Nat} (h : s.drop o = x ++ (y ++ z)) :
    Text.slice s (o + x.length) (o + x.length + y.length) = y := by
  unfold Text.slice
  rw [← List.drop_drop, h, List.drop_left, Nat.add_sub_cancel_left, List.take_left]

theorem Text.drop_of_drop {s x y : Text} {o : Nat} (h : s.drop o = x ++ y) :
    s.drop (o + x.length) = y := by
  rw [← List.drop_drop, h, List.drop_left]

structure Standing (code : Text) (o : Nat) (f g : Bool) (ts : List Token) (s : Text) : Prop where
  text : code.drop o = textOf ts ++ s
  placed : Placed o ts
  cuts : Lexer.Cuts f (ts.map Token.piece) g s

/-- Tokens that stand at an offset of a source; no hash sign stands inside a line of them. -/
structure Situated (code : Text) (o : Nat) (f g : Bool) (ts : List Token) (s : Text) : Prop
    extends Standing code o f g ts s where
  noHash : Lexer.strayHash ∉ ts.map Token.piece

theorem Situated.slice_eq {code s : Text} {o : Nat} {f g : Bool} {x y z : List Token}
    (h : Situated code o f g (x ++ (y ++ z)) s) :
    Text.slice code (o + (textOf x).length) (o + (textOf x).length + (textOf y).length) =
      textOf y := by
  apply Text.slice_of_drop (z := textOf z ++ s)
  rw [h.text]
  simp

theorem Situated.slice_all {code s : Text} {o : Nat} {f g : Bool} {ts : List Token}
    (h : Situated code o f g ts s) : Text.slice code o (o + (textOf ts).length) = textOf ts := by
  have hslice := Situated.slice_eq (x := []) (y := ts) (z := []) (by simpa using h)
  simpa using hslice

theorem Standing.split {code s : Text} {o : Nat} {f g : Bool} {x y : List Token}
    (h : Standing code o f g (x ++ y) s) :
    exists g', Standing code o f g' x (textOf y ++ s) ∧
      Standing code (o + (textOf x).length) g' g y s := by
  have hcuts := h.cuts
  rw [List.map_append] at hcuts
  rcases hcuts.split with ⟨g', hx, hy⟩
  rcases placed_append.mp h.placed with ⟨hplaced, hplaced'⟩
  have htext : code.drop o = textOf x ++ (textOf y ++ s) := by
    rw [h.text, textOf_append, List.append_assoc]
  exact ⟨g', ⟨htext, hplaced, hx⟩, ⟨Text.drop_of_drop htext, hplaced', hy⟩⟩

theorem Standing.offset_lt_stop {code s : Text} {o : Nat} {f g : Bool} {ts : List Token}
    (h : Standing code o f g ts s) {t : Token} (ht : t ∈ ts) : t.offset < t.stop := by
  rcases h.cuts.isCut t.piece (List.mem_map_of_mem ht) with ⟨_, b, v, _, hbytes, _⟩
  apply Nat.lt_add_of_pos_right
  rw [show t.text = b :: v from hbytes]
  exact Nat.succ_pos _

theorem Standing.head?_append {code s : Text} {o : Nat} {f g : Bool} {t : Token} {us : List Token}
    (h : Standing code o f g (t :: us) s) (r : Text) :
    (textOf (t :: us) ++ r).head? = (code.drop o).head? := by
  rcases h.cuts.isCut t.piece List.mem_cons_self with ⟨_, b, v, _, hbytes, _⟩
  rw [h.text, textOf_cons, show t.text = b :: v from hbytes]
  rfl

theorem Situated.split {code s : Text} {o : Nat} {f g : Bool} {x y : List Token}
    (h : Situated code o f g (x ++ y) s) :
    exists g', Situated code o f g' x (textOf y ++ s) ∧
      Situated code (o + (textOf x).length) g' g y s := by
  have hhash := h.noHash
  rw [List.map_append, List.mem_append, not_or] at hhash
  rcases h.toStanding.split with ⟨g', hx, hy⟩
  exact ⟨g', ⟨hx, hhash.1⟩, ⟨hy, hhash.2⟩⟩

/-!
# Tokens between trivia
-/

theorem exists_of_solidTokens {raw before after : List Token} {t : Token}
    (h : solidTokens raw = before ++ t :: after) :
    exists x y, raw = x ++ t :: y ∧ solidTokens x = before ∧ solidTokens y = after := by
  unfold solidTokens at h
  rcases List.filter_eq_append_iff.mp h with ⟨x, y, rfl, hx, hy⟩
  rcases List.filter_eq_cons_iff.mp hy with ⟨u, v, rfl, hu, ht, hv⟩
  refine ⟨x ++ u, v, by simp, ?_, hv⟩
  have hnone : solidTokens u = [] := List.filter_eq_nil_iff.mpr hu
  rw [solidTokens_append, hnone, List.append_nil]
  exact hx

/-!
# Texts that declare wherever they stand

A statement with its semicolon, a block or a function starts with syntax and ends
with a token of its own.  Such a text is read in the same way behind and in front of
any other, so a source can be put together from them.
-/

namespace Declaration

open Lexer

def Yields (text : Text) (ds : List Declaration) : Prop :=
  exists us, spell us = text ∧ (exists c, text.head? = some c ∧ isSeparator c = false) ∧
    (forall f r, Cuts f us false r) ∧
    forall ws ds', Declares ws ds' -> Declares (us ++ ws) (ds ++ ds')

theorem Yields.lexes {text r : Text} {ds ds' : List Declaration} {ws : List Piece}
    (h : Yields text ds) (hr : Lexes false r ws) (hws : Declares ws ds') (f : Bool) :
    exists ws', Lexes f (text ++ r) ws' ∧ Declares ws' (ds ++ ds') := by
  rcases h with ⟨us, rfl, _, hcuts, hdeclares⟩
  exact ⟨us ++ ws, (hcuts f r).lexes hr, hdeclares ws ds' hws⟩

theorem cuts_join {us vs : List Piece} {d : UInt8} (hus : forall f r, Cuts f us false r)
    (hvs : forall f r, Cuts f vs false r) (hd : (spell vs).head? = some d)
    (hsep : isSeparator d = false) (f : Bool) (r : Text) :
    Cuts f (us ++ ⟨.whitespace, [Byte.space]⟩ :: vs) false r := by
  refine (hus f _).append ?_
  rw [← List.singleton_append]
  refine (cuts_space ?_).append (hvs false r)
  intro b hb
  rw [List.head?_append, hd] at hb
  rw [← Option.some.inj hb]
  exact hsep

theorem Yields.join {x y : Text} {ds ds' : List Declaration} (hx : Yields x ds)
    (hy : Yields y ds') : Yields (x ++ (" " ++ y)) (ds ++ ds') := by
  rcases hx with ⟨us, rfl, ⟨c, hc, hsep⟩, hus, hds⟩
  rcases hy with ⟨vs, rfl, ⟨d, hd, hsep'⟩, hvs, hds'⟩
  refine ⟨us ++ ⟨.whitespace, [Byte.space]⟩ :: vs, by simp; rfl, ⟨c, ?_, hsep⟩,
    cuts_join hus hvs hd hsep', ?_⟩
  · rw [List.head?_append, hc]
    rfl
  · intro ws ds'' hws
    rw [List.append_assoc, List.append_assoc, List.cons_append]
    exact hds _ _ (Declares.skip rfl (hds' ws ds'' hws))

theorem Cuts.after_plain {f g : Bool} {us : List Piece} {r : Text} {w : Piece}
    (h : Cuts f us g r) (hlast : us.getLast? = some w) (hw : w.isPlain = true) : g = false := by
  rcases List.getLast?_eq_some_iff.mp hlast with ⟨vs, rfl⟩
  rcases h.split with ⟨_, _, hlast⟩
  cases hlast with
  | cons _ hnil =>
      cases hnil
      exact staysFresh_of_plain (eq_of_beq hw) _ _

theorem yields_of_cuts {f g : Bool} {us : List Piece} {w : Piece} {r : Text} {c : UInt8}
    {ds : List Declaration} (h : Cuts f us g r) (hhead : us.head? = some w)
    (hplain : w.isPlain = true) (hhash : w ≠ strayHash)
    (hlast : us.getLast? = some ⟨.operator, [c]⟩) (hc : isSingle c = true)
    (hdeclares : forall ws ds', Declares ws ds' -> Declares (us ++ ws) (ds ++ ds')) :
    Yields (spell us) ds := by
  have hg : g = false := Cuts.after_plain h hlast rfl
  subst hg
  cases us with
  | nil => cases hhead
  | cons u us =>
      cases hhead
      refine ⟨w :: us, rfl, ?_, ?_, hdeclares⟩
      · rcases h.isCut w List.mem_cons_self with ⟨fresh, b, v, rest, htext, hextent⟩
        have hspec := form_spec fresh b (v ++ rest).head?
        rw [form_of_extent? hextent, show formOf w.kind = .plain from eq_of_beq hplain] at hspec
        refine ⟨b, ?_, hspec.1⟩
        rw [spell_cons, htext]
        rfl
      · intro f' r'
        refine (h.anywhere_of_plain hplain hhash f').exchange ?_
        intro w' hw'
        rw [hlast] at hw'
        rw [← Option.some.inj hw']
        exact Or.inl ⟨c, rfl, hc⟩

theorem yields_of_open {f g : Bool} {us vs : List Piece} {r : Text} {b c : UInt8}
    {ds : List Declaration} (h : Cuts f (us ++ ⟨.operator, [b]⟩ :: vs) g r)
    (hopen : IsOpenPieces us) (hhash : us.head? ≠ some strayHash) (hb : b ≠ Byte.hash)
    (hlast : (us ++ ⟨.operator, [b]⟩ :: vs).getLast? = some ⟨.operator, [c]⟩)
    (hc : isSingle c = true)
    (hdeclares : forall ws ds', Declares ws ds' ->
      Declares (us ++ ⟨.operator, [b]⟩ :: (vs ++ ws)) (ds ++ ds')) :
    Yields (spell us ++ b :: spell vs) ds := by
  have hall : forall ws ds', Declares ws ds' ->
      Declares ((us ++ ⟨.operator, [b]⟩ :: vs) ++ ws) (ds ++ ds') := by
    intro ws ds' hws
    rw [List.append_assoc, List.cons_append]
    exact hdeclares ws ds' hws
  have htext : spell us ++ b :: spell vs = spell (us ++ ⟨.operator, [b]⟩ :: vs) := by simp
  rw [htext]
  cases us with
  | nil =>
      refine yields_of_cuts h rfl rfl ?_ hlast hc hall
      intro heq
      exact hb (List.cons.inj (Piece.mk.inj heq).2).1
  | cons u us =>
      refine yields_of_cuts h rfl (hopen.head u rfl) ?_ hlast hc hall
      intro heq
      exact hhash (congrArg some heq)

theorem yields_statement {f g : Bool} {us : List Piece} {r : Text} {d : Option Declaration}
    (h : Cuts f (us ++ [⟨.operator, [Byte.semicolon]⟩]) g r) (hopen : IsOpenPieces us)
    (hhash : us.head? ≠ some strayHash) (hd : StatementDeclares us d) :
    Yields (spell us ++ [Byte.semicolon]) d.toList := by
  refine yields_of_open h hopen hhash (by decide) (c := Byte.semicolon) (by simp) rfl ?_
  intro ws ds' hws
  exact Declares.statement hopen hd hws

theorem yields_block {f g : Bool} {us body : List Piece} {r : Text} {d : Declaration}
    (h : Cuts f (us ++ ⟨.operator, Op.openBrace⟩ :: (body ++ [⟨.operator, [Byte.semicolon]⟩])) g r)
    (hopen : IsOpenPieces us) (hhash : us.head? ≠ some strayHash) (hd : BlockDeclares us body d) :
    Yields (spell us ++ Byte.openBrace :: (spell body ++ [Byte.semicolon])) [d] := by
  have hdeclares : forall ws ds', Declares ws ds' ->
      Declares (us ++ ⟨.operator, Op.openBrace⟩ ::
        ((body ++ [⟨.operator, [Byte.semicolon]⟩]) ++ ws)) ([d] ++ ds') := by
    intro ws ds' hws
    rw [List.append_assoc]
    exact Declares.block hopen hd hws
  have hyields := yields_of_open h hopen hhash (by decide) (c := Byte.semicolon)
    (by rw [← List.cons_append, ← List.append_assoc, List.getLast?_concat]) rfl hdeclares
  rw [spell_append] at hyields
  exact hyields

end Declaration

/-!
# Statements with other layouts

A declaration keeps its meaning, but for the layout, when its layout qualifier is
exchanged, put in front, or joined by the words that stood around it.
-/

namespace Declaration

open Lexer

def Spells (us : List Piece) (q : Qualifiers) (tail : List Piece) : Prop :=
  forall raw, raw.map Token.piece = us ->
    exists quals q' rest, solidTokens raw = quals ++ rest ∧ Qualifies Qualifiers.none quals q' ∧
      q'.unplaced = q.unplaced ∧ rest.map Token.piece = tail

def SpellsItems (us : List Piece) (items : List LayoutItem) : Prop :=
  forall ts, ts.map Token.piece = solid us -> exists l, l.items = items ∧ SpellsLayout ts l

theorem SpellsLayout.spellsItems {raw : List Token} {l : Layout}
    (h : SpellsLayout (solidTokens raw) l) : SpellsItems (raw.map Token.piece) l.items := by
  intro ts hts
  exact h.alike (hts.trans (map_piece_solidTokens raw).symm)

/-!
# Exchanged layouts
-/

theorem spells_of_layout {as us bs : List Piece} {before after tail : List Token}
    {q₁ q : Qualifiers} {l : Option Layout} {items : List LayoutItem}
    (has : solid as = before.map Token.piece) (hbefore : Qualifies Qualifiers.none before q₁)
    (hus : SpellsItems us items) (hbs : solid bs = (after ++ tail).map Token.piece)
    (hafter : Qualifies.Words { q₁ with layout := l } after q) :
    Spells (as ++ (us ++ bs)) { q with layout := some ⟨items, 0, 0⟩ } (tail.map Token.piece) := by
  intro raw hraw
  rcases List.map_eq_append_iff.mp hraw with ⟨x, rest, rfl, hx, hrest⟩
  rcases List.map_eq_append_iff.mp hrest with ⟨m, y, rfl, hm, hy⟩
  have hx' : (solidTokens x).map Token.piece = before.map Token.piece := by
    rw [map_piece_solidTokens, hx, has]
  rcases hbefore.alike hx' rfl with ⟨q₁', hq₁', hunplaced⟩
  rcases hus (solidTokens m) (by rw [map_piece_solidTokens, hm]) with ⟨l', hitems, hl'⟩
  have hy' : (solidTokens y).map Token.piece = (after ++ tail).map Token.piece := by
    rw [map_piece_solidTokens, hy, hbs]
  rw [List.map_append] at hy'
  rcases List.map_eq_append_iff.mp hy' with ⟨after', tail', hsplit, hafter', htail'⟩
  have hwords := (hafter.alike hafter').with_layout (some l')
  have hsame : { q₁' with layout := some l' } = { q₁ with layout := some l' } := by
    rcases Qualifiers.parts_of_unplaced hunplaced with ⟨hstorage, _, hothers, hprecision⟩
    rw [hstorage, hothers, hprecision]
  refine ⟨solidTokens x ++ (solidTokens m ++ after'), { q with layout := some l' }, tail', ?_, ?_,
    ?_, htail'⟩
  · rw [solidTokens_append, solidTokens_append, hsplit]
    simp
  · refine hq₁'.append (Qualifies.layout hl' ?_)
    rw [hsame]
    exact hwords.qualifies
  · simp [Qualifiers.unplaced, Layout.unplaced, hitems]

theorem spells_of_front {us bs : List Piece} {quals tail : List Token} {q : Qualifiers}
    {items : List LayoutItem} (hus : SpellsItems us items)
    (hbs : solid bs = (quals ++ tail).map Token.piece)
    (hquals : Qualifies.Words Qualifiers.none quals q) :
    Spells (us ++ bs) { q with layout := some ⟨items, 0, 0⟩ } (tail.map Token.piece) := by
  show Spells ([] ++ (us ++ bs)) _ _
  exact spells_of_layout (l := none) rfl (Qualifies.nil _) hus hbs hquals

theorem spells_of_qualifies {us : List Piece} {quals tail : List Token} {q : Qualifiers}
    (hus : solid us = (quals ++ tail).map Token.piece)
    (hquals : Qualifies Qualifiers.none quals q) : Spells us q (tail.map Token.piece) := by
  intro raw hraw
  have hsolid : (solidTokens raw).map Token.piece = (quals ++ tail).map Token.piece := by
    rw [map_piece_solidTokens, hraw, hus]
  rw [List.map_append] at hsolid
  rcases List.map_eq_append_iff.mp hsolid with ⟨quals', tail', hsplit, hquals', htail'⟩
  rcases hquals.alike hquals' rfl with ⟨q', hq', hunplaced⟩
  exact ⟨quals', q', tail', hsplit, hq', hunplaced, htail'⟩

/-!
# Declarations with exchanged layouts
-/

/-- Names that are read in the same way wherever they stand. -/
def SpellsNames (names : List Token) (vs : List Variable) : Prop :=
  forall names', names'.map Token.piece = names.map Token.piece ->
    exists vs', declarators? names' = some vs' ∧
      vs'.map Variable.unplaced = vs.map Variable.unplaced

theorem spellsNames_of_declarators? {names : List Token} {vs : List Variable}
    (h : declarators? names = some vs) : SpellsNames names vs := by
  intro names' hnames
  have hsame := declarators?_alike hnames
  rw [h, Option.map_some] at hsame
  exact Option.map_eq_some_iff.mp hsame

theorem SpellsVariable.spellsNames {ts : List Token} {v : Variable} (h : SpellsVariable ts v) :
    SpellsNames ts [v] := by
  intro ts' hts
  rcases h.alike hts with ⟨v', hv', hunplaced⟩
  exact ⟨[v'], hv', by rw [List.map_singleton, List.map_singleton, hunplaced]⟩

theorem Parts.statementDeclares {st names : List Token} {semi : Token} {d : Declaration}
    (parts : Parts st semi d) {us : List Piece} {l : Option Layout} {vs : List Variable}
    (h : Spells us { parts.q with layout := l } ((parts.type :: names).map Token.piece))
    (hnames : SpellsNames names vs) :
    StatementDeclares us (some { d with layout := l, body := .variables vs }) := by
  intro raw semi' hraw
  rcases h raw hraw with ⟨quals, q', rest, hsolid, hquals, hunplaced, hrest⟩
  rcases List.map_eq_cons_iff.mp hrest with ⟨type, names', rfl, htype, hnames'⟩
  rcases hnames names' hnames' with ⟨vs', hvs', hvars⟩
  rcases Qualifiers.parts_of_unplaced hunplaced with ⟨hstorage, hlayout, hothers, hprecision⟩
  rcases Option.isSome_iff_exists.mp (show (quals ++ type :: names').head?.isSome = true by
    cases quals <;> rfl) with ⟨first, hfirst⟩
  have hnone : isQualifier type = false := by
    rw [isQualifier_congr htype]
    exact parts.notQualifier
  have hword : type.isWord = true := by
    rw [isWord_congr htype]
    exact parts.isWord
  refine ⟨_, by
    rw [hsolid]
    exact ofStatement?_of_qualifies hquals hnone hword (hstorage.trans parts.storage) hvs' hfirst
      semi', ?_⟩
  have htext : type.text = d.type :=
    (congrArg Piece.text htype).trans (congrArg Declaration.type parts.eq).symm
  have hothers' : q'.others = d.qualifiers :=
    hothers.trans (congrArg Declaration.qualifiers parts.eq).symm
  have hprecision' : q'.precision = d.precision :=
    hprecision.trans (congrArg Declaration.precision parts.eq).symm
  simp [unplaced, DeclarationBody.unplaced, hlayout, hvars, htext, hothers', hprecision']

theorem BlockParts.blockDeclares_layout {st ts after : List Token} {d : Declaration}
    (parts : BlockParts st ts d after) {us : List Piece} {l : Option Layout}
    (h : Spells us { parts.q with layout := l } [parts.name.piece]) :
    BlockDeclares us (parts.body.map Token.piece) { d with layout := l } := by
  intro raw inner semi after' hraw hinner hsemi
  rcases h raw hraw with ⟨quals, q', rest, hsolid, hquals, hunplaced, hrest⟩
  rcases List.map_eq_singleton_iff.mp hrest with ⟨name, rfl, hname⟩
  rcases Qualifiers.parts_of_unplaced hunplaced with ⟨hstorage, hlayout, hothers, hprecision⟩
  rcases parts.copy after' hquals hstorage hothers hprecision hname hinner hsemi with
    ⟨d', hblock, hd'⟩
  refine ⟨d', by rw [hsolid]; exact hblock, hd'.trans ?_⟩
  simp [unplaced, hlayout]

/-!
# Where a layout stands
-/

theorem solidTokens_layout {word last : Token} {mid inner : List Token}
    (hword : isLayoutWord word = true) (hmid : solidTokens mid = inner)
    (hlast : last.isOp ")" = true) :
    solidTokens (word :: (mid ++ [last])) = word :: (inner ++ [last]) := by
  have hword' : word.piece.isPlain = true := by
    have hkind : word.kind = .keyword := eq_of_beq (Bool.and_eq_true_iff.mp hword).1
    unfold Piece.isPlain
    rw [Token.kind_piece, hkind]
    rfl
  have hlast' : last.piece.isPlain = true := by
    unfold Piece.isPlain
    rw [Token.kind_piece, kind_of_isOp hlast]
    rfl
  rw [← List.singleton_append, solidTokens_append, solidTokens_append, hmid]
  simp [solidTokens, hword', hlast']

/-- The tokens from the word `layout` to the closing parenthesis, with all that stands between. -/
theorem exists_of_spellsLayout {raw before span after : List Token} {l : Layout}
    (h : solidTokens raw = before ++ (span ++ after)) (hspan : SpellsLayout span l) :
    exists x word mid last y, raw = x ++ ((word :: (mid ++ [last])) ++ y) ∧
      solidTokens x = before ∧ solidTokens (word :: (mid ++ [last])) = span ∧
      solidTokens y = after ∧ isLayoutWord word = true ∧ last.isOp ")" = true ∧
      forall o, Placed o raw -> l.start = o + (textOf x).length ∧
        l.stop = o + (textOf x).length + (textOf (word :: (mid ++ [last]))).length := by
  rcases hspan with ⟨word, paren, inner, rfl, hword, _, hstart, hitems⟩
  rcases exists_of_layoutItems? hitems with ⟨mid, last, rfl, hstop, hlast, _⟩
  rcases exists_of_solidTokens h with ⟨x, rest, rfl, hx, hrest⟩
  have hrest : solidTokens rest = (paren :: mid) ++ last :: after := by
    rw [hrest]
    simp
  rcases exists_of_solidTokens hrest with ⟨mid', y, rfl, hmid, hy⟩
  refine ⟨x, word, mid', last, y, by simp, hx, ?_, hy, hword, hlast, ?_⟩
  · exact solidTokens_layout hword hmid hlast
  · intro o ho
    have hshape : x ++ word :: (mid' ++ last :: y) = (x ++ word :: mid') ++ last :: y := by simp
    have hfirst := ho.offset.1
    rw [hshape] at ho
    refine ⟨hstart.trans hfirst, hstop.trans (ho.offset.2.trans ?_)⟩
    simp only [textOf_append, textOf_cons, textOf_nil, List.length_append, List.length_nil]
    omega

end Declaration

/-!
# White space between pieces

White space is cut off up to its end, and what stands in front of it does not see what
stands behind.  It lets a directive follow if it holds a newline, which makes a
difference for hash signs only.
-/

namespace Lexer

def padding (w : Text) : List Piece :=
  if w.isEmpty then [] else [⟨.whitespace, w⟩]

@[simp] theorem spell_padding (w : Text) : spell (padding w) = w := by
  cases w <;> simp [padding]

@[simp] theorem solid_padding (w : Text) : solid (padding w) = [] := by
  cases w <;> rfl

theorem isBoundary_padding {w : Text} : forall u, u ∈ padding w -> u.isBoundary = false := by
  intro u hu
  cases w with
  | nil => cases hu
  | cons b w =>
      rw [List.mem_singleton.mp hu]
      rfl

theorem cuts_padding {w r : Text} (hw : forall c, c ∈ w -> isSeparator c = true)
    (hr : forall c, r.head? = some c -> isSeparator c = false) (f : Bool) :
    Cuts f (padding w) (f || w.contains Byte.newline) r := by
  cases w with
  | nil =>
      rw [List.contains_nil, Bool.or_false]
      exact Cuts.nil f r
  | cons b w =>
      exact Cuts.cons (extent?_of_separators (hw b List.mem_cons_self)
        (fun c hc => hw c (List.mem_cons_of_mem b hc)) hr) (Cuts.nil _ r)

theorem isSeparator_after {fresh : Bool} {b : UInt8} {v r : Text} {kind : TokenKind}
    (h : extent? fresh b (v ++ r) = some (kind, v.length))
    (hkind : formOf kind = .directive ∨ formOf kind = .lineComment) {c : UInt8}
    (hc : r.head? = some c) : isSeparator c = true := by
  have hkinds : form fresh b (v ++ r).head? = formOf kind := form_of_extent? h
  rw [extent?_eq, hkinds] at h
  rcases hkind with hform | hform
  · rw [hform] at h
    rcases (continued_of_directiveExtent (Prod.mk.inj (Option.some.inj h)).2).2 with rfl | hr
    · cases hc
    · rw [← Option.some.inj (hr.symm.trans hc)]
      rfl
  · rw [hform] at h
    have hstop := (run_append_eq_length_iff.mp (Prod.mk.inj (Option.some.inj h)).2).2 c hc
    have hnewline : c = Byte.newline := by simpa using hstop
    rw [hnewline]
    rfl

theorem flag_of_whitespace {f g : Bool} {w : Piece} {r : Text} (h : Cuts f [w] g r)
    (hw : w.kind = .whitespace) : g = (f || w.text.contains Byte.newline) := by
  cases h with
  | @cons _ _ kind _ _ _ _ _ hnil =>
      cases hnil
      have hkind : kind = .whitespace := hw
      rw [hkind]
      rfl

theorem eq_whitespace {kind : TokenKind} (h : formOf kind = .space) : kind = .whitespace := by
  cases kind <;> first | rfl | cases h

theorem not_isSeparator_after {f g : Bool} {w : Piece} {r : Text} (h : Cuts f [w] g r)
    (hw : w.kind = .whitespace) {c : UInt8} (hc : r.head? = some c) : isSeparator c = false := by
  cases h with
  | @cons _ _ kind b v _ _ hextent _ =>
      have hkind : kind = .whitespace := hw
      subst hkind
      have hform : form f b (v ++ (spell [] ++ r)).head? = .space := form_of_extent? hextent
      rw [extent?_eq, hform] at hextent
      exact (run_append_eq_length_iff.mp (Prod.mk.inj (Option.some.inj hextent)).2).2 c hc

theorem not_isSeparator_of_kind {f g : Bool} {w : Piece} {us : List Piece} {r : Text}
    (h : Cuts f (w :: us) g r) (hw : w.kind ≠ .whitespace) {c : UInt8}
    (hc : (spell (w :: us) ++ r).head? = some c) : isSeparator c = false := by
  rcases h.isCut w List.mem_cons_self with ⟨fresh, b, v, rest, htext, hextent⟩
  rw [spell_cons, htext] at hc
  rw [← Option.some.inj hc]
  have hspec := form_spec fresh b (v ++ rest).head?
  rw [form_of_extent? hextent] at hspec
  cases hform : formOf w.kind with
  | space => exact absurd (eq_whitespace hform) hw
  | directive | lineComment | blockComment =>
      rw [hform] at hspec
      rw [hspec.1]
      rfl
  | plain =>
      rw [hform] at hspec
      exact hspec.1

theorem exists_padding {f g : Bool} {us : List Piece} {r : Text} (h : Cuts f us g r)
    (hne : us ≠ []) :
    exists w vs, us = padding w ++ vs ∧ (forall c, c ∈ w -> isSeparator c = true) ∧
      Cuts (f || w.contains Byte.newline) vs g r ∧
      forall c, (spell vs ++ r).head? = some c -> isSeparator c = false := by
  cases us with
  | nil => exact absurd rfl hne
  | cons u us =>
      by_cases hspace : u.kind = .whitespace
      · rcases separators_of_isCut (h.isCut u List.mem_cons_self) hspace with ⟨hnil, hsep⟩
        rcases (show Cuts f ([u] ++ us) g r from h).split with ⟨g', hfirst, hrest⟩
        rw [flag_of_whitespace hfirst hspace] at hrest
        refine ⟨u.text, us, ?_, hsep, hrest, fun c => not_isSeparator_after hfirst hspace⟩
        unfold padding
        rw [if_neg (by simpa using hnil), ← hspace]
        rfl
      · refine ⟨[], u :: us, rfl, List.forall_mem_nil _, ?_,
          fun c => not_isSeparator_of_kind h hspace⟩
        rw [List.contains_nil, Bool.or_false]
        exact h

theorem Cuts.before_separator {f g : Bool} {us : List Piece} {c : UInt8} {r : Text}
    (h : Cuts f us g (c :: r)) (hc : isSeparator c = true) (r' : Text) : Cuts f us g (c :: r') := by
  apply h.exchange
  intro w hw
  rcases List.getLast?_eq_some_iff.mp hw with ⟨vs, rfl⟩
  rcases h.split with ⟨g', _, hlast⟩
  unfold Closes
  cases hform : formOf w.kind with
  | space =>
      rw [not_isSeparator_after hlast (eq_whitespace hform) rfl] at hc
      cases hc
  | directive | lineComment => rfl
  | blockComment => exact trivial
  | plain =>
      have hslash : c ≠ Byte.slash := by
        rintro rfl
        cases hc
      right
      simp [isSingle, isBarrier_of_isSeparator hc, hslash]

theorem Cuts.outside {g : Bool} {us : List Piece} {r : Text} {w : Piece} (h : Cuts false us g r)
    (hw : (solid us).head? = some w) (hhash : w ≠ strayHash) : Cuts true us g r := by
  induction us with
  | nil => cases hw
  | cons u us ih =>
      cases hplain : u.isPlain with
      | true =>
          rw [solid_cons_of_isPlain hplain] at hw
          rw [← Option.some.inj hw] at hhash
          exact h.anywhere_of_plain hplain hhash true
      | false =>
          rw [solid_cons_of_not_isPlain hplain] at hw
          cases h with
          | @cons _ _ kind b v _ _ hextent hrest =>
              have hspec := form_spec false b (v ++ (spell us ++ r)).head?
              rw [form_of_extent? hextent] at hspec
              have hb : b ≠ Byte.hash := by
                rintro rfl
                cases hform : formOf kind with
                | plain =>
                    unfold Piece.isPlain at hplain
                    rw [hform] at hplain
                    cases hplain
                | space =>
                    rw [hform] at hspec
                    cases hspec
                | directive =>
                    rw [hform] at hspec
                    cases hspec.2
                | lineComment | blockComment =>
                    rw [hform] at hspec
                    exact absurd hspec.1 (by decide)
              rw [extent?_of_ne_hash hb false true] at hextent
              apply Cuts.cons hextent
              cases kind with
              | whitespace | blockComment =>
                  simp only [staysFresh, Bool.false_or, Bool.true_or] at hrest ⊢
                  cases hnewline : (b :: v).contains Byte.newline with
                  | true =>
                      rw [hnewline] at hrest
                      exact hrest
                  | false =>
                      rw [hnewline] at hrest
                      exact ih hrest hw
              | _ => exact hrest

theorem Cuts.fresher {f f' g : Bool} {us : List Piece} {r : Text} {w : Piece} (h : Cuts f us g r)
    (hf : f = true -> f' = true) (hw : (solid us).head? = some w) (hhash : w ≠ strayHash) :
    Cuts f' us g r := by
  cases f with
  | true =>
      rw [hf rfl]
      exact h
  | false =>
      cases f' with
      | false => exact h
      | true => exact h.outside hw hhash

theorem takeWhile_blanks {p : UInt8 -> Bool} (hp : forall b, p b = true -> isSeparator b = true)
    {v z : Text} (hz : forall c, z.head? = some c -> isSeparator c = false) :
    (v ++ z).takeWhile p = v.takeWhile p := by
  have hnil : z.takeWhile p = [] := by
    cases z with
    | nil => rfl
    | cons c z =>
        rw [List.takeWhile_cons_of_neg]
        intro hc
        have hsep := hp c hc
        rw [hz c rfl] at hsep
        cases hsep
  rw [List.takeWhile_append]
  split
  · rename_i hlength
    rw [hnil, List.append_nil]
    exact ((List.takeWhile_prefix p).eq_of_length hlength).symm
  · rfl

end Lexer

end EffectShader
