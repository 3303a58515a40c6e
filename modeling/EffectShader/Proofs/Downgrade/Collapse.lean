import EffectShader.Proofs.Declaration.LayoutRemoval
import EffectShader.Proofs.Downgrade.Prelude

/-!
# Layouts that a version cannot express

A declaration that does not keep its layout loses the last one.  What is left is read
with the layout in front of that, if there is one, and is otherwise the same.  The
prelude declares nothing.
-/

namespace EffectShader

/-- The directive and the condition of the entry are lines of their own. -/
structure Extension.IsLine (e : Extension) : Prop where
  directive : Byte.newline ∉ e.directive
  closed : Lexer.endsOpen e.directive = false
  condition : Byte.newline ∉ e.condition

namespace Downgrade

open Declaration Lexer

/-!
# Collapsed declarations
-/

def keptItems? (l : Layout) : Option (List LayoutItem) :=
  if l.has "std140" then some [⟨"std140", []⟩] else none

def collapsed (ts : List Token) (isVertex : Bool) (d : Declaration) : Declaration :=
  match d.layout with
  | none => d
  | some l =>
      if keepsLayout d isVertex then d
      else
        { d with
          layout := (keptItems? l).elim (earlierLayout ts d) fun items => some ⟨items, 0, 0⟩ }

/-- A qualifier that holds nothing but the memory layout. -/
def OnlyMarker (l : Option Layout) : Prop :=
  forall i, i ∈ l.elim [] (·.items) -> i.key = ("std140" : Text)

/-- The last layout of the declaration is marked, or nothing but the mark stands in front of it. -/
def Collapses (ts : List Token) (d : Declaration) : Prop :=
  (d.layout.any fun l => l.has "std140") = true ∨ OnlyMarker (earlierLayout ts d)

instance (l : Option Layout) : Decidable (OnlyMarker l) :=
  inferInstanceAs (Decidable (forall i, i ∈ l.elim [] (·.items) -> _))

instance (ts : List Token) (d : Declaration) : Decidable (Collapses ts d) :=
  inferInstanceAs (Decidable (_ ∨ _))

section Collapsed

variable {ts : List Token} {isVertex : Bool} {d : Declaration}

theorem withoutLayout_collapsed (ts : List Token) (isVertex : Bool) (d : Declaration) :
    (collapsed ts isVertex d).withoutLayout = d.withoutLayout := by
  unfold collapsed
  split
  · rfl
  · split <;> rfl

theorem onlyMarker_collapsed (h : keepsLayout d isVertex = false) :
    OnlyMarker (collapsed ts isVertex d).layout ↔ Collapses ts d := by
  unfold collapsed Collapses
  split
  · rename_i hl
    have hearlier : earlierLayout ts d = none := by
      unfold earlierLayout
      rw [hl]
      rfl
    rw [hl, hearlier]
    simp [OnlyMarker]
  · rename_i l hl
    rw [if_neg (by simp [h]), hl, Option.any_some]
    unfold keptItems?
    cases hhas : l.has "std140" with
    | true => simp [OnlyMarker]
    | false => simp

theorem keepsLayout_unplaced (isVertex : Bool) (d : Declaration) :
    keepsLayout d.unplaced isVertex = keepsLayout d isVertex := by
  unfold keepsLayout Declaration.isBlock Declaration.unplaced DeclarationBody.unplaced
  cases d.body <;> rfl

theorem keepsLayout_collapsed (ts : List Token) (isVertex : Bool) (d : Declaration) :
    keepsLayout (collapsed ts isVertex d) isVertex = keepsLayout d isVertex := by
  have hsame : forall d : Declaration,
      keepsLayout d isVertex = keepsLayout d.withoutLayout isVertex := fun _ => rfl
  rw [hsame, withoutLayout_collapsed, ← hsame]

/-- The declaration keeps its layout, or has nothing but the memory layout. -/
def Meets (isVertex : Bool) (d : Declaration) : Prop :=
  keepsLayout d isVertex = false -> OnlyMarker d.layout

theorem meets_unplaced (isVertex : Bool) (d : Declaration) :
    Meets isVertex d.unplaced ↔ Meets isVertex d := by
  unfold Meets
  rw [keepsLayout_unplaced]
  cases hl : d.layout <;> simp [unplaced, hl, OnlyMarker, Layout.unplaced]

theorem meets_collapsed (ts : List Token) (isVertex : Bool) (d : Declaration) :
    Meets isVertex (collapsed ts isVertex d) ↔
      (keepsLayout d isVertex = false -> Collapses ts d) := by
  unfold Meets
  rw [keepsLayout_collapsed]
  exact forall_congr' fun h => onlyMarker_collapsed h

end Collapsed

/-!
# The edit of a declaration
-/

def isBlank (b : UInt8) : Bool :=
  b == Byte.space || b == Byte.tab

theorem isBlank_spec (b : UInt8) (h : isBlank b = true) :
    isSeparator b = true ∧ b ≠ Byte.newline := by
  have hcases : b = Byte.space ∨ b = Byte.tab := by simpa [isBlank] using h
  rcases hcases with rfl | rfl <;> exact ⟨rfl, by decide⟩

theorem collapseEdit?_of_some {code : Text} {isVertex : Bool} {d : Declaration} {l : Layout}
    (hl : d.layout = some l) (hkeeps : keepsLayout d isVertex = false) :
    collapseEdit? code isVertex d =
      some ⟨l.start, l.stop + ((code.drop l.stop).takeWhile isBlank).length,
        substitute (keptItems? l)⟩ := by
  have htext : (if l.has "std140" then Text.ofString "layout(std140) " else []) =
      substitute (keptItems? l) := by
    unfold keptItems?
    split <;> rfl
  unfold collapseEdit?
  rw [hl]
  dsimp only
  rw [if_neg (by simp [hkeeps]), htext]
  rfl

theorem readable_keptItems {l : Layout} :
    forall items, keptItems? l = some items -> forall i, i ∈ items -> i.Readable := by
  intro items hitems i hi
  unfold keptItems? at hitems
  split at hitems
  · cases hitems
    rw [List.mem_singleton.mp hi]
    exact ⟨⟨_, _, _, rfl, rfl, Prod.ext rfl (by decide +kernel)⟩, by decide +kernel, rfl⟩
  · cases hitems

structure Collapse (code : Text) (o : Nat) (f : Bool) (us : List Token) (isVertex : Bool)
    (d : Declaration) (e : Edit) where
  x : Text
  m : Text
  y : Text
  vs : List Piece
  split : textOf us = x ++ (m ++ y)
  start : e.start = o + x.length
  stop : e.stop = o + x.length + m.length
  spell_eq : spell vs = x ++ (e.text ++ y)
  cuts : forall r, Cuts f vs false r
  declares : forall ws ds, Declares ws ds -> Declares (vs ++ ws) (collapsed us isVertex d :: ds)

section Chunk

variable {code s : Text} {o : Nat} {f g : Bool} {us : List Token} {d : Declaration}
  {isVertex : Bool}

theorem collapse_of_some {e : Edit} (h : Chunk us (some d)) (hs : Standing code o f g us s)
    (he : collapseEdit? code isVertex d = some e) :
    Nonempty (Collapse code o f us isVertex d e) := by
  cases hl : d.layout with
  | none =>
      unfold collapseEdit? at he
      rw [hl] at he
      cases he
  | some l =>
      cases hkeeps : keepsLayout d isVertex with
      | true =>
          unfold collapseEdit? at he
          rw [hl] at he
          dsimp only at he
          rw [if_pos hkeeps] at he
          cases he
      | false =>
          rw [collapseEdit?_of_some hl hkeeps] at he
          rcases h.exists_substituted isBlank_spec hs hl (readable_keptItems (l := l)) with
            ⟨x, m, y, vs, hsplit, hstart, hstop, hspell, hcuts, hdeclares⟩
          rw [← Option.some.inj he]
          refine ⟨⟨x, m, y, vs, hsplit, hstart, hstop, hspell, hcuts, ?_⟩⟩
          intro ws ds hws
          unfold collapsed
          rw [hl]
          dsimp only
          rw [if_neg (by simp [hkeeps])]
          exact hdeclares ws ds hws

theorem collapsed_of_none (he : collapseEdit? code isVertex d = none) (ts : List Token) :
    collapsed ts isVertex d = d := by
  unfold collapsed
  split
  · rfl
  · rename_i l hl
    split
    · rfl
    · rename_i hkeeps
      rw [collapseEdit?_of_some hl (Bool.eq_false_iff.mpr hkeeps)] at he
      cases he

end Chunk

/-!
# The edits of a source
-/

def collapseEdits (code : Text) (isVertex : Bool) (ds : List Declaration) : List Edit :=
  ds.filterMap (collapseEdit? code isVertex)

/-- The source from an offset on, with these declarations collapsed. -/
def collapseFrom (code : Text) (isVertex : Bool) (o : Nat) (ds : List Declaration) : Text :=
  Edit.applyFrom o (code.drop o) (collapseEdits code isVertex ds)

section Places

variable {isVertex : Bool} {ts us : List Token} {d : Declaration} {o : Nat}

theorem collapsed_congr (h : earlierLayout ts d = earlierLayout us d) :
    collapsed ts isVertex d = collapsed us isVertex d := by
  unfold collapsed
  rw [h]

theorem offset_lt {code s : Text} {f g : Bool} (hs : Standing code o f g us s) :
    forall t, t ∈ us -> t.offset < o + (textOf us).length := by
  intro t ht
  rcases hs.cuts.isCut t.piece (List.mem_map_of_mem ht) with ⟨_, b, v, _, hbytes, _⟩
  have hbytes : t.text = b :: v := hbytes
  have hlength : t.stop = t.offset + (v.length + 1) := by
    show t.offset + t.text.length = _
    rw [hbytes, List.length_cons]
  have hstop := (hs.placed.within ht).2
  omega

theorem map_collapsed_append {ds : List Declaration} (hchunks : Chunks ts ds)
    (hplaced : Placed o ts) (hus : forall t, t ∈ us -> t.offset < o) :
    ds.map (collapsed (us ++ ts) isVertex) = ds.map (collapsed ts isVertex) := by
  apply List.map_congr_left
  intro d hd
  apply collapsed_congr
  refine (earlierLayout_append ?_).2
  intro l t _ ht
  exact Or.inl (Nat.lt_of_lt_of_le (hus t ht) (hchunks.start_le hplaced d hd))

theorem collapsed_append (hchunk : Chunk us (some d)) (hus : Placed o us)
    (hts : Placed (o + (textOf us).length) ts) :
    collapsed (us ++ ts) isVertex d = collapsed us isVertex d := by
  apply collapsed_congr
  refine (earlierLayout_append ?_).1
  intro l t hl ht
  right
  rcases hchunk.layout_span hl hus with ⟨_, hle, hstop⟩
  rw [(hchunk.span hus).2] at hstop
  exact Nat.le_trans hle (Nat.le_trans hstop (hts.within ht).1)

end Places

structure Reads (f : Bool) (old text : Text) (ds : List Declaration) : Prop where
  pieces : exists ws, Lexes f text ws ∧ Declares ws ds
  keepsBreak : KeepsBreak old text

section Steps

variable {code : Text} {isVertex : Bool} {o : Nat} {f g : Bool} {us ts : List Token}
  {ds : List Declaration}

theorem collapseFrom_append {w : Text} (hcode : code.drop o = w ++ code.drop (o + w.length))
    (hordered : Edit.Ordered (o + w.length) (collapseEdits code isVertex ds)) :
    collapseFrom code isVertex o ds = w ++ collapseFrom code isVertex (o + w.length) ds := by
  unfold collapseFrom
  rw [hcode, Edit.applyFrom_append hordered]

theorem reads_chunk {d : Option Declaration} {text : Text} (h : Chunk us d)
    (hs : Standing code o f g us (code.drop (o + (textOf us).length)))
    (hrest : exists ws, Lexes false text ws ∧ Declares ws ds) :
    Reads f (code.drop o) (textOf us ++ text) (d.toList ++ ds) := by
  rcases hrest with ⟨ws, hws, hdeclares⟩
  exact ⟨⟨_, (h.cuts hs text).lexes hws, h.declares hdeclares⟩, h.keepsBreak hs _⟩

theorem Collapse.applyFrom_eq {d : Declaration} {e : Edit} {s : Text}
    (c : Collapse code o f us isVertex d e) (hcode : code.drop o = textOf us ++ s) {es : List Edit}
    (hordered : Edit.Ordered (o + (textOf us).length) es) :
    Edit.applyFrom o (code.drop o) (e :: es) =
        spell c.vs ++ Edit.applyFrom (o + (textOf us).length) s es ∧
      Edit.Ordered o (e :: es) := by
  have hlength : o + c.x.length + c.m.length + c.y.length = o + (textOf us).length := by
    rw [c.split]
    simp only [List.length_append]
    omega
  have hafter : Edit.Ordered (o + c.x.length + c.m.length + c.y.length) es := by
    rw [hlength]
    exact hordered
  have hinner : Edit.Ordered (o + c.x.length) (e :: es) := by
    refine ⟨Nat.le_of_eq c.start.symm, ?_, ?_⟩
    · rw [c.start, c.stop]
      omega
    · rw [c.stop]
      exact hafter.mono (Nat.le_add_right _ _)
  refine ⟨?_, hinner.mono (Nat.le_add_right _ _)⟩
  rw [hcode, ← hlength, c.split, c.spell_eq, List.append_assoc, Edit.applyFrom_append hinner,
    List.append_assoc, Edit.applyFrom_cons c.start c.stop, Edit.applyFrom_append hafter]
  simp only [List.append_assoc]

end Steps

theorem reads_collapseFrom {code : Text} (isVertex : Bool) {ts : List Token} {ds : List Declaration}
    (h : Chunks ts ds) {o : Nat} {f : Bool} {ws : List Piece} (hrest : Rest code o f ts ws) :
    Edit.Ordered o (collapseEdits code isVertex ds) ∧
      Reads f (code.drop o) (collapseFrom code isVertex o ds) (ds.map (collapsed ts isVertex)) := by
  induction h generalizing o f ws with
  | finish hnothing =>
      exact ⟨trivial, ⟨ws, hrest.lexes, hnothing ws hrest.pieces hrest.kind_ne_eof⟩, fun _ => rfl⟩
  | @skip t ts ds hplain hchunks ih =>
      have hkind : t.kind ≠ .eof := by
        intro heof
        unfold Piece.isPlain at hplain
        rw [Token.kind_piece, heof] at hplain
        cases hplain
      rw [← List.singleton_append] at hrest
      rcases hrest.split rfl hkind with ⟨g, wy, hs, hrest'⟩
      rcases ih hrest' with ⟨hordered, ⟨ws', hws', hdeclares⟩, hbreak⟩
      refine ⟨hordered.mono (Nat.le_add_right _ _), ?_⟩
      rw [collapseFrom_append hs.text hordered, ← List.singleton_append (l := ts),
        map_collapsed_append hchunks hrest'.placed (offset_lt hs)]
      refine ⟨?_, fun _ => hs.head?_append _⟩
      rw [textOf_cons, textOf_nil, List.append_nil] at hws' hbreak ⊢
      exact exists_lexes_skip hs.cuts hplain (by simpa using hbreak) hws' hdeclares
  | @chunk us ts d ds hchunk hchunks ih =>
      rcases hchunk.last_kind with ⟨t, hlast, hkind⟩
      have hne : t.kind ≠ .eof := by
        rw [hkind]
        decide
      rcases hrest.split hlast hne with ⟨g, wy, hs, hrest'⟩
      have hg : g = false := hchunk.flag hs
      subst hg
      rcases ih hrest' with ⟨hordered, ⟨ws', hws', hdeclares⟩, _⟩
      rw [List.map_append, map_collapsed_append hchunks hrest'.placed (offset_lt hs)]
      cases d with
      | none =>
          refine ⟨hordered.mono (Nat.le_add_right _ _), ?_⟩
          rw [Option.toList_none, List.nil_append, collapseFrom_append hs.text hordered]
          exact reads_chunk hchunk hs ⟨ws', hws', hdeclares⟩
      | some d =>
          rw [Option.toList_some, List.singleton_append, List.map_singleton]
          cases he : collapseEdit? code isVertex d with
          | none =>
              have hedits : collapseEdits code isVertex (d :: ds) =
                  collapseEdits code isVertex ds := by
                unfold collapseEdits
                rw [List.filterMap_cons, he]
              have hfrom : forall o, collapseFrom code isVertex o (d :: ds) =
                  collapseFrom code isVertex o ds := by
                intro o
                unfold collapseFrom
                rw [hedits]
              rw [hedits, hfrom, collapsed_of_none he, collapseFrom_append hs.text hordered]
              exact ⟨hordered.mono (Nat.le_add_right _ _),
                reads_chunk hchunk hs ⟨ws', hws', hdeclares⟩⟩
          | some e =>
              rcases collapse_of_some hchunk hs he with ⟨c⟩
              have hedits : collapseEdits code isVertex (d :: ds) =
                  e :: collapseEdits code isVertex ds := by
                unfold collapseEdits
                rw [List.filterMap_cons, he]
              rcases c.applyFrom_eq hs.text hordered with ⟨happly, hordered'⟩
              unfold collapseFrom at hws' ⊢
              rw [hedits, happly, collapsed_append hchunk hs.placed hrest'.placed]
              refine ⟨hordered', ⟨c.vs ++ ws', ?_, c.declares ws' _ hdeclares⟩,
                hchunk.keepsBreak hs _⟩
              exact (c.cuts _).lexes hws'

/-!
# The prelude in front
-/

section Prelude

variable {e : Extension} {r : Text} {ds : List Declaration}

theorem exists_lexes_line {l : Text} (hcuts : Cuts true [⟨.directive, l⟩] false (Byte.newline :: r))
    (h : exists ws, Lexes true r ws ∧ Declares ws ds) :
    exists ws, Lexes true (l ++ Byte.newline :: r) ws ∧ Declares ws ds := by
  rcases h with ⟨ws, hws, hdeclares⟩
  have hsep : forall c, c ∈ [Byte.newline] -> isSeparator c = true := by simp [isSeparator]
  have hfresh : (false || [Byte.newline].contains Byte.newline) = true := by simp
  rcases exists_lexes_separators hsep (hfresh ▸ hws) with ⟨us, hus, hshape⟩
  have hlexes := hcuts.lexes hus
  refine ⟨⟨.directive, l⟩ :: us, ?_, Declares.skip rfl (declares_separators rfl hshape hdeclares)⟩
  simpa using hlexes

theorem endsOpen_append (x : Text) {l : Text} (hl : 2 ≤ l.length) :
    endsOpen (x ++ l) = endsOpen l := by
  induction x with
  | nil => rfl
  | cons b x ih =>
      rw [← ih, List.cons_append]
      have hlength : 2 ≤ (x ++ l).length := by
        rw [List.length_append]
        omega
      match x ++ l, hlength with
      | c :: d :: s, _ => rfl

theorem closed_directive (he : e.IsLine) (x : Text) : endsOpen (x ++ e.directive) = false := by
  rw [endsOpen_append x, he.closed]
  rw [directive_eq, List.length_cons, List.length_append]
  have hword : (Text.ofString "extension").length = 9 := by decide
  omega

theorem cuts_extension (he : e.IsLine) :
    Cuts true [⟨.directive, e.directive⟩] false (Byte.newline :: r) := by
  have hline := he.directive
  have hclosed := he.closed
  rw [directive_eq] at hline hclosed ⊢
  exact Fold.cuts_directive (continued_of_not_mem fun hmem => hline (List.mem_cons_of_mem _ hmem))
    (endsOpen_of_cons hclosed) (Or.inr rfl)

theorem exists_lexes_guarded (he : e.IsLine) (h : exists ws, Lexes true r ws ∧ Declares ws ds) :
    exists ws, Lexes true
      (Text.ofString "#if " ++ e.condition ++ "\n" ++ e.directive ++ "\n#endif\n" ++ r) ws ∧
      Declares ws ds := by
  have hend := exists_lexes_line (Fold.spellsDirective_endif.cuts _ (Or.inr rfl)) h
  rw [guarded_eq]
  cases hopen : endsOpen e.condition with
  | false =>
      exact exists_lexes_line ((spellsDirective_condition he.condition hopen).cuts _ (Or.inr rfl))
        (exists_lexes_line (cuts_extension he) hend)
  | true =>
      have hswallowed := exists_lexes_line
        (cuts_swallowed he.condition hopen he.directive (closed_directive he)) hend
      simpa using hswallowed

theorem exists_lexes_preludeFrom {version : Int} {es : List Extension}
    (hes : forall e, e ∈ es -> e.IsLine) {enabled : List Text} {text : Text}
    (h : preludeFrom version enabled es = .ok text)
    (hr : exists ws, Lexes true r ws ∧ Declares ws ds) :
    exists ws, Lexes true (text ++ r) ws ∧ Declares ws ds := by
  induction es generalizing enabled text with
  | nil =>
      cases h
      exact hr
  | cons e es ih =>
      rcases List.forall_mem_cons.mp hes with ⟨he, hes⟩
      rw [preludeFrom_cons] at h
      split at h
      · exact ih hes h
      · split at h
        · cases h
        · rcases exists_of_map h with ⟨rest, hrest, rfl⟩
          have hline := exists_lexes_line (cuts_extension he) (ih hes hrest)
          simpa [show Text.ofString "\n" = [Byte.newline] from rfl] using hline
        · exact ih hes h
        · rcases exists_of_map h with ⟨rest, hrest, rfl⟩
          have hguarded := exists_lexes_guarded he (ih hes hrest)
          simpa using hguarded

end Prelude

/-!
# The whole pass
-/

section Runs

variable {code : Text} {version : Version} {extensions : List Extension} {isVertex : Bool}

theorem collapseLayouts_eq {ts : List Token} {ds : List Declaration}
    (htokens : tokenize code = .ok ts) (hds : Declaration.ofTokens ts = .ok ds) (isVertex : Bool) :
    collapseLayouts code isVertex = .ok (collapseFrom code isVertex 0 ds) := by
  rcases rest_of_tokenize htokens with ⟨ws, hrest⟩
  have hordered := (reads_collapseFrom isVertex (chunks_of_units (ofTokens_eq_ok_iff.mp hds))
    hrest).1
  unfold collapseLayouts
  rw [htokens]
  dsimp only
  rw [hds]
  exact congrArg Except.ok (Edit.apply_of_ordered hordered code)

theorem exists_of_collapseLayouts {out : Text} (h : collapseLayouts code isVertex = .ok out) :
    exists ts ds, tokenize code = .ok ts ∧ Declaration.ofTokens ts = .ok ds ∧
      out = collapseFrom code isVertex 0 ds := by
  have hrun := h
  unfold collapseLayouts at hrun
  split at hrun
  · cases hrun
  · rename_i ts htokens
    split at hrun
    · cases hrun
    · rename_i ds hds
      rw [collapseLayouts_eq htokens hds] at h
      exact ⟨ts, ds, htokens, hds, (Except.ok.inj h).symm⟩

theorem downgrade_eq_ok_iff (hversion : version.number < 310) {out : Text} :
    downgrade code version extensions isVertex = .ok out ↔
      exists folded text lines, fold code version.number = .ok folded ∧
        collapseLayouts folded isVertex = .ok text ∧
        prelude version.number extensions = .ok lines ∧ out = lines ++ text := by
  have hold : version.hasLayoutBinding = false := by
    unfold Version.hasLayoutBinding
    exact decide_eq_false (Nat.not_le.mpr hversion)
  unfold downgrade
  rw [hold]
  cases fold code version.number with
  | error e => simp [Except.mapError, bind, Except.bind]
  | ok folded =>
      cases hcollapse : collapseLayouts folded isVertex with
      | error e => simp [hcollapse, Except.mapError, bind, Except.bind]
      | ok text =>
          cases prelude version.number extensions with
          | error e => simp [hcollapse, Except.mapError, bind, Except.bind]
          | ok lines =>
              simp [hcollapse, Except.mapError, bind, Except.bind, pure, Except.pure]
              exact eq_comm

end Runs

theorem exists_ofText?_collapsed {folded lines : Text} {version : Int} {ts : List Token}
    {ds : List Declaration} {extensions : List Extension} (htokens : tokenize folded = .ok ts)
    (hds : Declaration.ofTokens ts = .ok ds) (hes : forall e, e ∈ extensions -> e.IsLine)
    (hlines : prelude version extensions = .ok lines) (isVertex : Bool) :
    exists ds', Declaration.ofText? (lines ++ collapseFrom folded isVertex 0 ds) = some ds' ∧
      ds'.map unplaced = (ds.map (collapsed ts isVertex)).map unplaced := by
  rcases rest_of_tokenize htokens with ⟨ws, hrest⟩
  have hreads := (reads_collapseFrom isVertex (chunks_of_units (ofTokens_eq_ok_iff.mp hds)) hrest).2
  rcases exists_lexes_preludeFrom hes hlines hreads.pieces with ⟨ws', hws', hdeclares⟩
  exact exists_ofText? hws' hdeclares

/-- Below version 3.10 layouts are the only difference between the declarations of the folded source
and those of the result.  The ones that do not keep their layout have nothing but the memory layout
left exactly if each of them is marked in its last layout, or has nothing but the mark in front of
it. -/
theorem layouts_downgrade {code out : Text} {version : Version} {extensions : List Extension}
    {isVertex : Bool} (hversion : version.number < 310)
    (hes : forall e, e ∈ extensions -> e.IsLine)
    (h : downgrade code version extensions isVertex = .ok out) :
    exists folded ts ds ds', fold code version.number = .ok folded ∧ tokenize folded = .ok ts ∧
      Declaration.ofTokens ts = .ok ds ∧ Declaration.ofText? out = some ds' ∧
      ds'.map (fun d => d.withoutLayout.unplaced) = ds.map (fun d => d.withoutLayout.unplaced) ∧
      ((forall d, d ∈ ds' -> keepsLayout d isVertex = false -> OnlyMarker d.layout) ↔
        forall d, d ∈ ds -> keepsLayout d isVertex = false -> Collapses ts d) := by
  rcases (downgrade_eq_ok_iff hversion).mp h with
    ⟨folded, _, lines, hfold, hcollapse, hlines, rfl⟩
  rcases exists_of_collapseLayouts hcollapse with ⟨ts, ds, htokens, hds, rfl⟩
  rcases exists_ofText?_collapsed htokens hds hes hlines isVertex with ⟨ds', hread, hsame⟩
  refine ⟨folded, ts, ds, ds', hfold, htokens, hds, hread, ?_, ?_⟩
  · rw [map_unplaced_withoutLayout hsame, List.map_map]
    apply List.map_congr_left
    intro d _
    exact congrArg unplaced (withoutLayout_collapsed ts isVertex d)
  · have hmeets : forall ds : List Declaration,
        (forall d, d ∈ ds -> Meets isVertex d) ↔
          forall u, u ∈ ds.map unplaced -> Meets isVertex u := by
      intro ds
      rw [List.forall_mem_map]
      exact forall₂_congr fun d _ => (meets_unplaced isVertex d).symm
    have hall := hmeets ds'
    rw [hsame, ← hmeets, List.forall_mem_map] at hall
    exact hall.trans (forall₂_congr fun d _ => meets_collapsed ts isVertex d)

def CollapsesTo (code text : Text) : Prop :=
  (fold code Version.es300.number).toOption = some code ∧
    (Declaration.ofText? code).map (collapseFrom code false 0) = some text

instance (code text : Text) : Decidable (CollapsesTo code text) :=
  inferInstanceAs (Decidable (_ ∧ _))

theorem CollapsesTo.downgrade_eq {code text lines : Text} (h : CollapsesTo code text)
    {extensions : List Extension} (hlines : prelude Version.es300.number extensions = .ok lines) :
    downgrade code Version.es300 extensions false = .ok (lines ++ text) := by
  rcases h with ⟨hfold, htext⟩
  rcases Option.map_eq_some_iff.mp htext with ⟨ds, hread, rfl⟩
  rcases Declaration.ofText?_eq_some_iff.mp hread with ⟨ts, htokens, hds⟩
  exact (downgrade_eq_ok_iff (by decide)).mpr ⟨code, _, lines, toOption_eq_some_iff.mp hfold,
    collapseLayouts_eq htokens hds false, hlines, rfl⟩

/-- A layout on a line of its own, one behind the memory layout, and one that is kept. -/
def severalLayouts : Text :=
  "layout(set = 0)\nin int a;\n" ++
    ("layout(std140) layout(set = 1) uniform B \x7b int b; \x7d;\n" ++
      "layout(location = 1) out int c;\n")

theorem collapsesTo_layouts :
    (CollapsesTo severalLayouts ("\nin int a;\n" ++
        ("layout(std140) uniform B \x7b int b; \x7d;\n" ++
          "layout(location = 1) out int c;\n")) ∧
      forall ts, ts ∈ (tokenize severalLayouts).toOption ->
        forall ds, ds ∈ (Declaration.ofTokens ts).toOption ->
        forall d, d ∈ ds -> keepsLayout d false = false -> Collapses ts d) ∧
    CollapsesTo "layout(set = 0) layout(binding = 1) uniform sampler2D t;\n"
      "layout(set = 0) uniform sampler2D t;\n" ∧
    ((Declaration.ofText? "layout(set = 0) uniform sampler2D t;\n").any fun ds =>
      ds.any fun d => decide (keepsLayout d false = false ∧ ¬ OnlyMarker d.layout)) = true := by
  decide +kernel

theorem layouts_downgrade_several :
    exists out ds', downgrade severalLayouts Version.es300 [⟨"GL_x", [], []⟩] false = .ok out ∧
      Declaration.ofText? out = some ds' ∧
      forall d, d ∈ ds' -> keepsLayout d false = false -> OnlyMarker d.layout := by
  rcases collapsesTo_layouts.1 with ⟨hto, hcollapses⟩
  have hlines :
      prelude Version.es300.number [⟨"GL_x", [], []⟩] = .ok "#extension GL_x: require\n" :=
    rfl
  have hout := hto.downgrade_eq hlines
  have hes : forall e, e ∈ [(⟨"GL_x", [], []⟩ : Extension)] -> e.IsLine := by
    intro e he
    rw [List.mem_singleton.mp he]
    exact ⟨by decide +kernel, by decide +kernel, by decide⟩
  rcases layouts_downgrade (by decide) hes hout with
    ⟨folded, ts, ds, ds', hfold, htokens, hds, hread, _, hlayouts⟩
  rw [toOption_eq_some_iff.mp hto.1] at hfold
  cases hfold
  exact ⟨_, ds', hout, hread, hlayouts.mpr (hcollapses ts (toOption_eq_some_iff.mpr htokens) ds
    (toOption_eq_some_iff.mpr hds))⟩

/-- Of two layouts of a sampler the first one stays. -/
theorem layout_left :
    exists out ds d,
      downgrade "layout(set = 0) layout(binding = 1) uniform sampler2D t;\n" Version.es300 []
        false = .ok out ∧
      Declaration.ofText? out = some ds ∧ d ∈ ds ∧ keepsLayout d false = false ∧
      ¬ OnlyMarker d.layout := by
  rcases collapsesTo_layouts.2 with ⟨hto, hread⟩
  rcases (Option.any_eq_true _ _).mp hread with ⟨ds, hds, hany⟩
  rcases List.any_eq_true.mp hany with ⟨d, hd, hleft⟩
  exact ⟨_, ds, d, hto.downgrade_eq rfl, hds, hd, of_decide_eq_true hleft⟩

end Downgrade

end EffectShader
