import EffectShader.Proofs.Declaration.Chunks
import EffectShader.Proofs.Edit

/-!
# Declarations in the place of declarations

A pass gives some declarations of a source a text of its own and copies the rest.
The spans of declarations follow each other, so every declaration can be looked at by
itself: what the passage declares, and how many lines it takes.
-/

namespace EffectShader

/-!
# Tokens with syntax
-/

namespace Lexer

theorem newlines_of_isCut {w : Piece} (hcut : IsCut w) (hplain : w.isPlain = true) :
    w.text.newlines = 0 := by
  apply Text.newlines_of_not_mem
  intro hmem
  have hpiece := hcut.eq_singleton hplain (c := Byte.newline) rfl hmem
  rcases hcut.isToken hplain with ⟨kind, b, v, htext, hform, _⟩
  rw [hpiece] at htext
  have hspec := form_spec false b v.head?
  rw [hform, ← (List.cons.inj htext).1] at hspec
  cases hspec.1

end Lexer

namespace Declaration

open Lexer

def OnLine (ts : List Token) : Prop :=
  forall t, t ∈ ts -> t.piece.isPlain = true -> t.text.newlines = 0

theorem OnLine.mono {ts us : List Token} (h : OnLine ts) (hus : forall u, u ∈ us -> u ∈ ts) :
    OnLine us :=
  fun u hu => h u (hus u hu)

theorem OnLine.solid {raw : List Token} (h : OnLine raw) {t : Token} (ht : t ∈ solidTokens raw) :
    t.text.newlines = 0 :=
  h t (List.mem_filter.mp ht).1 (List.mem_filter.mp ht).2

theorem isPlain_of_isWord {t : Token} (h : t.isWord = true) : t.piece.isPlain = true := by
  rw [isPlain_eq]
  unfold Token.isWord at h
  unfold Token.isTrivia Token.isDirective
  cases hkind : t.kind <;> first | rfl | simp [hkind] at h

theorem isCut_of_tokenize {code : Text} {ts : List Token} (h : tokenize code = .ok ts) {t : Token}
    (ht : t ∈ ts) : IsCut t.piece ∨ t.piece = endPiece := by
  rcases tokenize_eq_ok_iff.mp h with ⟨ws, hws, rfl⟩
  have hpiece : t.piece ∈ ws ++ [endPiece] := by
    rw [← map_piece_place Position.start ws]
    exact List.mem_map_of_mem ht
  rcases List.mem_append.mp hpiece with hmem | hmem
  · rcases hws.exists_extent? hmem with ⟨f, b, v, r, htext, hextent⟩
    exact Or.inl ⟨f, b, v, r, htext, hextent⟩
  · exact Or.inr (List.mem_singleton.mp hmem)

theorem onLine_of_tokenize {code : Text} {ts : List Token} (h : tokenize code = .ok ts) :
    OnLine ts := by
  intro t ht hplain
  rcases isCut_of_tokenize h ht with hcut | hend
  · exact newlines_of_isCut hcut hplain
  · rw [← Token.text_piece, hend]
    rfl

theorem placed_of_tokenize {code : Text} {ts : List Token} (h : tokenize code = .ok ts) :
    Placed 0 ts := by
  rcases tokenize_eq_ok_iff.mp h with ⟨ws, _, rfl⟩
  exact placed_place Position.start ws

theorem textOf_of_tokenize {code : Text} {ts : List Token} (h : tokenize code = .ok ts) :
    textOf ts = code := by
  rcases tokenize_eq_ok_iff.mp h with ⟨ws, hws, rfl⟩
  unfold textOf
  rw [map_piece_place, spell_append, hws.spell_eq]
  simp [endPiece]

/-!
# The declarations of a text
-/

def ofText? (text : Text) : Option (List Declaration) :=
  (tokenize text).toOption.bind fun ts => (ofTokens ts).toOption

theorem ofText?_eq_some_iff {text : Text} {ds : List Declaration} :
    ofText? text = some ds ↔ exists ts, tokenize text = .ok ts ∧ ofTokens ts = .ok ds := by
  unfold ofText?
  rw [Option.bind_eq_some_iff]
  simp only [toOption_eq_some_iff]

theorem exists_ofText? {text : Text} {ws : List Piece} {ds : List Declaration}
    (hws : Lexes true text ws) (hds : Declares ws ds) :
    exists ds', ofText? text = some ds' ∧ ds'.map unplaced = ds.map unplaced := by
  rcases hds _ (map_piece_place Position.start ws) with ⟨ds', hunits, hsame⟩
  exact ⟨ds', ofText?_eq_some_iff.mpr ⟨_, tokenize_eq_ok_iff.mpr ⟨ws, hws, rfl⟩,
    ofTokens_eq_ok_iff.mpr hunits⟩, hsame⟩

def withoutLayout (d : Declaration) : Declaration :=
  { d with layout := none }

theorem map_unplaced_withoutLayout {ds ds' : List Declaration}
    (h : ds'.map unplaced = ds.map unplaced) :
    ds'.map (fun d => d.withoutLayout.unplaced) = ds.map fun d => d.withoutLayout.unplaced := by
  have hlayouts := congrArg (List.map withoutLayout) h
  rw [List.map_map, List.map_map] at hlayouts
  exact hlayouts

/-!
# The parts of a chunk
-/

/-- The tokens of a declaration: qualifiers, a word and the rest of the statement, and what ends it.
The declaration can be read with another layout. -/
structure Head (us : List Token) (d : Declaration) where
  raw : List Token
  post : List Token
  quals : List Token
  word : Token
  tail : List Token
  q : Qualifiers
  split : us = raw ++ post
  isOpen : IsOpen raw
  solid : solidTokens raw = quals ++ word :: tail
  isWord : word.isWord = true
  qualifies : Qualifies Qualifiers.none quals q
  layout : d.layout = q.layout
  ends : exists front, post.map Token.piece = front ++ [⟨.operator, [Byte.semicolon]⟩]
  declares : forall {vs : List Piece} {l : Option Layout} {ws : List Piece} {ds : List Declaration},
    IsOpenPieces vs -> Spells vs { q with layout := l } ((word :: tail).map Token.piece) ->
    Declares ws ds -> Declares (vs ++ (post.map Token.piece ++ ws)) ({ d with layout := l } :: ds)

theorem Chunk.head {us : List Token} {d : Declaration} (h : Chunk us (some d)) :
    Nonempty (Head us d) := by
  cases h with
  | @statement raw semi _ hopen hsemi hstatement =>
      rcases parts_of_ofStatement? hstatement with ⟨parts⟩
      refine ⟨⟨raw, [semi], parts.quals, parts.type, parts.names, parts.q, rfl, hopen, parts.split,
        parts.isWord, parts.qualifies, congrArg Declaration.layout parts.eq, ⟨[], ?_⟩, ?_⟩⟩
      · rw [List.map_singleton, piece_of_isOp hsemi]
        rfl
      · intro vs l ws ds hvs hspells hws
        have hdeclares := parts.statementDeclares hspells
          (spellsNames_of_declarators? parts.declares)
        have hbody : d.body = .variables parts.vars := congrArg Declaration.body parts.eq
        rw [← hbody] at hdeclares
        rw [List.map_singleton, piece_of_isOp hsemi]
        exact Declares.statement hvs hdeclares hws
  | @block raw ts after brace _ hopen hbrace parts =>
      refine ⟨⟨raw, _, parts.quals, parts.name, [], parts.q, rfl, hopen, parts.split, parts.isWord,
        parts.qualifies, parts.layout, ⟨brace.piece :: parts.body.map Token.piece, ?_⟩, ?_⟩⟩
      · rw [List.map_cons, List.map_append, List.map_singleton, piece_of_isOp parts.isSemi]
        rfl
      · intro vs l ws ds hvs hspells hws
        rw [List.map_cons, List.map_append, List.map_singleton, piece_of_isOp hbrace,
          piece_of_isOp parts.isSemi, List.cons_append, List.append_assoc]
        exact Declares.block hvs (parts.blockDeclares_layout hspells) hws

/-!
# Layout qualifiers inside their declaration
-/

theorem newlines_of_layoutItems? {item : List Text} {ts rest : List Token}
    {items : List LayoutItem} {stop : Nat} (h : layoutItems? item ts = some (items, stop, rest))
    (hitem : forall s, s ∈ item -> s.newlines = 0) (hts : forall t, t ∈ ts -> t.text.newlines = 0) :
    forall i, i ∈ items -> i.key.newlines = 0 ∧ i.value.newlines = 0 := by
  have hread : forall {texts : List Text} {i : LayoutItem}, layoutItem? texts = some i ->
      (forall s, s ∈ texts -> s.newlines = 0) -> i.key.newlines = 0 ∧ i.value.newlines = 0 := by
    intro texts i hi htexts
    match texts with
    | [] => cases hi
    | [key] | [key, _] =>
        cases hi
        exact ⟨htexts key List.mem_cons_self, rfl⟩
    | key :: equals :: v :: vs =>
        cases hi
        refine ⟨htexts key List.mem_cons_self, ?_⟩
        dsimp only
        split
        · apply Text.newlines_of_not_mem
          intro hmem
          rcases List.mem_flatten.mp hmem with ⟨s, hs, hb⟩
          have hzero := htexts s (List.mem_cons_of_mem _ (List.mem_cons_of_mem _ hs))
          exact List.count_eq_zero.mp hzero hb
        · rfl
  induction ts generalizing item items with
  | nil => cases h
  | cons t ts ih =>
      rcases List.forall_mem_cons.mp hts with ⟨ht, hrest⟩
      rw [layoutItems?] at h
      split at h
      · cases h
        exact fun i hi => hread (Option.mem_toList.mp hi) hitem
      · split at h
        · rcases Option.map_eq_some_iff.mp h with ⟨⟨items', stop', rest'⟩, hitems, heq⟩
          cases heq
          intro i hi
          rcases List.mem_append.mp hi with hi | hi
          · exact hread (Option.mem_toList.mp hi) hitem
          · exact ih hitems (List.forall_mem_nil _) hrest i hi
        · refine ih h ?_ hrest
          intro s hs
          rcases List.mem_append.mp hs with hs | hs
          · exact hitem s hs
          · rw [List.mem_singleton.mp hs]
            exact ht

theorem Chunk.exists_layout {us : List Token} {d : Declaration} {l : Layout}
    (h : Chunk us (some d)) (hl : d.layout = some l) :
    exists x m y, us = x ++ (m ++ y) ∧ SpellsLayout (solidTokens m) l ∧
      forall o, Placed o us -> l.start = o + (textOf x).length ∧
        l.stop = o + (textOf x).length + (textOf m).length := by
  rcases h.head with ⟨raw, rest, quals, word, tail, q, rfl, _, hsolid, _, hquals, hlayout, _⟩
  rw [hlayout] at hl
  rcases hquals.split_layout with hwords | ⟨before, span, after, l', q₁, rfl, hspan, _, hafter⟩
  · rw [show q.layout = none from hwords.layout_eq] at hl
    cases hl
  · rw [show q.layout = some l' from hafter.layout_eq] at hl
    cases hl
    have hshape : solidTokens raw = before ++ (span ++ (after ++ word :: tail)) := by
      rw [hsolid]
      simp
    rcases exists_of_spellsLayout hshape hspan with
      ⟨x, word, mid, last, y, rfl, _, hm, _, _, _, hplaced⟩
    refine ⟨x, word :: (mid ++ [last]), y ++ rest, by simp, ?_, ?_⟩
    · rw [hm]
      exact hspan
    · exact fun o ho => hplaced o (placed_append.mp ho).1

theorem Chunk.layout_span {us : List Token} {d : Declaration} {l : Layout} {o : Nat}
    (h : Chunk us (some d)) (hl : d.layout = some l) (hplaced : Placed o us) :
    d.start ≤ l.start ∧ l.start ≤ l.stop ∧ l.stop ≤ d.stop := by
  rcases h.span hplaced with ⟨hstart, hstop⟩
  rcases h.exists_layout hl with ⟨x, m, y, rfl, _, hspan⟩
  rcases hspan o hplaced with ⟨hfirst, hlast⟩
  rw [hstart, hstop, hfirst, hlast]
  simp only [textOf_append, List.length_append]
  omega

theorem Chunk.layout_onLine {us : List Token} {d : Declaration} {l : Layout}
    (h : Chunk us (some d)) (hl : d.layout = some l) (hus : OnLine us) :
    forall i, i ∈ l.items -> i.key.newlines = 0 ∧ i.value.newlines = 0 := by
  rcases h.exists_layout hl with ⟨x, m, y, rfl, ⟨word, paren, inner, hm, _, _, _, hitems⟩, _⟩
  refine newlines_of_layoutItems? hitems (List.forall_mem_nil _) ?_
  intro t ht
  have hmem : t ∈ solidTokens m := by
    rw [hm]
    exact List.mem_cons_of_mem _ (List.mem_cons_of_mem _ ht)
  exact (hus.mono fun u hu => List.mem_append_right x (List.mem_append_left y hu)).solid hmem

theorem Chunks.exists_chunk {ts : List Token} {ds : List Declaration} (h : Chunks ts ds) :
    forall d, d ∈ ds -> exists x us y, ts = x ++ (us ++ y) ∧ Chunk us (some d) := by
  induction h with
  | finish => simp
  | @skip t _ _ _ _ ih =>
      intro d hd
      rcases ih d hd with ⟨x, us, y, rfl, hchunk⟩
      exact ⟨t :: x, us, y, rfl, hchunk⟩
  | @chunk us ts d ds hchunk _ ih =>
      intro d' hd'
      rcases List.mem_append.mp hd' with hd' | hd'
      · rw [Option.mem_toList.mp hd'] at hchunk
        exact ⟨[], us, ts, rfl, hchunk⟩
      · rcases ih d' hd' with ⟨x, us', y, rfl, hchunk'⟩
        exact ⟨us ++ x, us', y, by simp, hchunk'⟩

/-!
# Replacing declarations
-/

def replacements (text? : Declaration -> Option Text) (ds : List Declaration) : List Edit :=
  ds.filterMap fun d => (text? d).map fun s => ⟨d.start, d.stop, s⟩

def replaceFrom (code : Text) (text? : Declaration -> Option Text) (o : Nat)
    (ds : List Declaration) : Text :=
  Edit.applyFrom o (code.drop o) (replacements text? ds)

section Replacements

variable {text? : Declaration -> Option Text}

theorem replacements_cons_none {d : Declaration} (h : text? d = none) (ds : List Declaration) :
    replacements text? (d :: ds) = replacements text? ds := by
  unfold replacements
  rw [List.filterMap_cons, h]
  rfl

theorem replacements_cons_some {d : Declaration} {s : Text} (h : text? d = some s)
    (ds : List Declaration) :
    replacements text? (d :: ds) = ⟨d.start, d.stop, s⟩ :: replacements text? ds := by
  unfold replacements
  rw [List.filterMap_cons, h]
  rfl

theorem ordered_replacements {us : List Token} {ds : List Declaration} (h : Chunks us ds) {o : Nat}
    (hplaced : Placed o us) (text? : Declaration -> Option Text) :
    Edit.Ordered o (replacements text? ds) := by
  induction h generalizing o with
  | finish => trivial
  | skip _ _ ih =>
      rw [← hplaced.1]
      exact (ih hplaced.2).mono (Nat.le_add_right _ _)
  | @chunk us _ d ds hchunk _ ih =>
      rcases placed_append.mp hplaced with ⟨hunit, hrest⟩
      have htail := ih hrest
      cases d with
      | none => exact htail.mono (Nat.le_add_right _ _)
      | some d =>
          rcases hchunk.span hunit with ⟨hstart, hstop⟩
          rw [Option.toList_some, List.singleton_append]
          cases htext : text? d with
          | none =>
              rw [replacements_cons_none htext]
              exact htail.mono (Nat.le_add_right _ _)
          | some s =>
              rw [replacements_cons_some htext]
              rw [← hstop] at htail
              exact ⟨Nat.le_of_eq hstart.symm, by rw [hstart, hstop]; exact Nat.le_add_right _ _,
                htail⟩

theorem replaceFrom_copy {code w : Text} {o : Nat} {ts : List Token} {ds : List Declaration}
    (h : Chunks ts ds) (hplaced : Placed (o + w.length) ts)
    (hcode : code.drop o = w ++ code.drop (o + w.length)) :
    replaceFrom code text? o ds = w ++ replaceFrom code text? (o + w.length) ds := by
  unfold replaceFrom
  rw [hcode, Edit.applyFrom_append (ordered_replacements h hplaced text?)]

theorem replaceFrom_chunk {code : Text} {o : Nat} {f g : Bool} {us ts : List Token}
    {d : Declaration}
    {ds : List Declaration} (h : Chunk us (some d))
    (hs : Standing code o f g us (code.drop (o + (textOf us).length))) (hchunks : Chunks ts ds)
    (hplaced : Placed (o + (textOf us).length) ts) :
    replaceFrom code text? o (d :: ds) =
      (text? d).getD (textOf us) ++ replaceFrom code text? (o + (textOf us).length) ds := by
  rcases h.span hs.placed with ⟨hstart, hstop⟩
  unfold replaceFrom
  rw [hs.text]
  cases htext : text? d with
  | none =>
      rw [replacements_cons_none htext]
      exact Edit.applyFrom_append (ordered_replacements hchunks hplaced text?) _
  | some s =>
      rw [replacements_cons_some htext]
      exact Edit.applyFrom_cons hstart hstop _ _

theorem rewriting_replaceFrom (code : Text) {fits : List Token -> Declaration -> Prop}
    {replaced : Declaration -> List Declaration}
    (hnone : forall {d}, text? d = none -> replaced d = [d])
    (hsome : forall {o f g us s d text}, Chunk us (some d) -> Situated code o f g us s ->
      fits us d ->
      text? d = some text -> Replaces text (replaced d))
    (fewer : forall {us ts d}, fits ts d -> (forall t, t ∈ us -> t ∈ ts) -> fits us d) :
    Rewriting code fits replaced (replaceFrom code text?) where
  done := fun _ => rfl
  copy := replaceFrom_copy
  replace := by
    intro o f g us rest d ds hchunk hs hfits hchunks hplaced
    refine ⟨_, ?_, replaceFrom_chunk hchunk hs.toStanding hchunks hplaced⟩
    cases htext : text? d with
    | none =>
        rw [hnone htext]
        exact (hchunk.yields hs).replaces
    | some s => exact hsome hchunk hs hfits htext
  fewer := fewer

theorem newlines_replaceFrom {code : Text} {ds : List Declaration}
    {lost gained : Declaration -> Nat}
    (hordered : Edit.Ordered 0 (replacements text? ds))
    (h : forall d, d ∈ ds -> (text? d).elim 0 Text.newlines + lost d =
      (text? d).elim 0 (fun _ => (Text.slice code d.start d.stop).newlines) + gained d) :
    (replaceFrom code text? 0 ds).newlines + (ds.map lost).sum =
      code.newlines + (ds.map gained).sum := by
  have hsum : ((replacements text? ds).map fun e => e.text.newlines).sum + (ds.map lost).sum =
      ((replacements text? ds).map fun e => (Text.slice code e.start e.stop).newlines).sum +
        (ds.map gained).sum := by
    clear hordered
    induction ds with
    | nil => rfl
    | cons d ds ih =>
        rcases List.forall_mem_cons.mp h with ⟨hd, hrest⟩
        have htail := ih hrest
        cases htext : text? d with
        | none =>
            rw [htext] at hd
            rw [replacements_cons_none htext]
            simp only [Option.elim_none, List.map_cons, List.sum_cons] at hd ⊢
            omega
        | some s =>
            rw [htext] at hd
            rw [replacements_cons_some htext]
            simp only [Option.elim_some, List.map_cons, List.sum_cons] at hd ⊢
            omega
  have happly := Edit.newlines_applyFrom hordered code
  unfold replaceFrom
  rw [List.drop_zero] at happly ⊢
  omega

end Replacements

/-!
# Pieces that are not written

A piece that stands in replaced declarations only is gone, if the texts in their places
do not bring it back.
-/

def Lacks (w : Piece) (text : Text) : Prop :=
  exists us, spell us = text ∧ (exists c, text.head? = some c ∧ isSeparator c = false) ∧
    (forall f r, Cuts f us false r) ∧ w ∉ us

def Omits (w : Piece) (text : Text) : Prop :=
  exists body ends, text = body ++ ends ∧ (forall c, c ∈ ends -> c = Byte.newline) ∧
    (body = [] ∨ Lacks w body)

section Omissions

variable {w : Piece} (hw : w.isPlain = true)

include hw

theorem ne_of_isPlain {u : Piece} (hu : u.isPlain = false) : w ≠ u := by
  rintro rfl
  rw [hw] at hu
  cases hu

theorem Lacks.join {x y : Text} (hx : Lacks w x) (hy : Lacks w y) : Lacks w (x ++ (" " ++ y)) := by
  rcases hx with ⟨us, rfl, ⟨c, hc, hsep⟩, hus, hwus⟩
  rcases hy with ⟨vs, rfl, ⟨d, hd, hsep'⟩, hvs, hwvs⟩
  refine ⟨us ++ ⟨.whitespace, [Byte.space]⟩ :: vs, by simp; rfl, ⟨c, ?_, hsep⟩,
    cuts_join hus hvs hd hsep', ?_⟩
  · rw [List.head?_append, hc]
    rfl
  · rw [List.mem_append, List.mem_cons, not_or, not_or]
    exact ⟨hwus, ne_of_isPlain hw rfl, hwvs⟩

theorem lacks_joinWith {α : Type} (text : α -> Text) {as : List α} (hne : as ≠ [])
    (h : forall a, a ∈ as -> Lacks w (text a)) : Lacks w (Text.joinWith " " (as.map text)) := by
  induction as with
  | nil => exact absurd rfl hne
  | cons a as ih =>
      rcases List.forall_mem_cons.mp h with ⟨hfirst, hrest⟩
      cases as with
      | nil => simpa [Text.joinWith] using hfirst
      | cons b as =>
          rw [List.map_cons, List.map_cons, Text.joinWith_cons_cons]
          exact hfirst.join hw (ih (List.cons_ne_nil b as) hrest)

theorem not_mem_loose {u : Piece} {text : Text} {us ws : List Piece} (hu : u.isPlain = false)
    (h : (text = [] ∧ us = ws) ∨ us = u :: ws ∨
      exists v vs, ws = ⟨.whitespace, v⟩ :: vs ∧ us = ⟨.whitespace, text ++ v⟩ :: vs)
    (hws : w ∉ ws) : w ∉ us := by
  rcases h with ⟨_, rfl⟩ | rfl | ⟨v, vs, rfl, rfl⟩
  · exact hws
  · rw [List.mem_cons, not_or]
    exact ⟨ne_of_isPlain hw hu, hws⟩
  · rw [List.mem_cons, not_or] at hws ⊢
    exact ⟨ne_of_isPlain hw rfl, hws.2⟩

theorem Omits.lexes {text r : Text} (h : Omits w text)
    (hr : forall f, exists ws, Lexes f r ws ∧ w ∉ ws) (f : Bool) :
    exists ws, Lexes f (text ++ r) ws ∧ w ∉ ws := by
  rcases h with ⟨body, ends, rfl, hends, hbody⟩
  have hrest : forall f, exists ws, Lexes f (ends ++ r) ws ∧ w ∉ ws := by
    intro f
    rcases hr (f || ends.contains Byte.newline) with ⟨ws, hws, hnot⟩
    have hsep : forall c, c ∈ ends -> isSeparator c = true := by
      intro c hc
      rw [hends c hc]
      rfl
    rcases exists_lexes_separators hsep hws with ⟨us, hus, hshape⟩
    exact ⟨us, hus, not_mem_loose hw rfl hshape hnot⟩
  rw [List.append_assoc]
  rcases hbody with rfl | ⟨us, rfl, _, hcuts, hus⟩
  · exact hrest f
  · rcases hrest false with ⟨ws, hws, hnot⟩
    refine ⟨us ++ ws, (hcuts f _).lexes hws, ?_⟩
    rw [List.mem_append, not_or]
    exact ⟨hus, hnot⟩

end Omissions

theorem Chunk.omits {w : Piece} {code s : Text} {o : Nat} {f g : Bool}
    {us : List Token} {d : Option Declaration} (h : Chunk us d) (hs : Situated code o f g us s)
    (hus : w ∉ us.map Token.piece) : Omits w (textOf us) := by
  refine ⟨textOf us, [], (List.append_nil _).symm, List.forall_mem_nil _,
    Or.inr ⟨us.map Token.piece, rfl, ?_, fun f' r => ?_, hus⟩⟩
  · rcases h.head?_text hs.toStanding with ⟨c, hc, hsep⟩
    rcases h.first with ⟨u, rest, rfl, _⟩
    rw [← hs.toStanding.head?_append [], List.append_nil] at hc
    exact ⟨c, hc, hsep⟩
  · rcases h.first with ⟨u, rest, rfl, hplain⟩
    refine (h.cuts hs.toStanding r).anywhere_of_plain hplain (fun heq => ?_) f'
    apply hs.noHash
    rw [← heq]
    exact List.mem_cons_self

/-- Every piece of this kind among the tokens stands in a declaration that is replaced. -/
def OnlyReplaced (text? : Declaration -> Option Text) (w : Piece) (ts : List Token)
    (ds : List Declaration) : Prop :=
  forall t, t ∈ ts -> t.piece = w ->
    exists d, d ∈ ds ∧ (text? d).isSome = true ∧ d.start ≤ t.offset ∧ t.offset < d.stop

namespace OnlyReplaced

variable {text? : Declaration -> Option Text} {w : Piece} {code : Text} {o : Nat} {f g : Bool}
  {us ts : List Token} {d : Option Declaration} {ds : List Declaration}

theorem rest (h : OnlyReplaced text? w (us ++ ts) (d.toList ++ ds)) (hchunk : Chunk us d)
    (hplaced : Placed o us) (hrest : Placed (o + (textOf us).length) ts) :
    OnlyReplaced text? w ts ds := by
  intro t ht hpiece
  rcases h t (List.mem_append_right _ ht) hpiece with ⟨d', hd', hsome, hspan⟩
  rcases List.mem_append.mp hd' with hd' | hd'
  · rw [Option.mem_toList.mp hd'] at hchunk
    have hstop := (hchunk.span hplaced).2
    have hbehind := (hrest.within ht).1
    omega
  · exact ⟨d', hd', hsome, hspan⟩

theorem not_mem (h : OnlyReplaced text? w (us ++ ts) (d.toList ++ ds)) (hchunks : Chunks ts ds)
    {s : Text} (hs : Standing code o f g us s) (hplaced : Placed (o + (textOf us).length) ts)
    (hnone : d.bind text? = none) : w ∉ us.map Token.piece := by
  intro hmem
  rcases List.mem_map.mp hmem with ⟨t, ht, hpiece⟩
  rcases h t (List.mem_append_left _ ht) hpiece with ⟨d', hd', hsome, hstart, _⟩
  rcases List.mem_append.mp hd' with hd' | hd'
  · rw [Option.mem_toList.mp hd', Option.bind_some] at hnone
    rw [hnone] at hsome
    cases hsome
  · have hle := hchunks.start_le hplaced d' hd'
    have hpositive := hs.offset_lt_stop ht
    have hwithin := (hs.placed.within ht).2
    omega

end OnlyReplaced

theorem Chunks.exists_lexes_omitting {code : Text} {text? : Declaration -> Option Text} {w : Piece}
    (hw : w.isPlain = true) {all ts : List Token} {ds : List Declaration} (h : Chunks ts ds)
    {o : Nat} {f : Bool} {ws : List Piece} (hrest : Rest code o f ts ws)
    (hhash : strayHash ∉ ts.map Token.piece) (hall : ts.Sublist all)
    (honly : OnlyReplaced text? w ts ds)
    (homits : forall {o f g us s d text}, d ∈ ds -> Chunk us (some d) -> Situated code o f g us s ->
      us.Sublist all -> text? d = some text -> Omits w text) :
    (exists ws', Lexes f (replaceFrom code text? o ds) ws' ∧ w ∉ ws') ∧
      KeepsBreak (code.drop o) (replaceFrom code text? o ds) := by
  induction h generalizing o f ws with
  | finish _ =>
      refine ⟨⟨ws, hrest.lexes, fun hmem => ?_⟩, fun _ => rfl⟩
      have hpiece : w ∈ ws ++ [endPiece] := List.mem_append_left _ hmem
      rw [← hrest.pieces] at hpiece
      rcases List.mem_map.mp hpiece with ⟨t, ht, hpiece⟩
      rcases honly t ht hpiece with ⟨_, hd, _⟩
      cases hd
  | @skip t ts ds hplain hchunks ih =>
      have hkind : t.kind ≠ .eof := by
        intro heof
        unfold Piece.isPlain at hplain
        rw [Token.kind_piece, heof] at hplain
        cases hplain
      rw [← List.singleton_append] at hrest
      rcases hrest.split rfl hkind with ⟨g, wy, hstanding, hrest'⟩
      rw [List.map_cons, List.mem_cons, not_or] at hhash
      rcases ih hrest' hhash.2 ((List.sublist_cons_self t ts).trans hall)
        (fun u hu => honly u (List.mem_cons_of_mem _ hu)) homits with ⟨⟨ws', hws', hnot⟩, hbreak⟩
      rw [replaceFrom_copy hchunks hrest'.placed hstanding.text]
      refine ⟨?_, fun _ => hstanding.head?_append _⟩
      rw [textOf_cons, textOf_nil, List.append_nil] at hws' hbreak ⊢
      rcases exists_lexes_loose hstanding.cuts hplain (by simpa using hbreak) hws' with
        ⟨us, hus, hshape⟩
      exact ⟨us, hus, not_mem_loose hw hplain hshape hnot⟩
  | @chunk us ts d ds hchunk hchunks ih =>
      rcases hchunk.last_kind with ⟨t, hlast, hkind⟩
      have hne : t.kind ≠ .eof := by
        rw [hkind]
        decide
      rcases hrest.split hlast hne with ⟨g, wy, hstanding, hrest'⟩
      rw [List.map_append, List.mem_append, not_or] at hhash
      have hsituated : Situated code o f g us (code.drop (o + (textOf us).length)) :=
        ⟨hstanding, hhash.1⟩
      have hg : g = false := hchunk.flag hstanding
      subst hg
      have hlexes : forall f, exists ws,
          Lexes f (replaceFrom code text? (o + (textOf us).length) ds) ws ∧ w ∉ ws := by
        have hbehind : forall {f' ws'}, Rest code (o + (textOf us).length) f' ts ws' ->
            exists ws, Lexes f' (replaceFrom code text? (o + (textOf us).length) ds) ws ∧ w ∉ ws :=
          fun hrest => (ih hrest hhash.2 ((List.sublist_append_right us ts).trans hall)
            (honly.rest hchunk hstanding.placed hrest.placed)
            fun hd => homits (List.mem_append_right _ hd)).1
        intro f'
        cases f' with
        | false => exact hbehind hrest'
        | true => exact hbehind (hrest'.outside hhash.2)
      have hcopied : d.bind text? = none -> Omits w (textOf us) := fun hnone =>
        hchunk.omits hsituated (honly.not_mem hchunks hstanding hrest'.placed hnone)
      have htext : exists text, Omits w text ∧ replaceFrom code text? o (d.toList ++ ds) =
          text ++ replaceFrom code text? (o + (textOf us).length) ds := by
        cases d with
        | none => exact ⟨_, hcopied rfl, replaceFrom_copy hchunks hrest'.placed hsituated.text⟩
        | some d =>
            refine ⟨_, ?_, replaceFrom_chunk hchunk hstanding hchunks hrest'.placed⟩
            cases htext : text? d with
            | none => exact hcopied htext
            | some text =>
                exact homits List.mem_cons_self hchunk hsituated
                  ((List.sublist_append_left us ts).trans hall) htext
      rcases htext with ⟨text, homit, heq⟩
      rw [heq]
      exact ⟨homit.lexes hw hlexes f, hchunk.keepsBreak hstanding _⟩

end Declaration

end EffectShader
