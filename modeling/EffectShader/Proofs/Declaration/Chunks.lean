import EffectShader.Proofs.Declaration.Spans

/-!
# Chunks of a source

A source is read chunk by chunk: a statement with its semicolon, a block, a body in
braces, or a brace that closes nothing.  Each chunk declares by itself, wherever its
text is put, so a source can be rewritten chunk by chunk.
-/

namespace EffectShader

namespace Stream

/-- A group that is not closed by the end marker is closed by its operator. -/
theorem isOp_of_closeGroup {opening closing : Text} {depth : Nat} {ts rest : List Token} {t : Token}
    (h : closeGroup opening closing depth ts = (t, rest)) (ht : t.kind ≠ .eof) :
    t.isOp closing = true := by
  induction ts generalizing depth with
  | nil =>
      cases h
      exact absurd rfl ht
  | cons u ts ih =>
      rw [closeGroup] at h
      split at h
      · rename_i heof
        cases h
        exact absurd (eq_of_beq heof) ht
      · split at h
        · exact ih h
        · split at h
          · rename_i hclose
            split at h
            · cases h
              exact hclose
            · exact ih h
          · exact ih h

end Stream

namespace Declaration

open Lexer

theorem head?_solidTokens {raw : List Token} (hopen : IsOpen raw) :
    (solidTokens raw).head? = raw.head? := by
  cases raw with
  | nil => rfl
  | cons t raw =>
      have hplain : t.piece.isPlain = true := hopen.head t rfl
      simp [solidTokens, hplain]

theorem piece_of_isOp {t : Token} {op : Text} (h : t.isOp op = true) :
    t.piece = ⟨.operator, op⟩ := by
  rcases Bool.and_eq_true_iff.mp h with ⟨hkind, htext⟩
  unfold Token.piece
  rw [eq_of_beq hkind, eq_of_beq htext]

theorem span_of_ofStatement? {o : Nat} {raw : List Token} {semi : Token} {d : Declaration}
    (h : Placed o (raw ++ [semi])) (hopen : IsOpen raw)
    (hd : ofStatement? (solidTokens raw) semi = .ok (some d)) :
    d.start = o ∧ d.stop = o + (textOf (raw ++ [semi])).length := by
  rcases parts_of_ofStatement? hd with ⟨parts⟩
  have hhead : raw.head? = some parts.first := by
    rw [← head?_solidTokens hopen]
    exact parts.head
  rw [parts.eq]
  refine ⟨h.head hhead, h.offset.2.trans ?_⟩
  simp [Nat.add_assoc]

theorem span_of_block {o : Nat} {raw ts after : List Token} {brace : Token} {d : Declaration}
    (parts : BlockParts (solidTokens raw) ts d after)
    (h : Placed o (raw ++ brace :: (parts.body ++ [parts.semi]))) (hopen : IsOpen raw) :
    d.start = o ∧ d.stop = o + (textOf (raw ++ brace :: (parts.body ++ [parts.semi]))).length := by
  have hhead : raw.head? = some parts.first := by
    rw [← head?_solidTokens hopen]
    exact parts.head
  have hshape : raw ++ brace :: (parts.body ++ [parts.semi]) =
      (raw ++ brace :: parts.body) ++ parts.semi :: [] := by
    simp
  rw [parts.start, parts.stop]
  refine ⟨h.head hhead, ?_⟩
  rw [hshape] at h ⊢
  rw [h.offset.2]
  simp [Nat.add_assoc]

theorem raw_ne_nil {raw : List Token} {t : Token} (h : (solidTokens raw).head? = some t) :
    raw ≠ [] := by
  rintro rfl
  cases h

/-!
# What a chunk is
-/

inductive Chunk : List Token -> Option Declaration -> Prop where
  | statement {raw : List Token} {semi : Token} {d : Option Declaration} :
      IsOpen raw -> semi.isOp ";" = true -> ofStatement? (solidTokens raw) semi = .ok d ->
      Chunk (raw ++ [semi]) d
  | block {raw ts after : List Token} {brace : Token} {d : Declaration} :
      IsOpen raw -> brace.isOp Op.openBrace = true ->
      forall parts : BlockParts (solidTokens raw) ts d after,
      Chunk (raw ++ brace :: (parts.body ++ [parts.semi])) (some d)
  | group {raw ts used : List Token} {brace close : Token} :
      IsOpen raw -> brace.isOp Op.openBrace = true -> close.isOp Op.closeBrace = true ->
      ofBlock? (solidTokens raw) ts = .ok none ->
      (forall used' close' after', used'.map Token.piece = used.map Token.piece ->
        close'.piece = close.piece ->
        Stream.closeGroup Op.openBrace Op.closeBrace 1 (used' ++ close' :: after') =
          (close', after')) ->
      Chunk (raw ++ brace :: (used ++ [close])) none
  | close {raw : List Token} {brace : Token} :
      IsOpen raw -> brace.isOp Op.closeBrace = true -> Chunk (raw ++ [brace]) none

def DeclaresNothing (ts : List Token) : Prop :=
  forall ws, ts.map Token.piece = ws ++ [endPiece] -> (forall w, w ∈ ws -> w.kind ≠ .eof) ->
    Declares ws []

inductive Chunks : List Token -> List Declaration -> Prop where
  | finish {ts : List Token} : DeclaresNothing ts -> Chunks ts []
  | skip {t : Token} {ts : List Token} {ds : List Declaration} :
      t.piece.isPlain = false -> Chunks ts ds -> Chunks (t :: ts) ds
  | chunk {us ts : List Token} {d : Option Declaration} {ds : List Declaration} :
      Chunk us d -> Chunks ts ds -> Chunks (us ++ ts) (d.toList ++ ds)

theorem declaresNothing_of_atEnd {raw ts : List Token} (hopen : IsOpen raw)
    (hend : Stream.atEnd ts = true) : DeclaresNothing (raw ++ ts) := by
  intro ws hws hkinds
  cases ts with
  | nil =>
      -- the end marker is no beginning of a statement
      have hmem : endPiece ∈ (raw ++ []).map Token.piece := by
        rw [hws]
        exact List.mem_append_right _ List.mem_cons_self
      rw [List.append_nil] at hmem
      cases hopen.pieces.inner endPiece hmem
  | cons t ts =>
      have hkind : t.piece.kind = .eof := eq_of_beq hend
      rcases List.eq_nil_or_concat ts with rfl | ⟨ts, u, rfl⟩
      · rw [List.map_append, List.map_singleton] at hws
        rw [← List.append_inj_left' hws rfl]
        exact Declares.finish hopen.pieces
      · have hshape : raw ++ t :: ts.concat u = (raw ++ t :: ts) ++ [u] := by simp
        rw [hshape, List.map_append, List.map_singleton] at hws
        refine absurd hkind (hkinds t.piece ?_)
        rw [← List.append_inj_left' hws rfl]
        exact List.mem_map_of_mem (List.mem_append_right _ List.mem_cons_self)

theorem eq_nil_of_atEnd {ts : List Token} {ds : List Declaration} (h : Units ts ds)
    (hend : Stream.atEnd ts = true) : ds = [] := by
  have hscan := scan_of_units h (Nat.le_refl _)
  rw [scan_atEnd hend (Nat.le_refl _)] at hscan
  exact (Except.ok.inj hscan).symm

theorem declaresNothing_of_group {raw ts : List Token} {brace : Token} (hopen : IsOpen raw)
    (hbrace : brace.isOp Op.openBrace = true) (hnone : ofBlock? (solidTokens raw) ts = .ok none)
    (hgroup : Stream.atEnd (Stream.skipBalanced Op.openBrace Op.closeBrace ts).2 = true) :
    DeclaresNothing (raw ++ brace :: ts) := by
  intro ws hws _
  rcases List.eq_nil_or_concat ts with rfl | ⟨ts', u, hts⟩
  · rw [List.map_append, List.map_singleton, piece_of_isOp hbrace] at hws
    cases List.append_inj_right' hws rfl
  · have hshape : raw ++ brace :: ts = (raw ++ brace :: ts') ++ [u] := by simp [hts]
    rw [hshape, List.map_append, List.map_singleton] at hws
    have hlast : u.piece = endPiece := List.singleton_inj.mp (List.append_inj_right' hws rfl)
    rw [← List.append_inj_left' hws rfl, List.map_append, List.map_cons, piece_of_isOp hbrace]
    apply Declares.openGroup hopen hnone hgroup
    rw [hts, List.concat_eq_append, List.map_append, List.map_singleton, hlast]

theorem chunks_of_units {ts : List Token} {ds : List Declaration} (h : Units ts ds) :
    Chunks ts ds := by
  induction h with
  | finish hopen hend => exact Chunks.finish (declaresNothing_of_atEnd hopen hend)
  | skip hplain _ ih => exact Chunks.skip hplain ih
  | statement hopen hsemi hstatement _ ih =>
      have hchunks := Chunks.chunk (Chunk.statement hopen hsemi hstatement) ih
      simpa using hchunks
  | @block raw ts after brace d ds hopen hbrace hblock _ ih =>
      rcases parts_of_ofBlock? hblock with ⟨parts⟩
      have hchunks := Chunks.chunk (Chunk.block hopen hbrace parts) ih
      have hshape : raw ++ brace :: (parts.body ++ [parts.semi]) ++ after = raw ++ brace :: ts := by
        rw [List.append_assoc, List.cons_append, List.append_assoc]
        exact congrArg (fun ts => raw ++ brace :: ts) parts.tokens.symm
      rw [hshape] at hchunks
      exact hchunks
  | @group raw ts brace ds hopen hbrace hnone hunits ih =>
      cases hclose : Stream.skipBalanced Op.openBrace Op.closeBrace ts with
      | mk close rest =>
          rw [hclose] at hunits ih
          by_cases hkind : close.kind = .eof
          · have hend : Stream.atEnd rest = true := by
              have hfirst : (Stream.closeGroup Op.openBrace Op.closeBrace 1 ts).1.kind = .eof :=
                (congrArg (fun x => x.1.kind) hclose).trans hkind
              have hatEnd := Stream.atEnd_of_closeGroup hfirst
              unfold Stream.skipBalanced at hclose
              rw [hclose] at hatEnd
              exact hatEnd
            rw [eq_nil_of_atEnd hunits hend]
            apply Chunks.finish
            apply declaresNothing_of_group hopen hbrace hnone
            rw [hclose]
            exact hend
          · rcases Stream.exists_of_closeGroup hclose hkind with ⟨used, rfl, hgroup⟩
            have hchunks := Chunks.chunk (Chunk.group hopen hbrace
              (Stream.isOp_of_closeGroup hclose hkind) hnone hgroup) ih
            simpa using hchunks
  | close hopen hbrace _ ih =>
      have hchunks := Chunks.chunk (Chunk.close hopen hbrace) ih
      simpa using hchunks

/-!
# What a chunk declares
-/

theorem Situated.head?_ne_hash {code s : Text} {o : Nat} {f g : Bool} {x y : List Token}
    (h : Situated code o f g (x ++ y) s) : (x.map Token.piece).head? ≠ some strayHash := by
  intro hhead
  apply h.noHash
  rw [List.map_append]
  exact List.mem_append_left _ (List.mem_of_head? hhead)

theorem Chunk.yields {code s : Text} {o : Nat} {f g : Bool} {us : List Token}
    {d : Option Declaration} (h : Chunk us d) (hs : Situated code o f g us s) :
    Yields (textOf us) d.toList := by
  have htext : forall {t : Token} {b : UInt8}, t.piece = ⟨.operator, [b]⟩ -> t.text = [b] :=
    fun hpiece => congrArg Piece.text hpiece
  cases h with
  | @statement raw semi d hopen hsemi hstatement =>
      have hcuts := hs.cuts
      rw [List.map_append, List.map_singleton, piece_of_isOp hsemi] at hcuts
      have hyields := yields_statement hcuts hopen.pieces (Situated.head?_ne_hash hs)
        (statementDeclares_of_ofStatement? hstatement)
      simpa [textOf, htext (piece_of_isOp hsemi)] using hyields
  | @block raw ts after brace d hopen hbrace parts =>
      have hcuts := hs.cuts
      rw [List.map_append, List.map_cons, List.map_append, List.map_singleton,
        piece_of_isOp hbrace, piece_of_isOp parts.isSemi] at hcuts
      have hyields := yields_block hcuts hopen.pieces (Situated.head?_ne_hash hs)
        parts.blockDeclares
      simpa [textOf, htext (piece_of_isOp hbrace), htext (piece_of_isOp parts.isSemi)] using hyields
  | @group raw ts used brace close hopen hbrace hclose hnone hgroup =>
      have hcuts := hs.cuts
      rw [List.map_append, List.map_cons, List.map_append, List.map_singleton,
        piece_of_isOp hbrace, piece_of_isOp hclose] at hcuts
      have hyields : Yields _ [] := yields_of_open (b := Byte.openBrace)
        (c := Byte.closeBrace) hcuts
        hopen.pieces (Situated.head?_ne_hash hs) (by decide) (by
          rw [← List.cons_append, ← List.append_assoc, List.getLast?_concat]
          rfl) rfl (by
          intro ws ds' hws
          have hdeclares := Declares.group hopen hnone hgroup hws
          rw [piece_of_isOp hclose] at hdeclares
          rw [List.append_assoc]
          exact hdeclares)
      have hop : Op.closeBrace = [Byte.closeBrace] := rfl
      simpa [textOf, hop, htext (piece_of_isOp hbrace), htext (piece_of_isOp hclose)] using hyields
  | @close raw brace hopen hclose =>
      have hcuts := hs.cuts
      rw [List.map_append, List.map_singleton, piece_of_isOp hclose] at hcuts
      have hyields : Yields _ [] := yields_of_open (b := Byte.closeBrace) (c := Byte.closeBrace)
        hcuts hopen.pieces (Situated.head?_ne_hash hs) (by decide)
        List.getLast?_concat rfl (fun ws ds' hws => Declares.close hopen.pieces hws)
      simpa [textOf, htext (piece_of_isOp hclose)] using hyields

theorem Chunk.declares {us : List Token} {d : Option Declaration} (h : Chunk us d)
    {ws : List Piece} {ds : List Declaration} (hws : Declares ws ds) :
    Declares (us.map Token.piece ++ ws) (d.toList ++ ds) := by
  cases h with
  | @statement raw semi d hopen hsemi hstatement =>
      rw [List.map_append, List.map_singleton, piece_of_isOp hsemi, List.append_assoc]
      exact Declares.statement hopen.pieces (statementDeclares_of_ofStatement? hstatement) hws
  | @block raw ts after brace d hopen hbrace parts =>
      rw [List.map_append, List.map_cons, List.map_append, List.map_singleton,
        piece_of_isOp hbrace, piece_of_isOp parts.isSemi, List.append_assoc, List.cons_append,
        List.append_assoc]
      exact Declares.block hopen.pieces parts.blockDeclares hws
  | @group raw ts used brace close hopen hbrace hclose hnone hgroup =>
      have hdeclares := Declares.group hopen hnone hgroup hws
      rw [List.map_append, List.map_cons, List.map_append, List.map_singleton, piece_of_isOp hbrace]
      simpa using hdeclares
  | @close raw brace hopen hclose =>
      rw [List.map_append, List.map_singleton, piece_of_isOp hclose, List.append_assoc]
      exact Declares.close hopen.pieces hws

theorem Chunk.span {o : Nat} {us : List Token} {d : Declaration} (h : Chunk us (some d))
    (hplaced : Placed o us) : d.start = o ∧ d.stop = o + (textOf us).length := by
  cases h with
  | statement hopen _ hstatement => exact span_of_ofStatement? hplaced hopen hstatement
  | block hopen _ parts => exact span_of_block parts hplaced hopen

theorem Chunks.start_le {ts : List Token} {ds : List Declaration} (h : Chunks ts ds) {o : Nat}
    (hplaced : Placed o ts) : forall d, d ∈ ds -> o ≤ d.start := by
  induction h generalizing o with
  | finish => simp
  | @skip t ts ds _ _ ih =>
      intro d hd
      have hle := ih hplaced.2 d hd
      have hfirst : t.offset = o := hplaced.1
      rw [← hfirst]
      exact Nat.le_trans (Nat.le_add_right _ _) hle
  | @chunk us ts d ds hchunk _ ih =>
      intro d' hd'
      rcases placed_append.mp hplaced with ⟨hunit, hrest⟩
      rcases List.mem_append.mp hd' with hd' | hd'
      · rw [Option.mem_toList.mp hd'] at hchunk
        exact Nat.le_of_eq (hchunk.span hunit).1.symm
      · exact Nat.le_trans (Nat.le_add_right _ _) (ih hrest d' hd')

theorem Chunk.last {us : List Token} {d : Option Declaration} (h : Chunk us d) :
    exists t c, us.getLast? = some t ∧ t.piece = ⟨.operator, [c]⟩ ∧ isSingle c = true := by
  cases h with
  | @statement raw semi _ _ hsemi _ =>
      exact ⟨semi, Byte.semicolon, List.getLast?_concat, piece_of_isOp hsemi, rfl⟩
  | block _ _ parts =>
      refine ⟨parts.semi, Byte.semicolon, ?_, piece_of_isOp parts.isSemi, rfl⟩
      rw [← List.cons_append, ← List.append_assoc, List.getLast?_concat]
  | @group raw ts used brace close _ _ hclose _ _ =>
      refine ⟨close, Byte.closeBrace, ?_, piece_of_isOp hclose, rfl⟩
      rw [← List.cons_append, ← List.append_assoc, List.getLast?_concat]
  | @close raw brace _ hclose =>
      exact ⟨brace, Byte.closeBrace, List.getLast?_concat, piece_of_isOp hclose, rfl⟩

theorem Chunk.last_kind {us : List Token} {d : Option Declaration} (h : Chunk us d) :
    exists t, us.getLast? = some t ∧ t.kind = .operator := by
  rcases h.last with ⟨t, c, hlast, hpiece, _⟩
  exact ⟨t, hlast, congrArg Piece.kind hpiece⟩

theorem Chunk.flag {code s : Text} {o : Nat} {f g : Bool} {us : List Token}
    {d : Option Declaration} (h : Chunk us d) (hs : Standing code o f g us s) : g = false := by
  rcases h.last with ⟨t, c, hlast, hpiece, _⟩
  apply Cuts.after_plain hs.cuts (w := t.piece)
  · rw [List.getLast?_map, hlast]
    rfl
  · rw [hpiece]
    rfl

theorem Chunk.cuts {code s : Text} {o : Nat} {f g : Bool} {us : List Token}
    {d : Option Declaration} (h : Chunk us d) (hs : Standing code o f g us s) (r : Text) :
    Cuts f (us.map Token.piece) false r := by
  rcases h.last with ⟨t, c, hlast, hpiece, hc⟩
  rw [← h.flag hs]
  apply hs.cuts.exchange
  intro w hw
  rw [List.getLast?_map, hlast] at hw
  rw [← Option.some.inj hw, hpiece]
  exact Or.inl ⟨c, rfl, hc⟩

theorem Chunk.first {us : List Token} {d : Option Declaration} (h : Chunk us d) :
    exists t rest, us = t :: rest ∧ t.piece.isPlain = true := by
  have hop : forall {raw rest : List Token} {t : Token} {op : Text}, IsOpen raw ->
      t.isOp op = true ->
      exists u rest', raw ++ t :: rest = u :: rest' ∧ u.piece.isPlain = true := by
    intro raw rest t op hopen ht
    cases raw with
    | nil =>
        refine ⟨t, rest, rfl, ?_⟩
        rw [piece_of_isOp ht]
        rfl
    | cons u raw => exact ⟨u, _, rfl, hopen.head u rfl⟩
  cases h with
  | statement hopen hsemi _ => exact hop hopen hsemi
  | block hopen hbrace _ => exact hop hopen hbrace
  | group hopen hbrace _ _ _ => exact hop hopen hbrace
  | close hopen hclose => exact hop hopen hclose

theorem Chunk.head?_text {code s : Text} {o : Nat} {f g : Bool} {us : List Token}
    {d : Option Declaration} (h : Chunk us d) (hs : Standing code o f g us s) :
    exists c, (code.drop o).head? = some c ∧ isSeparator c = false := by
  rcases h.first with ⟨t, rest, rfl, hplain⟩
  rcases hs.cuts.isCut t.piece List.mem_cons_self with ⟨_, b, v, _, hbytes, _⟩
  have hhead : (code.drop o).head? = some b := by
    rw [hs.text, textOf_cons, show t.text = b :: v from hbytes]
    rfl
  refine ⟨b, hhead, not_isSeparator_of_kind hs.cuts ?_ (hs.text ▸ hhead)⟩
  intro hspace
  unfold Piece.isPlain at hplain
  rw [hspace] at hplain
  cases hplain

/-!
# The rest of a source
-/

theorem Chunks.declares {ts : List Token} {ds : List Declaration} (h : Chunks ts ds)
    {ws : List Piece} (hts : ts.map Token.piece = ws ++ [endPiece])
    (hkinds : forall w, w ∈ ws -> w.kind ≠ .eof) : Declares ws ds := by
  induction h generalizing ws with
  | finish hnothing => exact hnothing ws hts hkinds
  | @skip t ts ds hplain _ ih =>
      cases ws with
      | nil =>
          rw [(List.cons.inj hts).1] at hplain
          cases hplain
      | cons w ws =>
          rcases List.cons.inj hts with ⟨rfl, hrest⟩
          exact Declares.skip hplain (ih hrest (List.forall_mem_cons.mp hkinds).2)
  | @chunk us ts d ds hchunk _ ih =>
      rcases hchunk.last_kind with ⟨t, hlast, hkind⟩
      rw [List.map_append] at hts
      rcases List.eq_nil_or_concat ts with rfl | ⟨vs, u, rfl⟩
      · -- a chunk does not end in the end marker
        rw [List.map_nil, List.append_nil] at hts
        have hend : (us.map Token.piece).getLast? = some endPiece := by
          rw [hts, List.getLast?_concat]
        rw [List.getLast?_map, hlast] at hend
        rw [show t.kind = .eof from congrArg Piece.kind (Option.some.inj hend)] at hkind
        cases hkind
      · rw [List.concat_eq_append, List.map_append, List.map_singleton, ← List.append_assoc] at hts
        have hws := List.append_inj_left' hts rfl
        subst hws
        apply hchunk.declares
        apply ih
        · rw [List.concat_eq_append, List.map_append, List.map_singleton,
            List.append_inj_right' hts rfl]
        · exact fun w hw => hkinds w (List.mem_append_right _ hw)

structure Rest (code : Text) (o : Nat) (f : Bool) (ts : List Token) (ws : List Piece) : Prop where
  placed : Placed o ts
  pieces : ts.map Token.piece = ws ++ [endPiece]
  lexes : Lexes f (code.drop o) ws

theorem Rest.outside {code : Text} {o : Nat} {f : Bool} {ts : List Token} {ws : List Piece}
    (h : Rest code o f ts ws) (hhash : strayHash ∉ ts.map Token.piece) :
    Rest code o true ts ws := by
  rw [h.pieces, List.mem_append, not_or] at hhash
  exact ⟨h.placed, h.pieces, h.lexes.outside hhash.1⟩

theorem Rest.kind_ne_eof {code : Text} {o : Nat} {f : Bool} {ts : List Token} {ws : List Piece}
    (h : Rest code o f ts ws) : forall w, w ∈ ws -> w.kind ≠ .eof := by
  intro w hw
  rcases h.lexes.exists_extent? hw with ⟨_, _, _, _, _, hextent⟩
  exact kind_ne_eof_of_extent? hextent

theorem Rest.split {code : Text} {o : Nat} {f : Bool} {x y : List Token} {ws : List Piece}
    {t : Token} (h : Rest code o f (x ++ y) ws) (hlast : x.getLast? = some t)
    (ht : t.kind ≠ .eof) :
    exists g wy, Standing code o f g x (code.drop (o + (textOf x).length)) ∧
      Rest code (o + (textOf x).length) g y wy := by
  rcases List.eq_nil_or_concat y with rfl | ⟨y, u, rfl⟩
  · rcases List.getLast?_eq_some_iff.mp hlast with ⟨front, rfl⟩
    have hpieces := h.pieces
    rw [List.append_nil, List.map_append, List.map_singleton] at hpieces
    have hend : t.piece = endPiece := List.singleton_inj.mp (List.append_inj_right' hpieces rfl)
    exact absurd (congrArg Piece.kind hend) ht
  · rw [List.concat_eq_append] at h ⊢
    have hpieces := h.pieces
    rw [← List.append_assoc, List.map_append, List.map_singleton] at hpieces
    have hend : u.piece = endPiece := List.singleton_inj.mp (List.append_inj_right' hpieces rfl)
    have hws : ws = x.map Token.piece ++ y.map Token.piece := by
      rw [← List.append_inj_left' hpieces rfl, List.map_append]
    subst hws
    rcases h.lexes.cuts with ⟨g, r, hcode, hcuts, hlexes⟩
    have htext : code.drop o = textOf x ++ r := hcode
    have hr : code.drop (o + (textOf x).length) = r := Text.drop_of_drop htext
    rcases placed_append.mp h.placed with ⟨hx, hy⟩
    rw [hr]
    refine ⟨g, y.map Token.piece, ⟨htext, hx, hcuts⟩, ⟨hy, ?_, ?_⟩⟩
    · rw [List.map_append, List.map_singleton, hend]
    · rw [hr]
      exact hlexes

theorem rest_of_tokenize {code : Text} {ts : List Token} (h : tokenize code = .ok ts) :
    exists ws, Rest code 0 true ts ws := by
  rcases tokenize_eq_ok_iff.mp h with ⟨ws, hws, rfl⟩
  exact ⟨ws, placed_place Position.start ws, map_piece_place _ _, hws⟩

/-!
# Rewriting chunk by chunk
-/

theorem declares_separators {u : Piece} {us ws : List Piece} {w : Text} {ds : List Declaration}
    (hu : u.isPlain = false)
    (h : (w = [] ∧ us = ws) ∨ us = u :: ws ∨
      exists v vs, ws = ⟨.whitespace, v⟩ :: vs ∧ us = ⟨.whitespace, w ++ v⟩ :: vs)
    (hws : Declares ws ds) : Declares us ds := by
  rcases h with ⟨_, rfl⟩ | rfl | ⟨v, vs, rfl, rfl⟩
  · exact hws
  · exact Declares.skip hu hws
  · exact Declares.skip rfl (Declares.of_skip rfl hws)

def Replaces (text : Text) (ds : List Declaration) : Prop :=
  exists body ends, text = body ++ ends ∧ (forall c, c ∈ ends -> c = Byte.newline) ∧
    (Yields body ds ∨ (body = [] ∧ ds = []))

theorem Yields.replaces {text : Text} {ds : List Declaration} (h : Yields text ds) :
    Replaces text ds :=
  ⟨text, [], (List.append_nil _).symm, List.forall_mem_nil _, Or.inl h⟩

/-- Replaced text in front of a text that is read at the start and inside of a line. -/
theorem Replaces.lexes {text r : Text} {ds ds' : List Declaration} (h : Replaces text ds)
    (hr : forall f, exists ws, Lexes f r ws ∧ Declares ws ds') (f : Bool) :
    exists ws, Lexes f (text ++ r) ws ∧ Declares ws (ds ++ ds') := by
  rcases h with ⟨body, ends, rfl, hends, hbody⟩
  have hrest : forall f, exists ws, Lexes f (ends ++ r) ws ∧ Declares ws ds' := by
    intro f
    rcases hr (f || ends.contains Byte.newline) with ⟨ws, hws, hdeclares⟩
    have hsep : forall c, c ∈ ends -> isSeparator c = true := by
      intro c hc
      rw [hends c hc]
      rfl
    rcases exists_lexes_separators hsep hws with ⟨us, hus, hshape⟩
    exact ⟨us, hus, declares_separators rfl hshape hdeclares⟩
  rw [List.append_assoc]
  rcases hbody with hbody | ⟨rfl, rfl⟩
  · rcases hrest false with ⟨ws, hws, hdeclares⟩
    exact hbody.lexes hws hdeclares f
  · exact hrest f

def KeepsBreak (r r' : Text) : Prop :=
  (forall c, r.head? = some c -> isSeparator c = true) -> r'.head? = r.head?

theorem Chunk.keepsBreak {code s : Text} {o : Nat} {f g : Bool} {us : List Token}
    {d : Option Declaration} (h : Chunk us d) (hs : Standing code o f g us s) (r : Text) :
    KeepsBreak (code.drop o) r := by
  intro hsep
  rcases h.head?_text hs with ⟨c, hc, hnot⟩
  rw [hsep c hc] at hnot
  cases hnot

theorem closes_of_keepsBreak {f g : Bool} {w : Piece} {r r' : Text} (h : Cuts f [w] g r)
    (hw : w.isPlain = false) (hspace : w.kind ≠ .whitespace) (hr : KeepsBreak r r') :
    Closes w r r' := by
  cases h with
  | @cons _ _ kind b v _ _ hextent _ =>
      rw [spell_nil, List.nil_append] at hextent
      unfold Closes
      cases hform : formOf kind with
      | plain =>
          unfold Piece.isPlain at hw
          rw [hform] at hw
          cases hw
      | blockComment => trivial
      | space => cases kind <;> first | exact absurd rfl hspace | cases hform
      | directive | lineComment =>
          exact hr fun c hc => isSeparator_after hextent (by simp [hform]) hc

/-- The text of a source from an offset on, as a function of the declarations behind it: what
declares nothing is copied, and the chunk of a declaration is replaced by others. -/
structure Rewriting (code : Text) (fits : List Token -> Declaration -> Prop)
    (replaced : Declaration -> List Declaration) (text : Nat -> List Declaration -> Text) :
    Prop where
  done : forall o, text o [] = code.drop o
  copy : forall {o : Nat} {w : Text} {ts : List Token} {ds : List Declaration}, Chunks ts ds ->
    Placed (o + w.length) ts -> code.drop o = w ++ code.drop (o + w.length) ->
    text o ds = w ++ text (o + w.length) ds
  replace : forall {o : Nat} {f g : Bool} {us ts : List Token} {d : Declaration}
    {ds : List Declaration}, Chunk us (some d) ->
    Situated code o f g us (code.drop (o + (textOf us).length)) -> fits us d -> Chunks ts ds ->
    Placed (o + (textOf us).length) ts ->
    exists w, Replaces w (replaced d) ∧ text o (d :: ds) = w ++ text (o + (textOf us).length) ds
  fewer : forall {us ts : List Token} {d : Declaration}, fits ts d ->
    (forall t, t ∈ us -> t ∈ ts) -> fits us d

/-- Trivia and directives in front of a text with the same break stay what they are, but for white
space, which may grow by that behind it. -/
theorem exists_lexes_loose {f g : Bool} {w : Piece} {r r' : Text} {ws : List Piece}
    (h : Cuts f [w] g r) (hw : w.isPlain = false) (hr : KeepsBreak r r') (hws : Lexes g r' ws) :
    exists us, Lexes f (w.text ++ r') us ∧
      ((w.text = [] ∧ us = ws) ∨ us = w :: ws ∨
        exists v vs, ws = ⟨.whitespace, v⟩ :: vs ∧ us = ⟨.whitespace, w.text ++ v⟩ :: vs) := by
  by_cases hspace : w.kind = .whitespace
  · rw [flag_of_whitespace h hspace] at hws
    rcases exists_lexes_separators (separators_of_isCut (h.isCut w List.mem_cons_self) hspace).2 hws
      with ⟨us, hus, hshape⟩
    refine ⟨us, hus, hshape.imp_right (Or.imp_left fun heq => ?_)⟩
    rw [heq, ← hspace]
  · have hcuts : Cuts f [w] g r' := by
      apply Cuts.exchange h
      intro w' hw'
      rw [← Option.some.inj hw']
      exact closes_of_keepsBreak h hw hspace hr
    have hlexes := hcuts.lexes hws
    rw [spell_cons, spell_nil, List.append_nil] at hlexes
    exact ⟨w :: ws, hlexes, Or.inr (Or.inl rfl)⟩

theorem exists_lexes_skip {f g : Bool} {w : Piece} {r r' : Text} {ws : List Piece}
    {ds : List Declaration} (h : Cuts f [w] g r) (hw : w.isPlain = false) (hr : KeepsBreak r r')
    (hws : Lexes g r' ws) (hds : Declares ws ds) :
    exists us, Lexes f (w.text ++ r') us ∧ Declares us ds := by
  rcases exists_lexes_loose h hw hr hws with ⟨us, hus, hshape⟩
  exact ⟨us, hus, declares_separators hw hshape hds⟩

theorem Rewriting.exists_lexes {code : Text} {fits : List Token -> Declaration -> Prop}
    {replaced : Declaration -> List Declaration} {text : Nat -> List Declaration -> Text}
    (hr : Rewriting code fits replaced text) {ts : List Token} {ds : List Declaration}
    (h : Chunks ts ds) {o : Nat} {f : Bool} {ws : List Piece} (hrest : Rest code o f ts ws)
    (hhash : strayHash ∉ ts.map Token.piece) (hfits : forall d, d ∈ ds -> fits ts d) :
    (exists ws', Lexes f (text o ds) ws' ∧ Declares ws' (ds.flatMap replaced)) ∧
      KeepsBreak (code.drop o) (text o ds) := by
  induction h generalizing o f ws with
  | finish hnothing =>
      rw [hr.done]
      exact ⟨⟨ws, hrest.lexes, hnothing ws hrest.pieces hrest.kind_ne_eof⟩, fun _ => rfl⟩
  | @skip t ts ds hplain hchunks ih =>
      have hkind : t.kind ≠ .eof := by
        intro heof
        unfold Piece.isPlain at hplain
        rw [Token.kind_piece, heof] at hplain
        cases hplain
      rw [← List.singleton_append] at hrest
      rcases hrest.split rfl hkind with ⟨g, wy, hstanding, hrest'⟩
      rw [List.map_cons, List.mem_cons, not_or] at hhash
      rcases ih hrest' hhash.2
        (fun d hd => hr.fewer (hfits d hd) fun u hu => List.mem_cons_of_mem _ hu) with
        ⟨⟨ws', hws', hdeclares⟩, hbreak⟩
      rw [hr.copy hchunks hrest'.placed hstanding.text]
      refine ⟨?_, fun _ => hstanding.head?_append _⟩
      rw [textOf_cons, textOf_nil, List.append_nil] at hws' hbreak ⊢
      exact exists_lexes_skip hstanding.cuts hplain (by simpa using hbreak) hws' hdeclares
  | @chunk us ts d ds hchunk hchunks ih =>
      rcases hchunk.last_kind with ⟨t, hlast, hkind⟩
      have hne : t.kind ≠ .eof := by
        rw [hkind]
        decide
      rcases hrest.split hlast hne with ⟨g, wy, hstanding, hrest'⟩
      rw [List.map_append, List.mem_append, not_or] at hhash
      have hsituated : Situated code o f g us (code.drop (o + (textOf us).length)) :=
        ⟨hstanding, hhash.1⟩
      have hg : g = false := hchunk.flag hstanding
      subst hg
      have hfits' : forall d, d ∈ ds -> fits ts d := fun d' hd' =>
        hr.fewer (hfits d' (List.mem_append_right _ hd')) fun u hu => List.mem_append_right _ hu
      -- behind added line ends the rest starts a line
      have hlexes : forall f, exists ws, Lexes f (text (o + (textOf us).length) ds) ws ∧
          Declares ws (ds.flatMap replaced) := by
        intro f'
        cases f' with
        | false => exact (ih hrest' hhash.2 hfits').1
        | true => exact (ih (hrest'.outside hhash.2) hhash.2 hfits').1
      have htext : exists w, Replaces w (d.toList.flatMap replaced) ∧
          text o (d.toList ++ ds) = w ++ text (o + (textOf us).length) ds := by
        cases d with
        | none =>
            exact ⟨textOf us, (hchunk.yields hsituated).replaces,
              hr.copy hchunks hrest'.placed hsituated.text⟩
        | some d =>
            rw [Option.toList_some, List.flatMap_singleton]
            exact hr.replace hchunk hsituated
              (hr.fewer (hfits d List.mem_cons_self) fun u hu => List.mem_append_left _ hu)
              hchunks hrest'.placed
      rcases htext with ⟨w, hw, heq⟩
      rw [heq, List.flatMap_append]
      refine ⟨hw.lexes hlexes f, ?_⟩
      exact hchunk.keepsBreak hstanding _

end Declaration

end EffectShader
