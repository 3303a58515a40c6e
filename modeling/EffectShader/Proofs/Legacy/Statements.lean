import EffectShader.Proofs.Legacy.Interface

/-!
# Statements token by token

The pass over statements goes from token to token: it copies a token, removes a layout
qualifier, or writes something else for a token and what belongs to it.  Its edits
follow each other, so the converted source is what the single steps write.
-/

namespace EffectShader

namespace Legacy

open Declaration Lexer

/-!
# Edits of single tokens
-/

/-- No edit starts at white space, comments and operators. -/
def isInert (t : Token) : Bool :=
  t.isTrivia || t.kind == .operator

def passed (previous : Option Token) (ts : List Token) : Option Token :=
  ts.foldl (fun p t => if t.isTrivia then p else some t) previous

theorem passed_solid {p : Option Token} {t : Token} (h : t.isTrivia = false) :
    passed p [t] = some t := by
  simp [passed, h]

theorem passed_trivia {p : Option Token} {xs : List Token}
    (h : forall x, x ∈ xs -> x.isTrivia = true) : passed p xs = p := by
  induction xs with
  | nil => rfl
  | cons x xs ih =>
      rcases List.forall_mem_cons.mp h with ⟨hx, hrest⟩
      rw [show passed p (x :: xs) = passed (passed p [x]) xs from rfl,
        show passed p [x] = p by simp [passed, hx], ih hrest]

section Edits

variable {names : Names} {p : Option Token} {t : Token} {ts : List Token}

theorem edits_cons (ht : isLayoutWord t = false) :
    edits names p (t :: ts) =
      (tokenEdit? names p t ts).toList ++ edits names (passed p [t]) ts := by
  rw [edits, if_neg (by unfold isLayoutWord at ht; simp [ht])]
  rfl

theorem edits_cons_of_bare (ht : isLayoutWord t = true) (hts : layoutTokens? ts = none) :
    edits names p (t :: ts) = edits names (some t) ts := by
  unfold isLayoutWord at ht
  rw [edits, if_pos ht]
  split
  · rfl
  · rename_i h
    rw [hts] at h
    cases h

theorem edits_cons_of_layout {layout rest : List Token} (ht : isLayoutWord t = true)
    (hts : layoutTokens? ts = some (layout, rest)) :
    edits names p (t :: ts) =
      (⟨t.offset, layout.getLast?.elim t.stop Token.stop,
        Edit.blank ((t :: layout).map Token.text).flatten⟩, false) ::
          edits names (significant (t :: layout)).getLast? rest := by
  unfold isLayoutWord at ht
  rw [edits, if_pos ht]
  split
  · rename_i h
    rw [hts] at h
    cases h
  · rename_i h
    rw [hts] at h
    cases h
    rfl

theorem tokenEdit?_of_isInert (ht : isInert t = true) : tokenEdit? names p t ts = none := by
  unfold isInert Token.isTrivia at ht
  unfold tokenEdit?
  cases hkind : t.kind <;> first | rfl | simp [hkind] at ht

theorem isLayoutWord_of_isInert (ht : isInert t = true) : isLayoutWord t = false := by
  unfold isInert Token.isTrivia at ht
  unfold isLayoutWord
  cases hkind : t.kind <;> first | rfl | simp [hkind] at ht

theorem isLayoutWord_of_kind (ht : t.kind ≠ .keyword) : isLayoutWord t = false := by
  unfold isLayoutWord
  rw [beq_false_of_ne ht]
  rfl

theorem kind_of_isLayoutWord (ht : isLayoutWord t = true) : t.kind = .keyword :=
  eq_of_beq (Bool.and_eq_true_iff.mp ht).1

theorem edits_inert {xs : List Token} (hxs : forall x, x ∈ xs -> isInert x = true) :
    edits names p (xs ++ ts) = edits names (passed p xs) ts := by
  induction xs generalizing p with
  | nil => rfl
  | cons x xs ih =>
      rcases List.forall_mem_cons.mp hxs with ⟨hx, hrest⟩
      rw [List.cons_append, edits_cons (isLayoutWord_of_isInert hx), tokenEdit?_of_isInert hx,
        Option.toList_none, List.nil_append, ih hrest]
      rfl

end Edits

theorem stop_of_getLast? {o : Nat} {ts : List Token} {t : Token} (h : Placed o ts)
    (ht : ts.getLast? = some t) : t.stop = o + (textOf ts).length := by
  rcases List.getLast?_eq_some_iff.mp ht with ⟨front, rfl⟩
  rw [h.offset.2]
  simp [Nat.add_assoc]

def Covers (o : Nat) (t : Token) (ts : List Token) (e : Edit) : Prop :=
  e.start = o ∧ exists covered rest, ts = covered ++ rest ∧
    (forall u, u ∈ covered -> isInert u = true) ∧ e.stop = o + (textOf (t :: covered)).length

theorem covers_of_getLast? {o : Nat} {t u : Token} {ts covered rest : List Token}
    (h : Placed o (t :: ts)) (hts : ts = covered ++ rest)
    (hinert : forall v, v ∈ covered -> isInert v = true) (hlast : (t :: covered).getLast? = some u)
    (text : Text) : Covers o t ts ⟨t.offset, u.stop, text⟩ := by
  have hstart : t.offset = o := h.1
  rw [hts, ← List.cons_append] at h
  exact ⟨hstart, covered, rest, hts, hinert, stop_of_getLast? (placed_append.mp h).1 hlast⟩

theorem covers_self {o : Nat} {t : Token} {ts : List Token} (h : Placed o (t :: ts))
    (text : Text) : Covers o t ts ⟨t.offset, t.stop, text⟩ :=
  covers_of_getLast? h (List.nil_append ts).symm (List.forall_mem_nil _) rfl text

def SpacesBlank (ts : List Token) : Prop :=
  forall t, t ∈ ts -> t.text = [Byte.space] -> t.kind = .whitespace

theorem pragmaEdit?_eq_some {t : Token} {e : Edit} (h : pragmaEdit? t = some e) :
    e = ⟨t.offset, t.stop, Edit.blank t.text⟩ := by
  unfold pragmaEdit? at h
  split at h
  · cases h
  · split at h
    · cases h
    · exact (Option.some.inj h).symm

theorem covers_of_identifierEdit? {names : Names} {t : Token} {ts : List Token} {e : Edit}
    (h : identifierEdit? names t ts = some e) {o : Nat} (hplaced : Placed o (t :: ts)) :
    Covers o t ts e := by
  unfold identifierEdit? at h
  split at h
  · cases h
    exact covers_self hplaced _
  · dsimp only at h
    split at h
    · rename_i hdot
      cases h
      have hop := (Bool.and_eq_true_iff.mp hdot).2
      have hkind : (Stream.peekSignificant ts).kind = .operator := kind_of_isOp hop
      have hne : (Stream.peekSignificant ts).kind ≠ .eof := by
        rw [hkind]
        decide
      rcases Stream.exists_of_peekSignificant hne with
        ⟨trivia, hsplit, _, htrivia⟩
      rw [List.append_cons] at hsplit
      refine covers_of_getLast? hplaced hsplit ?_ ?_ []
      · intro u hu
        unfold isInert
        rcases List.mem_append.mp hu with hu | hu
        · rw [htrivia u hu]
          rfl
        · rw [List.mem_singleton.mp hu, hkind]
          simp
      · rw [← List.cons_append, List.getLast?_concat]
    · cases h

theorem covers_of_tokenEdit? {names : Names} {p : Option Token} {t : Token} {ts : List Token}
    {e : Edit} {lod : Bool} (h : tokenEdit? names p t ts = some (e, lod)) {o : Nat}
    (hplaced : Placed o (t :: ts)) (hspaces : SpacesBlank ts) : Covers o t ts e := by
  unfold tokenEdit? at h
  split at h
  · -- a pragma
    rcases Option.map_eq_some_iff.mp h with ⟨e', he, heq⟩
    cases heq
    rw [pragmaEdit?_eq_some he]
    exact covers_self hplaced _
  · -- an interpolation qualifier
    split at h
    · dsimp only at h
      cases h
      by_cases hspace : ((Stream.peek ts).text == [Byte.space]) = true
      · rw [if_pos hspace]
        cases ts with
        | nil => cases hspace
        | cons next rest =>
            have hkind : next.kind = .whitespace :=
              hspaces next List.mem_cons_self (eq_of_beq hspace)
            have hinert : isInert next = true := by
              unfold isInert Token.isTrivia
              rw [hkind]
              rfl
            exact covers_of_getLast? hplaced (show next :: rest = [next] ++ rest from rfl)
              (by simpa using hinert) rfl []
      · rw [if_neg hspace]
        exact covers_self hplaced _
    · cases h
  · -- a sampling function
    rcases Option.map_eq_some_iff.mp h with ⟨r, _, heq⟩
    cases heq
    exact covers_self hplaced _
  · -- an identifier
    split at h
    · cases h
    · rcases Option.map_eq_some_iff.mp h with ⟨e', he, heq⟩
      cases heq
      exact covers_of_identifierEdit? he hplaced
  · cases h

/-!
# Layout qualifiers
-/

theorem splitGroup_append (opening closing : Text) (depth : Nat) (ts : List Token) :
    (splitGroup opening closing depth ts).1 ++ (splitGroup opening closing depth ts).2 = ts := by
  induction ts generalizing depth with
  | nil => rfl
  | cons t ts ih =>
      rw [splitGroup]
      split
      · exact congrArg (t :: ·) (ih _)
      · split
        · rfl
        · exact congrArg (t :: ·) (ih _)

theorem append_of_layoutTokens? {ts group rest : List Token}
    (h : layoutTokens? ts = some (group, rest)) : ts = group ++ rest := by
  unfold layoutTokens? at h
  split at h
  · cases h
  · rename_i inner hinner
    unfold Stream.acceptOp? at hinner
    split at hinner
    · rename_i hop
      cases hinner
      have hkind : (Stream.peekSignificant ts).kind = .operator := kind_of_isOp hop
      have hne : (Stream.peekSignificant ts).kind ≠ .eof := by
        rw [hkind]
        decide
      rcases Stream.exists_of_peekSignificant hne with
        ⟨trivia, hsplit, _, _⟩
      generalize Stream.tailSignificant ts = inner at hsplit h
      rw [List.append_cons] at hsplit
      have htake : ts.take (ts.length - inner.length) = trivia ++ [Stream.peekSignificant ts] := by
        conv => lhs; rw [hsplit]
        rw [List.length_append, Nat.add_sub_cancel, List.take_left]
      dsimp only at h
      cases h
      rw [List.append_assoc, List.append_assoc, List.takeWhile_append_dropWhile,
        splitGroup_append, htake, ← hsplit]
    · cases hinner

/-!
# Steps of the pass
-/

/-- One step: from the tokens behind a token with syntax the pass writes a text, and goes on. -/
inductive Step (names : Names) :
    Option Token -> List Token -> Text -> Option Token -> List Token -> Prop where
  | copy {p : Option Token} {t : Token} {ts : List Token} :
      isLayoutWord t = false -> tokenEdit? names p t ts = none ->
      Step names p (t :: ts) t.text (passed p [t]) ts
  | bare {p : Option Token} {t : Token} {ts : List Token} :
      isLayoutWord t = true -> layoutTokens? ts = none -> Step names p (t :: ts) t.text (some t) ts
  | layout {p : Option Token} {t : Token} {ts group rest : List Token} :
      isLayoutWord t = true -> layoutTokens? ts = some (group, rest) ->
      Step names p (t :: ts) (Edit.blank (textOf (t :: group)))
        (significant (t :: group)).getLast? rest
  | edit {p : Option Token} {t : Token} {covered rest : List Token} {e : Edit} {lod : Bool} :
      isLayoutWord t = false -> tokenEdit? names p t (covered ++ rest) = some (e, lod) ->
      (forall u, u ∈ covered -> isInert u = true) ->
      e.stop = t.offset + (textOf (t :: covered)).length ->
      Step names p (t :: (covered ++ rest)) e.text (passed p (t :: covered)) rest

theorem textOf_eq (ts : List Token) : textOf ts = (ts.map Token.text).flatten := by
  unfold textOf spell
  rw [List.map_map]
  rfl

theorem stop_of_layout {o : Nat} {t : Token} {group : List Token} (h : Placed o (t :: group)) :
    group.getLast?.elim t.stop Token.stop = o + (textOf (t :: group)).length := by
  cases hlast : group.getLast? with
  | none =>
      rw [List.getLast?_eq_none_iff.mp hlast] at h ⊢
      exact stop_of_getLast? h rfl
  | some u =>
      apply stop_of_getLast? h
      rw [List.getLast?_cons, hlast]
      rfl

/-- What a step can do: it uses up tokens, and either copies them or makes one edit of them. -/
theorem Step.inversion {names : Names} {p p' : Option Token} {ts ts' : List Token} {w : Text}
    (h : Step names p ts w p' ts') {o : Nat} (hplaced : Placed o ts) (hspaces : SpacesBlank ts) :
    exists used, used ≠ [] ∧ ts = used ++ ts' ∧
      ((edits names p ts = edits names p' ts' ∧ w = textOf used) ∨
        exists e lod, edits names p ts = (e, lod) :: edits names p' ts' ∧ e.start = o ∧
          e.stop = o + (textOf used).length ∧ e.text = w) := by
  cases h with
  | copy ht hnone =>
      refine ⟨[_], List.cons_ne_nil _ _, rfl, Or.inl ⟨?_, (List.append_nil _).symm⟩⟩
      rw [edits_cons ht, hnone]
      rfl
  | bare ht hnone =>
      exact ⟨[_], List.cons_ne_nil _ _, rfl,
        Or.inl ⟨edits_cons_of_bare ht hnone, (List.append_nil _).symm⟩⟩
  | layout ht hlayout =>
      have hsplit := append_of_layoutTokens? hlayout
      subst hsplit
      rw [← List.cons_append] at hplaced
      refine ⟨_ :: _, List.cons_ne_nil _ _, rfl, Or.inr ⟨_, _, edits_cons_of_layout ht hlayout,
        hplaced.1, ?_, ?_⟩⟩
      · exact stop_of_layout (placed_append.mp hplaced).1
      · exact congrArg Edit.blank (textOf_eq _).symm
  | edit ht hedit hinert hstop =>
      rename_i t covered e lod
      rcases covers_of_tokenEdit? hedit hplaced
        (fun u hu => hspaces u (List.mem_cons_of_mem t hu)) with ⟨hstart, _⟩
      rw [hplaced.1] at hstop
      refine ⟨t :: covered, List.cons_ne_nil _ _, rfl, Or.inr ⟨e, lod, ?_, hstart, hstop, rfl⟩⟩
      rw [edits_cons ht, hedit, edits_inert hinert]
      rfl

theorem exists_step (names : Names) (p : Option Token) {t : Token} {ts : List Token} {o : Nat}
    (hplaced : Placed o (t :: ts)) (hspaces : SpacesBlank ts) :
    exists w p' ts', Step names p (t :: ts) w p' ts' := by
  cases ht : isLayoutWord t with
  | true =>
      cases hlayout : layoutTokens? ts with
      | none => exact ⟨_, _, _, Step.bare ht hlayout⟩
      | some found => exact ⟨_, _, _, Step.layout ht hlayout⟩
  | false =>
      cases hedit : tokenEdit? names p t ts with
      | none => exact ⟨_, _, _, Step.copy ht hedit⟩
      | some found =>
          rcases found with ⟨e, lod⟩
          rcases covers_of_tokenEdit? hedit hplaced hspaces with
            ⟨_, covered, rest, rfl, hinert, hstop⟩
          rw [← hplaced.1] at hstop
          exact ⟨_, _, _, Step.edit ht hedit hinert hstop⟩

/-!
# Runs of the pass
-/

/-- Several steps, and what they write. -/
inductive Writes (names : Names) :
    Option Token -> List Token -> Text -> Option Token -> List Token -> Prop where
  | nil (p : Option Token) (ts : List Token) : Writes names p ts [] p ts
  | cons {p p' p'' : Option Token} {ts ts' ts'' : List Token} {w v : Text} :
      Step names p ts w p' ts' -> Writes names p' ts' v p'' ts'' ->
      Writes names p ts (w ++ v) p'' ts''

theorem Writes.append {names : Names} {p p' p'' : Option Token} {ts ts' ts'' : List Token}
    {w v : Text} (h : Writes names p ts w p' ts') (h' : Writes names p' ts' v p'' ts'') :
    Writes names p ts (w ++ v) p'' ts'' := by
  induction h with
  | nil => exact h'
  | cons hstep _ ih =>
      rw [List.append_assoc]
      exact Writes.cons hstep (ih h')

theorem SpacesBlank.of_append {us ts : List Token} (h : SpacesBlank (us ++ ts)) : SpacesBlank ts :=
  fun t ht => h t (List.mem_append_right us ht)

theorem exists_writes (names : Names) (p : Option Token) {ts : List Token} {o : Nat}
    (hplaced : Placed o ts) (hspaces : SpacesBlank ts) :
    (exists w p', Writes names p ts w p' []) ∧
      Edit.Ordered o ((edits names p ts).map Prod.fst) := by
  induction hn : ts.length using Nat.strong_induction_on generalizing p ts o with
  | _ n ih =>
      subst hn
      cases ts with
      | nil =>
          rw [edits]
          exact ⟨⟨_, _, Writes.nil p []⟩, trivial⟩
      | cons t ts =>
          rcases exists_step names p hplaced
            (fun u hu => hspaces u (List.mem_cons_of_mem t hu)) with ⟨w, p', ts', hstep⟩
          rcases hstep.inversion hplaced hspaces with ⟨used, hne, hsplit, hkind⟩
          rw [hsplit] at hplaced hspaces
          have hlen : ts'.length < (t :: ts).length := by
            have hpos : 0 < used.length := List.length_pos_iff.mpr hne
            rw [hsplit, List.length_append]
            omega
          rcases ih ts'.length hlen p' (placed_append.mp hplaced).2 hspaces.of_append rfl with
            ⟨⟨v, p'', hwrites⟩, hordered⟩
          refine ⟨⟨_, _, Writes.cons hstep hwrites⟩, ?_⟩
          rcases hkind with ⟨heq, _⟩ | ⟨e, lod, heq, hstart, hstop, _⟩
          · rw [heq]
            exact hordered.mono (Nat.le_add_right _ _)
          · rw [heq, List.map_cons]
            refine ⟨Nat.le_of_eq hstart.symm, ?_, ?_⟩
            · rw [hstart, hstop]
              exact Nat.le_add_right _ _
            · rw [hstop]
              exact hordered

theorem Writes.applyFrom_eq {names : Names} {p p' : Option Token} {ts ts' : List Token} {w : Text}
    (h : Writes names p ts w p' ts') {o : Nat} (hplaced : Placed o ts) (hspaces : SpacesBlank ts) :
    exists o', Placed o' ts' ∧ SpacesBlank ts' ∧
      Edit.applyFrom o (textOf ts) ((edits names p ts).map Prod.fst) =
        w ++ Edit.applyFrom o' (textOf ts') ((edits names p' ts').map Prod.fst) := by
  induction h generalizing o with
  | nil => exact ⟨o, hplaced, hspaces, rfl⟩
  | @cons p p' p'' ts ts' ts'' w v hstep _ ih =>
      rcases hstep.inversion hplaced hspaces with ⟨used, _, rfl, hkind⟩
      have hplaced' := (placed_append.mp hplaced).2
      rcases ih hplaced' hspaces.of_append with ⟨o', ho', hspaces', htext⟩
      refine ⟨o', ho', hspaces', ?_⟩
      rw [List.append_assoc, ← htext, textOf_append]
      rcases hkind with ⟨heq, rfl⟩ | ⟨e, lod, heq, hstart, hstop, rfl⟩
      · rw [heq]
        exact Edit.applyFrom_append (exists_writes names p' hplaced' hspaces.of_append).2 _
      · rw [heq, List.map_cons]
        exact Edit.applyFrom_cons hstart hstop _ _

/-!
# Converted statements
-/

theorem spacesBlank_of_tokenize {code : Text} {ts : List Token} (h : tokenize code = .ok ts) :
    SpacesBlank ts := by
  rcases tokenize_eq_ok_iff.mp h with ⟨ws, hws, rfl⟩
  intro t ht hspace
  have hpiece : t.piece ∈ ws ++ [endPiece] := by
    rw [← map_piece_place Position.start ws]
    exact List.mem_map_of_mem ht
  rcases List.mem_append.mp hpiece with hmem | hmem
  · rcases hws.exists_extent? hmem with ⟨f, b, v, r, htext, hextent⟩
    rw [Token.text_piece, hspace] at htext
    rcases List.cons.inj htext with ⟨rfl, rfl⟩
    have hform : form f Byte.space ([] ++ r).head? = .space := rfl
    rw [extent?_eq, hform] at hextent
    exact (Prod.mk.inj (Option.some.inj hextent)).1.symm
  · rw [← Token.text_piece, List.mem_singleton.mp hmem] at hspace
    cases hspace

theorem convertStatements_eq (code : Text) (names : Names) :
    convertStatements code names =
      match tokenize code with
      | .error e => .error (.plain e.message none)
      | .ok ts =>
          .ok (Edit.applyFrom 0 code ((edits names none ts).map Prod.fst),
            (edits names none ts).any Prod.snd) := by
  unfold convertStatements
  cases htokens : tokenize code with
  | error e => rfl
  | ok ts =>
      have hordered := (exists_writes names none (placed_of_tokenize htokens)
        (spacesBlank_of_tokenize htokens)).2
      dsimp only
      rw [← Edit.apply_of_ordered hordered]

theorem Writes.convertStatements {names : Names} {p : Option Token} {code w : Text}
    {ts ts' : List Token} (h : Writes names none ts w p ts') (hts : tokenize code = .ok ts) :
    exists v q lod, Writes names p ts' v q [] ∧
      convertStatements code names = .ok (w ++ v, lod) := by
  rcases h.applyFrom_eq (placed_of_tokenize hts) (spacesBlank_of_tokenize hts) with
    ⟨o, hplaced, hspaces, htext⟩
  rcases (exists_writes names p hplaced hspaces).1 with ⟨v, q, hv⟩
  rcases hv.applyFrom_eq hplaced hspaces with ⟨_, _, _, hend⟩
  refine ⟨v, q, (edits names none ts).any Prod.snd, hv, ?_⟩
  rw [convertStatements_eq, hts]
  dsimp only
  rw [textOf_of_tokenize hts, hend, edits] at htext
  rw [htext]
  simp [Edit.applyFrom]

/-!
# Accesses of members
-/

def isMemberWord (t : Token) : Bool :=
  t.isWord && !isLayoutWord t && !isInterpolation t.text && (sampling? t.text).isNone

/-- The tokens start with the access of a member through the instance name of a block; `y` stands
before the member. -/
structure Accesses (names : Names) (p : Option Token) (ts y : List Token) (m : Token)
    (rest : List Token) : Prop where
  notMember : (p.any fun t => t.isOp ".") = false
  tokens : exists i x dot, ts = i :: ((x ++ [dot]) ++ (y ++ m :: rest)) ∧ i.kind = .ident ∧
    names.outputs.get? i.text = none ∧ names.instances.contains i.text = true ∧
    (forall t, t ∈ x -> t.isTrivia = true) ∧ dot.isOp "." = true
  trivia : forall t, t ∈ y -> t.isTrivia = true
  isMember : isMemberWord m = true

theorem writes_trivia (names : Names) (p : Option Token) {y : List Token}
    (hy : forall t, t ∈ y -> t.isTrivia = true) (ts : List Token) :
    Writes names p (y ++ ts) (textOf y) p ts := by
  induction y with
  | nil => exact Writes.nil p ts
  | cons t y ih =>
      rcases List.forall_mem_cons.mp hy with ⟨ht, hrest⟩
      have hinert : isInert t = true := by
        unfold isInert
        rw [ht]
        rfl
      have hstep : Step names p (t :: (y ++ ts)) t.text (passed p [t]) (y ++ ts) :=
        Step.copy (isLayoutWord_of_isInert hinert) (tokenEdit?_of_isInert hinert)
      rw [passed_trivia (List.forall_mem_singleton.mpr ht)] at hstep
      exact Writes.cons hstep (ih hrest)

theorem step_member (names : Names) {dot m : Token} (hdot : dot.isOp "." = true)
    (hm : isMemberWord m = true) (ts : List Token) :
    Step names (some dot) (m :: ts) m.text (some m) ts := by
  simp only [isMemberWord, Bool.and_eq_true, Bool.not_eq_true', Option.isNone_iff_eq_none] at hm
  rcases hm with ⟨⟨⟨hword, hlayout⟩, hinterpolation⟩, hsampling⟩
  have hnone : tokenEdit? names (some dot) m ts = none := by
    unfold tokenEdit?
    cases hkind : m.kind with
    | ident => simp [hdot]
    | keyword => simp [hinterpolation]
    | builtin => simp [hsampling]
    | _ => simp [Token.isWord, hkind] at hword
  have hsolid : m.isTrivia = false := by
    unfold Token.isWord at hword
    unfold Token.isTrivia
    cases hkind : m.kind <;> first | rfl | simp [hkind] at hword
  have hstep := Step.copy hlayout hnone
  rw [passed_solid hsolid] at hstep
  exact hstep

theorem isInert_dotted {x : List Token} {dot : Token} (hx : forall t, t ∈ x -> t.isTrivia = true)
    (hdot : dot.isOp "." = true) : forall t, t ∈ x ++ [dot] -> isInert t = true := by
  intro t ht
  unfold isInert
  rcases List.mem_append.mp ht with ht | ht
  · rw [hx t ht]
    rfl
  · rw [List.mem_singleton.mp ht, kind_of_isOp hdot]
    simp

theorem passed_dotted {dot : Token} (hdot : dot.isOp "." = true) (p : Option Token)
    (x : List Token) : passed p (x ++ [dot]) = some dot := by
  unfold passed
  rw [List.foldl_append]
  simp [isTrivia_of_isOp hdot]

theorem step_access {names : Names} {p : Option Token} {i dot : Token} {x ts : List Token}
    (hp : (p.any fun t => t.isOp ".") = false) (hkind : i.kind = .ident)
    (houtput : names.outputs.get? i.text = none)
    (hinstance : names.instances.contains i.text = true)
    (hx : forall t, t ∈ x -> t.isTrivia = true) (hdot : dot.isOp "." = true) {o : Nat}
    (hplaced : Placed o (i :: ((x ++ [dot]) ++ ts))) :
    Step names p (i :: ((x ++ [dot]) ++ ts)) [] (some dot) ts := by
  have hpeek : Stream.peekSignificant ((x ++ [dot]) ++ ts) = dot := by
    rw [List.append_assoc]
    exact (Stream.peekSignificant_append _ hx (isTrivia_of_isOp hdot)
      (by rw [kind_of_isOp hdot]; decide)).1
  have hedit : tokenEdit? names p i ((x ++ [dot]) ++ ts) =
      some (⟨i.offset, dot.stop, []⟩, false) := by
    unfold tokenEdit? identifierEdit?
    rw [hkind]
    dsimp only
    rw [hp, houtput]
    dsimp only
    rw [hpeek, hinstance, hdot]
    rfl
  have hlayout : isLayoutWord i = false := isLayoutWord_of_kind (by rw [hkind]; decide)
  have hstop : dot.stop = i.offset + (textOf (i :: (x ++ [dot]))).length := by
    rw [← List.cons_append, ← hplaced.1] at hplaced
    apply stop_of_getLast? (placed_append.mp hplaced).1
    rw [← List.cons_append, List.getLast?_concat]
  have hpassed : passed p (i :: (x ++ [dot])) = some dot := passed_dotted hdot p (i :: x)
  have hstep := Step.edit hlayout hedit (isInert_dotted hx hdot) hstop
  rw [hpassed] at hstep
  exact hstep

theorem Accesses.writes {names : Names} {p : Option Token} {ts y rest : List Token} {m : Token}
    (h : Accesses names p ts y m rest) {o : Nat} (hplaced : Placed o ts) :
    Writes names p ts (textOf y ++ m.text) (some m) rest := by
  rcases h with ⟨hp, ⟨i, x, dot, rfl, hkind, houtput, hinstance, hx, hdot⟩, hy, hm⟩
  have hstep := step_access hp hkind houtput hinstance hx hdot hplaced
  have hmember : Writes names (some dot) (m :: rest) m.text (some m) rest := by
    have hone := Writes.cons (step_member names hdot hm rest) (Writes.nil (some m) rest)
    rw [List.append_nil] at hone
    exact hone
  have hrun := Writes.cons hstep ((writes_trivia names (some dot) hy _).append hmember)
  exact hrun

/-- An identifier that is neither an output nor an instance name is copied. -/
theorem step_name {names : Names} (p : Option Token) {t : Token} (ht : t.kind = .ident)
    (houtput : names.outputs.get? t.text = none)
    (hinstance : names.instances.contains t.text = false)
    (ts : List Token) : Step names p (t :: ts) t.text (some t) ts := by
  have hnone : tokenEdit? names p t ts = none := by
    unfold tokenEdit? identifierEdit?
    rw [ht]
    dsimp only
    rw [houtput]
    dsimp only
    rw [hinstance]
    split <;> rfl
  have hstep := Step.copy (isLayoutWord_of_kind (by rw [ht]; decide)) hnone
  rw [passed_solid (by simp [Token.isTrivia, ht])] at hstep
  exact hstep

/-!
# Uniforms of the result
-/

/-- The stages of a conversion: the interface of the source is converted first, then the
statements of what that leaves, and lines that enable extensions are put in front. -/
structure Conversion (code : Text) (info : Option ShaderInfo) (stage : Stages) (out : Text) where
  ts : List Token
  ds : List Declaration
  text : Text
  names : Names
  outputs : List (Text × Int)
  ts' : List Token
  ds' : List Declaration
  body : Text
  lod : Bool
  extensions : List Text
  tokens : tokenize code = .ok ts
  declares : ofTokens ts = .ok ds
  interface : convertInterface code info stage = .ok (text, names, outputs)
  tokens' : tokenize text = .ok ts'
  declares' : ofTokens ts' = .ok ds'
  statements : convertStatements text names = .ok (body, lod)
  result : out = prelude body extensions ++ body

theorem mem_neededExtensions (outputs : List (Text × Int)) (lod extraBuffers : Bool) :
    forall e, e ∈ (if 2 ≤ outputs.length then [drawBuffers] ++ if lod then [textureLod] else []
      else (if lod then [textureLod] else []) ++ if extraBuffers then [drawBuffers] else []) ->
        e = drawBuffers ∨ e = textureLod := by
  intro e he
  cases lod <;> cases extraBuffers <;> split at he <;> simp at he <;> tauto

theorem exists_of_toLegacy {code out : Text} {info : Option ShaderInfo} {stage : Stages}
    (h : toLegacy code info stage = .ok out) :
    exists text names outputs body lod extensions,
      convertInterface code info stage = .ok (text, names, outputs) ∧
        convertStatements text names = .ok (body, lod) ∧ out = prelude body extensions ++ body ∧
          forall e, e ∈ extensions -> e = drawBuffers ∨ e = textureLod := by
  unfold toLegacy at h
  cases hinterface : convertInterface code info stage with
  | error e =>
      rw [hinterface] at h
      cases h
  | ok converted =>
      rcases converted with ⟨text, names, outputs⟩
      rw [hinterface] at h
      dsimp only [bind, Except.bind] at h
      cases hstatements : convertStatements text names with
      | error e =>
          rw [hstatements] at h
          cases h
      | ok written =>
          rcases written with ⟨body, lod⟩
          rw [hstatements] at h
          dsimp only at h
          split at h
          · cases htokens : tokenize body with
            | error e =>
                rw [htokens] at h
                cases h
            | ok ts =>
                rw [htokens] at h
                cases h
                exact ⟨text, names, outputs, body, lod, _, rfl, hstatements, rfl,
                  mem_neededExtensions outputs lod _⟩
          · cases h
            exact ⟨text, names, outputs, body, lod, _, rfl, hstatements, rfl,
              mem_neededExtensions outputs lod _⟩

theorem exists_conversion {code out : Text} {info : Option ShaderInfo} {stage : Stages}
    (h : toLegacy code info stage = .ok out) (hclean : CleanInterface code) :
    exists c : Conversion code info stage out,
      c.ds'.map Declaration.unplaced =
        (c.ds.flatMap (converted c.ts stage)).map Declaration.unplaced := by
  rcases exists_of_toLegacy h with
    ⟨text, names, outputs, body, lod, extensions, hinterface, hstatements, hout, _⟩
  have hconverted := hinterface
  rw [convertInterface_eq] at hconverted
  split at hconverted
  · cases hconverted
  · rename_i ts htokens
    split at hconverted
    · cases hconverted
    · rename_i ds hds
      cases hconverted
      rcases exists_ofText?_convertFrom htokens hds hclean stage with ⟨ds', hread, hsame⟩
      rcases Declaration.ofText?_eq_some_iff.mp hread with ⟨ts', htokens', hds'⟩
      exact ⟨⟨ts, ds, _, _, _, ts', ds', body, lod, extensions, htokens, hds, hinterface, htokens',
        hds', hstatements, hout⟩, hsame⟩

theorem Conversion.body_of_writes {code out : Text} {info : Option ShaderInfo} {stage : Stages}
    (c : Conversion code info stage out) {p : Option Token} {w : Text} {ts : List Token}
    (h : Writes c.names none c.ts' w p ts) :
    exists v q, c.body = w ++ v ∧ Writes c.names p ts v q [] := by
  rcases h.convertStatements c.tokens' with ⟨v, q, _, hrest, hbody⟩
  rw [c.statements] at hbody
  exact ⟨v, q, congrArg Prod.fst (Except.ok.inj hbody), hrest⟩

/-- No plain uniform and no member that is mentioned outside its own declaration shares its name
with another one. -/
def DistinctNames (ts : List Token) (ds : List Declaration) : Prop :=
  (forall d, d ∈ ds -> (uniformNames ts d).Nodup) ∧
    ds.Pairwise fun d d' => (uniformNames ts d).Disjoint (uniformNames ts d')

instance (ts : List Token) (ds : List Declaration) : Decidable (DistinctNames ts ds) :=
  decidable_of_iff (ds.flatMap (uniformNames ts)).Nodup List.nodup_flatMap

/-- Members of blocks and plain uniforms stay apart exactly if their names differ: the interface
that is left declares each of them under its own name, the statements keep every name that is
none of an output or instance, and an access becomes the name of its member. -/
theorem uniforms_distinct_iff {code out : Text} {info : Option ShaderInfo} {stage : Stages}
    (h : toLegacy code info stage = .ok out) (hclean : CleanInterface code) :
    exists c : Conversion code info stage out,
      plainUniforms c.ds' = c.ds.flatMap (uniformNames c.ts) ∧
      ((plainUniforms c.ds').Nodup ↔ DistinctNames c.ts c.ds) ∧
      (forall w p t ts, Writes c.names none c.ts' w p (t :: ts) -> t.kind = .ident ->
        c.names.outputs.get? t.text = none -> c.names.instances.contains t.text = false ->
        exists v q, c.body = w ++ t.text ++ v ∧ Writes c.names (some t) ts v q []) ∧
      forall w p ts y m rest, Writes c.names none c.ts' w p ts -> Accesses c.names p ts y m rest ->
        exists v q, c.body = w ++ (textOf y ++ m.text) ++ v ∧
          Writes c.names (some m) rest v q [] := by
  rcases exists_conversion h hclean with ⟨c, hsame⟩
  have hnames := plainUniforms_convertFrom hsame
  refine ⟨c, hnames, ?_, ?_, ?_⟩
  · rw [hnames]
    exact List.nodup_flatMap
  · intro w p t ts hwrites ht houtput hinstance
    apply c.body_of_writes
    have hone := Writes.cons (step_name p ht houtput hinstance ts) (Writes.nil (some t) ts)
    rw [List.append_nil] at hone
    exact hwrites.append hone
  · intro w p ts y m rest hwrites haccess
    rcases hwrites.applyFrom_eq (placed_of_tokenize c.tokens')
      (spacesBlank_of_tokenize c.tokens') with ⟨_, hplaced, _, _⟩
    exact c.body_of_writes (hwrites.append (haccess.writes hplaced))

theorem toLegacy_blocks :
    (toLegacy
    "uniform A { vec4 c; } a;\nuniform B { vec4 d; } b;\nvoid main() { gl_Position = a.c + b.d; }\n"
        none Stages.vertexOnly =
        .ok "uniform vec4 c;\nuniform vec4 d;\nvoid main() { gl_Position = c + d; }\n" ∧
      CleanInterface
  "uniform A { vec4 c; } a;\nuniform B { vec4 d; } b;\nvoid main() { gl_Position = a.c + b.d; }\n" ∧
      ((tokenize
    "uniform A { vec4 c; } a;\nuniform B { vec4 d; } b;\nvoid main() { gl_Position = a.c + b.d; }\n"
        ).toOption.bind fun ts =>
          (ofTokens ts).toOption.map fun ds => ds.flatMap (uniformNames ts)) =
        some (["c", "d"] : List Text)) ∧
    toLegacy
    "uniform A { vec4 c; } a;\nuniform B { vec4 c; } b;\nvoid main() { gl_Position = a.c + b.c; }\n"
      none Stages.vertexOnly =
      .ok "uniform vec4 c;\nuniform vec4 c;\nvoid main() { gl_Position = c + c; }\n" ∧
    (Declaration.ofText?
      "uniform vec4 c;\nuniform vec4 c;\nvoid main() { gl_Position = c + c; }\n").map
      plainUniforms =
      some (["c", "c"] : List Text) := by
  unfold toLegacy
  simp only [convertInterface_eq, convertStatements_eq]
  decide +kernel

/-- The members of two blocks with different names become two uniforms. -/
theorem uniforms_distinct_iff_blocks :
    exists code out, exists c : Conversion code none Stages.vertexOnly out,
      code =
  "uniform A { vec4 c; } a;\nuniform B { vec4 d; } b;\nvoid main() { gl_Position = a.c + b.d; }\n" ∧
      out = "uniform vec4 c;\nuniform vec4 d;\nvoid main() { gl_Position = c + d; }\n" ∧
      plainUniforms c.ds' = ["c", "d"] ∧ (plainUniforms c.ds').Nodup ∧ DistinctNames c.ts c.ds := by
  rcases toLegacy_blocks.1 with ⟨hrun, hclean, hsource⟩
  rcases uniforms_distinct_iff hrun hclean with ⟨c, hnames, hdistinct, _, _⟩
  rw [c.tokens, Except.toOption, Option.bind_some, c.declares, Except.toOption,
    Option.map_some] at hsource
  have hfound : plainUniforms c.ds' = ["c", "d"] := hnames.trans (Option.some.inj hsource)
  have hnodup : (plainUniforms c.ds').Nodup := by
    rw [hfound]
    decide
  exact ⟨_, _, c, rfl, rfl, hfound, hnodup, hdistinct.mp hnodup⟩

/-- Members of one name in two blocks become one uniform, which the result declares twice, and both
accesses become its name. -/
theorem uniforms_merged :
    exists out ds,
      toLegacy
    "uniform A { vec4 c; } a;\nuniform B { vec4 c; } b;\nvoid main() { gl_Position = a.c + b.c; }\n"
        none Stages.vertexOnly = .ok out ∧
      out = "uniform vec4 c;\nuniform vec4 c;\nvoid main() { gl_Position = c + c; }\n" ∧
      Declaration.ofText? out = some ds ∧ ¬ (plainUniforms ds).Nodup := by
  rcases toLegacy_blocks.2 with ⟨hrun, hread⟩
  rcases Option.map_eq_some_iff.mp hread with ⟨ds, hds, hnames⟩
  refine ⟨_, ds, hrun, rfl, hds, ?_⟩
  rw [hnames]
  decide

end Legacy

end EffectShader
