import EffectShader.Proofs.Legacy.LineCount

/-!
# Pieces that the pass over statements leaves

A step of the pass over statements writes pieces: the token itself, white space in its
place, the name of a function or of a built-in output, or nothing.  A run over all
tokens of a source leaves the pieces of its steps, and the text that it writes is the
text of these pieces.
-/

namespace EffectShader

namespace Legacy

open Declaration Lexer Subpass

/-!
# Names that are written
-/

/-- The pieces of the built-in output that stands for a declared one. -/
inductive Target : Text -> List Piece -> Prop where
  | color : Target "gl_FragColor" [word "gl_FragColor"]
  | data (n : Nat) : Target ("gl_FragData[" ++ Text.ofInt n ++ "]")
      [word "gl_FragData", ⟨.operator, "["⟩, ⟨.integer, Text.ofNat n⟩, ⟨.operator, "]"⟩]

/-- Declared outputs are replaced by built-in ones. -/
def Targets (names : Names) : Prop :=
  forall name target, names.outputs.get? name = some target -> exists us, Target target us

theorem Target.spell_eq {target : Text} {us : List Piece} (h : Target target us) :
    spell us = target := by
  cases h with
  | color => rfl
  | data n =>
      have hopen : Text.ofString "gl_FragData[" =
          Text.ofString "gl_FragData" ++ Text.ofString "[" := rfl
      rw [hopen]
      simp [word]
      rfl

def samplingNames : List Text :=
  ["texture2D", "textureCube", "texture2DProj", "texture2DLod", "textureCubeLod",
    "texture2DProjLod", "texture2DGradEXT", "textureCubeGradEXT", "texture2DLodEXT",
    "textureCubeLodEXT", "texture2DProjLodEXT"]

theorem samplingNames_spec :
    samplingNames.all (fun name => name.head?.all endsOperator && isIdentifier name &&
      (classify name != .ident || name == ("texture2DProjLodEXT" : Text))) = true := by
  decide +kernel

theorem mem_samplingNames_of_sampling? {text : Text} {s : Sampling} (hs : sampling? text = some s)
    {name : Text} (h : name = s.flat ∨ name = s.cube) : name ∈ samplingNames ∧
      (s.levelOfDetail = true -> Text.endsWith name "EXT" = false ->
        name ++ Text.ofString "EXT" ∈ samplingNames) := by
  unfold sampling? Table.get? at hs
  rcases Option.map_eq_some_iff.mp hs with ⟨entry, hfind, rfl⟩
  have hmem := List.mem_of_find?_eq_some hfind
  simp only [List.mem_cons, List.not_mem_nil, or_false] at hmem
  rcases hmem with rfl | rfl | rfl | rfl | rfl
  all_goals
    rcases h with rfl | rfl
    all_goals exact ⟨by decide, by decide⟩

theorem mem_samplingNames {names : Names} {text : Text} {s : Sampling} {ts : List Token}
    {r : Text × Bool} (hs : sampling? text = some s) (h : samplingName? names s ts = some r) :
    r.1 ∈ samplingNames := by
  unfold samplingName? at h
  rcases Option.map_eq_some_iff.mp h with ⟨inner, _, rfl⟩
  dsimp only
  generalize Option.any _ (names.types.get? (Stream.peekSignificant inner).text) = isCube
  have hchoice : (if isCube = true then s.cube else s.flat) = s.flat ∨
      (if isCube = true then s.cube else s.flat) = s.cube := by
    cases isCube
    · exact Or.inl rfl
    · exact Or.inr rfl
  generalize (if isCube = true then s.cube else s.flat) = name at hchoice ⊢
  rcases mem_samplingNames_of_sampling? hs hchoice with ⟨hbare, hlod⟩
  split
  · rename_i hneeded
    split
    · exact hbare
    · rename_i hend
      exact hlod (Bool.and_eq_true_iff.mp hneeded).1 (by simpa using hend)
  · exact hbare

/-!
# Steps and runs
-/

/-- The token stands behind the operator that selects a member. -/
def isDotted (previous : Option Token) : Bool :=
  previous.any fun p => p.isOp "."

/-- What is removed with an interpolation qualifier in front of some tokens: a single space, if one
follows. -/
def SpaceBehind (blanks ts : List Token) : Prop :=
  (blanks = [] ∧ (Stream.peek ts).text ≠ [Byte.space]) ∨
    exists b, blanks = [b] ∧ b.kind = .whitespace ∧ b.text = [Byte.space]

theorem SpaceBehind.blank {blanks ts : List Token} (h : SpaceBehind blanks ts) :
    forall u, u ∈ blanks -> u.kind = .whitespace ∧ u.text.newlines = 0 := by
  rcases h with ⟨rfl, _⟩ | ⟨b, rfl, hblank, hspace⟩
  · exact List.forall_mem_nil _
  · intro u hu
    rw [List.mem_singleton.mp hu, hblank, hspace]
    exact ⟨rfl, rfl⟩

theorem SpaceBehind.isTrivia {blanks ts : List Token} (h : SpaceBehind blanks ts) :
    forall u, u ∈ blanks -> u.isTrivia = true := by
  intro u hu
  simp [Token.isTrivia, (h.blank u hu).1]

theorem isInert_of_isTrivia {t : Token} (ht : t.isTrivia = true) : isInert t = true := by
  unfold isInert
  rw [ht]
  rfl

/-- One step of the pass over the statements, and the pieces that it leaves. -/
inductive Leaf (names : Names) :
    Option Token -> List Token -> List Piece -> Option Token -> List Token -> Prop where
  | finish {p : Option Token} {t : Token} : t.kind = .eof -> t.text = [] ->
      Leaf names p [t] [] (some t) []
  | copy {p : Option Token} {t : Token} {ts : List Token} : t.kind ≠ .eof ->
      isLayoutWord t = false -> tokenEdit? names p t ts = none ->
      Leaf names p (t :: ts) [t.piece] (passed p [t]) ts
  | bare {p : Option Token} {t : Token} {ts : List Token} : isLayoutWord t = true ->
      layoutTokens? ts = none -> Leaf names p (t :: ts) [t.piece] (some t) ts
  | layout {p : Option Token} {t : Token} {ts group rest : List Token} : isLayoutWord t = true ->
      layoutTokens? ts = some (group, rest) ->
      Leaf names p (t :: ts) (padding (Edit.blank (textOf (t :: group))))
        (significant (t :: group)).getLast? rest
  | interpolation {p : Option Token} {t : Token} {blanks ts : List Token} : t.kind = .keyword ->
      isLayoutWord t = false -> isInterpolation t.text = true -> SpaceBehind blanks ts ->
      Leaf names p (t :: (blanks ++ ts)) [] (some t) ts
  | pragma {p : Option Token} {t : Token} {ts : List Token} : t.kind = .directive ->
      pragmaEdit? t ≠ none -> Leaf names p (t :: ts) (padding (Edit.blank t.text)) (some t) ts
  | sampling {p : Option Token} {t : Token} {ts : List Token} {s : Sampling} {name : Text}
      {lod : Bool} : t.kind = .builtin -> sampling? t.text = some s ->
      samplingName? names s ts = some (name, lod) -> Leaf names p (t :: ts) [word name] (some t) ts
  | output {p : Option Token} {t : Token} {ts : List Token} {target : Text} {us : List Piece} :
      t.kind = .ident -> isDotted p = false -> names.outputs.get? t.text = some target ->
      Target target us -> Leaf names p (t :: ts) us (some t) ts
  | access {p : Option Token} {i dot : Token} {x ts : List Token} : i.kind = .ident ->
      isDotted p = false -> names.outputs.get? i.text = none ->
      names.instances.contains i.text = true -> (forall t, t ∈ x -> t.isTrivia = true) ->
      dot.isOp "." = true -> Leaf names p (i :: ((x ++ [dot]) ++ ts)) [] (some dot) ts

inductive Leaves (names : Names) :
    Option Token -> List Token -> List Piece -> Option Token -> List Token -> Prop where
  | nil (p : Option Token) (ts : List Token) : Leaves names p ts [] p ts
  | cons {p p' p'' : Option Token} {ts ts' ts'' : List Token} {us vs : List Piece} :
      Leaf names p ts us p' ts' -> Leaves names p' ts' vs p'' ts'' ->
      Leaves names p ts (us ++ vs) p'' ts''

theorem Leaves.of_nil {names : Names} {p q : Option Token} {ts : List Token} {vs : List Piece}
    (h : Leaves names p [] vs q ts) : vs = [] := by
  generalize hus : ([] : List Token) = us at h
  cases h with
  | nil => rfl
  | cons hleaf => cases hleaf <;> cases hus

/-!
# The text of the pieces
-/

theorem step_single {names : Names} {p : Option Token} {t : Token} {ts : List Token} {e : Edit}
    {lod : Bool} (hsolid : t.isTrivia = false) (hlayout : isLayoutWord t = false)
    (hedit : tokenEdit? names p t ts = some (e, lod)) (hstop : e.stop = t.stop) :
    Step names p (t :: ts) e.text (some t) ts := by
  have hstep : Step names p (t :: ([] ++ ts)) e.text (passed p [t]) ts :=
    Step.edit hlayout hedit (List.forall_mem_nil _)
      (by rw [hstop]; simp [Token.stop, Token.offset])
  rw [passed_solid hsolid] at hstep
  exact hstep

theorem step_interpolation {names : Names} {p : Option Token} {t : Token} {blanks ts : List Token}
    (hkind : t.kind = .keyword) (hlayout : isLayoutWord t = false)
    (hword : isInterpolation t.text = true) (hblanks : SpaceBehind blanks ts) {o : Nat}
    (hplaced : Placed o (t :: (blanks ++ ts))) :
    Step names p (t :: (blanks ++ ts)) [] (some t) ts := by
  have hedit : tokenEdit? names p t (blanks ++ ts) =
      some (⟨t.offset, t.offset + (textOf (t :: blanks)).length, []⟩, false) := by
    unfold tokenEdit?
    rw [hkind]
    dsimp only
    rw [if_pos hword]
    rcases hblanks with ⟨rfl, hpeek⟩ | ⟨b, rfl, _, hspace⟩
    · rw [List.nil_append, if_neg (by simpa using hpeek)]
      simp [Token.stop, Token.offset]
    · rw [← List.cons_append, ← hplaced.1] at hplaced
      have hstop := stop_of_getLast? (placed_append.mp hplaced).1 (t := b) rfl
      rw [List.singleton_append, Stream.peek, if_pos (by simpa using hspace), hstop]
  have hpassed : passed p (t :: blanks) = some t := by
    rw [show passed p (t :: blanks) = passed (passed p [t]) blanks from rfl,
      passed_solid (by simp [Token.isTrivia, hkind]), passed_trivia hblanks.isTrivia]
  have hstep := Step.edit hlayout hedit
    (fun u hu => isInert_of_isTrivia (hblanks.isTrivia u hu)) rfl
  rw [hpassed] at hstep
  exact hstep

theorem Leaf.step {names : Names} {p p' : Option Token} {ts ts' : List Token} {us : List Piece}
    (h : Leaf names p ts us p' ts') {o : Nat} (hplaced : Placed o ts) :
    Step names p ts (spell us) p' ts' := by
  cases h with
  | @finish t heof htext =>
      have hnone : tokenEdit? names p t [] = none := by
        unfold tokenEdit?
        rw [heof]
      have hcopy := Step.copy (isLayoutWord_of_kind (by rw [heof]; decide)) hnone
      rw [passed_solid (by simp [Token.isTrivia, heof]), htext] at hcopy
      exact hcopy
  | copy _ hlayout hnone =>
      rw [spell_cons, spell_nil, List.append_nil]
      exact Step.copy hlayout hnone
  | bare hlayout hnone =>
      rw [spell_cons, spell_nil, List.append_nil]
      exact Step.bare hlayout hnone
  | layout hlayout hgroup =>
      rw [spell_padding]
      exact Step.layout hlayout hgroup
  | interpolation hkind hlayout hword hblanks =>
      exact step_interpolation hkind hlayout hword hblanks hplaced
  | @pragma t _ hkind hpragma =>
      rw [spell_padding]
      rcases Option.ne_none_iff_exists'.mp hpragma with ⟨e, he⟩
      have hedit : tokenEdit? names p t ts' = some (e, false) := by
        unfold tokenEdit?
        rw [hkind]
        dsimp only
        rw [he]
        rfl
      rw [pragmaEdit?_eq_some he] at hedit
      exact step_single (by simp [Token.isTrivia, hkind])
        (isLayoutWord_of_kind (by rw [hkind]; decide)) hedit rfl
  | @sampling t _ s name lod hkind hs hname =>
      rw [spell_cons, spell_nil, List.append_nil]
      have hedit : tokenEdit? names p t ts' = some (⟨t.offset, t.stop, name⟩, lod) := by
        unfold tokenEdit?
        rw [hkind]
        dsimp only
        rw [hs, Option.bind_some, hname]
        rfl
      exact step_single (by simp [Token.isTrivia, hkind])
        (isLayoutWord_of_kind (by rw [hkind]; decide)) hedit rfl
  | @output t _ target _ hkind hdot htarget hus =>
      rw [hus.spell_eq]
      have hedit : tokenEdit? names p t ts' = some (⟨t.offset, t.stop, target⟩, false) := by
        unfold tokenEdit? identifierEdit?
        rw [hkind]
        dsimp only
        rw [show (p.any fun q => q.isOp ".") = false from hdot, htarget]
        rfl
      exact step_single (by simp [Token.isTrivia, hkind])
        (isLayoutWord_of_kind (by rw [hkind]; decide)) hedit rfl
  | access hkind hp houtput hinstance hx hdot =>
      exact step_access hp hkind houtput hinstance hx hdot hplaced

theorem Leaves.writes {names : Names} {p p' : Option Token} {ts ts' : List Token} {us : List Piece}
    (h : Leaves names p ts us p' ts') {o : Nat} (hplaced : Placed o ts) (hspaces : SpacesBlank ts) :
    Writes names p ts (spell us) p' ts' := by
  induction h generalizing o with
  | nil => exact Writes.nil _ _
  | cons hleaf _ ih =>
      have hstep := hleaf.step hplaced
      rcases hstep.inversion hplaced hspaces with ⟨used, _, rfl, _⟩
      rw [spell_append]
      exact Writes.cons hstep (ih (placed_append.mp hplaced).2 hspaces.of_append)

/-!
# Every token is passed
-/

def EndsOnce (ts : List Token) : Prop :=
  forall x t y, ts = x ++ t :: y -> t.kind = .eof -> t.text = [] ∧ y = []

theorem EndsOnce.of_append {us ts : List Token} (h : EndsOnce (us ++ ts)) : EndsOnce ts := by
  intro x t y hsplit hkind
  exact h (us ++ x) t y (by rw [hsplit, List.append_assoc]) hkind

theorem EndsOnce.tail {t : Token} {ts : List Token} (h : EndsOnce (t :: ts)) : EndsOnce ts :=
  EndsOnce.of_append (show EndsOnce ([t] ++ ts) from h)

theorem EndsOnce.kind_ne_eof {us ts : List Token} (h : EndsOnce (us ++ ts)) (hts : ts ≠ []) :
    forall u, u ∈ us -> u.kind ≠ .eof := by
  intro u hu heof
  rcases List.append_of_mem hu with ⟨x, y, rfl⟩
  have hnil := (h x u (y ++ ts) (by simp) heof).2
  exact hts (List.append_eq_nil_iff.mp hnil).2

theorem exists_leaf_edit {names : Names} (htargets : Targets names) {p : Option Token} {t : Token}
    {ts : List Token} (hspaces : SpacesBlank ts) (hlayout : isLayoutWord t = false)
    {r : Edit × Bool} (hedit : tokenEdit? names p t ts = some r) :
    exists us p' ts', Leaf names p (t :: ts) us p' ts' := by
  unfold tokenEdit? at hedit
  split at hedit
  · -- a pragma
    rename_i hkind
    rcases Option.map_eq_some_iff.mp hedit with ⟨e, he, _⟩
    exact ⟨_, _, _, Leaf.pragma hkind (by rw [he]; exact Option.some_ne_none e)⟩
  · -- an interpolation qualifier
    rename_i hkind
    split at hedit
    · rename_i hword
      by_cases hspace : (Stream.peek ts).text = [Byte.space]
      · cases ts with
        | nil => cases hspace
        | cons b ts =>
            have hleaf : Leaf names p (t :: ([b] ++ ts)) [] (some t) ts :=
              Leaf.interpolation hkind hlayout hword
                (Or.inr ⟨b, rfl, hspaces b List.mem_cons_self hspace, hspace⟩)
            exact ⟨_, _, _, hleaf⟩
      · have hleaf : Leaf names p (t :: ([] ++ ts)) [] (some t) ts :=
          Leaf.interpolation hkind hlayout hword (Or.inl ⟨rfl, hspace⟩)
        exact ⟨_, _, _, hleaf⟩
    · cases hedit
  · -- a sampling function
    rename_i hkind
    rcases Option.map_eq_some_iff.mp hedit with ⟨r, hr, _⟩
    rcases Option.bind_eq_some_iff.mp hr with ⟨s, hs, hname⟩
    exact ⟨_, _, _, Leaf.sampling hkind hs hname⟩
  · -- an identifier
    rename_i hkind
    split at hedit
    · cases hedit
    · rename_i hdot
      have hp : isDotted p = false := Bool.eq_false_iff.mpr hdot
      rcases Option.map_eq_some_iff.mp hedit with ⟨e, he, _⟩
      unfold identifierEdit? at he
      split at he
      · rename_i target htarget
        rcases htargets _ _ htarget with ⟨us, hus⟩
        exact ⟨_, _, _, Leaf.output hkind hp htarget hus⟩
      · rename_i houtput
        dsimp only at he
        split at he
        · rename_i haccess
          rcases Bool.and_eq_true_iff.mp haccess with ⟨hinstance, hop⟩
          have hne : (Stream.peekSignificant ts).kind ≠ .eof := by
            rw [kind_of_isOp hop]
            decide
          rcases Stream.exists_of_peekSignificant hne with ⟨x, hsplit, _, hx⟩
          rw [List.append_cons] at hsplit
          rw [hsplit]
          exact ⟨_, _, _, Leaf.access hkind hp houtput hinstance hx hop⟩
        · cases he
  · cases hedit

theorem exists_leaf {names : Names} (htargets : Targets names) (p : Option Token) {t : Token}
    {ts : List Token} (hends : EndsOnce (t :: ts)) (hspaces : SpacesBlank ts) :
    exists us p' ts', Leaf names p (t :: ts) us p' ts' := by
  by_cases heof : t.kind = .eof
  · rcases hends [] t ts rfl heof with ⟨htext, rfl⟩
    exact ⟨_, _, _, Leaf.finish heof htext⟩
  cases hlayout : isLayoutWord t with
  | true =>
      cases hgroup : layoutTokens? ts with
      | none => exact ⟨_, _, _, Leaf.bare hlayout hgroup⟩
      | some found => exact ⟨_, _, _, Leaf.layout hlayout hgroup⟩
  | false =>
      cases hedit : tokenEdit? names p t ts with
      | none => exact ⟨_, _, _, Leaf.copy heof hlayout hedit⟩
      | some found => exact exists_leaf_edit htargets hspaces hlayout hedit

theorem exists_leaves {names : Names} (htargets : Targets names) (p : Option Token)
    {ts : List Token}
    {o : Nat} (hplaced : Placed o ts) (hends : EndsOnce ts) (hspaces : SpacesBlank ts) :
    exists us p', Leaves names p ts us p' [] := by
  induction hn : ts.length using Nat.strong_induction_on generalizing p ts o with
  | _ n ih =>
      subst hn
      cases ts with
      | nil => exact ⟨_, _, Leaves.nil p []⟩
      | cons t ts =>
          rcases exists_leaf htargets p hends
            (fun u hu => hspaces u (List.mem_cons_of_mem t hu)) with ⟨us, p', ts', hleaf⟩
          rcases (hleaf.step hplaced).inversion hplaced hspaces with ⟨used, hne, hsplit, _⟩
          rw [hsplit] at hplaced hspaces hends
          have hlen : ts'.length < (t :: ts).length := by
            have hpos : 0 < used.length := List.length_pos_iff.mpr hne
            rw [hsplit, List.length_append]
            omega
          rcases ih ts'.length hlen p' (placed_append.mp hplaced).2 hends.of_append
            hspaces.of_append rfl with ⟨vs, p'', hrest⟩
          exact ⟨_, _, Leaves.cons hleaf hrest⟩

/-!
# Tokens that can be taken apart
-/

def isNamed (t : Token) : Bool :=
  t.kind == .ident || t.kind == .builtin

def isRemoved (t : Token) : Bool :=
  isLayoutWord t || (t.kind == .keyword && isInterpolation t.text)

def isLoose (t : Token) : Bool :=
  t.isTrivia || match t.text with
    | [b] => isSingle b
    | _ => false

/-- The token can stand directly behind another one: it starts with an ASCII byte, one that ends
words behind words and numbers, and is taken out behind white space, comments, brackets and
separators only. -/
def adjoins (t u : Token) : Bool :=
  u.text.head?.all (fun c => c < 0x80 &&
    (endsWord c || !(t.isWord || t.kind == .integer || t.kind == .float))) &&
  (isLoose t || !isRemoved u)

def selects (ts : List Token) : Bool :=
  isNamed (Stream.peekSignificant ts) &&
    ((Stream.peek ts).kind == .whitespace || isNamed (Stream.peek ts))

/-- What the pass takes out leaves the tokens around it as they are. -/
def isTidy : List Token -> Bool
  | [] => true
  | t :: ts => ts.head?.all (adjoins t) && (selects ts || !t.isOp ".") && isTidy ts

theorem isTidy_cons {t : Token} {ts : List Token} (h : isTidy (t :: ts) = true) :
    (forall u, ts.head? = some u -> adjoins t u = true) ∧
      (t.isOp "." = true -> selects ts = true) ∧ isTidy ts = true := by
  rw [isTidy, Bool.and_eq_true, Bool.and_eq_true] at h
  rcases h with ⟨⟨hfirst, hdot⟩, hrest⟩
  refine ⟨?_, ?_, hrest⟩
  · intro u hu
    rw [hu] at hfirst
    exact hfirst
  · intro hop
    simpa [hop] using hdot

theorem isTidy_of_append {us ts : List Token} (h : isTidy (us ++ ts) = true) :
    isTidy ts = true := by
  induction us with
  | nil => exact h
  | cons u us ih => exact ih (isTidy_cons h).2.2

theorem kind_of_isNamed {t : Token} (h : isNamed t = true) :
    t.kind = .ident ∨ t.kind = .builtin := by
  simpa [isNamed] using h

end Legacy

end EffectShader
