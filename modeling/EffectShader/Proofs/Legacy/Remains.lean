import EffectShader.Proofs.Downgrade.Prelude
import EffectShader.Proofs.Legacy.Dropped
import EffectShader.Proofs.Legacy.Mentions
import EffectShader.Proofs.Reachability.Blanking

/-!
# Names that remain after the conversion

The conversion takes names away: those of outputs, of block instances, and of members
of uniform blocks that no other word mentions.  Such a name remains a word of the
result in three cases.  It is the name of a member that is read through an instance
name, it is an instance name that selects no member, or a macro mentions it: a
directive is one token, so no pass looks into it, and what a macro mentions does not
count when members are dropped.
-/

namespace EffectShader

namespace Legacy

open Declaration Downgrade Fold Lexer Subpass

/-!
# Macros that remain
-/

theorem defines_of_kind {name : Text} {w : Piece} (hw : w.kind ≠ .directive) :
    defines name w = false := by
  unfold defines
  rw [beq_false_of_ne hw]
  rfl

theorem any_defines_padding (name w : Text) : (padding w).any (defines name) = false := by
  cases w <;> rfl

theorem defines_of_pragma {name : Text} {t : Token} (h : pragmaEdit? t ≠ none) :
    defines name t.piece = false := by
  unfold defines
  rw [Token.text_piece]
  cases hparse : Directive.parse? t.text with
  | none => simp
  | some d =>
      have hpragma : d.name = "pragma" := by
        unfold pragmaEdit? at h
        rw [hparse] at h
        by_contra hname
        rw [Option.bind_some, Directive.pragma?, if_neg (by simpa using hname)] at h
        exact h rfl
      have hname : (Text.ofString "pragma" == Text.ofString "define") = false := rfl
      rw [Option.any_some, hpragma, hname]
      simp

theorem isDefinition_of_isInert {name : Text} {p : Option Token} {t : Token} {ts : List Token}
    (h : isInert t = true) : isDefinition name p t ts = false := by
  apply defines_of_kind
  intro hkind
  rw [Token.kind_piece] at hkind
  rw [isInert, Token.isTrivia, hkind] at h
  cases h

theorem defines_word (name s : Text) : defines name (word s) = false :=
  defines_of_kind (by rcases kind_word s with h | h | h <;> rw [h] <;> decide)

theorem any_defines_target {name target : Text} {us : List Piece} (h : Target target us) :
    us.any (defines name) = false := by
  cases h with
  | color => simp [defines_word]
  | data n =>
      have hplain : forall kind s, kind = .operator ∨ kind = .integer ->
          defines name ⟨kind, s⟩ = false := by
        rintro kind s (rfl | rfl) <;> exact defines_of_kind (by simp)
      simp [defines_word, hplain]

theorem meets_definition_cons {name : Text} {p : Option Token} {t : Token} {ts : List Token}
    (hkind : t.kind ≠ .directive) (hlayout : isLayoutWord t = false) :
    meets (isDefinition name) p (t :: ts) = meets (isDefinition name) (passed p [t]) ts := by
  have hnone : isDefinition name p t ts = false := defines_of_kind hkind
  rw [meets_cons hlayout, hnone, Bool.false_or]

theorem Leaf.any_defines {names : Names} {name : Text} {p p' : Option Token} {ts ts' : List Token}
    {us : List Piece} (h : Leaf names p ts us p' ts') :
    meets (isDefinition name) p ts =
      (us.any (defines name) || meets (isDefinition name) p' ts') := by
  cases h with
  | finish heof =>
      rw [meets_definition_cons (by rw [heof]; decide)
        (isLayoutWord_of_kind (by rw [heof]; decide)),
        meets_nil, meets_nil]
      rfl
  | copy _ hlayout =>
      rw [meets_cons hlayout, List.any_cons, List.any_nil, Bool.or_false]
      rfl
  | bare hlayout hgroup =>
      have hkind := kind_of_isLayoutWord hlayout
      rw [meets_cons_of_bare hlayout hgroup, List.any_cons,
        defines_of_kind (by rw [Token.kind_piece, hkind]; decide)]
      rfl
  | layout hlayout hgroup =>
      rw [meets_cons_of_layout hlayout hgroup, any_defines_padding, Bool.false_or]
  | interpolation hkind hlayout _ hblanks =>
      have htrivia := hblanks.isTrivia
      rw [meets_definition_cons (by rw [hkind]; decide) hlayout,
        meets_inert isDefinition_of_isInert fun u hu => isInert_of_isTrivia (htrivia u hu),
        passed_trivia htrivia, passed_solid (by simp [Token.isTrivia, hkind])]
      rfl
  | @pragma t _ hkind hpragma =>
      have hnone : isDefinition name p t ts' = false := defines_of_pragma hpragma
      rw [meets_cons (isLayoutWord_of_kind (by rw [hkind]; decide)), hnone,
        passed_solid (by simp [Token.isTrivia, hkind]), any_defines_padding]
  | sampling hkind =>
      rw [meets_definition_cons (by rw [hkind]; decide)
        (isLayoutWord_of_kind (by rw [hkind]; decide)),
        passed_solid (by simp [Token.isTrivia, hkind]), List.any_cons, defines_word]
      rfl
  | output hkind _ _ htarget =>
      rw [meets_definition_cons (by rw [hkind]; decide)
        (isLayoutWord_of_kind (by rw [hkind]; decide)),
        passed_solid (by simp [Token.isTrivia, hkind]), any_defines_target htarget]
      rfl
  | access hkind _ _ _ hx hdot =>
      rw [meets_definition_cons (by rw [hkind]; decide)
        (isLayoutWord_of_kind (by rw [hkind]; decide)),
        meets_inert isDefinition_of_isInert (isInert_dotted hx hdot), passed_dotted hdot]
      rfl

theorem Leaves.any_defines {names : Names} {p q : Option Token} {ts : List Token}
    {vs : List Piece} (h : Leaves names p ts vs q []) (name : Text) :
    vs.any (defines name) = meets (isDefinition name) p ts := by
  generalize hrest : ([] : List Token) = rest at h
  induction h with
  | nil =>
      subst hrest
      rw [meets_nil]
      rfl
  | cons hleaf _ ih =>
      rw [List.any_append, ih hrest, hleaf.any_defines]

/-- The word remains in what a run leaves exactly if the pass meets it in a macro, as a member
that is read through an instance name, or standing alone. -/
theorem Leaves.remains_eq {names : Names} {name : Text} (hname : IsSought name) {q : Option Token}
    {ts : List Token} {vs : List Piece} (h : Leaves names none ts vs q []) {o : Nat}
    (hplaced : Placed o ts) (hspaces : SpacesBlank ts) (htidy : isTidy ts = true) :
    remains name vs =
      ((meets (readsMember names name) none ts || meets (standsAlone names name) none ts) ||
        meets (isDefinition name) none ts) := by
  unfold remains
  rw [(h.agrees hname hplaced hspaces htidy).undotted rfl, h.any_defines]
  unfold mentionsMet
  rw [meets_or (readsMember names name) (standsAlone names name)]

/-!
# Built-in outputs
-/

theorem nonneg_of_knownLocation? {info : Option ShaderInfo} {d : Declaration} {v : Variable}
    {n : Int}
    (h : knownLocation? info d v = some n) : 0 ≤ n := by
  unfold knownLocation? at h
  rcases Option.or_eq_some_iff.mp h with h | ⟨_, h⟩
  · simpa using (Option.filter_eq_some_iff.mp h).2
  · simpa using (Option.filter_eq_some_iff.mp h).2

theorem nonneg_of_mem_locateFrom {info : Option ShaderInfo} {index : Nat}
    {vs : List (Declaration × Variable)} :
    forall entry, entry ∈ locateFrom info index vs -> 0 ≤ entry.2 := by
  induction vs generalizing index with
  | nil => exact List.forall_mem_nil _
  | cons x vs ih =>
      rcases x with ⟨d, v⟩
      intro entry hentry
      rcases List.mem_cons.mp hentry with rfl | hentry
      · dsimp only
        cases hknown : knownLocation? info d v with
        | none => exact Int.natCast_nonneg index
        | some n => exact nonneg_of_knownLocation? hknown
      · exact ih entry hentry

theorem exists_target_outputTargets {outputs : List (Text × Int)}
    (houtputs : forall entry, entry ∈ outputs -> 0 ≤ entry.2) :
    forall n v, (outputTargets outputs).get? n = some v -> exists us, Target v us := by
  intro n v h
  rcases get?_outputTargets h with rfl | ⟨entry, hentry, rfl⟩
  · exact ⟨_, Target.color⟩
  · rcases Int.eq_ofNat_of_zero_le (houtputs entry hentry) with ⟨m, hm⟩
    rw [hm]
    exact ⟨_, Target.data m⟩

theorem Passes.targets {code body : Text} {info : Option ShaderInfo} {stage : Stages}
    (c : Passes code info stage body) : Targets c.names := by
  rcases c.interface_eq with ⟨_, houtputs, hnames⟩
  rw [hnames, houtputs]
  exact exists_target_outputTargets nonneg_of_mem_locateFrom

/-!
# The whole result
-/

theorem endsOnce_place (p : Position) {ws : List Piece} (hws : forall w, w ∈ ws -> w.kind ≠ .eof) :
    EndsOnce (place p ws) := by
  induction ws generalizing p with
  | nil =>
      intro x t y hsplit _
      cases x with
      | nil =>
          rcases List.cons.inj hsplit with ⟨rfl, rfl⟩
          exact ⟨rfl, rfl⟩
      | cons u x =>
          have hlength := congrArg List.length hsplit
          simp at hlength
  | cons w ws ih =>
      rcases List.forall_mem_cons.mp hws with ⟨hw, hrest⟩
      intro x t y hsplit ht
      cases x with
      | nil =>
          rw [place_cons] at hsplit
          rw [← (List.cons.inj hsplit).1] at ht
          exact absurd ht hw
      | cons u x => exact ih _ hrest x t y (List.cons.inj hsplit).2 ht

theorem kind_ne_eof_of_lexes {f : Bool} {s : Text} {ws : List Piece} (h : Lexes f s ws) :
    forall w, w ∈ ws -> w.kind ≠ .eof := by
  intro w hw
  rcases h.exists_extent? hw with ⟨_, _, _, _, _, hextent⟩
  exact kind_ne_eof_of_extent? hextent

theorem piecesOf_place {ws : List Piece} (hws : forall w, w ∈ ws -> w.kind ≠ .eof) (p : Position) :
    piecesOf (place p ws) = ws := by
  unfold piecesOf
  rw [map_piece_place, List.filter_append, List.filter_eq_self.mpr (by simpa using hws)]
  exact List.append_nil ws

theorem reads_of_tokenize {code : Text} {ts : List Token} (h : tokenize code = .ok ts) :
    Reads true ts ∧ EndsOnce ts := by
  have htext := textOf_of_tokenize h
  rcases tokenize_eq_ok_iff.mp h with ⟨ws, hws, rfl⟩
  have hkinds := kind_ne_eof_of_lexes hws
  refine ⟨?_, endsOnce_place Position.start hkinds⟩
  unfold Reads
  rw [htext, piecesOf_place hkinds]
  exact hws

theorem remains_end (name : Text) (ws : List Piece) :
    remains name (ws ++ [endPiece]) = remains name ws := by
  have hword : (endPiece == word name) = false := beq_word_of_kind (by decide) name
  have hmentions : forall dotted, mentions name dotted (ws ++ [endPiece]) =
    mentions name dotted ws := by
    induction ws with
    | nil =>
        intro dotted
        simp [mentions, hword]
    | cons w ws ih =>
        intro dotted
        rw [List.cons_append, mentions, mentions, ih]
  have hdefines : defines name endPiece = false := defines_of_kind (by decide)
  unfold remains
  rw [hmentions, List.any_append, List.any_cons, hdefines]
  simp

theorem isWritable_needed {e : Text} (he : e = drawBuffers ∨ e = textureLod) :
    Extension.IsWritable ⟨e, [], []⟩ := by
  rcases he with rfl | rfl
  · exact ⟨by decide, List.all_eq_true.mp (by decide +kernel), List.forall_mem_nil _,
      List.not_mem_nil⟩
  · exact ⟨by decide, List.all_eq_true.mp (by decide +kernel), List.forall_mem_nil _,
      List.not_mem_nil⟩

theorem remains_directive {name s : Text} {d : Directive} (hparse : Directive.parse? s = some d)
    (hname : (d.name == ("define" : Text)) = false) (w : Text) (ws : List Piece) :
    remains name ([⟨.directive, s⟩] ++ (padding w ++ ws)) = remains name ws := by
  have hdirective : defines name ⟨.directive, s⟩ = false := by
    unfold defines
    rw [hparse, Option.any_some, hname]
    simp
  have hword : ((⟨.directive, s⟩ : Piece) == word name) = false :=
    beq_word_of_kind (by simp) name
  have hbehind : behind false ⟨.directive, s⟩ = false := rfl
  unfold remains
  rw [List.singleton_append, mentions, hword, hbehind, mentions_padding, List.any_cons, hdirective,
    List.any_append, any_defines_padding]
  simp

theorem exists_extensionLines {lines : List Text}
    (hlines : forall l, l ∈ lines -> IsExtensionLine l)
    {vs : List Piece} (hvs : Relexes true vs) :
    exists ws, spell ws = lines.flatten ++ spell vs ∧ Relexes true ws ∧
      forall name, remains name ws = remains name vs := by
  induction lines with
  | nil => exact ⟨vs, rfl, hvs, fun _ => rfl⟩
  | cons l lines ih =>
      rcases List.forall_mem_cons.mp hlines with ⟨⟨e, he, rfl⟩, hrest⟩
      rcases ih hrest with ⟨ws, hspell, hws, hremains⟩
      have hspells := spellsDirective_extension (isWritable_needed he)
      have hnewline : forall c, c ∈ Text.ofString "\n" -> isSeparator c = true := by
        intro c hc
        rw [List.mem_singleton.mp (show c ∈ [Byte.newline] from hc)]
        rfl
      refine ⟨[⟨.directive, Extension.directive ⟨e, [], []⟩⟩] ++ (padding "\n" ++ ws), ?_, ?_, ?_⟩
      · rw [spell_append, spell_append, spell_padding, hspell]
        simp
      · apply Relexes.cuts
        · apply hspells.cuts
          rw [spell_append, spell_padding]
          exact Or.inr rfl
        · exact Relexes.padding hnewline hws
      · intro name
        rw [remains_directive hspells.parse rfl, hremains name]

theorem Writes.of_nil {names : Names} {p q : Option Token} {ts : List Token} {w : Text}
    (h : Writes names p [] w q ts) : w = [] := by
  generalize hus : ([] : List Token) = us at h
  cases h with
  | nil => rfl
  | cons hstep => cases hstep <;> cases hus

theorem Passes.body_eq {code body : Text} {info : Option ShaderInfo} {stage : Stages}
    (c : Passes code info stage body) {vs : List Piece} {q : Option Token}
    (h : Leaves c.names none c.ts' vs q []) : body = spell vs := by
  have hwrites := h.writes (placed_of_tokenize c.tokens') (spacesBlank_of_tokenize c.tokens')
  rcases hwrites.convertStatements c.tokens' with ⟨v, q', _, hrest, hconverted⟩
  rw [c.statements] at hconverted
  have hwritten : body = spell vs ++ v := congrArg Prod.fst (Except.ok.inj hconverted)
  rw [hwritten, hrest.of_nil, List.append_nil]

theorem Passes.exists_tokens {code body : Text} {info : Option ShaderInfo} {stage : Stages}
    (c : Passes code info stage body) {lines : List Text}
    (hlines : forall l, l ∈ lines -> IsExtensionLine l) (htidy : isTidy c.ts' = true)
    (hhash : strayHash ∉ c.ts'.map Token.piece) :
    exists us, tokenize (lines.flatten ++ body) = .ok us ∧ forall name, IsSought name ->
      remains name (us.map Token.piece) =
        ((meets (readsMember c.names name) none c.ts' ||
          meets (standsAlone c.names name) none c.ts') ||
          meets (isDefinition name) none c.ts') := by
  have hplaced := placed_of_tokenize c.tokens'
  have hspaces := spacesBlank_of_tokenize c.tokens'
  rcases reads_of_tokenize c.tokens' with ⟨hreads, hends⟩
  rcases exists_leaves c.targets none hplaced hends hspaces with ⟨vs, q, hleaves⟩
  have hrelexes : Relexes true vs := hleaves.relexes id hreads hends htidy hhash
  rcases exists_extensionLines hlines hrelexes with ⟨ws, hspell, ⟨us, hlexes, hinked⟩, hremains⟩
  rw [hspell, ← c.body_eq hleaves] at hlexes
  refine ⟨_, tokenize_eq_ok_iff.mpr ⟨us, hlexes, rfl⟩, fun name hname => ?_⟩
  rw [map_piece_place, remains_end, remains_congr hinked, hremains,
    hleaves.remains_eq hname hplaced hspaces htidy]

/-!
# Names that are not met
-/

theorem meets_eq_false {test : Option Token -> Token -> List Token -> Bool} {p : Option Token}
    {ts : List Token} (h : forall p t us, (t :: us) <:+ ts -> test p t us = false) :
    meets test p ts = false := by
  induction hn : ts.length using Nat.strong_induction_on generalizing p ts with
  | _ n ih =>
      subst hn
      cases ts with
      | nil => exact meets_nil
      | cons t ts =>
          have htail : ts <:+ t :: ts := List.suffix_cons t ts
          cases ht : isLayoutWord t with
          | true =>
              cases hgroup : layoutTokens? ts with
              | none =>
                  rw [meets_cons_of_bare ht hgroup]
                  exact ih ts.length (by simp) (fun p u us hu => h p u us (hu.trans htail)) rfl
              | some found =>
                  rcases found with ⟨group, rest⟩
                  have hle := length_of_layoutTokens? hgroup
                  have hrest : rest <:+ ts := ⟨group, (append_of_layoutTokens? hgroup).symm⟩
                  rw [meets_cons_of_layout ht hgroup]
                  exact ih rest.length (by simp only [List.length_cons]; omega)
                    (fun p u us hu => h p u us ((hu.trans hrest).trans htail)) rfl
          | false =>
              rw [meets_cons ht, h p t ts (List.suffix_refl _), Bool.false_or]
              exact ih ts.length (by simp) (fun p u us hu => h p u us (hu.trans htail)) rfl

theorem mem_peekSignificant (ts : List Token) :
    (Stream.peekSignificant ts).kind = .eof ∨ Stream.peekSignificant ts ∈ ts := by
  by_cases heof : (Stream.peekSignificant ts).kind = .eof
  · exact Or.inl heof
  · rcases Stream.exists_of_peekSignificant heof with ⟨trivia, hsplit, _⟩
    refine Or.inr ?_
    have hmem : Stream.peekSignificant ts ∈
        trivia ++ Stream.peekSignificant ts :: Stream.tailSignificant ts :=
      List.mem_append_right trivia List.mem_cons_self
    rwa [← hsplit] at hmem

theorem meets_of_not_mem {names : Names} {name : Text} (hname : IsSought name) {p : Option Token}
    {ts : List Token} (h : word name ∉ ts.map Token.piece) :
    meets (readsMember names name) p ts = false ∧ meets (standsAlone names name) p ts = false := by
  have hne {t : Token} (ht : t.kind = .eof ∨ t ∈ ts) : (t.piece == word name) = false := by
    rcases ht with ht | ht
    · exact hname.ne_of_kind (by rw [Token.kind_piece, ht]; decide)
    · exact beq_false_of_ne fun heq => h (heq ▸ List.mem_map_of_mem ht)
  constructor <;> apply meets_eq_false <;> intro p t us hus
  · have hmember := mem_peekSignificant (Stream.tailSignificant us)
    have htail : Stream.tailSignificant us <:+ ts :=
      (Stream.tailSignificant_suffix us).trans ((List.suffix_cons t us).trans hus)
    unfold readsMember
    rw [hne (hmember.imp_right fun hmem => htail.subset hmem), Bool.and_false]
  · unfold standsAlone
    rw [hne (Or.inr (hus.subset List.mem_cons_self))]
    rfl

/-!
# Names that are taken away
-/

/-- What the passes take out leaves the tokens around it as they are, and no hash sign stands inside
a line. -/
def TidyPasses (code : Text) (info : Option ShaderInfo) (stage : Stages) : Prop :=
  (forall ts, ts ∈ (tokenize code).toOption -> strayHash ∉ ts.map Token.piece) ∧
    forall r, r ∈ (convertInterface code info stage).toOption ->
      forall ts, ts ∈ (tokenize r.1).toOption -> isTidy ts = true ∧ strayHash ∉ ts.map Token.piece

instance (code : Text) (info : Option ShaderInfo) (stage : Stages) :
    Decidable (TidyPasses code info stage) :=
  inferInstanceAs (Decidable ((forall ts, ts ∈ (tokenize code).toOption -> _) ∧
    forall r, r ∈ (convertInterface code info stage).toOption ->
      forall ts, ts ∈ (tokenize r.1).toOption -> _))

/-- The names that a conversion takes away and that are still words of its result, other than
behind a dot. -/
structure Remaining {code body : Text} {info : Option ShaderInfo} {stage : Stages}
    (c : Passes code info stage body) (us : List Token) : Prop where
  /-- The name of an output is that of a member which is read, or a macro mentions it. -/
  outputs : forall name, name ∈ c.outputs.map Prod.fst -> IsSought name ->
    remains name (us.map Token.piece) =
      (meets (readsMember c.names name) none c.ts' || meets (isDefinition name) none c.ts')
  /-- The name of an instance is also left where it selects no member. -/
  instances : forall name, name ∈ instanceNames c.ds -> IsSought name ->
    remains name (us.map Token.piece) =
      ((meets (readsMember c.names name) none c.ts' ||
        meets (standsAlone c.names name) none c.ts') ||
        meets (isDefinition name) none c.ts')
  /-- The name of a dropped member is left in macros only. -/
  dropped : forall name, name ∈ droppedNames c.ts c.ds -> IsSought name ->
    remains name (us.map Token.piece) = meets (isDefinition name) none c.ts'

/-- The names that a conversion takes away are still words of its result in these cases only: a
member of a block is read through its instance name and has the name of an output or of an
instance, an instance name stands where it selects no member, or a macro that is copied mentions
the name. -/
theorem remains_toLegacy {code out : Text} {info : Option ShaderInfo} {stage : Stages}
    (h : toLegacy code info stage = .ok out) (htidy : TidyPasses code info stage) :
    exists (lines : List Text) (body : Text), out = lines.flatten ++ body ∧
      (forall l, l ∈ lines -> IsExtensionLine l) ∧
      exists (c : Passes code info stage body) (us : List Token),
        tokenize out = .ok us ∧ Remaining c us := by
  rcases exists_passes h with ⟨lines, body, rfl, hlines, ⟨c⟩⟩
  have hhash := htidy.1 c.ts (toOption_eq_some_iff.mpr c.tokens)
  rcases htidy.2 _ (toOption_eq_some_iff.mpr c.interface) c.ts' (toOption_eq_some_iff.mpr c.tokens')
    with ⟨htidy', hhash'⟩
  rcases c.exists_tokens hlines htidy' hhash' with ⟨us, htokens, hremains⟩
  refine ⟨lines, body, rfl, hlines, c, us, htokens, ?_, fun name _ => hremains name, ?_⟩
  · intro name hname hsought
    have hsome : (c.names.outputs.get? name).isSome = true := by
      rw [c.interface_eq.2.2]
      exact isSome_get?_outputTargets hname
    have halone : meets (standsAlone c.names name) none c.ts' = false := by
      apply meets_eq_false
      intro p t us _
      unfold standsAlone
      rw [Option.isNone_eq_false_iff.mpr hsome]
      simp
    rw [hremains name hsought, halone, Bool.or_false]
  · intro name hname hsought
    rcases exists_dropped c.tokens c.declares hname with ⟨d, v, t, rfl, hdropped⟩
    have hnot := hdropped.not_mem hsought.isIdent c.tokens c.declares hhash
      (c.interface_eq.1 ▸ c.tokens')
    have hmeets : meets (readsMember c.names v.name) none c.ts' = false ∧
        meets (standsAlone c.names v.name) none c.ts' = false := meets_of_not_mem hsought hnot
    rw [hremains _ hsought, hmeets.1, hmeets.2, Bool.or_self, Bool.false_or]

/-- A fragment shader with an output, a block instance and a member that nothing mentions. -/
def outputAndBlock : Text :=
  "out vec4 color;\nuniform B { vec4 tint; vec4 unused; } b;\nvoid main() { color = b.tint; }\n"

/-- A macro is the only mention of a member. -/
def memberInMacro : Text :=
  "#define M foo\nuniform B { vec4 foo; };\nvoid main() { gl_Position = M; }\n"

/-- The pass over the statements of the first source meets none of the names that are taken
away, and the conversion of the second leaves its macro. -/
theorem names_taken :
    ((toLegacy outputAndBlock none Stages.fragmentOnly).isOk = true ∧
      TidyPasses outputAndBlock none Stages.fragmentOnly ∧
      ((tokenize outputAndBlock).toOption.bind fun ts => (ofTokens ts).toOption.map fun ds =>
        decide ((locateOutputs none Stages.fragmentOnly ds).map Prod.fst = ["color"] ∧
          instanceNames ds = ["b"] ∧ droppedNames ts ds = ["unused"])) = some true ∧
      ((convertInterface outputAndBlock none Stages.fragmentOnly).toOption.bind fun r =>
        (tokenize r.1).toOption.map fun ts => (["color", "b", "unused"] : List Text).any fun name =>
          classify name != .ident || meets (readsMember r.2.1 name) none ts ||
            meets (standsAlone r.2.1 name) none ts || meets (isDefinition name) none ts) =
              some false) ∧
    toLegacy memberInMacro none Stages.vertexOnly =
        .ok "#define M foo\n\nvoid main() { gl_Position = M; }\n" ∧
      ((tokenize memberInMacro).toOption.bind fun ts => (ofTokens ts).toOption.map fun ds =>
        decide (droppedNames ts ds = ["foo"])) = some true ∧
      ((tokenize "#define M foo\n\nvoid main() { gl_Position = M; }\n").toOption.map fun us =>
        us.any fun t => defines "foo" t.piece) = some true := by
  unfold toLegacy TidyPasses
  simp only [convertInterface_eq, convertStatements_eq]
  decide +kernel

/-- None of the names remains. -/
theorem remains_toLegacy_outputAndBlock :
    exists out, toLegacy outputAndBlock none Stages.fragmentOnly = .ok out ∧
      TidyPasses outputAndBlock none Stages.fragmentOnly ∧
      exists (lines : List Text) (body : Text), out = lines.flatten ++ body ∧
        exists (c : Passes outputAndBlock none Stages.fragmentOnly body) (us : List Token),
          tokenize out = .ok us ∧ Remaining c us ∧
          (c.outputs.map Prod.fst = ["color"] ∧ instanceNames c.ds = ["b"] ∧
            droppedNames c.ts c.ds = ["unused"]) ∧
          remains "color" (us.map Token.piece) = false ∧ remains "b" (us.map Token.piece) = false ∧
            remains "unused" (us.map Token.piece) = false := by
  rcases names_taken.1 with ⟨hok, htidy, hnames, hmet⟩
  rcases hout : toLegacy outputAndBlock none Stages.fragmentOnly with e | out
  · rw [hout] at hok
    cases hok
  rcases remains_toLegacy hout htidy with ⟨lines, body, hsplit, _, c, us, htokens, hremaining⟩
  rw [c.tokens, Except.toOption, Option.bind_some, c.declares, Except.toOption, Option.map_some]
    at hnames
  rw [c.interface, Except.toOption, Option.bind_some, c.tokens', Except.toOption, Option.map_some]
    at hmet
  rw [← c.interface_eq.2.1] at hnames
  have htaken := of_decide_eq_true (Option.some.inj hnames)
  have hnone := Option.some.inj hmet
  simp only [List.any_cons, List.any_nil, Bool.or_eq_false_iff, bne_eq_false_iff_eq] at hnone
  refine ⟨out, rfl, htidy, lines, body, hsplit, c, us, htokens, hremaining, htaken, ?_, ?_, ?_⟩
  · rw [hremaining.outputs _ (by rw [htaken.1]; exact List.mem_cons_self)
      ⟨by simp [hnone], by decide⟩]
    simp [hnone]
  · rw [hremaining.instances _ (by rw [htaken.2.1]; exact List.mem_cons_self)
      ⟨by simp [hnone], by decide⟩]
    simp [hnone]
  · rw [hremaining.dropped _ (by rw [htaken.2.2]; exact List.mem_cons_self)
      ⟨by simp [hnone], by decide⟩]
    simp [hnone]

/-- The member is dropped, and the macro still mentions it. -/
theorem dropped_remains :
    exists out ts ds us, toLegacy memberInMacro none Stages.vertexOnly = .ok out ∧
      tokenize memberInMacro = .ok ts ∧ ofTokens ts = .ok ds ∧ droppedNames ts ds = ["foo"] ∧
      tokenize out = .ok us ∧ us.any (fun t => defines "foo" t.piece) = true := by
  rcases names_taken.2 with ⟨hrun, hnames, hdefines⟩
  rcases Option.bind_eq_some_iff.mp hnames with ⟨ts, htokens, hds⟩
  rcases Option.map_eq_some_iff.mp hds with ⟨ds, hds, hdropped⟩
  rcases Option.map_eq_some_iff.mp hdefines with ⟨us, hus, hdefines⟩
  exact ⟨_, ts, ds, us, hrun, toOption_eq_some_iff.mp htokens, toOption_eq_some_iff.mp hds,
    of_decide_eq_true hdropped,
    toOption_eq_some_iff.mp hus, hdefines⟩

end Legacy

end EffectShader
