import EffectShader.Proofs.Legacy.Statements

/-!
# Line numbers

An edit puts back the line ends of the span that it replaces.  Two edits do not:
a declaration that is declared again copies the source of its variables, whose line
ends are put back once more, and an instance name is removed together with
everything up to its dot.
-/

namespace EffectShader

namespace Legacy

open Declaration Lexer

/-!
# Declarations that are written again
-/

theorem newlines_spaced {precision : Text}
    (h : precision = [] ∨ Word.isPrecision precision = true) : (spaced precision).newlines = 0 := by
  rcases h with rfl | h
  · rfl
  · simp only [Word.isPrecision, Bool.or_eq_true, beq_iff_eq] at h
    rcases h with (rfl | rfl) | rfl <;> rfl

theorem newlines_invariants (qualifiers : List Text) :
    Text.newlines ((qualifiers.filter (· == ("invariant" : Text))).map spaced).flatten = 0 := by
  induction qualifiers with
  | nil => rfl
  | cons w qualifiers ih =>
      by_cases hw : w = ("invariant" : Text)
      · subst hw
        rw [List.filter_cons_of_pos rfl, List.map_cons, List.flatten_cons, Text.newlines_append, ih]
        rfl
      · rw [List.filter_cons_of_neg (by simpa using hw)]
        exact ih

/-- The line ends of a source that stand in the place of a declaration a second time: those between
its variables, or those inside each member that becomes a uniform. -/
def copiedLines (code : Text) (ts : List Token) (stage : Stages) (d : Declaration) : Nat :=
  if d.isBlock then
    if d.storage == .uniform then
      ((mentioned ts d).map fun x => (Text.slice code x.2.start x.2.stop).newlines).sum
    else 0
  else
    match d.storage with
    | .uniform | .buffer => 0
    | .input | .attribute | .varying => (variablesText code d).newlines
    | .output | .both => if stage == .vertexOnly then (variablesText code d).newlines else 0

theorem newlines_redeclare (code : Text) {raw : List Token} {semi : Token} {d : Declaration}
    (hd : ofStatement? (solidTokens raw) semi = .ok (some d)) (hwords : OnLine raw)
    {storage : Text} (hstorage : storage.newlines = 0) :
    (redeclare code d storage).newlines = (variablesText code d).newlines := by
  rcases parts_of_ofStatement? hd with ⟨parts⟩
  have htype : d.type.newlines = 0 := by
    have hmem : parts.type ∈ parts.quals ++ parts.type :: parts.names :=
      List.mem_append_right _ List.mem_cons_self
    rw [← parts.split] at hmem
    rw [congrArg Declaration.type parts.eq]
    exact hwords.solid hmem
  have hprecision : (spaced d.precision).newlines = 0 := by
    rw [congrArg Declaration.precision parts.eq]
    exact newlines_spaced (precision_of_qualifies parts.qualifies (Or.inl rfl))
  have hspace : Text.newlines " " = 0 := rfl
  have hsemi : Text.newlines ";" = 0 := rfl
  unfold redeclare
  simp only [Text.newlines_append, hstorage, hspace, hsemi, newlines_invariants, hprecision, htype,
    Nat.add_zero, Nat.zero_add]

theorem newlines_memberUniform (code : Text) {ts : List Token} {m : BlockMember}
    (parts : MemberParts ts m) (hwords : OnLine ts) (v : Variable) :
    (memberUniform code m v).newlines = (Text.slice code v.start v.stop).newlines := by
  have htype : m.type.newlines = 0 := by
    have hmem : parts.type ∈ parts.quals ++ parts.type :: parts.names :=
      List.mem_append_right _ List.mem_cons_self
    rw [← parts.split] at hmem
    rw [parts.type_eq]
    exact hwords _ hmem (isPlain_of_isWord parts.isWord)
  have huniform : Text.newlines "uniform " = 0 := rfl
  have hspace : Text.newlines " " = 0 := rfl
  have hsemi : Text.newlines ";" = 0 := rfl
  unfold memberUniform
  simp only [Text.newlines_append, huniform, newlines_spaced parts.precision, htype, hspace, hsemi,
    Nat.add_zero, Nat.zero_add]

theorem newlines_unpackBlock (code : Text) {raw ts after all : List Token} {d : Declaration}
    (parts : BlockParts (solidTokens raw) ts d after) (hwords : OnLine parts.body) :
    (unpackBlock code all d).newlines =
      ((mentioned all d).map fun x => (Text.slice code x.2.start x.2.stop).newlines).sum := by
  rw [unpackBlock_eq, Text.newlines_joinWith rfl, List.map_map]
  congr 1
  apply List.map_congr_left
  rintro ⟨m, v⟩ hx
  rcases mem_of_mem_mentioned hx with ⟨hm, hv⟩
  rcases parts.holdsMember m hm with ⟨block, x, raw', semi, y, hbody, _, _, hparse⟩
  rcases parts_of_parseMember hparse (List.ne_nil_of_mem hv) with ⟨member⟩
  refine newlines_memberUniform code member (hwords.mono ?_) v
  intro u hu
  rw [hbody]
  exact List.mem_append_right _ (List.mem_append_left _ (List.mem_filter.mp hu).1)

theorem newlines_substitute? (code : Text) {us : List Token} {d : Declaration}
    (h : Chunk us (some d)) (hwords : OnLine us) (ts : List Token) (stage : Stages) :
    (substitute? code ts stage d).elim 0 Text.newlines = copiedLines code ts stage d := by
  cases h with
  | @statement raw semi _ _ _ hstatement =>
      have hblock : ¬ d.isBlock = true := by
        rcases parts_of_ofStatement? hstatement with ⟨parts⟩
        rw [show d.isBlock = false from congrArg Declaration.isBlock parts.eq]
        decide
      have hraw : OnLine raw := hwords.mono fun u hu => List.mem_append_left _ hu
      have hlines : forall storage, Text.newlines storage = 0 ->
          (redeclare code d storage).newlines = (variablesText code d).newlines :=
        fun storage => newlines_redeclare code hstatement hraw
      have hattribute := hlines "attribute" rfl
      have hvarying := hlines "varying" rfl
      unfold substitute? copiedLines
      rw [if_neg hblock, if_neg hblock]
      cases d.storage with
      | uniform | buffer => rfl
      | varying => simp only [Option.elim_some, hvarying]
      | input | «attribute» =>
          cases stage == .vertexOnly with
          | true => simp only [if_true, Option.elim_some, hattribute]
          | false => simp only [Bool.false_eq_true, if_false, Option.elim_some, hvarying]
      | output | both =>
          cases stage == .vertexOnly with
          | true => simp only [if_true, Option.elim_some, hvarying]
          | false => rfl
  | @block raw ts' after brace _ _ _ parts =>
      unfold substitute? copiedLines
      rw [if_pos parts.isBlock, if_pos parts.isBlock]
      cases d.storage == .uniform with
      | false => rfl
      | true =>
          refine newlines_unpackBlock code parts (hwords.mono ?_)
          intro u hu
          exact List.mem_append_right _ (List.mem_cons_of_mem _ (List.mem_append_left _ hu))

theorem newlines_convertFrom {code : Text} {ts : List Token} {ds : List Declaration}
    (htokens : tokenize code = .ok ts) (hds : ofTokens ts = .ok ds) (stage : Stages) :
    (convertFrom code ts stage 0 ds).newlines =
      code.newlines + (ds.map (copiedLines code ts stage)).sum := by
  have hchunks := chunks_of_units (ofTokens_eq_ok_iff.mp hds)
  have hordered := ordered_replacements hchunks (placed_of_tokenize htokens)
    (written? code ts stage)
  have hlines : forall d, d ∈ ds -> (written? code ts stage d).elim 0 Text.newlines + 0 =
      (written? code ts stage d).elim 0 (fun _ => (Text.slice code d.start d.stop).newlines) +
        copiedLines code ts stage d := by
    intro d hd
    rcases hchunks.exists_chunk d hd with ⟨x, us, y, hsplit, hchunk⟩
    have hus : OnLine us := (onLine_of_tokenize htokens).mono fun u hu => by simp [hsplit, hu]
    rw [← newlines_substitute? code hchunk hus ts stage]
    unfold written?
    cases substitute? code ts stage d with
    | none => rfl
    | some text =>
        simp only [Option.map_some, Option.elim_some, Text.newlines_append, Edit.newlines_blank]
        omega
  have hcount := newlines_replaceFrom hordered hlines
  rw [convertFrom_eq]
  simpa using hcount

/-!
# Accesses of members
-/

def isAccess (names : Names) (previous : Option Token) (t : Token) (ts : List Token) : Bool :=
  t.kind == .ident && !(previous.any fun p => p.isOp ".") && (names.outputs.get? t.text).isNone &&
    (names.instances.contains t.text && (Stream.peekSignificant ts).isOp ".")

def accessLine (names : Names) (previous : Option Token) (t : Token) (ts : List Token) : Nat :=
  if isAccess names previous t ts then (textOf (ts.takeWhile Token.isTrivia)).newlines else 0

/-- The line ends between the instance names and dots that the pass over statements meets. -/
def accessLines (names : Names) (previous : Option Token) : List Token -> Nat
  | [] => 0
  | t :: ts =>
      if isLayoutWord t then
        match h : layoutTokens? ts with
        | none => accessLines names (some t) ts
        | some (layout, rest) =>
            have := length_of_layoutTokens? h
            accessLines names (significant (t :: layout)).getLast? rest
      else accessLine names previous t ts + accessLines names (passed previous [t]) ts
  termination_by ts => ts.length
  decreasing_by all_goals (simp only [List.length_cons]; omega)

section AccessLines

variable {names : Names} {p : Option Token} {t : Token} {ts : List Token}

theorem accessLines_cons (ht : isLayoutWord t = false) :
    accessLines names p (t :: ts) =
      accessLine names p t ts + accessLines names (passed p [t]) ts := by
  rw [accessLines, if_neg (by simp [ht])]

theorem accessLines_cons_of_bare (ht : isLayoutWord t = true) (hts : layoutTokens? ts = none) :
    accessLines names p (t :: ts) = accessLines names (some t) ts := by
  rw [accessLines, if_pos ht]
  split
  · rfl
  · rename_i h
    rw [hts] at h
    cases h

theorem accessLines_cons_of_layout {layout rest : List Token} (ht : isLayoutWord t = true)
    (hts : layoutTokens? ts = some (layout, rest)) :
    accessLines names p (t :: ts) =
      accessLines names (significant (t :: layout)).getLast? rest := by
  rw [accessLines, if_pos ht]
  split
  · rename_i h
    rw [hts] at h
    cases h
  · rename_i h
    rw [hts] at h
    cases h
    rfl

theorem isAccess_of_kind (ht : t.kind ≠ .ident) : isAccess names p t ts = false := by
  unfold isAccess
  rw [beq_false_of_ne ht]
  rfl

theorem accessLine_of_kind (ht : t.kind ≠ .ident) : accessLine names p t ts = 0 := by
  rw [accessLine, isAccess_of_kind ht]
  rfl

theorem accessLines_inert {xs : List Token} (hxs : forall x, x ∈ xs -> isInert x = true) :
    accessLines names p (xs ++ ts) = accessLines names (passed p xs) ts := by
  induction xs generalizing p with
  | nil => rfl
  | cons x xs ih =>
      rcases List.forall_mem_cons.mp hxs with ⟨hx, hrest⟩
      have hkind : x.kind ≠ .ident := by
        intro hident
        rw [isInert, Token.isTrivia, hident] at hx
        cases hx
      rw [List.cons_append, accessLines_cons (isLayoutWord_of_isInert hx),
        accessLine_of_kind hkind, ih hrest, Nat.zero_add]
      rfl

theorem isAccess_of_copied (h : tokenEdit? names p t ts = none) :
    isAccess names p t ts = false := by
  by_cases hkind : t.kind = .ident
  · unfold tokenEdit? identifierEdit? at h
    rw [hkind] at h
    dsimp only at h
    unfold isAccess
    split at h
    · rename_i hprevious
      simp [hprevious]
    · cases houtput : names.outputs.get? t.text with
      | some target =>
          rw [houtput] at h
          cases h
      | none =>
          rw [houtput] at h
          dsimp only at h
          split at h
          · cases h
          · rename_i hdot
            rw [Bool.eq_false_iff.mpr hdot, Bool.and_false]
  · exact isAccess_of_kind hkind

theorem accessLine_of_copied (h : tokenEdit? names p t ts = none) :
    accessLine names p t ts = 0 := by
  rw [accessLine, isAccess_of_copied h]
  rfl

end AccessLines

/-!
# Line ends of an edit
-/

def TargetsOnLine (names : Names) : Prop :=
  forall name target, names.outputs.get? name = some target -> target.newlines = 0

theorem newlines_sampling {name : Text} {s : Sampling} (h : sampling? name = some s) :
    s.flat.newlines = 0 ∧ s.cube.newlines = 0 := by
  unfold sampling? Table.get? at h
  rcases Option.map_eq_some_iff.mp h with ⟨entry, hfind, rfl⟩
  have hmem := List.mem_of_find?_eq_some hfind
  simp only [List.mem_cons, List.not_mem_nil, or_false] at hmem
  rcases hmem with rfl | rfl | rfl | rfl | rfl <;> exact ⟨rfl, rfl⟩

theorem newlines_samplingName? {names : Names} {s : Sampling} {ts : List Token} {r : Text × Bool}
    (hflat : s.flat.newlines = 0) (hcube : s.cube.newlines = 0)
    (h : samplingName? names s ts = some r) : r.1.newlines = 0 := by
  unfold samplingName? at h
  rcases Option.map_eq_some_iff.mp h with ⟨inner, _, rfl⟩
  dsimp only
  generalize Option.any _ (names.types.get? (Stream.peekSignificant inner).text) = isCube
  have hname : Text.newlines (if isCube then s.cube else s.flat) = 0 := by
    cases isCube
    · exact hflat
    · exact hcube
  generalize (if isCube = true then s.cube else s.flat) = name at hname ⊢
  split
  · split
    · exact hname
    · rw [Text.newlines_append, hname]
      rfl
  · exact hname

section TokenEdits

variable {names : Names} {p : Option Token} {t : Token} {covered rest : List Token}

theorem textOf_covered {x y : Text} {stop : Nat}
    (hstop : stop = t.offset + (textOf (t :: covered)).length)
    (hx : stop = t.stop + x.length) (htext : textOf (covered ++ rest) = x ++ y) :
    textOf covered = x := by
  rw [textOf_append] at htext
  refine List.append_inj_left htext ?_
  have hself : t.stop = t.offset + t.text.length := rfl
  rw [textOf_cons, List.length_append] at hstop
  omega

theorem textOf_covered_self (hstop : t.stop = t.offset + (textOf (t :: covered)).length) :
    textOf covered = [] := by
  have htext : textOf (covered ++ []) = [] ++ textOf covered := by simp
  exact textOf_covered hstop rfl htext

theorem newlines_covered_access {o : Nat}
    (hdot : (Stream.peekSignificant (covered ++ rest)).isOp "." = true)
    (hplaced : Placed o (t :: (covered ++ rest)))
    (hstop : (Stream.peekSignificant (covered ++ rest)).stop =
      t.offset + (textOf (t :: covered)).length) :
    (textOf covered).newlines =
      (textOf ((covered ++ rest).takeWhile Token.isTrivia)).newlines := by
  have hne : (Stream.peekSignificant (covered ++ rest)).kind ≠ .eof := by
    rw [kind_of_isOp hdot]
    decide
  rcases Stream.exists_of_peekSignificant hne with ⟨trivia, hsplit, hsolid, htrivia⟩
  generalize Stream.peekSignificant (covered ++ rest) = dot at *
  generalize Stream.tailSignificant (covered ++ rest) = after at *
  have htake : (covered ++ rest).takeWhile Token.isTrivia = trivia := by
    rw [hsplit, List.takeWhile_append_of_pos htrivia,
      List.takeWhile_cons_of_neg (by simp [hsolid]), List.append_nil]
  have hend : dot.stop = t.stop + (textOf (trivia ++ [dot])).length := by
    rw [hsplit] at hplaced
    rw [hplaced.2.offset.2, textOf_append, textOf_cons, List.length_append, List.length_append,
      Nat.add_assoc]
    rfl
  have htext : textOf (covered ++ rest) = textOf (trivia ++ [dot]) ++ textOf after := by
    rw [hsplit]
    simp
  have hbyte : dot.text = "." := eq_of_beq (Bool.and_eq_true_iff.mp hdot).2
  rw [htake, textOf_covered hstop hend htext, textOf_append, textOf_cons, hbyte,
    Text.newlines_append]
  rfl

/-- The text of an edit has the line ends of what it covers, but for those of an access. -/
theorem newlines_tokenEdit? {e : Edit} {lod : Bool} {o : Nat}
    (h : tokenEdit? names p t (covered ++ rest) = some (e, lod))
    (hplaced : Placed o (t :: (covered ++ rest)))
    (hstop : e.stop = t.offset + (textOf (t :: covered)).length)
    (hword : t.piece.isPlain = true -> t.text.newlines = 0) (htargets : TargetsOnLine names) :
    e.text.newlines + accessLine names p t (covered ++ rest) =
      (textOf (t :: covered)).newlines := by
  unfold tokenEdit? at h
  rw [textOf_cons, Text.newlines_append]
  split at h
  · -- a pragma
    rename_i hkind
    rcases Option.map_eq_some_iff.mp h with ⟨e', he, heq⟩
    cases heq
    rw [accessLine_of_kind (by rw [hkind]; decide)]
    rw [pragmaEdit?_eq_some he] at hstop ⊢
    rw [textOf_covered_self hstop, Edit.newlines_blank]
    rfl
  · -- an interpolation qualifier
    rename_i hkind
    rw [accessLine_of_kind (by rw [hkind]; decide),
      hword (isPlain_of_isWord (by rw [Token.isWord, hkind]; rfl))]
    split at h
    · dsimp only at h
      cases h
      by_cases hspace : ((Stream.peek (covered ++ rest)).text == [Byte.space]) = true
      · rw [if_pos hspace] at hstop
        rcases hsplit : covered ++ rest with _ | ⟨next, after⟩
        · rw [hsplit] at hspace
          cases hspace
        · rw [hsplit] at hspace hstop hplaced
          have hnext : next.text = [Byte.space] := eq_of_beq hspace
          have hend : next.stop = t.stop + [Byte.space].length := by
            rw [← hnext, ← show next.offset = t.stop from hplaced.2.1]
            rfl
          have htext : textOf (covered ++ rest) = [Byte.space] ++ textOf after := by
            rw [hsplit, textOf_cons, hnext]
          rw [textOf_covered hstop hend htext]
          rfl
      · rw [if_neg hspace] at hstop
        rw [textOf_covered_self hstop]
        rfl
    · cases h
  · -- a sampling function
    rename_i hkind
    rw [accessLine_of_kind (by rw [hkind]; decide),
      hword (isPlain_of_isWord (by rw [Token.isWord, hkind]; simp))]
    rcases Option.map_eq_some_iff.mp h with ⟨r, hr, heq⟩
    cases heq
    rcases Option.bind_eq_some_iff.mp hr with ⟨s, hs, hname⟩
    rcases newlines_sampling hs with ⟨hflat, hcube⟩
    rw [textOf_covered_self hstop, newlines_samplingName? hflat hcube hname]
    rfl
  · -- an identifier
    rename_i hkind
    have hline := hword (isPlain_of_isWord (by rw [Token.isWord, hkind]; rfl))
    split at h
    · cases h
    · rename_i hprevious
      rcases Option.map_eq_some_iff.mp h with ⟨e', he, heq⟩
      cases heq
      unfold identifierEdit? at he
      cases houtput : names.outputs.get? t.text with
      | some target =>
          rw [houtput] at he
          cases he
          have hnot : isAccess names p t (covered ++ rest) = false := by
            unfold isAccess
            simp [houtput]
          rw [accessLine, hnot, textOf_covered_self hstop, hline, htargets _ _ houtput]
          rfl
      | none =>
          rw [houtput] at he
          dsimp only at he
          split at he
          · rename_i hdot
            cases he
            have haccess : isAccess names p t (covered ++ rest) = true := by
              unfold isAccess
              rw [hkind, houtput, Bool.eq_false_iff.mpr hprevious, hdot]
              rfl
            rw [accessLine, if_pos haccess, hline,
              newlines_covered_access (Bool.and_eq_true_iff.mp hdot).2 hplaced hstop]
            rfl
          · cases he
  · cases h

end TokenEdits

/-!
# Line ends of the statements
-/

/-- One step of the pass keeps the line ends, but for those of an access. -/
theorem Step.newlines {names : Names} {p p' : Option Token} {ts ts' : List Token} {w : Text}
    (h : Step names p ts w p' ts') {o : Nat} (hplaced : Placed o ts) (hwords : OnLine ts)
    (htargets : TargetsOnLine names) :
    w.newlines + accessLines names p ts + (textOf ts').newlines =
      (textOf ts).newlines + accessLines names p' ts' := by
  cases h with
  | copy ht hnone =>
      rw [accessLines_cons ht, accessLine_of_copied hnone, textOf_cons, Text.newlines_append]
      omega
  | bare ht hnone =>
      rw [accessLines_cons_of_bare ht hnone, textOf_cons, Text.newlines_append]
      omega
  | layout ht hlayout =>
      rw [accessLines_cons_of_layout ht hlayout, append_of_layoutTokens? hlayout,
        ← List.cons_append, textOf_append, Text.newlines_append, Edit.newlines_blank]
      omega
  | @edit t covered _ e lod ht hedit hinert hstop =>
      have hedited := newlines_tokenEdit? hedit hplaced hstop (hwords t List.mem_cons_self) htargets
      have hpassed : passed p (t :: covered) = passed (passed p [t]) covered := rfl
      rw [accessLines_cons ht, accessLines_inert hinert, hpassed, ← List.cons_append, textOf_append,
        Text.newlines_append]
      omega

/-- A run of the pass keeps the line ends, but for those of the accesses that it meets. -/
theorem Writes.newlines {names : Names} {p p' : Option Token} {ts ts' : List Token} {w : Text}
    (h : Writes names p ts w p' ts') {o : Nat} (hplaced : Placed o ts) (hspaces : SpacesBlank ts)
    (hwords : OnLine ts) (htargets : TargetsOnLine names) :
    w.newlines + accessLines names p ts + (textOf ts').newlines =
      (textOf ts).newlines + accessLines names p' ts' := by
  induction h generalizing o with
  | nil p ts => exact (Nat.zero_add _).symm ▸ Nat.add_comm _ _
  | cons hstep _ ih =>
      have hfirst := hstep.newlines hplaced hwords htargets
      rcases hstep.inversion hplaced hspaces with ⟨used, _, rfl, _⟩
      have hrest := ih (placed_append.mp hplaced).2 hspaces.of_append
        (hwords.mono fun u hu => List.mem_append_right _ hu)
      rw [Text.newlines_append]
      omega

/-- The converted statements have the line ends of the source, but for those of the accesses. -/
theorem newlines_convertStatements {names : Names} {code body : Text} {ts : List Token} {lod : Bool}
    (htokens : tokenize code = .ok ts) (htargets : TargetsOnLine names)
    (h : convertStatements code names = .ok (body, lod)) :
    body.newlines + accessLines names none ts = code.newlines := by
  have hstart : Writes names none ts [] none ts := Writes.nil none ts
  rcases hstart.convertStatements htokens with ⟨v, q, _, hwrites, hconverted⟩
  rw [h] at hconverted
  have hbody : body = v := congrArg Prod.fst (Except.ok.inj hconverted)
  have hcount := hwrites.newlines (placed_of_tokenize htokens) (spacesBlank_of_tokenize htokens)
    (onLine_of_tokenize htokens) htargets
  have hend : accessLines names q [] = 0 := by rw [accessLines]
  rw [textOf_of_tokenize htokens, hend, textOf_nil, Text.newlines_nil] at hcount
  rw [hbody]
  exact hcount

/-!
# Line ends of the result
-/

theorem get?_foldl_put (text : Int -> Text) (outputs : List (Text × Int)) (table : Table Text)
    (name : Text) :
    (outputs.foldl (fun t entry => t.put entry.1 (text entry.2)) table).get? name =
      ((outputs.reverse.find? fun entry => entry.1 == name).map fun entry => text entry.2).or
        (table.get? name) := by
  induction outputs generalizing table with
  | nil => rfl
  | cons entry outputs ih =>
      rw [List.foldl_cons, ih, List.reverse_cons, List.find?_append]
      by_cases hname : entry.1 = name
      · rw [← hname, Table.get?_put_self]
        cases outputs.reverse.find? fun e => e.1 == entry.1 <;> simp
      · rw [Table.get?_put_of_ne _ _ hname]
        simp [hname]

theorem get?_outputTargets {outputs : List (Text × Int)} {name target : Text}
    (h : (outputTargets outputs).get? name = some target) :
    target = "gl_FragColor" ∨
      exists entry, entry ∈ outputs ∧ target = "gl_FragData[" ++ Text.ofInt entry.2 ++ "]" := by
  unfold outputTargets at h
  split at h
  · rw [Table.get?_cons] at h
    split at h
    · exact Or.inl (Option.some.inj h).symm
    · cases h
  · rw [get?_foldl_put (fun n => "gl_FragData[" ++ Text.ofInt n ++ "]")] at h
    rcases Option.or_eq_some_iff.mp h with hfound | ⟨_, hnone⟩
    · rcases Option.map_eq_some_iff.mp hfound with ⟨entry, hentry, rfl⟩
      exact Or.inr ⟨entry, List.mem_reverse.mp (List.mem_of_find?_eq_some hentry), rfl⟩
    · cases hnone

theorem isSome_get?_outputTargets {outputs : List (Text × Int)} {name : Text}
    (h : name ∈ outputs.map Prod.fst) : ((outputTargets outputs).get? name).isSome = true := by
  unfold outputTargets
  split
  · rw [List.map_singleton, List.mem_singleton] at h
    simp [Table.get?_cons, h]
  · rcases List.mem_map.mp h with ⟨entry, hentry, hname⟩
    have hfound : (outputs.reverse.find? fun entry => entry.1 == name).isSome = true :=
      List.find?_isSome.mpr ⟨entry, List.mem_reverse.mpr hentry, by simp [hname]⟩
    rw [get?_foldl_put (fun n => "gl_FragData[" ++ Text.ofInt n ++ "]"), Option.isSome_or,
      Option.isSome_map, hfound]
    rfl

theorem newlines_fragData (n : Int) :
    Text.newlines ("gl_FragData[" ++ Text.ofInt n ++ "]") = 0 := by
  have hopen : Text.newlines "gl_FragData[" = 0 := rfl
  have hclose : Text.newlines "]" = 0 := rfl
  rw [Text.newlines_append, Text.newlines_append, Text.newlines_ofInt, hopen, hclose]

theorem onLine_outputTargets (outputs : List (Text × Int)) :
    forall n v, (outputTargets outputs).get? n = some v -> v.newlines = 0 := by
  intro n v h
  rcases get?_outputTargets h with rfl | ⟨entry, _, rfl⟩
  · rfl
  · exact newlines_fragData entry.2

/-- The two passes of a conversion: the interface first, then the statements of what that leaves. -/
structure Passes (code : Text) (info : Option ShaderInfo) (stage : Stages) (body : Text) where
  ts : List Token
  ds : List Declaration
  text : Text
  names : Names
  outputs : List (Text × Int)
  ts' : List Token
  lod : Bool
  tokens : tokenize code = .ok ts
  declares : ofTokens ts = .ok ds
  interface : convertInterface code info stage = .ok (text, names, outputs)
  tokens' : tokenize text = .ok ts'
  statements : convertStatements text names = .ok (body, lod)

/-- A line that enables an extension of the dialect. -/
def IsExtensionLine (l : Text) : Prop :=
  exists e, (e = drawBuffers ∨ e = textureLod) ∧
    l = Extension.directive ⟨e, [], []⟩ ++ ("\n" : Text)

theorem exists_passes {code out : Text} {info : Option ShaderInfo} {stage : Stages}
    (h : toLegacy code info stage = .ok out) :
    exists (lines : List Text) (body : Text), out = lines.flatten ++ body ∧
      (forall l, l ∈ lines -> IsExtensionLine l) ∧
      Nonempty (Passes code info stage body) := by
  rcases exists_of_toLegacy h with
    ⟨text, names, outputs, body, lod, extensions, hinterface, hstatements, rfl, hextensions⟩
  refine ⟨_, body, rfl, ?_, ?_⟩
  · intro l hl
    rcases List.mem_map.mp hl with ⟨e, he, rfl⟩
    exact ⟨e, hextensions e (List.mem_filter.mp he).1, rfl⟩
  · have hconverted := hinterface
    rw [convertInterface_eq] at hconverted
    split at hconverted
    · cases hconverted
    · rename_i ts htokens
      split at hconverted
      · cases hconverted
      · rename_i ds hds
        have hwritten := hstatements
        unfold convertStatements at hwritten
        split at hwritten
        · cases hwritten
        · rename_i ts' htokens'
          exact ⟨⟨ts, ds, text, names, outputs, ts', lod, htokens, hds, hinterface, htokens',
            hstatements⟩⟩

theorem Passes.interface_eq {code body : Text} {info : Option ShaderInfo} {stage : Stages}
    (c : Passes code info stage body) :
    c.text = convertFrom code c.ts stage 0 c.ds ∧ c.outputs = locateOutputs info stage c.ds ∧
      c.names = ⟨stage, outputTargets c.outputs, instanceNames c.ds, uniformTypes c.ds⟩ := by
  have hinterface := c.interface
  rw [convertInterface_eq, c.tokens] at hinterface
  dsimp only at hinterface
  rw [c.declares] at hinterface
  rcases Prod.mk.inj (Except.ok.inj hinterface) with ⟨htext, hrest⟩
  rcases Prod.mk.inj hrest with ⟨hnames, houtputs⟩
  exact ⟨htext.symm, houtputs.symm, houtputs ▸ hnames.symm⟩

theorem Passes.newlines {code body : Text} {info : Option ShaderInfo} {stage : Stages}
    (c : Passes code info stage body) :
    body.newlines + accessLines c.names none c.ts' =
      code.newlines + (c.ds.map (copiedLines code c.ts stage)).sum := by
  rcases c.interface_eq with ⟨htext, _, hnames⟩
  have htargets : TargetsOnLine c.names := by
    rw [hnames]
    exact onLine_outputTargets _
  rw [newlines_convertStatements c.tokens' htargets c.statements, htext,
    newlines_convertFrom c.tokens c.declares]

/-- The result consists of lines that enable extensions and of a text that has the line ends of the
source, those between the variables of declarations that are declared again once more, and not those
between instance names and their dots.  It keeps the line numbers exactly if these are as many. -/
theorem newlines_toLegacy {code out : Text} {info : Option ShaderInfo} {stage : Stages}
    (h : toLegacy code info stage = .ok out) :
    exists (lines : List Text) (body : Text), out = lines.flatten ++ body ∧
      (forall l, l ∈ lines -> IsExtensionLine l) ∧
      exists c : Passes code info stage body,
        body.newlines + accessLines c.names none c.ts' =
          code.newlines + (c.ds.map (copiedLines code c.ts stage)).sum ∧
        (body.newlines = code.newlines ↔
          accessLines c.names none c.ts' = (c.ds.map (copiedLines code c.ts stage)).sum) := by
  rcases exists_passes h with ⟨lines, body, hout, hlines, ⟨c⟩⟩
  have hcount := c.newlines
  refine ⟨lines, body, hout, hlines, c, hcount, ?_⟩
  omega

theorem toLegacy_inputs :
    toLegacy "in vec2 a,\n b;\n" none Stages.vertexOnly =
      .ok "attribute vec2 a,\n b;\n\n" := by
  unfold toLegacy
  simp only [convertInterface_eq, convertStatements_eq]
  decide +kernel

/-- The line end between two inputs is written twice. -/
theorem newlines_toLegacy_inputs :
    exists code out : Text, toLegacy code none Stages.vertexOnly = .ok out ∧
      code.newlines = 2 ∧ out.newlines = 3 ∧
      exists (lines : List Text) (body : Text), out = lines.flatten ++ body ∧
        exists c : Passes code none Stages.vertexOnly body,
          body.newlines + accessLines c.names none c.ts' =
            code.newlines + (c.ds.map (copiedLines code c.ts Stages.vertexOnly)).sum := by
  rcases newlines_toLegacy toLegacy_inputs with ⟨lines, body, hout, _, c, hcount, _⟩
  exact ⟨_, _, toLegacy_inputs, rfl, rfl, lines, body, hout, c, hcount⟩

/-- The lines behind two inputs on two lines move down: no text with the line ends of the source
stands behind the lines that enable extensions. -/
theorem lines_moved :
    exists out, toLegacy "in vec2 a,\n b;\n" none
        Stages.vertexOnly = .ok out ∧
      ¬ exists (lines : List Text) (body : Text), out = lines.flatten ++ body ∧
        (forall l, l ∈ lines -> IsExtensionLine l) ∧
        body.newlines =
          Text.newlines "in vec2 a,\n b;\n" := by
  refine ⟨_, toLegacy_inputs, ?_⟩
  rintro ⟨lines, body, hout, hlines, hcount⟩
  cases lines with
  | nil =>
      rw [List.flatten_nil, List.nil_append] at hout
      rw [← hout] at hcount
      exact absurd hcount (by decide)
  | cons l lines =>
      rcases hlines l List.mem_cons_self with ⟨e, _, rfl⟩
      have hfirst := congrArg List.head? hout
      cases hfirst

end Legacy

end EffectShader
