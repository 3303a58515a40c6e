import EffectShader.Proofs.Declaration.Offsets
import EffectShader.Proofs.Subpass.Lines
import EffectShader.Target.Legacy

/-!
# Declarations that are written anew

In the oldest dialect a block member is declared as a plain uniform, and an input or
output with another storage qualifier and fewer qualifiers.  What is written for it is
read back as such a declaration, wherever it stands.
-/

namespace EffectShader

namespace Declaration

open Lexer Decorate Subpass

def spelled (storage : Storage) (others : List Text) (precision type : Text)
    (vs : List Variable) : Declaration where
  storage := storage
  layout := none
  qualifiers := others
  precision := precision
  type := type
  typeOffset := 0
  body := .variables vs
  start := 0
  stop := 0
  line := 0

section Spelled

variable {words names : List Token} {type : Token} {q : Qualifiers} {storage : Storage}
  {vs : List Variable}

theorem statementDeclares_spelled {us : List Piece}
    (hus : solid us = (words ++ type :: names).map Token.piece)
    (hwords : Qualifies.Words Qualifiers.none words q) (hstorage : q.storage = some storage)
    (htype : isQualifier type = false) (hword : type.isWord = true)
    (hnames : SpellsNames names vs) :
    StatementDeclares us (some (spelled storage q.others q.precision type.text vs)) := by
  intro raw semi hraw
  have hsolid : (solidTokens raw).map Token.piece = (words ++ type :: names).map Token.piece := by
    rw [map_piece_solidTokens, hraw, hus]
  rw [List.map_append, List.map_cons] at hsolid
  rcases List.map_eq_append_iff.mp hsolid with ⟨words', rest, hsplit, hwords', hrest⟩
  rcases List.map_eq_cons_iff.mp hrest with ⟨type', names', rfl, htype', hnames'⟩
  rcases hnames names' hnames' with ⟨vs', hvs', hvars⟩
  rcases Option.isSome_iff_exists.mp (show (words' ++ type' :: names').head?.isSome = true by
    cases words' <;> rfl) with ⟨first, hfirst⟩
  have hread := ofStatement?_of_qualifies (hwords.alike hwords').qualifies
    ((isQualifier_congr htype').trans htype) ((isWord_congr htype').trans hword) hstorage hvs'
    hfirst semi
  rw [← hsplit] at hread
  refine ⟨_, hread, ?_⟩
  have htext : type'.text = type.text := congrArg Piece.text htype'
  have hlayout : q.layout = none := hwords.layout_eq
  simp [unplaced, DeclarationBody.unplaced, spelled, htext, hlayout, hvars]

theorem yields_spelled {head text : Text} {ms us : List Piece} {w : Piece}
    (hhead : ReadsHead head ms q) (hfirst : ms.head? = some w) (hplain : w.isPlain = true)
    (hstorage : q.storage = some storage) (hcut : IsCut type.piece)
    (htype : isQualifier type = false) (hword : type.isWord = true)
    (hus : ReadsNames text us names) (hnames : SpellsNames names vs) :
    Yields (head ++ (" " ++ (type.text ++ (" " ++ (text ++ ";")))))
      [spelled storage q.others q.precision type.text vs] := by
  rcases hhead.reads with ⟨words, hsolid, hwords⟩
  have hsome : q.storage ≠ none := by
    rw [hstorage]
    exact Option.some_ne_none storage
  have htyped := readsTyped hhead hsome hsolid hword hcut hus
  generalize hbs : ms ++ ([space] ++ ([type.piece] ++ ([space] ++ us))) = bs at htyped
  have hbshead : bs.head? = some w := by
    rw [← hbs, List.head?_append, hfirst]
    rfl
  have hhash : w ≠ strayHash := by
    rintro rfl
    rcases (hhead.isHead _ (List.mem_of_head? hfirst)).head?_eq
      ((hhead.cuts []).isCut _ (List.mem_of_head? hfirst)) with ⟨b, rest, htext, hhash, _⟩
    exact hhash (List.cons.inj htext).1.symm
  have hcuts : CutsAnywhere (bs ++ [⟨.operator, [Byte.semicolon]⟩]) [] :=
    CutsAnywhere.append (fun f => ⟨false, htyped.cuts f []⟩)
      (Cuts.anywhere (cuts_single rfl rfl) (by decide))
  rcases hcuts true with ⟨g, hcuts⟩
  have hyields := yields_statement hcuts ⟨by simpa [hbshead] using hplain, htyped.inner⟩
    (by rw [hbshead]; exact fun heq => hhash (Option.some.inj heq))
    (statementDeclares_spelled htyped.solid_eq hwords hstorage htype hword hnames)
  rw [htyped.spell_eq] at hyields
  have hsemi : (";" : Text) = [Byte.semicolon] := rfl
  simpa [hsemi] using hyields

end Spelled

/-!
# Names that are not written
-/

theorem ReadsNames.lacks {w : Piece} {text : Text} {us : List Piece} {names : List Token}
    (h : ReadsNames text us names) (hw : w.isPlain = true) (hnames : w ∉ names.map Token.piece)
    (hsemi : w ≠ ⟨.operator, [Byte.semicolon]⟩) : Lacks w (text ++ ";") := by
  have htext : Text.ofString ";" = [Byte.semicolon] := rfl
  rcases h.start with ⟨c, hc, hsep⟩
  refine ⟨us ++ [⟨.operator, [Byte.semicolon]⟩], ?_, ⟨c, ?_, hsep⟩, ?_, ?_⟩
  · rw [spell_append, h.spell_eq, htext]
    rfl
  · rw [List.head?_append, hc]
    rfl
  · intro f r
    exact Cuts.append (h.cuts f r) (cuts_single rfl rfl)
  · intro hmem
    rcases List.mem_append.mp hmem with hmem | hmem
    · exact hnames (h.solid_eq ▸ List.mem_filter.mpr ⟨hmem, hw⟩)
    · exact hsemi (List.mem_singleton.mp hmem)

theorem ne_of_qualifyWord? {q q' : Qualifiers} {t : Token} {name : Text}
    (h : qualifyWord? q t = some q') (hname : classify name = .ident) : t.piece ≠ word name := by
  intro hpiece
  have hkind : t.kind = .ident := (congrArg Piece.kind hpiece).trans hname
  have htext : t.text = name := congrArg Piece.text hpiece
  unfold qualifyWord? at h
  rw [hkind] at h
  simp only [show (TokenKind.ident == TokenKind.keyword) = false from rfl, Bool.false_and,
    Bool.false_eq_true, if_false, htext] at h
  split at h
  · rename_i hprecision
    simp only [Word.isPrecision, Bool.or_eq_true, beq_iff_eq] at hprecision
    have hkeyword : classify "highp" = .keyword ∧ classify "mediump" = .keyword ∧
        classify "lowp" = .keyword := by decide +kernel
    rcases hprecision with (rfl | rfl) | rfl <;> simp [hkeyword] at hname
  · cases h

theorem not_mem_of_qualifies {q q' : Qualifiers} {ts : List Token} {name : Text}
    (h : Qualifies.Words q ts q') (hname : classify name = .ident) :
    word name ∉ ts.map Token.piece := by
  induction h with
  | nil => exact List.not_mem_nil
  | cons _ hword _ ih =>
      rw [List.map_cons, List.mem_cons, not_or]
      exact ⟨fun heq => ne_of_qualifyWord? hword hname heq.symm, ih⟩

theorem lacks_spelled {head text name : Text} {ms us : List Piece} {names : List Token}
    {type : Token}
    {q : Qualifiers} {storage : Storage} (hhead : ReadsHead head ms q)
    (hstorage : q.storage = some storage) (hcut : IsCut type.piece) (hword : type.isWord = true)
    (hus : ReadsNames text us names) (hname : classify name = .ident)
    (hlacks : word name ∉ (type :: names).map Token.piece) :
    Lacks (word name) (head ++ (" " ++ (type.text ++ (" " ++ (text ++ ";"))))) := by
  rcases hhead.reads with ⟨words, hsolid, hwords⟩
  have htyped := readsTyped hhead (by rw [hstorage]; exact Option.some_ne_none storage) hsolid hword
    hcut hus
  have hsemi : word name ≠ ⟨.operator, [Byte.semicolon]⟩ := by
    intro heq
    have hkind : classify name = .operator := congrArg Piece.kind heq
    rw [hname] at hkind
    cases hkind
  have hall := htyped.lacks (isPlain_word name) (by
    rw [List.map_append, List.mem_append, not_or]
    exact ⟨not_mem_of_qualifies hwords hname, hlacks⟩) hsemi
  simpa using hall

/-!
# Qualifiers
-/

def qualifiedText (storage : Storage) (others : List Text) (precision : Text) : Text :=
  Text.ofString storage.keyword ++ ((others.map fun w => (" " : Text) ++ w).flatten ++
    (if precision.isEmpty then [] else (" " : Text) ++ precision))

theorem exists_readsHead_others {text : Text} {ms : List Piece} {q : Qualifiers} {w : Piece}
    (h : ReadsHead text ms q) (hfirst : ms.head? = some w) {others : List Text}
    (hothers : forall x, x ∈ others -> x = ("invariant" : Text)) :
    exists ms', ReadsHead (text ++ (others.map fun w => (" " : Text) ++ w).flatten) ms'
        { q with others := q.others ++ others } ∧ ms'.head? = some w := by
  induction others generalizing text ms q with
  | nil => exact ⟨ms, by simpa using h, hfirst⟩
  | cons x others ih =>
      rcases List.forall_mem_cons.mp hothers with ⟨rfl, hrest⟩
      have hne : ms ≠ [] := List.ne_nil_of_mem (List.mem_of_head? hfirst)
      have hkind : classify "invariant" = .keyword := by decide +kernel
      have hq : qualifyWord? q (wordToken "invariant") =
          some { q with others := q.others ++ [("invariant" : Text)] } := by
        have hother : Storage.ofKeyword? "invariant" = none ∧
            otherQualifiers.contains "invariant" = true := ⟨by decide, by decide⟩
        unfold qualifyWord?
        rw [show (wordToken "invariant").kind = .keyword from hkind,
          show (wordToken "invariant").text = "invariant" from rfl, hother.1, hother.2]
        rfl
      have happend := readsHead_append h hne (by decide) (isLayoutWord_wordToken (by decide)) hq
      rcases ih happend (by rw [List.head?_append, hfirst]; rfl) hrest with ⟨ms', hms', hhead⟩
      exact ⟨ms', by simpa using hms', hhead⟩

theorem exists_readsHead_qualified (storage : Storage) {others : List Text} {precision : Text}
    (hothers : forall x, x ∈ others -> x = ("invariant" : Text))
    (hprecision : precision = [] ∨ Word.isPrecision precision = true) :
    exists ms, ReadsHead (qualifiedText storage others precision) ms
        ⟨some storage, none, others, precision⟩ ∧
      ms.head? = some (word (Text.ofString storage.keyword)) := by
  rcases exists_readsHead_others (readsHead_storage storage) rfl hothers with ⟨ms, hms, hfirst⟩
  rcases hprecision with rfl | hprecision
  · refine ⟨ms, ?_, hfirst⟩
    simpa [qualifiedText] using hms
  · have hword : isIdentifier precision = true ∧ precision ≠ "layout" ∧
        precision.isEmpty = false := by
      simp only [Word.isPrecision, Bool.or_eq_true, beq_iff_eq] at hprecision
      rcases hprecision with (rfl | rfl) | rfl <;> exact ⟨by decide, by decide, rfl⟩
    have happend := readsHead_append hms (List.ne_nil_of_mem (List.mem_of_head? hfirst)) hword.1
      (isLayoutWord_wordToken hword.2.1) (qualifyWord?_precision hprecision _)
    refine ⟨ms ++ ([space] ++ [word precision]), ?_, by rw [List.head?_append, hfirst]; rfl⟩
    simpa [qualifiedText, hword.2.2] using happend

end Declaration

namespace Legacy

open Lexer Declaration Decorate Subpass

theorem spaced_eq (precision : Text) (s : Text) :
    (" " : Text) ++ (spaced precision ++ s) =
      (if precision.isEmpty then [] else (" " : Text) ++ precision) ++ ((" " : Text) ++ s) := by
  unfold spaced
  cases precision.isEmpty <;> simp

/-!
# Members as uniforms
-/

def plainUniform (m : BlockMember) (v : Variable) : Declaration :=
  spelled .uniform [] m.precision m.type [v]

theorem memberUniform_eq (code : Text) (m : BlockMember) (v : Variable) :
    memberUniform code m v = qualifiedText .uniform [] m.precision ++
      (" " ++ (m.type ++ (" " ++ (Text.slice code v.start v.stop ++ ";")))) := by
  have hstart : Text.ofString "uniform " = Text.ofString Storage.uniform.keyword ++ (" " : Text) :=
    rfl
  unfold memberUniform qualifiedText
  rw [hstart]
  simp only [List.append_assoc, List.map_nil, List.flatten_nil, List.nil_append]
  rw [spaced_eq]

/-- The parts of a member that is written as a plain uniform. -/
theorem exists_reads_memberUniform {code s : Text} {o : Nat} {f g : Bool} {raw : List Token}
    {semi : Token} {m : BlockMember} {v : Variable} (h : Situated code o f g (raw ++ [semi]) s)
    (hopen : IsOpen raw) (parts : MemberParts (solidTokens raw) m) (hv : v ∈ m.vars) :
    exists ms us ts, ReadsHead (qualifiedText .uniform [] m.precision) ms
        ⟨some .uniform, none, [], m.precision⟩ ∧
      ms.head? = some (word (Text.ofString Storage.uniform.keyword)) ∧ IsCut parts.type.piece ∧
      SpellsVariable ts v ∧ ts.Sublist parts.names ∧
      ReadsNames (Text.slice code v.start v.stop) us ts := by
  rcases exists_readsHead_qualified .uniform (List.forall_mem_nil _) parts.precision with
    ⟨ms, hhead, hfirst⟩
  rcases exists_of_spellsVariables (spellsVariables_of_declarators? parts.declares) hv with
    ⟨before, ts, after, hnames, hts⟩
  rcases hts.ends with ⟨first, last, htsfirst, htslast, _, hstart, hstop⟩
  have hsolid : solidTokens raw = (parts.quals ++ parts.type :: before) ++ (ts ++ after) := by
    conv => lhs; rw [parts.split, hnames]
    simp
  rcases exists_readsNames h hopen hsolid htsfirst htslast with ⟨us, hus⟩
  have hmem : parts.type ∈ (parts.quals ++ parts.type :: before) ++ (ts ++ after) := by simp
  rw [← hsolid] at hmem
  have hcut : IsCut parts.type.piece :=
    h.cuts.isCut _ (List.mem_map_of_mem (List.mem_append_left _ (List.mem_filter.mp hmem).1))
  rw [← hstart, ← hstop] at hus
  refine ⟨ms, us, ts, hhead, hfirst, hcut, hts, ?_, hus⟩
  rw [hnames]
  exact (List.sublist_append_left ts after).trans (List.sublist_append_right before _)

/-- A member that is written as a plain uniform is read as one. -/
theorem yields_memberUniform {code s : Text} {o : Nat} {f g : Bool} {raw : List Token}
    {semi : Token} {m : BlockMember} {v : Variable} (h : Situated code o f g (raw ++ [semi]) s)
    (hopen : IsOpen raw) (parts : MemberParts (solidTokens raw) m)
    (hm : Storage.ofKeyword? m.type = none) (hv : v ∈ m.vars) :
    Yields (memberUniform code m v) [plainUniform m v] := by
  rcases exists_reads_memberUniform h hopen parts hv with
    ⟨ms, us, ts, hhead, hfirst, hcut, hts, _, hus⟩
  rw [memberUniform_eq, plainUniform, parts.type_eq]
  exact yields_spelled hhead hfirst (isPlain_word _) rfl hcut
    (parts.notQualifier hm) parts.isWord hus
    hts.spellsNames

/-- A plain uniform lacks every name that is not its type and does not stand in its variable. -/
theorem lacks_memberUniform {code s name : Text} {o : Nat} {f g : Bool} {raw : List Token}
    {semi : Token} {m : BlockMember} {v : Variable} (h : Situated code o f g (raw ++ [semi]) s)
    (hopen : IsOpen raw) (parts : MemberParts (solidTokens raw) m) (hv : v ∈ m.vars)
    (hname : classify name = .ident) (htype : m.type ≠ name)
    (hapart : forall t, t ∈ raw -> t.piece = word name -> t.offset < v.start ∨ v.stop ≤ t.offset) :
    Lacks (word name) (memberUniform code m v) := by
  rcases exists_reads_memberUniform h hopen parts hv with
    ⟨ms, us, ts, hhead, _, hcut, hts, hsub, hus⟩
  rw [memberUniform_eq, parts.type_eq]
  refine lacks_spelled hhead rfl hcut parts.isWord hus hname ?_
  rw [List.map_cons, List.mem_cons, not_or]
  constructor
  · intro heq
    rw [parts.type_eq] at htype
    exact htype (congrArg Piece.text heq).symm
  · intro hmem
    rcases List.mem_map.mp hmem with ⟨t, ht, hpiece⟩
    have hraw : ts.Sublist raw := by
      refine (hsub.trans ?_).trans (sublist_of_solidTokens parts.split)
      exact (List.sublist_cons_self _ _).trans (List.sublist_append_right _ _)
    have horder : InOrder ts := (inOrder_of_placed (placed_append.mp h.placed).1).sublist hraw
    rcases hts.ends with ⟨first, last, hfirst, hlast, _, hstart, hstop⟩
    have hle := horder.offset_le_of_head? hfirst ht
    have hstople := horder.stop_le_of_getLast? hlast ht
    have hpositive := h.offset_lt_stop (List.mem_append_left _ (hraw.subset ht))
    have hapart := hapart t (hraw.subset ht) hpiece
    omega

/-!
# Inputs and outputs
-/

def redeclared (d : Declaration) (storage : Storage) : Declaration :=
  spelled storage (d.qualifiers.filter (· == ("invariant" : Text))) d.precision d.type d.vars

theorem flatten_spaced {others : List Text} (h : forall x, x ∈ others -> x = ("invariant" : Text))
    (s : Text) : (" " : Text) ++ ((others.map spaced).flatten ++ s) =
      (others.map fun w => (" " : Text) ++ w).flatten ++ ((" " : Text) ++ s) := by
  induction others with
  | nil => simp
  | cons x others ih =>
      rcases List.forall_mem_cons.mp h with ⟨rfl, hrest⟩
      have hspaced : spaced "invariant" = Text.ofString "invariant" ++ (" " : Text) := rfl
      simp only [List.map_cons, List.flatten_cons, hspaced, List.append_assoc]
      rw [ih hrest]

theorem redeclare_eq (code : Text) (d : Declaration) (storage : Storage) :
    redeclare code d (Text.ofString storage.keyword) =
      qualifiedText storage (d.qualifiers.filter (· == ("invariant" : Text))) d.precision ++
        (" " ++ (d.type ++ (" " ++ (variablesText code d ++ ";")))) := by
  have hothers : forall x, x ∈ d.qualifiers.filter (· == ("invariant" : Text)) ->
      x = ("invariant" : Text) := fun x hx => eq_of_beq (List.mem_filter.mp hx).2
  unfold redeclare qualifiedText
  simp only [List.append_assoc]
  rw [flatten_spaced hothers, spaced_eq]

theorem precision_of_qualifies {q q' : Qualifiers} {ts : List Token} (h : Qualifies q ts q')
    (hq : q.precision = [] ∨ Word.isPrecision q.precision = true) :
    q'.precision = [] ∨ Word.isPrecision q'.precision = true := by
  induction h with
  | nil q => exact hq
  | word _ hword _ ih =>
      apply ih
      unfold qualifyWord? at hword
      split at hword
      · cases hword
        exact hq
      · split at hword
        · cases hword
          exact hq
        · split at hword
          · rename_i hprecision
            cases hword
            exact Or.inr hprecision
          · cases hword
  | layout _ _ ih => exact ih hq

theorem exists_reads_redeclare {code s : Text} {o : Nat} {f g : Bool} {raw : List Token}
    {semi : Token} {d : Declaration} (h : Situated code o f g (raw ++ [semi]) s)
    (hopen : IsOpen raw) (hd : ofStatement? (solidTokens raw) semi = .ok (some d))
    (storage : Storage) :
    exists ms us type names,
      ReadsHead (qualifiedText storage (d.qualifiers.filter (· == ("invariant" : Text)))
      d.precision) ms
        ⟨some storage, none, d.qualifiers.filter (· == ("invariant" : Text)), d.precision⟩ ∧
      ms.head? = some (word (Text.ofString storage.keyword)) ∧ IsCut type.piece ∧
      d.type = type.text ∧ isQualifier type = false ∧ type.isWord = true ∧
      (type :: names).Sublist (solidTokens raw) ∧ declarators? names = some d.vars ∧
      ReadsNames (variablesText code d) us names := by
  rcases parts_of_ofStatement? hd with
    ⟨⟨quals, q, type, all, vars, _, hst, _, hqualifies, hqualifier, hword, _, hall, hparts⟩⟩
  have hvars : d.vars = vars := congrArg Declaration.vars hparts
  have htype : d.type = type.text := congrArg Declaration.type hparts
  have hprecision : d.precision = q.precision := congrArg Declaration.precision hparts
  rw [← hvars] at hall
  rcases Option.bind_eq_some_iff.mp hall with ⟨vs, hparse, hvs⟩
  split at hvs
  · cases hvs
  · rename_i hempty
    rw [Option.some.inj hvs] at hparse hempty
    rcases exists_names_of_parse hparse (by simpa using hempty) with
      ⟨names, after, first, last, v, w, rfl, hnames, hfirst, hlast, hv, hw, hstart, hstop⟩
    have hsolid : solidTokens raw = (quals ++ [type]) ++ (names ++ after) := by
      rw [hst]
      simp
    rcases exists_readsNames h hopen hsolid hfirst hlast with ⟨us, hus⟩
    have htext : variablesText code d = Text.slice code first.offset last.stop := by
      unfold variablesText
      rw [hv, hw]
      dsimp only
      rw [hstart, hstop]
    have hdeclares : declarators? names = some d.vars := by
      unfold declarators?
      rw [hnames, Option.bind_some, if_neg hempty]
    have hmem : type ∈ solidTokens raw := by
      rw [hst]
      exact List.mem_append_right _ List.mem_cons_self
    have hcut : IsCut type.piece :=
      h.cuts.isCut _ (List.mem_map_of_mem (List.mem_append_left _ (List.mem_filter.mp hmem).1))
    have hprecise : d.precision = [] ∨ Word.isPrecision d.precision = true := by
      rw [hprecision]
      exact precision_of_qualifies hqualifies (Or.inl rfl)
    rcases exists_readsHead_qualified storage
      (fun x hx => eq_of_beq (List.mem_filter.mp hx).2) hprecise with ⟨ms, hhead, hms⟩
    rw [← htext] at hus
    refine ⟨ms, us, type, names, hhead, hms, hcut, htype, hqualifier, hword, ?_, hdeclares, hus⟩
    rw [hst]
    exact ((List.sublist_append_left names after).cons_cons type).trans
      (List.sublist_append_right quals _)

/-- An input or output that is declared again is read as a declaration of the same variables. -/
theorem yields_redeclare {code s : Text} {o : Nat} {f g : Bool} {raw : List Token}
    {semi : Token} {d : Declaration} (h : Situated code o f g (raw ++ [semi]) s)
    (hopen : IsOpen raw) (hd : ofStatement? (solidTokens raw) semi = .ok (some d))
    (storage : Storage) :
    Yields (redeclare code d (Text.ofString storage.keyword)) [redeclared d storage] := by
  rcases exists_reads_redeclare h hopen hd storage with
    ⟨ms, us, type, names, hhead, hms, hcut, htype, hqualifier, hword, _, hdeclares, hus⟩
  rw [redeclare_eq, redeclared, htype]
  exact yields_spelled hhead hms (isPlain_word _) rfl hcut hqualifier hword hus
    (spellsNames_of_declarators? hdeclares)

theorem lacks_redeclare {code s name : Text} {o : Nat} {f g : Bool} {raw : List Token}
    {semi : Token}
    {d : Declaration} (h : Situated code o f g (raw ++ [semi]) s) (hopen : IsOpen raw)
    (hd : ofStatement? (solidTokens raw) semi = .ok (some d)) (hname : classify name = .ident)
    (hlacks : word name ∉ (raw ++ [semi]).map Token.piece) (storage : Storage) :
    Lacks (word name) (redeclare code d (Text.ofString storage.keyword)) := by
  rcases exists_reads_redeclare h hopen hd storage with
    ⟨ms, us, type, names, hhead, _, hcut, htype, _, hword, hsub, _, hus⟩
  rw [redeclare_eq, htype]
  refine lacks_spelled hhead rfl hcut hword hus hname fun hmem => hlacks ?_
  have hraw := hsub.trans (sublist_of_solidTokens rfl)
  exact ((hraw.trans (List.sublist_append_left raw [semi])).map Token.piece).subset hmem

end Legacy

end EffectShader
