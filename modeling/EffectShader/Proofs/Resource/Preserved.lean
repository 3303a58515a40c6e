import EffectShader.Proofs.Resource.Decorated

/-!
# What decorating leaves alone

Completed qualifiers are the only difference between the declarations of a source and
those of the decorated one, but for the declarations that are split.  The lines stay
the same where no text is dropped or repeated: a completed qualifier stands on one
line, wherever the old one stood, and the parts of a split declaration repeat the text
that they are written with.
-/

namespace EffectShader

namespace Decorate

open Declaration Lexer

/-!
# Declarations without their layouts
-/

/-- The declarations in the place of one, with the layout that it has: one for each variable if
it is split. -/
def separated (stage : Stages) (info : ShaderInfo) (d : Declaration) : List Declaration :=
  match paramsFor? d stage info with
  | none | some [some _] => [d]
  | some _ => d.vars.map fun v => { d with body := .variables [v] }

theorem separated_of_many {stage : Stages} {info : ShaderInfo} {d : Declaration}
    {params : List (Option Param)} (hparams : paramsFor? d stage info = some params)
    (h : ¬ exists p, params = [some p]) :
    separated stage info d = d.vars.map fun v => { d with body := .variables [v] } := by
  unfold separated
  rw [hparams]
  split
  · rename_i heq
    cases heq
  · rename_i p heq
    exact absurd ⟨p, Option.some.inj heq⟩ h
  · rfl

theorem length_params {d : Declaration} {stage : Stages} {info : ShaderInfo}
    {params : List (Option Param)} (hparams : paramsFor? d stage info = some params)
    (h : ¬ exists p, params = [some p]) : params.length = d.vars.length := by
  cases hblock : d.isBlock with
  | true => exact absurd (paramsFor?_of_isBlock hblock hparams) h
  | false => exact (paramsFor?_of_variables hblock hparams).1

theorem map_withoutLayout_decorated (stage : Stages) (info : ShaderInfo) (d : Declaration) :
    (decorated stage info d).map withoutLayout = (separated stage info d).map withoutLayout := by
  cases hparams : paramsFor? d stage info with
  | none =>
      unfold decorated separated
      rw [hparams]
  | some params =>
      by_cases hone : exists p, params = [some p]
      · rcases hone with ⟨p, rfl⟩
        unfold decorated separated
        rw [hparams]
        rfl
      · have hzip : (d.vars.zip params).map Prod.fst = d.vars :=
          List.map_fst_zip (Nat.le_of_eq (length_params hparams hone).symm)
        unfold decorated
        rw [hparams, separated_of_many hparams hone]
        dsimp only
        rw [decoratedBy_of_many hone, ← hzip, List.map_map, List.map_map, List.map_map, hzip]
        rfl

theorem map_unplaced_decorated (stage : Stages) (info : ShaderInfo) (ds : List Declaration) :
    (ds.flatMap (decorated stage info)).map (fun d => d.withoutLayout.unplaced) =
      (ds.flatMap (separated stage info)).map fun d => d.withoutLayout.unplaced := by
  induction ds with
  | nil => rfl
  | cons d ds ih =>
      have hd := congrArg (List.map Declaration.unplaced) (map_withoutLayout_decorated stage info d)
      rw [List.map_map, List.map_map] at hd
      rw [List.flatMap_cons, List.flatMap_cons, List.map_append, List.map_append, ih]
      exact congrArg (· ++ _) hd

/-!
# Line ends of rewritten declarations
-/

def layoutLines (code : Text) (d : Declaration) : Nat :=
  d.layout.elim 0 fun l => (Text.slice code l.start l.stop).newlines

/-- The line ends that a declaration loses: a completed qualifier stands on one line. -/
def lostLines (code : Text) (stage : Stages) (info : ShaderInfo) (d : Declaration) : Nat :=
  match paramsFor? d stage info with
  | some [some _] => layoutLines code d
  | _ => 0

/-- The line ends of a part of a split declaration, which has the qualifiers, its variable and, if
the variable has no number, the layout of the declaration. -/
def partLines (code : Text) (d : Declaration) (v : Variable) (p : Option Param) : Nat :=
  (splitHead code d).newlines + (Text.slice code v.start v.stop).newlines +
    if p.isSome then 0 else layoutLines code d

/-- The line ends that stand twice: those of the parts of a declaration stand in front of all line
ends of the declaration. -/
def repeatedLines (code : Text) (stage : Stages) (info : ShaderInfo) (d : Declaration) : Nat :=
  match paramsFor? d stage info with
  | none | some [some _] => 0
  | some params => ((d.vars.zip params).map fun x => partLines code d x.1 x.2).sum

section LineEnds

variable {items : List LayoutItem}

theorem newlines_withItem (h : forall i, i ∈ items -> i.key.newlines = 0 ∧ i.value.newlines = 0)
    {key : Text} (hkey : key.newlines = 0) (n : Int) :
    forall i, i ∈ withItem items key n -> i.key.newlines = 0 ∧ i.value.newlines = 0 := by
  intro i hi
  unfold withItem at hi
  split at hi
  · exact h i hi
  · rcases List.mem_append.mp hi with hi | hi
    · exact h i hi
    · rw [List.mem_singleton.mp hi]
      exact ⟨hkey, Text.newlines_ofInt n⟩

theorem newlines_render (h : forall i, i ∈ items -> i.key.newlines = 0 ∧ i.value.newlines = 0)
    (start stop : Nat) : (Layout.render ⟨items, start, stop⟩).newlines = 0 := by
  have hitems : ((items.map LayoutItem.render).map Text.newlines).sum = 0 := by
    induction items with
    | nil => rfl
    | cons i items ih =>
        rcases List.forall_mem_cons.mp h with ⟨⟨hkey, hvalue⟩, hrest⟩
        have hitem : i.render.newlines = 0 := by
          unfold LayoutItem.render
          split
          · exact hkey
          · rw [Text.newlines_append, Text.newlines_append, hkey, hvalue]
            rfl
        rw [List.map_cons, List.map_cons, List.sum_cons, hitem, ih hrest]
  have hopen : Text.newlines "layout(" = 0 := rfl
  have hclose : Text.newlines ")" = 0 := rfl
  unfold Layout.render
  rw [Text.newlines_append, Text.newlines_append, Text.newlines_joinWith rfl, hitems, hopen, hclose]

theorem newlines_layoutFor (h : forall i, i ∈ items -> i.key.newlines = 0 ∧ i.value.newlines = 0)
    (p : Param) : (layoutFor items p).newlines = 0 := by
  unfold layoutFor itemsFor
  split
  · exact newlines_render (newlines_withItem h rfl _) 0 0
  · exact newlines_render (newlines_withItem (newlines_withItem h rfl _) rfl _) 0 0

end LineEnds

section Chunk

variable {code : Text} {us : List Token} {d : Declaration} {o : Nat}

theorem newlines_entries (h : Chunk us (some d)) (hus : OnLine us) :
    forall i, i ∈ d.layout.elim [] (·.items) -> i.key.newlines = 0 ∧ i.value.newlines = 0 := by
  cases hl : d.layout with
  | none => exact List.forall_mem_nil _
  | some l => exact h.layout_onLine hl hus

theorem newlines_qualify (h : Chunk us (some d)) (hplaced : Placed o us) (hus : OnLine us)
    (p : Param) : (qualify code d p).newlines + layoutLines code d =
      (Text.slice code d.start d.stop).newlines := by
  unfold qualify layoutLines
  cases hl : d.layout with
  | none =>
      have hspace : Text.newlines " " = 0 := rfl
      simp only [Text.newlines_append, newlines_layoutFor (List.forall_mem_nil _), hspace,
        Option.elim_none, Nat.zero_add, Nat.add_zero]
  | some l =>
      rcases h.layout_span hl hplaced with ⟨hstart, hspan, hstop⟩
      rw [← Text.slice_append_slice hstart (Nat.le_trans hspan hstop),
        ← Text.slice_append_slice hspan hstop]
      simp only [Text.newlines_append, newlines_layoutFor (h.layout_onLine hl hus),
        Option.elim_some]
      omega

theorem newlines_splitPart (h : Chunk us (some d)) (hus : OnLine us)
    (htype : d.type.newlines = 0) (v : Variable) (p : Option Param) :
    (splitPart code d (splitHead code d) v p).newlines = partLines code d v p := by
  have hentries := newlines_entries h hus
  have hspace : Text.newlines " " = 0 := rfl
  have hsemi : Text.newlines ";" = 0 := rfl
  have hhead : Text.newlines (if (splitHead code d).isEmpty then
      d.type ++ " " ++ Text.slice code v.start v.stop ++ ";"
      else splitHead code d ++ " " ++ (d.type ++ " " ++ Text.slice code v.start v.stop ++ ";")) =
      (splitHead code d).newlines + (Text.slice code v.start v.stop).newlines := by
    split
    · rename_i hempty
      rw [List.isEmpty_iff.mp hempty]
      simp only [Text.newlines_append, htype, hspace, hsemi, Text.newlines_nil, Nat.zero_add,
        Nat.add_zero]
    · simp only [Text.newlines_append, htype, hspace, hsemi, Nat.zero_add, Nat.add_zero]
  unfold splitPart partLines layoutLines
  cases p with
  | some p =>
      simp only [Text.newlines_append, newlines_layoutFor hentries, hspace, hhead]
      simp
  | none =>
      cases hl : d.layout with
      | none => simpa using hhead
      | some l =>
          simp only [Text.newlines_append, hspace, hhead]
          simp
          omega

theorem newlines_rewritten? (h : Chunk us (some d)) (hplaced : Placed o us) (hus : OnLine us)
    (stage : Stages) (info : ShaderInfo) :
    (rewritten? code stage info d).elim 0 Text.newlines + lostLines code stage info d =
      (rewritten? code stage info d).elim 0 (fun _ => (Text.slice code d.start d.stop).newlines) +
        repeatedLines code stage info d := by
  unfold rewritten? lostLines repeatedLines
  cases hparams : paramsFor? d stage info with
  | none => rfl
  | some params =>
      rw [Option.map_some, Option.elim_some, Option.elim_some]
      by_cases hone : exists p, params = [some p]
      · rcases hone with ⟨p, rfl⟩
        exact newlines_qualify h hplaced hus p
      · have htype : d.type.newlines = 0 := by
          cases h with
          | statement _ _ hstatement =>
              rcases parts_of_ofStatement? hstatement with ⟨parts⟩
              have hmem : parts.type ∈ parts.quals ++ parts.type :: parts.names :=
                List.mem_append_right _ List.mem_cons_self
              rw [← parts.split] at hmem
              rw [congrArg Declaration.type parts.eq]
              exact (hus.mono fun u hu => List.mem_append_left _ hu).solid hmem
          | block _ _ parts => exact absurd (paramsFor?_of_isBlock parts.isBlock hparams) hone
        rw [decorateDeclaration_of_many hone, Text.newlines_append, Text.newlines_joinWith rfl,
          Text.newlines_replicate, List.map_map]
        have hparts : (d.vars.zip params).map (Text.newlines ∘ fun x =>
            splitPart code d (splitHead code d) x.1 x.2) =
            (d.vars.zip params).map fun x => partLines code d x.1 x.2 :=
          List.map_congr_left fun x _ => newlines_splitPart h hus htype x.1 x.2
        rw [hparts]
        split
        · rename_i p heq
          exact absurd ⟨p, Option.some.inj heq⟩ hone
        · split
          · rename_i heq
            cases heq
          · rename_i p heq
            exact absurd ⟨p, Option.some.inj heq⟩ hone
          · rename_i heq
            rw [Option.some.inj heq]
            omega

end Chunk

end Decorate

/-- Decorating changes layouts only.  The lines stay the same exactly if the line ends of the
qualifiers that are completed are as many as those that the parts of split declarations repeat.  The
declarations are those of the source, each that is split in parts, if the text in front of each
part is read again: no comment starts in the values of a layout that is completed, no line
comment, directive or other layout stands in front of the type of a declaration that is split,
and no hash sign stands inside a line. -/
theorem decorate_preserves {code text : Text} {stage : Stages} {info : ShaderInfo}
    (h : decorate code stage info = .ok text) :
    exists ts ds, tokenize code = .ok ts ∧ Declaration.ofTokens ts = .ok ds ∧
      text.newlines + (ds.map (Decorate.lostLines code stage info)).sum =
        code.newlines + (ds.map (Decorate.repeatedLines code stage info)).sum ∧
      (text.newlines = code.newlines ↔
        (ds.map (Decorate.repeatedLines code stage info)).sum =
          (ds.map (Decorate.lostLines code stage info)).sum) ∧
      (Lexer.strayHash ∉ ts.map Token.piece ->
        (forall d, d ∈ ds -> Decorate.Fits stage info ts d) ->
        exists ds', Declaration.ofText? text = some ds' ∧
          ds'.map (fun d => d.withoutLayout.unplaced) =
            (ds.flatMap (Decorate.separated stage info)).map fun d =>
              d.withoutLayout.unplaced) := by
  have hdecorate := h
  unfold decorate at hdecorate
  split at hdecorate
  · cases hdecorate
  · rename_i ts htokens
    split at hdecorate
    · cases hdecorate
    · rename_i ds hds
      have heq := decorate_eq htokens hds stage info
      rw [h] at heq
      rw [Except.ok.inj heq]
      have hchunks := Declaration.chunks_of_units (Declaration.ofTokens_eq_ok_iff.mp hds)
      have hplaced := Declaration.placed_of_tokenize htokens
      have hlines : forall d, d ∈ ds ->
          (Decorate.rewritten? code stage info d).elim 0 Text.newlines +
            Decorate.lostLines code stage info d =
          (Decorate.rewritten? code stage info d).elim 0
            (fun _ => (Text.slice code d.start d.stop).newlines) +
            Decorate.repeatedLines code stage info d := by
        intro d hd
        rcases hchunks.exists_chunk d hd with ⟨x, us, y, hsplit, hchunk⟩
        have honline := (Declaration.onLine_of_tokenize htokens).mono
          fun u (hu : u ∈ us) => by simp [hsplit, hu]
        rw [hsplit] at hplaced
        exact Decorate.newlines_rewritten? hchunk
          (placed_append.mp (placed_append.mp hplaced).2).1 honline stage info
      have hcount := Declaration.newlines_replaceFrom
        (Declaration.ordered_replacements hchunks hplaced _) hlines
      refine ⟨ts, ds, htokens, hds, hcount, by omega, ?_⟩
      intro hhash hfits
      rcases exists_ofText?_decorated htokens hds hhash stage info hfits with ⟨ds', hread, hsame⟩
      refine ⟨ds', hread, ?_⟩
      rw [Declaration.map_unplaced_withoutLayout hsame, Decorate.map_unplaced_decorated]

/-- A texture with a number of its own. -/
def Decorate.oneTexture : ShaderInfo :=
  ⟨[{ Param.new "a" .samplerTexture with binding := some 0, set := 1 }]⟩

/-- A declaration that is split, and a qualifier on two lines. -/
theorem decorate_oneTexture :
    ((decorate "uniform sampler2D a,\n b;\n" Stages.fragmentOnly Decorate.oneTexture).toOption =
        some "layout(set = 1, binding = 0) uniform sampler2D a; uniform sampler2D b;\n\n" ∧
      Decorate.CleanSource "uniform sampler2D a,\n b;\n") ∧
    (decorate "layout(binding\n= 0) uniform sampler2D a;\n" Stages.fragmentOnly
      Decorate.oneTexture).toOption =
      some "layout(binding = 0, set = 1) uniform sampler2D a;\n" := by
  decide +kernel

/-- Two textures on two lines are declared apart, and the next line keeps its number. -/
theorem decorate_preserves_split :
    exists text ds ds',
      decorate "uniform sampler2D a,\n b;\n" Stages.fragmentOnly Decorate.oneTexture = .ok text ∧
      text = "layout(set = 1, binding = 0) uniform sampler2D a; uniform sampler2D b;\n\n" ∧
      text.newlines = 2 ∧ Declaration.ofText? "uniform sampler2D a,\n b;\n" = some ds ∧
      Declaration.ofText? text = some ds' ∧
      ds'.map (fun d => d.withoutLayout.unplaced) =
        (ds.flatMap (Decorate.separated Stages.fragmentOnly Decorate.oneTexture)).map fun d =>
          d.withoutLayout.unplaced := by
  rcases decorate_oneTexture.1 with ⟨hrun, hclean⟩
  have htext := toOption_eq_some_iff.mp hrun
  rcases decorate_preserves htext with ⟨ts, ds, htokens, hds, _, _, hread⟩
  rcases hclean ts (toOption_eq_some_iff.mpr htokens) with ⟨hhash, hmembers⟩
  rcases hread hhash (fun d hd _ => hmembers ds (toOption_eq_some_iff.mpr hds) d hd) with
    ⟨ds', hds', hsame⟩
  exact ⟨_, ds, ds', htext, rfl, rfl, Declaration.ofText?_eq_some_iff.mpr ⟨ts, htokens, hds⟩,
    hds', hsame⟩

/-- A qualifier on two lines is completed on one, and what follows moves up. -/
theorem line_lost :
    exists text,
      decorate "layout(binding\n= 0) uniform sampler2D a;\n" Stages.fragmentOnly
        Decorate.oneTexture = .ok text ∧
      text.newlines < Text.newlines "layout(binding\n= 0) uniform sampler2D a;\n" :=
  ⟨_, toOption_eq_some_iff.mp decorate_oneTexture.2, by decide⟩

end EffectShader
