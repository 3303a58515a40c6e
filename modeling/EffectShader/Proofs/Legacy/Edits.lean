import EffectShader.Proofs.Downgrade.Collapse
import EffectShader.Proofs.Legacy.Statements

/-!
# Edits that are all made

An edit that starts inside an earlier one is dropped without a word.  The passes over
layouts, declarations and statements collect no such edit: their spans lie in the source
and follow each other, so the result is the source with every span replaced.
-/

namespace EffectShader

/-!
# Declarations inside the source
-/

namespace Declaration

open Lexer

theorem stop_le_of_ofTokens {code : Text} {ts : List Token} {ds : List Declaration}
    (htokens : tokenize code = .ok ts) (hds : ofTokens ts = .ok ds) {d : Declaration}
    (hd : d ∈ ds) :
    d.stop ≤ code.length ∧ forall l, d.layout = some l -> l.stop ≤ code.length := by
  have hplaced := placed_of_tokenize htokens
  have htext := textOf_of_tokenize htokens
  rcases (chunks_of_units (ofTokens_eq_ok_iff.mp hds)).exists_chunk d hd with
    ⟨x, us, y, rfl, hchunk⟩
  have hunit := (placed_append.mp (placed_append.mp hplaced).2).1
  have hstop : d.stop ≤ code.length := by
    rw [(hchunk.span hunit).2, ← htext]
    simp only [textOf_append, List.length_append]
    omega
  exact ⟨hstop, fun l hl => Nat.le_trans (hchunk.layout_span hl hunit).2.2 hstop⟩

end Declaration

/-!
# The edits of the passes
-/

namespace Downgrade

theorem made_collapse {code text : Text} {isVertex : Bool}
    (h : collapseLayouts code isVertex = .ok text) :
    exists ts ds, tokenize code = .ok ts ∧ Declaration.ofTokens ts = .ok ds ∧
      Edit.Made code (ds.filterMap (collapseEdit? code isVertex)) text := by
  unfold collapseLayouts at h
  split at h
  · cases h
  · rename_i ts htokens
    split at h
    · cases h
    · rename_i ds hds
      cases h
      refine ⟨ts, ds, htokens, hds, Edit.made_of_ordered ?_ ?_⟩
      · rcases Declaration.rest_of_tokenize htokens with ⟨ws, hrest⟩
        exact (reads_collapseFrom isVertex
          (Declaration.chunks_of_units (Declaration.ofTokens_eq_ok_iff.mp hds)) hrest).1
      · intro e he
        rcases List.mem_filterMap.mp he with ⟨d, hd, hedit⟩
        unfold collapseEdit? at hedit
        split at hedit
        · cases hedit
        · rename_i l hl
          have hstop := (Declaration.stop_le_of_ofTokens htokens hds hd).2 l hl
          split at hedit
          · cases hedit
          · cases hedit
            -- the blanks behind the layout are bytes of the source
            have hblanks := (List.takeWhile_sublist (l := code.drop l.stop)
              fun b => b == Byte.space || b == Byte.tab).length_le
            rw [List.length_drop] at hblanks
            show l.stop + _ ≤ code.length
            omega

end Downgrade

namespace Legacy

open Declaration Lexer

theorem made_declarations {code text : Text} {info : Option ShaderInfo} {stage : Stages}
    {names : Names} {outputs : List (Text × Int)}
    (h : convertInterface code info stage = .ok (text, names, outputs)) :
    exists ts ds, tokenize code = .ok ts ∧ ofTokens ts = .ok ds ∧
      Edit.Made code (ds.filterMap (declarationEdit? code ts stage)) text := by
  unfold convertInterface at h
  split at h
  · cases h
  · rename_i ts htokens
    split at h
    · cases h
    · rename_i ds hds
      cases h
      refine ⟨ts, ds, htokens, hds, Edit.made_of_ordered ?_ ?_⟩
      · have hordered := ordered_replacements (chunks_of_units (ofTokens_eq_ok_iff.mp hds))
          (placed_of_tokenize htokens) (written? code ts stage)
        rwa [← declarationEdits_eq] at hordered
      · intro e he
        rcases List.mem_filterMap.mp he with ⟨d, hd, hedit⟩
        rcases Option.map_eq_some_iff.mp hedit with ⟨w, _, rfl⟩
        exact (stop_le_of_ofTokens htokens hds hd).1

theorem stop_le_of_mem_edits (names : Names) (p : Option Token) {ts : List Token} {o : Nat}
    (hplaced : Placed o ts) (hspaces : SpacesBlank ts) :
    forall e, e ∈ edits names p ts -> e.1.stop ≤ o + (textOf ts).length := by
  induction hn : ts.length using Nat.strong_induction_on generalizing p ts o with
  | _ n ih =>
      subst hn
      cases ts with
      | nil =>
          rw [edits]
          simp
      | cons t ts =>
          rcases exists_step names p hplaced
            (fun u hu => hspaces u (List.mem_cons_of_mem t hu)) with ⟨w, p', ts', hstep⟩
          rcases hstep.inversion hplaced hspaces with ⟨used, hne, hsplit, hkind⟩
          rw [hsplit] at hplaced hspaces ih ⊢
          have hlen : ts'.length < (used ++ ts').length := by
            have hpos : 0 < used.length := List.length_pos_iff.mpr hne
            rw [List.length_append]
            omega
          have hrest := ih ts'.length hlen p' (placed_append.mp hplaced).2 hspaces.of_append rfl
          rw [textOf_append, List.length_append, ← Nat.add_assoc, ← hsplit]
          rcases hkind with ⟨heq, _⟩ | ⟨e, lod, heq, _, hstop, _⟩
          · rw [heq]
            exact hrest
          · rw [heq]
            refine List.forall_mem_cons.mpr ⟨?_, hrest⟩
            rw [hstop]
            exact Nat.le_add_right _ _

theorem made_statements {code text : Text} {names : Names} {lod : Bool}
    (h : convertStatements code names = .ok (text, lod)) :
    exists ts, tokenize code = .ok ts ∧
      Edit.Made code ((edits names none ts).map Prod.fst) text := by
  unfold convertStatements at h
  split at h
  · cases h
  · rename_i ts htokens
    cases h
    have hplaced := placed_of_tokenize htokens
    have hspaces := spacesBlank_of_tokenize htokens
    refine ⟨ts, htokens, Edit.made_of_ordered (exists_writes names none hplaced hspaces).2 ?_⟩
    intro e he
    rcases List.mem_map.mp he with ⟨edit, hedit, rfl⟩
    have hstop := stop_le_of_mem_edits names none hplaced hspaces edit hedit
    rwa [textOf_of_tokenize htokens, Nat.zero_add] at hstop

/-- Every edit that is collected for the layouts, the declarations or the statements of a source is
made. -/
theorem edits_made (code : Text) :
    (forall isVertex text, Downgrade.collapseLayouts code isVertex = .ok text ->
      exists ts ds, tokenize code = .ok ts ∧ ofTokens ts = .ok ds ∧
        Edit.Made code (ds.filterMap (Downgrade.collapseEdit? code isVertex)) text) ∧
    (forall info stage text names outputs,
      convertInterface code info stage = .ok (text, names, outputs) ->
      exists ts ds, tokenize code = .ok ts ∧ ofTokens ts = .ok ds ∧
        Edit.Made code (ds.filterMap (declarationEdit? code ts stage)) text) ∧
    forall names text lod, convertStatements code names = .ok (text, lod) ->
      exists ts, tokenize code = .ok ts ∧
        Edit.Made code ((edits names none ts).map Prod.fst) text :=
  ⟨fun _ _ => Downgrade.made_collapse, fun _ _ _ _ _ => made_declarations,
    fun _ _ _ => made_statements⟩

/-- An input with a layout, and an output with interpolation. -/
def layoutAndFlat : Text :=
  "layout(location = 0) in vec3 a;\nflat out vec4 b;\n"

theorem edits_layoutAndFlat :
    ((tokenize layoutAndFlat).toOption.bind fun ts => (ofTokens ts).toOption.map fun ds =>
      ((ds.filterMap (Downgrade.collapseEdit? layoutAndFlat false),
          Downgrade.collapseFrom layoutAndFlat false 0 ds),
        (ds.filterMap (declarationEdit? layoutAndFlat ts Stages.fragmentOnly),
          convertFrom layoutAndFlat ts Stages.fragmentOnly 0 ds),
        (edits ⟨Stages.fragmentOnly, [], [], []⟩ none ts).map Prod.fst)) =
      (some (([⟨0, 21, []⟩], "in vec3 a;\nflat out vec4 b;\n"),
        ([⟨0, 31, "varying vec3 a;"⟩, ⟨32, 48, []⟩], "varying vec3 a;\n\n"),
        [⟨0, 21, []⟩, ⟨32, 37, []⟩]) :
        Option ((List Edit × Text) × (List Edit × Text) × List Edit)) := by
  decide +kernel

theorem edits_made_layoutAndFlat :
    Edit.Made layoutAndFlat [⟨0, 21, []⟩] "in vec3 a;\nflat out vec4 b;\n" ∧
    Edit.Made layoutAndFlat [⟨0, 31, "varying vec3 a;"⟩, ⟨32, 48, []⟩] "varying vec3 a;\n\n" ∧
    Edit.Made layoutAndFlat [⟨0, 21, []⟩, ⟨32, 37, []⟩] "in vec3 a;\nout vec4 b;\n" := by
  rcases Option.bind_eq_some_iff.mp edits_layoutAndFlat with ⟨ts, hts, hedits⟩
  rcases Option.map_eq_some_iff.mp hedits with ⟨ds, hds, hedits⟩
  have htokens := toOption_eq_some_iff.mp hts
  have hdeclares := toOption_eq_some_iff.mp hds
  simp only [Prod.mk.injEq] at hedits
  rcases hedits with ⟨⟨hlayouts, hcollapsed⟩, ⟨hinterface, hconverted⟩, hstatements⟩
  rcases edits_made layoutAndFlat with ⟨hfirst, hsecond, hthird⟩
  refine ⟨?_, ?_, ?_⟩
  · rcases hfirst false _ (Downgrade.collapseLayouts_eq htokens hdeclares false) with
      ⟨ts', ds', hts', hds', hmade⟩
    cases htokens.symm.trans hts'
    cases hdeclares.symm.trans hds'
    rwa [hlayouts, hcollapsed] at hmade
  · have hrun := convertInterface_eq layoutAndFlat none Stages.fragmentOnly
    simp only [htokens, hdeclares] at hrun
    rcases hsecond none Stages.fragmentOnly _ _ _ hrun with ⟨ts', ds', hts', hds', hmade⟩
    cases htokens.symm.trans hts'
    cases hdeclares.symm.trans hds'
    rwa [hinterface, hconverted] at hmade
  · have hrun := convertStatements_eq layoutAndFlat ⟨Stages.fragmentOnly, [], [], []⟩
    simp only [htokens, hstatements] at hrun
    rcases hthird _ _ _ hrun with ⟨ts', hts', hmade⟩
    cases htokens.symm.trans hts'
    rwa [hstatements] at hmade

end Legacy

end EffectShader
