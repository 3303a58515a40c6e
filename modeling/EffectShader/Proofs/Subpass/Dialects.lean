import EffectShader.Define.Extraction
import EffectShader.Proofs.Resource.Outlines
import EffectShader.Proofs.Subpass.Block
import Mathlib.Data.List.Lattice

/-!
# The declarations of one version

The lines that a version keeps of the block are read back.  Each of them introduces
one name, as a definition or as a declaration, and every attachment has its load and
its output in every version.
-/

namespace EffectShader

namespace Subpass

open Lexer Declaration Fold
open Text (ended ended_cons)

/-!
# What a line introduces
-/

inductive Introduction where
  | definition (name value : Text)
  | declaration (storage : Storage) (name : Text)
  deriving DecidableEq, Repr

def Introduction.name : Introduction -> Text
  | .definition name _ => name
  | .declaration _ name => name

def definition? (l : Text) : Option Introduction :=
  (Directive.parse? l).bind fun d =>
    if d.name == ("define" : Text) then
      let name := Extractor.definedName d.body
      some (.definition name (Text.trim (d.body.drop name.length)))
    else none

def Introduction.ofDeclaration (d : Declaration) : List Introduction :=
  d.vars.map fun v => .declaration d.storage v.name

def introduced (l : Text) : List Introduction :=
  (definition? l).toList ++ ((Declaration.ofText? l).getD []).flatMap Introduction.ofDeclaration

theorem ofDeclaration_unplaced (d : Declaration) :
    Introduction.ofDeclaration d.unplaced = Introduction.ofDeclaration d := by
  unfold Introduction.ofDeclaration
  rw [Declaration.vars_unplaced, List.map_map]
  rfl

theorem HoldsLine.flatMap_ofDeclaration {l : Text} {ds : List Declaration} (h : HoldsLine l ds) :
    ((Declaration.ofText? l).getD []).flatMap Introduction.ofDeclaration =
    ds.flatMap Introduction.ofDeclaration := by
  rcases h with ⟨us, rfl, hcuts, _, hdeclares⟩
  rcases hcuts [] (Or.inl rfl) with ⟨g, hcuts⟩
  have hlexes := hcuts.lexes (Lexes.nil g)
  have hds := hdeclares [] [] (Declares.finish ⟨by simp, by simp⟩)
  simp only [List.append_nil] at hlexes hds
  rcases hds _ (map_piece_place Position.start us) with ⟨ds', hunits, hsame⟩
  have hread : Declaration.ofText? (spell us) = some ds' :=
    Declaration.ofText?_eq_some_iff.mpr
      ⟨_, tokenize_eq_ok_iff.mpr ⟨us, hlexes, rfl⟩, ofTokens_eq_ok_iff.mpr hunits⟩
  have hunplaced : forall ds : List Declaration,
      ds.flatMap Introduction.ofDeclaration =
      (ds.map Declaration.unplaced).flatMap Introduction.ofDeclaration := by
    intro ds
    rw [List.flatMap_map]
    simp only [ofDeclaration_unplaced]
  rw [hread, Option.getD_some, hunplaced, hsame, ← hunplaced]

theorem introduced_define {x v : Text} (hx : isIdentifier x = true) (hv : IsMacroText v) :
    introduced ("#define " ++ (x ++ (" " ++ v))) = [.definition x v] := by
  have hmacro := isMacroText_of_isIdentifier hx
  have hparse := (spellsDirective_define hmacro hv).parse
  have hname : Extractor.definedName (x ++ (" " ++ v)) = x := by
    unfold Extractor.definedName
    rw [List.takeWhile_append_of_pos fun b hb => (isWord_of_isIdentifier hx).2 b hb]
    exact List.append_nil x
  have hvalue : Text.trim (" " ++ v) = v := by
    have hleft : Text.trimLeft (" " ++ v) = v :=
      (Text.trimLeft_space v).trans (Text.dropBlanks_of_head? fun c hc =>
        (hv.bytes (List.mem_of_head? hc)).2.2.2)
    have hright := Text.trimRight_append (m := v) (y := []) (by simp) fun c hc =>
      (hv.bytes (List.mem_of_getLast? hc)).2.2.2
    rw [List.append_nil] at hright
    unfold Text.trim
    rw [hleft, hright]
  unfold introduced
  rw [(holdsLine_define hmacro hv).flatMap_ofDeclaration, definition?, hparse]
  simp [hname, hvalue]

theorem introduced_declaration {l : Text} {d : Declaration} (h : HoldsLine l [d])
    (hstart : l.head? = some 'l'.toUInt8) : introduced l = Introduction.ofDeclaration d := by
  have hparse : Directive.parse? l = none := by
    cases l with
    | nil => cases hstart
    | cons b s =>
        cases hstart
        rfl
  unfold introduced
  rw [h.flatMap_ofDeclaration, definition?, hparse]
  simp

/-!
# The introductions of an attachment
-/

namespace Attachment

def vulkanIntroductions (a : Attachment) : List Introduction :=
  (if a.direction.reads then
    [.declaration .uniform a.inputName, .definition a.loadName a.inputLoad] else []) ++
    (if a.direction.writes then [.declaration .output a.name] else [])

def fetchIntroductions (a : Attachment) : List Introduction :=
  if a.aspect == .color then
    if a.direction.reads then [.declaration .both a.name, .definition a.loadName a.name]
    else [.declaration .output a.name]
  else [.definition a.loadName a.builtin]

def legacyIntroductions (a : Attachment) : List Introduction :=
  if a.aspect == .color then
    (if a.direction.reads then [.definition a.loadName (a.element "gl_LastFragData")] else []) ++
      (if a.direction.writes then [.definition a.name (a.element "gl_FragData")] else [])
  else [.definition a.loadName a.builtin]

def introductions (version : Int64) (a : Attachment) : List Introduction :=
  if 450 ≤ version then a.vulkanIntroductions
  else if 300 ≤ version then a.fetchIntroductions
  else a.legacyIntroductions

end Attachment

section Attachment

variable {a : Attachment} (ha : a.IsDeclared)

include ha

theorem introduced_loadDefine {value : Text} (hvalue : IsMacroText value) :
    introduced (a.loadDefine value) = [.definition a.loadName value] := by
  rw [Attachment.loadDefine_eq]
  exact introduced_define (isIdentifier_loadName ha) hvalue

theorem introduced_outputLine (storage : Storage) (hstorage : storage = .output ∨ storage = .both) :
    introduced (a.outputLine (Text.ofString storage.keyword)) =
      [.declaration storage a.name] :=
  introduced_declaration (holdsLine_outputLine ha storage hstorage) rfl

theorem map_introduced_vulkanLines :
    a.vulkanLines.map introduced = a.vulkanIntroductions.map ([·]) := by
  have hinput := introduced_declaration (holdsLine_inputLine ha) rfl
  have hload := introduced_loadDefine ha (isMacroText_inputLoad ha)
  have houtput : introduced (a.outputLine "out") = _ :=
    introduced_outputLine ha .output (Or.inl rfl)
  unfold Attachment.inputLoad at hload
  unfold Attachment.vulkanLines Attachment.vulkanIntroductions Attachment.inputLoad
  rw [List.map_append, List.map_append]
  congr 1
  · split
    · rw [List.map_cons, List.map_singleton, hinput, hload]
      rfl
    · rfl
  · split
    · rw [List.map_singleton, houtput]
      rfl
    · rfl

theorem map_introduced_builtinLines :
    a.builtinLines.map introduced = [[.definition a.loadName a.builtin]] := by
  rw [Attachment.builtinLines_eq, List.map_singleton, introduced_loadDefine ha isMacroText_builtin]

theorem map_introduced_fetchLines :
    a.fetchLines.map introduced = a.fetchIntroductions.map ([·]) := by
  have hload := introduced_loadDefine ha (isMacroText_of_isIdentifier ha.name)
  have hboth : introduced (a.outputLine "inout") = _ := introduced_outputLine ha .both (Or.inr rfl)
  have houtput : introduced (a.outputLine "out") = _ :=
    introduced_outputLine ha .output (Or.inl rfl)
  unfold Attachment.fetchLines Attachment.fetchIntroductions
  split
  · split
    · rw [List.map_cons, List.map_singleton, hboth, hload]
      rfl
    · rw [List.map_singleton, houtput]
      rfl
  · exact map_introduced_builtinLines ha

theorem map_introduced_legacyLines :
    a.legacyLines.map introduced = a.legacyIntroductions.map ([·]) := by
  have helement : forall array : Text, isIdentifier array = true -> IsMacroText (a.element array) :=
    fun array harray => isMacroText_element (isMacroText_of_isIdentifier harray)
  have hload := introduced_loadDefine ha (helement "gl_LastFragData" (by decide))
  have houtput := introduced_define ha.name (helement "gl_FragData" (by decide))
  rw [Attachment.legacyLines_eq]
  unfold Attachment.legacyIntroductions
  split
  · rw [List.map_append, List.map_append]
    congr 1
    · split
      · rw [List.map_singleton, hload]
        rfl
      · rfl
    · split
      · rw [List.map_singleton, houtput]
        rfl
      · rfl
  · exact map_introduced_builtinLines ha

theorem map_introduced_linesFor (version : Int64) :
    (a.linesFor version).map introduced = (a.introductions version).map ([·]) := by
  unfold Attachment.linesFor Attachment.introductions
  split
  · exact map_introduced_vulkanLines ha
  · split
    · exact map_introduced_fetchLines ha
    · exact map_introduced_legacyLines ha

theorem flatMap_introduced_linesFor (version : Int64) :
    (a.linesFor version).flatMap introduced = a.introductions version := by
  rw [List.flatMap_def, map_introduced_linesFor ha, ← List.flatMap_def]
  exact List.flatMap_singleton' _

end Attachment

/-!
# Loads and outputs
-/

/-- The line defines the macro that loads the attachment. -/
def definesLoad (a : Attachment) (l : Text) : Bool :=
  (introduced l).any fun i => i matches .definition .. && i.name == a.loadName

def makesAssignable (a : Attachment) (l : Text) : Bool :=
  (introduced l).any fun
    | .definition name value => name == a.name && value == a.element "gl_FragData"
    | .declaration storage name => name == a.name && (storage == .output || storage == .both)

theorem countP_linesFor {a : Attachment} (ha : a.IsDeclared) (version : Int64)
    (p : Introduction -> Bool) :
    (a.linesFor version).countP (fun l => (introduced l).any p) =
      (a.introductions version).countP p := by
  have hmap : forall ls : List Text, ls.countP (fun l => (introduced l).any p) =
      (ls.map introduced).countP (fun is => is.any p) := by
    intro ls
    rw [List.countP_map]
    rfl
  rw [hmap, map_introduced_linesFor ha, List.countP_map]
  simp [Function.comp_def]

theorem Attachment.loadName_ne (a : Attachment) : a.loadName ≠ a.name := by
  intro heq
  have hlength := congrArg List.length heq
  rw [loadName, List.length_append] at hlength
  have hstart : (Text.ofString "subpassLoad_").length = 12 := rfl
  omega

theorem Attachment.IsDeclared.color_of_writes {a : Attachment} (ha : a.IsDeclared)
    (hwrites : a.direction.writes = true) : a.aspect = .color := by
  have hsupported := ha.supported
  revert hwrites hsupported
  cases a.aspect <;> cases a.direction <;> decide

theorem countP_definesLoad {a : Attachment} (ha : a.IsDeclared) (hreads : a.direction.reads = true)
    (version : Int64) : (a.linesFor version).countP (definesLoad a) = 1 := by
  have hname : (a.name == a.loadName) = false := beq_false_of_ne a.loadName_ne.symm
  unfold definesLoad
  rw [countP_linesFor ha]
  unfold Attachment.introductions Attachment.vulkanIntroductions Attachment.fetchIntroductions
    Attachment.legacyIntroductions
  simp only [hreads, if_true]
  split
  · cases a.direction.writes <;> simp [Introduction.name]
  · split
    · cases a.aspect == Aspect.color <;> simp [Introduction.name]
    · cases a.aspect == Aspect.color <;> cases a.direction.writes <;>
        simp [Introduction.name, hname]

/-- Every version makes the name of an attachment that is written one to assign to. -/
theorem countP_makesAssignable {a : Attachment} (ha : a.IsDeclared)
    (hwrites : a.direction.writes = true) (version : Int64) :
    (a.linesFor version).countP (makesAssignable a) = 1 := by
  have hcolor := ha.color_of_writes hwrites
  have hname : (a.loadName == a.name) = false := beq_false_of_ne a.loadName_ne
  unfold makesAssignable
  rw [countP_linesFor ha]
  unfold Attachment.introductions Attachment.vulkanIntroductions Attachment.fetchIntroductions
    Attachment.legacyIntroductions
  simp only [hwrites, hcolor, if_true, beq_self_eq_true]
  split
  · cases a.direction.reads <;> simp [hname]
  · split
    · cases a.direction.reads <;> simp [hname]
    · cases a.direction.reads <;> simp [hname]

/-!
# Folding the block
-/

def spoken (s : Text) : List Text :=
  s.lines.filter fun l => !l.isEmpty

theorem spoken_newlines {u : Text} (hu : forall b, b ∈ u -> b = Byte.newline) (s : Text) :
    spoken (u ++ s) = spoken s := by
  induction u with
  | nil => rfl
  | cons b u ih =>
      rcases List.forall_mem_cons.mp hu with ⟨rfl, hrest⟩
      have hlines : spoken (Byte.newline :: (u ++ s)) = spoken (u ++ s) := by
        unfold spoken
        rw [Text.lines_cons_newline]
        rfl
      rw [List.cons_append, hlines, ih hrest]

theorem spoken_ended {ls : List Text} (hline : forall l, l ∈ ls -> Byte.newline ∉ l)
    (hne : forall l, l ∈ ls -> l ≠ []) (s : Text) : spoken (ended ls ++ s) = ls ++ spoken s := by
  induction ls with
  | nil => rfl
  | cons l ls ih =>
      rcases List.forall_mem_cons.mp hline with ⟨hl, hline⟩
      rcases List.forall_mem_cons.mp hne with ⟨hlne, hne⟩
      have hlines : spoken (l ++ Byte.newline :: (ended ls ++ s)) =
          l :: spoken (ended ls ++ s) := by
        unfold spoken
        rw [Text.lines_append_newline hl, List.filter_cons_of_pos (by simp [hlne])]
      rw [ended_cons, hlines, ih hline hne, List.cons_append]

theorem newline_not_mem_linesFor {a : Attachment} (ha : a.IsInline) (version : Int64) :
    forall l, l ∈ a.linesFor version -> Byte.newline ∉ l := by
  unfold Attachment.linesFor
  split
  · exact newline_not_mem_vulkanLines ha
  · split
    · exact newline_not_mem_fetchLines ha
    · exact newline_not_mem_legacyLines ha

theorem ne_nil_of_mem_linesFor {a : Attachment} (ha : a.IsDeclared) {version : Int64} {l : Text}
    (hl : l ∈ a.linesFor version) : l ≠ [] := by
  rintro rfl
  have hmem := List.mem_map_of_mem (f := introduced) hl
  rw [map_introduced_linesFor ha] at hmem
  rcases List.mem_map.mp hmem with ⟨i, _, heq⟩
  have hnil : introduced [] = [] := by decide +kernel
  rw [hnil] at heq
  cases heq

theorem exists_fold_blockLines (version : Int64) {as : List Attachment}
    (has : forall a, a ∈ as -> a.IsDeclared) :
    exists text, fold (Text.unlines (blockLines as)) version.toInt = .ok text ∧
      spoken text = as.flatMap (Attachment.linesFor version) := by
  have hnil : Folds version.toInt false [] [] [] [] := ⟨[], Lexes.nil false, Runs.nil []⟩
  have hfolds := folds_block has rfl (Or.inl rfl) hnil
  rw [Int64.ofInt_toInt, List.append_nil, List.append_nil] at hfolds
  rcases foldedBlock_eq version as with ⟨u, w, hu, hw, hfolded⟩
  refine ⟨_, hfolds.fold_eq, ?_⟩
  have hmem : forall l, l ∈ as.flatMap (Attachment.linesFor version) ->
      Byte.newline ∉ l ∧ l ≠ [] := by
    intro l hl
    rcases List.mem_flatMap.mp hl with ⟨a, ha, hl⟩
    exact ⟨newline_not_mem_linesFor (has a ha).isInline version l hl,
      ne_nil_of_mem_linesFor (has a ha) hl⟩
  have hend := spoken_newlines hw []
  rw [List.append_nil] at hend
  rw [hfolded, spoken_newlines hu, spoken_ended (fun l hl => (hmem l hl).1) fun l hl =>
    (hmem l hl).2,
    hend]
  exact List.append_nil _

/-- The block of a source, folded for any version, has the lines of that version for each of its
attachments and no others.  One of them defines the load of an attachment that is read, and one
makes the name of an attachment that is written one to assign to. -/
theorem expand_dialects {code : Text} {lines : LineMap} {e : Expansion}
    (h : expand code lines = .ok e) (version : Int64) :
    exists text, fold (Text.unlines (blockLines e.attachments)) version.toInt = .ok text ∧
      spoken text = e.attachments.flatMap (Attachment.linesFor version) ∧
      forall a, a ∈ e.attachments ->
        (a.direction.reads = true -> (a.linesFor version).countP (definesLoad a) = 1) ∧
        (a.direction.writes = true -> (a.linesFor version).countP (makesAssignable a) = 1) := by
  have hdeclared := (located_of_expand h).declared
  rcases exists_fold_blockLines version hdeclared with ⟨text, hfold, hlines⟩
  exact ⟨text, hfold, hlines, fun a ha =>
    ⟨fun hreads => countP_definesLoad (hdeclared a ha) hreads version,
      fun hwrites => countP_makesAssignable (hdeclared a ha) hwrites version⟩⟩

/-- Framebuffer fetch of a depth attachment and of a color attachment that is also written. -/
theorem expand_dialects_fetch :
    exists e text,
      expand "#pragma subpassColor inout a\n#pragma subpassDepth in d" LineMap.identity = .ok e ∧
      fold (Text.unlines (blockLines e.attachments)) 300 = .ok text ∧
      spoken text = ["#define subpassLoad_d gl_LastFragDepthARM",
        "layout(location = 0) inout vec4 a;", "#define subpassLoad_a a"] := by
  have hsurvey : (Text.lines "#pragma subpassColor inout a\n#pragma subpassDepth in d").foldlM
      Survey.read ⟨[], [], none, none⟩ = .ok
      ⟨[[], []], [⟨.color, .both, .float, [], "a", 1, none, none⟩,
        ⟨.depth, .input, .float, [], "d", 2, none, none⟩], none, some 0⟩ := by
    decide +kernel
  rcases exists_expand hsurvey rfl (by simp) LineMap.identity with ⟨e, hexpand, hattachments⟩
  have hsorted : e.attachments = [⟨.depth, .input, .float, [], "d", 2, some 1, none⟩,
      ⟨.color, .both, .float, [], "a", 1, some 0, some 0⟩] := by
    rw [hattachments]
    exact (mergeSort_pair _ _ _).trans (by decide +kernel)
  rcases expand_dialects hexpand 300 with ⟨text, hfold, hlines, _⟩
  refine ⟨e, text, hexpand, hfold, ?_⟩
  rw [hlines, hsorted]
  decide +kernel

end Subpass

/-!
# Names that clash

Beside its own name an attachment has generated ones, for its load and for the input
that goes with an output.  The names that a version introduces are distinct exactly
if no generated name is also the name of an attachment or another generated one;
only the names of the attachments themselves are checked when a source is expanded.
-/

namespace Subpass

open Fold

/-- No generated name is the name of an attachment, or generated twice. -/
def NamesApart (as : List Attachment) : Prop :=
  forall a, a ∈ as -> forall b, b ∈ as ->
    (a.direction.reads = true -> b.name ≠ a.loadName) ∧
    (a.direction = .both -> b.name ≠ a.inputName) ∧
    (a.direction = .both -> b.direction.reads = true -> a.inputName ≠ b.loadName)

instance (as : List Attachment) : Decidable (NamesApart as) :=
  inferInstanceAs (Decidable (forall a, a ∈ as -> _))

/-!
# The names of one attachment
-/

namespace Attachment

def names (version : Int64) (a : Attachment) : List Text :=
  (a.introductions version).map Introduction.name

inductive Names (a : Attachment) : Text -> Prop where
  | own : Names a a.name
  | load : a.direction.reads = true -> Names a a.loadName
  | input : a.direction = .both -> Names a a.inputName

theorem inputName_of_both {a : Attachment} (h : a.direction = .both) :
    a.inputName = a.name ++ "_input" := by
  unfold inputName
  rw [h]
  rfl

theorem inputName_of_ne_both {a : Attachment} (h : a.direction ≠ .both) : a.inputName = a.name := by
  unfold inputName
  rw [if_neg (by simpa using h)]

theorem inputName_ne_name {a : Attachment} (h : a.direction = .both) : a.inputName ≠ a.name := by
  intro heq
  have hlength := congrArg List.length heq
  rw [inputName_of_both h, List.length_append] at hlength
  have hend : (Text.ofString "_input").length = 6 := rfl
  omega

theorem inputName_ne_loadName (a : Attachment) : a.inputName ≠ a.loadName := by
  by_cases h : a.direction = .both
  · intro heq
    have hlength := congrArg List.length heq
    rw [inputName_of_both h, loadName, List.length_append, List.length_append] at hlength
    have hstart : (Text.ofString "subpassLoad_").length = 12 := rfl
    have hend : (Text.ofString "_input").length = 6 := rfl
    omega
  · rw [inputName_of_ne_both h]
    exact a.loadName_ne.symm

theorem names_of_mem {a : Attachment} (ha : a.IsDeclared) {version : Int64} {x : Text}
    (h : x ∈ a.names version) : a.Names x := by
  have hbuiltin : ¬ (a.aspect == Aspect.color) = true -> a.direction.reads = true := by
    have hsupported := ha.supported
    revert hsupported
    cases a.aspect <;> cases a.direction <;> decide
  have hcases : x = a.name ∨ a.direction.reads = true ∧ (x = a.loadName ∨ x = a.inputName) := by
    unfold names introductions vulkanIntroductions fetchIntroductions legacyIntroductions at h
    grind [Introduction.name]
  rcases hcases with rfl | ⟨hreads, rfl | rfl⟩
  · exact .own
  · exact .load hreads
  · by_cases hboth : a.direction = .both
    · exact .input hboth
    · rw [inputName_of_ne_both hboth]
      exact .own

theorem mem_names_of_names {a : Attachment} {version : Int64} (hversion : 450 ≤ version) {x : Text}
    (h : a.Names x) : x ∈ a.names version := by
  unfold names introductions vulkanIntroductions
  rw [if_pos hversion]
  cases h with
  | own =>
      by_cases hwrites : a.direction.writes = true
      · simp [hwrites, Introduction.name]
      · have hinput : a.direction = .input := by
          revert hwrites
          cases a.direction <;> decide
        have hname : a.inputName = a.name := inputName_of_ne_both (by rw [hinput]; decide)
        simp [hinput, Direction.reads, hname, Introduction.name]
  | load hreads => simp [hreads, Introduction.name]
  | input hboth => simp [hboth, Direction.reads, Introduction.name]

theorem nodup_names (version : Int64) (a : Attachment) : (a.names version).Nodup := by
  have hload := a.loadName_ne
  have hinput := a.inputName_ne_loadName
  unfold names introductions vulkanIntroductions fetchIntroductions legacyIntroductions
  split
  · cases hdirection : a.direction with
    | input | output => simp [Direction.reads, Direction.writes, Introduction.name, hinput]
    | both =>
        have hname := inputName_ne_name hdirection
        simp [Direction.reads, Direction.writes, Introduction.name, hload, hinput, hname]
  · split
    · cases a.aspect == Aspect.color <;> cases a.direction <;>
        simp [Direction.reads, Introduction.name, hload.symm]
    · cases a.aspect == Aspect.color <;> cases a.direction <;>
        simp [Direction.reads, Direction.writes, Introduction.name, hload]

end Attachment

/-!
# The names of all attachments
-/

theorem NamesApart.eq {as : List Attachment} (h : NamesApart as) (has : Distinct as)
    {a b : Attachment} (ha : a ∈ as) (hb : b ∈ as) {x : Text} (hx : a.Names x) (hy : b.Names x) :
    a = b := by
  rcases h a ha b hb with ⟨hload, hinput, hgenerated⟩
  rcases h b hb a ha with ⟨hload', hinput', hgenerated'⟩
  generalize heq : x = y at hy
  cases hx with
  | own =>
      cases hy with
      | own => exact has.eq_of_name ha hb heq
      | load hreads => exact absurd heq (hload' hreads)
      | input hboth => exact absurd heq (hinput' hboth)
  | load hreads =>
      cases hy with
      | own => exact absurd heq.symm (hload hreads)
      | load => exact has.eq_of_name ha hb (List.append_cancel_left heq)
      | input hboth => exact absurd heq.symm (hgenerated' hboth hreads)
  | input hboth =>
      cases hy with
      | own => exact absurd heq.symm (hinput hboth)
      | load hreads => exact absurd heq (hgenerated hboth hreads)
      | input hboth' =>
          rw [Attachment.inputName_of_both hboth, Attachment.inputName_of_both hboth'] at heq
          exact has.eq_of_name ha hb (List.append_cancel_right heq)

/-- The names are distinct in every version exactly if they are apart. -/
theorem nodup_names_iff {as : List Attachment} (has : Distinct as) :
    (forall version : Int64, (as.flatMap (Attachment.names version)).Nodup) ↔ NamesApart as := by
  constructor
  · intro hnodup a ha b hb
    have hvulkan := List.nodup_flatMap.mp (hnodup 450)
    have hsymm : Std.Symm (Function.onFun List.Disjoint (Attachment.names 450)) :=
      ⟨fun _ _ h => List.Disjoint.symm h⟩
    have hapart : forall x, a.Names x -> b.Names x -> a = b := by
      intro x hx hy
      by_contra hne
      exact hvulkan.2.forall ha hb hne (Attachment.mem_names_of_names (Int64.le_refl 450) hx)
        (Attachment.mem_names_of_names (Int64.le_refl 450) hy)
    refine ⟨?_, ?_, ?_⟩
    · intro hreads heq
      have hsame := hapart a.loadName (.load hreads) (heq ▸ .own)
      exact a.loadName_ne (hsame ▸ heq.symm)
    · intro hboth heq
      have hsame := hapart a.inputName (.input hboth) (heq ▸ .own)
      exact Attachment.inputName_ne_name hboth (hsame ▸ heq.symm)
    · intro hboth hreads heq
      have hsame := hapart a.inputName (.input hboth) (heq ▸ .load hreads)
      exact a.inputName_ne_loadName (hsame ▸ heq)
  · intro h version
    refine List.nodup_flatMap.mpr ⟨fun a _ => Attachment.nodup_names version a, ?_⟩
    refine (List.Nodup.of_map _ has.names).pairwise_of_forall_ne ?_
    intro a ha b hb hne x hx hy
    exact hne (h.eq has ha hb (Attachment.names_of_mem (has.declared a ha) hx)
      (Attachment.names_of_mem (has.declared b hb) hy))

/-!
# The names of a block
-/

def introducedNames (text : Text) : List Text :=
  ((spoken text).flatMap introduced).map Introduction.name

theorem introducedNames_eq {version : Int64} {as : List Attachment} {text : Text}
    (has : forall a, a ∈ as -> a.IsDeclared)
    (h : spoken text = as.flatMap (Attachment.linesFor version)) :
    introducedNames text = as.flatMap (Attachment.names version) := by
  unfold introducedNames Attachment.names
  rw [h, List.flatMap_assoc, List.map_flatMap]
  exact List.flatMap_congr fun a ha =>
    congrArg (List.map Introduction.name) (flatMap_introduced_linesFor (has a ha) version)

/-- What every version leaves of the block of a source introduces each name once, exactly if no
generated name is the name of an attachment or generated twice. -/
theorem expand_names_distinct_iff {code : Text} {lines : LineMap} {e : Expansion}
    (h : expand code lines = .ok e) :
    (forall version : Int64, exists text,
      fold (Text.unlines (blockLines e.attachments)) version.toInt = .ok text ∧
      (introducedNames text).Nodup) ↔ NamesApart e.attachments := by
  have hdistinct := (located_of_expand h).toDistinct
  rw [← nodup_names_iff hdistinct]
  refine forall_congr' fun version => ?_
  rcases exists_fold_blockLines version hdistinct.declared with ⟨text, hfold, hlines⟩
  rw [← introducedNames_eq hdistinct.declared hlines]
  constructor
  · rintro ⟨text', hfold', hnodup⟩
    cases hfold.symm.trans hfold'
    exact hnodup
  · exact fun hnodup => ⟨text, hfold, hnodup⟩

/-- Two attachments whose names are apart. -/
theorem expand_names_distinct_iff_apart :
    exists e, expand "#pragma subpassColor inout a\n#pragma subpassColor in b" LineMap.identity =
        .ok e ∧
      forall version : Int64, exists text,
        fold (Text.unlines (blockLines e.attachments)) version.toInt = .ok text ∧
        (introducedNames text).Nodup := by
  have hsurvey : (Text.lines "#pragma subpassColor inout a\n#pragma subpassColor in b").foldlM
      Survey.read ⟨[], [], none, none⟩ = .ok
      ⟨[[], []], [⟨.color, .both, .float, [], "a", 1, none, none⟩,
        ⟨.color, .input, .float, [], "b", 2, none, none⟩], none, some 0⟩ := by
    decide +kernel
  rcases exists_expand hsurvey rfl (by simp) LineMap.identity with ⟨e, hexpand, hattachments⟩
  have hsorted : e.attachments = [⟨.color, .input, .float, [], "b", 2, some 1, some 1⟩,
      ⟨.color, .both, .float, [], "a", 1, some 0, some 0⟩] := by
    rw [hattachments]
    exact (mergeSort_pair _ _ _).trans (by decide +kernel)
  refine ⟨e, hexpand, (expand_names_distinct_iff hexpand).mpr ?_⟩
  rw [hsorted]
  decide +kernel

/-- An attachment with the name of the input that goes with another one. -/
theorem input_name_declared_twice :
    exists e text,
      expand "#pragma subpassColor inout a\n#pragma subpassColor in a_input" LineMap.identity =
        .ok e ∧
      fold (Text.unlines (blockLines e.attachments)) 450 = .ok text ∧
      ¬ (introducedNames text).Nodup := by
  have hsurvey : (Text.lines
      "#pragma subpassColor inout a\n#pragma subpassColor in a_input").foldlM
      Survey.read ⟨[], [], none, none⟩ = .ok
      ⟨[[], []], [⟨.color, .both, .float, [], "a", 1, none, none⟩,
        ⟨.color, .input, .float, [], "a_input", 2, none, none⟩], none, some 0⟩ := by
    decide +kernel
  rcases exists_expand hsurvey rfl (by simp) LineMap.identity with ⟨e, hexpand, hattachments⟩
  have hsorted : e.attachments = [⟨.color, .input, .float, [], "a_input", 2, some 1, some 1⟩,
      ⟨.color, .both, .float, [], "a", 1, some 0, some 0⟩] := by
    rw [hattachments]
    exact (mergeSort_pair _ _ _).trans (by decide +kernel)
  have hdeclared := (located_of_expand hexpand).declared
  rcases exists_fold_blockLines 450 hdeclared with ⟨text, hfold, hlines⟩
  refine ⟨e, text, hexpand, hfold, ?_⟩
  rw [introducedNames_eq hdeclared hlines, hsorted]
  decide +kernel

end Subpass

end EffectShader
