import EffectShader.Proofs.Condition.Printing
import EffectShader.Proofs.Subpass.Lines

/-!
# The block of subpass declarations

The declarations for all versions are the branches of one conditional.  For a
version with input attachments the first branch is left, and it declares a uniform
for each attachment that is read and an output for each one that is written.
-/

namespace EffectShader

namespace Subpass

open Lexer Declaration Fold
open Text (ended ended_cons)

/-!
# Lines that hold declarations
-/

def HoldsLine (l : Text) (ds : List Declaration) : Prop :=
  exists us, spell us = l ∧ CutsLine us ∧ (forall u, u ∈ us -> IsInert u) ∧
    forall ws ds', Declares ws ds' -> Declares (us ++ ws) (ds ++ ds')

theorem HoldsLine.isInertLine {l : Text} {ds : List Declaration} (h : HoldsLine l ds) :
    IsInertLine l := by
  rcases h with ⟨us, hspell, hcuts, hinert, _⟩
  exact ⟨us, hspell, hcuts, hinert⟩

theorem kind_ne_directive_of_cuts {g : Bool} {us : List Piece} {r : Text} (h : Cuts false us g r)
    (hline : Byte.newline ∉ spell us) : forall u, u ∈ us -> u.kind ≠ .directive := by
  generalize hfresh : false = f at h
  induction h with
  | nil => simp
  | @cons f g kind b v r us hextent _ ih =>
      subst hfresh
      rw [spell_cons, List.mem_append, not_or] at hline
      have hkind : kind ≠ .directive := by
        rintro rfl
        exact Bool.false_ne_true (directive_of_extent? hextent).2.1
      exact List.forall_mem_cons.mpr ⟨hkind, ih hline.2 (staysFresh_eq_false hline.1).symm⟩

theorem holdsLine_of_yields {l : Text} {ds : List Declaration} (h : Yields l ds)
    (hline : Byte.newline ∉ l) : HoldsLine l ds := by
  rcases h with ⟨us, rfl, _, hcuts, hdeclares⟩
  refine ⟨us, rfl, fun r _ => ⟨false, hcuts true r⟩, ?_, hdeclares⟩
  intro u hu
  exact isInert_of_kind (kind_ne_directive_of_cuts (hcuts false []) hline u hu)

theorem holdsLine_define {x v : Text} (hx : IsMacroText x) (hv : IsMacroText v) :
    HoldsLine ("#define " ++ (x ++ (" " ++ v))) [] := by
  have hd := spellsDirective_define hx hv
  refine ⟨[⟨.directive, _⟩], by simp, fun r hr => ⟨false, hd.cuts r hr⟩, ?_, ?_⟩
  · intro u hu
    rw [List.mem_singleton.mp hu]
    exact hd.isInert rfl
  · exact fun ws ds' hws => Declares.skip rfl hws

inductive HoldLines : List Text -> List Declaration -> Prop where
  | nil : HoldLines [] []
  | cons {l : Text} {ls : List Text} {ds ds' : List Declaration} :
      HoldsLine l ds -> HoldLines ls ds' -> HoldLines (l :: ls) (ds ++ ds')

theorem HoldLines.single {l : Text} {ds : List Declaration} (h : HoldsLine l ds) :
    HoldLines [l] ds := by
  have hlines := HoldLines.cons h HoldLines.nil
  rw [List.append_nil] at hlines
  exact hlines

theorem HoldLines.append {ks ls : List Text} {ds ds' : List Declaration} (hks : HoldLines ks ds)
    (hls : HoldLines ls ds') : HoldLines (ks ++ ls) (ds ++ ds') := by
  induction hks with
  | nil => exact hls
  | cons hl _ ih =>
      rw [List.append_assoc]
      exact HoldLines.cons hl ih

theorem HoldLines.flatMap {as : List Attachment} {f : Attachment -> List Text}
    {g : Attachment -> List Declaration} (h : forall a, a ∈ as -> HoldLines (f a) (g a)) :
    HoldLines (as.flatMap f) (as.flatMap g) := by
  induction as with
  | nil => exact HoldLines.nil
  | cons a as ih =>
      rcases List.forall_mem_cons.mp h with ⟨ha, has⟩
      exact ha.append (ih has)

theorem HoldLines.isInertLine {ls : List Text} {ds : List Declaration} (h : HoldLines ls ds) :
    forall l, l ∈ ls -> IsInertLine l := by
  induction h with
  | nil => simp
  | cons hl _ ih => exact List.forall_mem_cons.mpr ⟨hl.isInertLine, ih⟩

theorem HoldLines.exists_lexes {ls : List Text} {ds ds' : List Declaration} {r : Text}
    {ws : List Piece} (h : HoldLines ls ds) (hlexes : Lexes true r ws) (hws : Declares ws ds') :
    exists us, Lexes true (ended ls ++ r) us ∧ Declares us (ds ++ ds') := by
  induction h with
  | nil => exact ⟨ws, hlexes, hws⟩
  | @cons l ls ds ds'' hl _ ih =>
      rcases ih with ⟨us, hus, hdeclares⟩
      rcases hl with ⟨vs, rfl, hcuts, _, hvs⟩
      rcases hcuts (Byte.newline :: (ended ls ++ r)) (Or.inr rfl) with ⟨g, hcuts⟩
      have hsep : forall c, c ∈ [Byte.newline] -> isSeparator c = true := by simp [isSeparator]
      have hfresh : (g || [Byte.newline].contains Byte.newline) = true := by simp
      rcases exists_lexes_separators hsep (hfresh ▸ hus) with ⟨us', hus', hshape⟩
      have hrest := Declaration.declares_separators rfl hshape hdeclares
      refine ⟨vs ++ us', ?_, ?_⟩
      · rw [ended_cons]
        exact hcuts.lexes hus'
      · rw [List.append_assoc]
        exact hvs us' _ hrest

/-!
# The values of definitions
-/

namespace Attachment

def loadName (a : Attachment) : Text :=
  "subpassLoad_" ++ a.name

def inputLoad (a : Attachment) : Text :=
  "subpassLoad(" ++ a.inputName ++ ")" ++ (if a.aspect == .color then ("" : Text) else ".x")

def element (a : Attachment) (array : Text) : Text :=
  array ++ ("[" ++ (a.locationText ++ "]"))

/-- The variable that depth or stencil comes from. -/
def builtin (a : Attachment) : Text :=
  if a.aspect == .depth then "gl_LastFragDepthARM" else "gl_LastFragStencilARM"

theorem loadDefine_eq (a : Attachment) (value : Text) :
    a.loadDefine value = "#define " ++ (a.loadName ++ (" " ++ value)) := by
  have hstart : Text.ofString "#define subpassLoad_" =
      Text.ofString "#define " ++ Text.ofString "subpassLoad_" := rfl
  unfold loadDefine loadName
  rw [hstart]
  simp

theorem builtinLines_eq (a : Attachment) : a.builtinLines = [a.loadDefine a.builtin] := by
  unfold builtinLines builtin
  split <;> rfl

theorem legacyLines_eq (a : Attachment) :
    a.legacyLines = if a.aspect == .color then
      (if a.direction.reads then [a.loadDefine (a.element "gl_LastFragData")] else []) ++
        (if a.direction.writes then
          ["#define " ++ (a.name ++ (" " ++ a.element "gl_FragData"))] else [])
    else a.builtinLines := by
  have hload : Text.ofString "gl_LastFragData[" =
      Text.ofString "gl_LastFragData" ++ Text.ofString "[" := rfl
  have hoffset : Text.ofString " gl_FragData[" =
      Text.ofString " " ++ (Text.ofString "gl_FragData" ++ Text.ofString "[") := rfl
  unfold legacyLines element
  rw [hload, hoffset]
  simp only [List.append_assoc]

end Attachment

section Values

variable {a : Attachment} (ha : a.IsDeclared)

include ha

theorem isIdentifier_loadName : isIdentifier a.loadName = true := by
  have hname := (isWord_of_isIdentifier ha.name).2
  show (true && (Text.ofString "ubpassLoad_" ++ a.name).all Byte.isWord) = true
  rw [List.all_append, List.all_eq_true.mpr hname]
  rfl

theorem isMacroText_inputLoad : IsMacroText a.inputLoad := by
  have hcall : IsMacroText ("subpassLoad(" ++ a.inputName ++ ")") :=
    ((isMacroText_of_all (by decide)).append (isMacroText_of_isIdentifier
      (isIdentifier_inputName ha))).append (isMacroText_of_all (by decide))
  unfold Attachment.inputLoad
  split
  · rw [show Text.ofString "" = [] from rfl, List.append_nil]
    exact hcall
  · exact hcall.append (isMacroText_of_all (by decide))

omit ha in
theorem isMacroText_element {array : Text} (harray : IsMacroText array) :
    IsMacroText (a.element array) :=
  harray.append ((isMacroText_of_all (by decide)).append
    ((isMacroText_ofNat _).append (isMacroText_of_all (by decide))))

omit ha in
theorem isMacroText_builtin : IsMacroText a.builtin := by
  unfold Attachment.builtin
  split <;> exact isMacroText_of_isIdentifier (by decide)

end Values

/-!
# The lines of an attachment
-/

section Attachment

variable {a : Attachment} (ha : a.IsDeclared)

include ha

theorem holdsLine_loadDefine {value : Text} (hvalue : IsMacroText value) :
    HoldsLine (a.loadDefine value) [] := by
  rw [Attachment.loadDefine_eq]
  exact holdsLine_define (isMacroText_of_isIdentifier (isIdentifier_loadName ha)) hvalue

theorem holdsLine_inputLine :
    HoldsLine ("layout(input_attachment_index = " ++ Text.ofNat (a.input.getD 0) ++ ") uniform " ++
      a.qualified (inputType a.scalar) ++ " " ++ a.inputName ++ ";") [a.inputDeclaration] :=
  holdsLine_of_yields (yields_inputLine ha) (newline_not_mem_inputLine ha.isInline _)

theorem holdsLine_outputLine (storage : Storage) (hstorage : storage = .output ∨ storage = .both) :
    HoldsLine (a.outputLine (Text.ofString storage.keyword)) [a.outputDeclaration storage] := by
  apply holdsLine_of_yields (yields_outputLine ha storage)
  apply newline_not_mem_outputLine ha.isInline
  rcases hstorage with rfl | rfl <;> decide

def Attachment.declarations (a : Attachment) : List Declaration :=
  (if a.direction.reads then [a.inputDeclaration] else []) ++
    (if a.direction.writes then [a.outputDeclaration .output] else [])

theorem holdLines_vulkanLines : HoldLines a.vulkanLines a.declarations := by
  unfold Attachment.vulkanLines Attachment.declarations
  refine HoldLines.append ?_ ?_
  · split
    · exact HoldLines.cons (holdsLine_inputLine ha)
        (HoldLines.single (holdsLine_loadDefine ha (isMacroText_inputLoad ha)))
    · exact HoldLines.nil
  · split
    · exact HoldLines.single (holdsLine_outputLine ha .output (Or.inl rfl))
    · exact HoldLines.nil

theorem isInertLine_builtinLines : forall l, l ∈ a.builtinLines -> IsInertLine l := by
  rw [Attachment.builtinLines_eq]
  intro l hl
  rw [List.mem_singleton.mp hl]
  exact (holdsLine_loadDefine ha isMacroText_builtin).isInertLine

theorem isInertLine_fetchLines : forall l, l ∈ a.fetchLines -> IsInertLine l := by
  unfold Attachment.fetchLines
  intro l hl
  split at hl
  · split at hl
    · simp only [List.mem_cons, List.not_mem_nil, or_false] at hl
      rcases hl with rfl | rfl
      · exact (holdsLine_outputLine ha .both (Or.inr rfl)).isInertLine
      · exact (holdsLine_loadDefine ha (isMacroText_of_isIdentifier ha.name)).isInertLine
    · rw [List.mem_singleton.mp hl]
      exact (holdsLine_outputLine ha .output (Or.inl rfl)).isInertLine
  · exact isInertLine_builtinLines ha l hl

theorem isInertLine_legacyLines : forall l, l ∈ a.legacyLines -> IsInertLine l := by
  rw [Attachment.legacyLines_eq]
  intro l hl
  split at hl
  · rcases List.mem_append.mp hl with hl | hl
    · split at hl
      · rw [List.mem_singleton.mp hl]
        exact (holdsLine_loadDefine ha (isMacroText_element
          (isMacroText_of_isIdentifier (by decide)))).isInertLine
      · cases hl
    · split at hl
      · rw [List.mem_singleton.mp hl]
        exact (holdsLine_define (isMacroText_of_isIdentifier ha.name) (isMacroText_element
          (isMacroText_of_isIdentifier (by decide)))).isInertLine
      · cases hl
  · exact isInertLine_builtinLines ha l hl

end Attachment

/-!
# The conditional of the block
-/

theorem parse_version : Condition.parse "__VERSION__ >= 450" =
    .ok (.binary .ge (.ident "__VERSION__") (.literal (.int 450))) :=
  Condition.parse_of_print (by decide +kernel) (by decide +kernel)

theorem parse_version_fetch : Condition.parse "__VERSION__ >= 300" =
    .ok (.binary .ge (.ident "__VERSION__") (.literal (.int 300))) :=
  Condition.parse_of_print (by decide +kernel) (by decide +kernel)

theorem decide?_of_known {version : Int} {d : Directive} {c : Condition} {v : Option Value}
    (hname : ¬ (d.name == ("ifdef" : Text) || d.name == ("ifndef" : Text)) = true)
    (hparse : Condition.parse d.body = .ok c)
    (hknown : Condition.known (environment version) c = .ok v) (line : Nat) :
    decide? version d line = .ok (v.map Value.truthy) := by
  unfold decide?
  rw [if_neg hname, hparse]
  dsimp only
  rw [hknown]

theorem decide?_atLeast {version : Int} {d : Directive} {n : Int64}
    (hname : ¬ (d.name == ("ifdef" : Text) || d.name == ("ifndef" : Text)) = true)
    (hparse : Condition.parse d.body =
      .ok (.binary .ge (.ident "__VERSION__") (.literal (.int n)))) (line : Nat) :
    decide? version d line = .ok (some (decide (n ≤ Int64.ofInt version))) := by
  have hvalue : environment version "__VERSION__" = some (.int (Int64.ofInt version)) := by
    simp [environment, versionName]
  have hknown : Condition.known (environment version)
      (.binary .ge (.ident "__VERSION__") (.literal (.int n))) =
      .ok (some (.bool !decide (Int64.ofInt version < n))) := by
    simp [Condition.known, hvalue, Condition.applyBinary, Condition.arith, Value.isFloat,
      Value.toInt, Condition.arithInt, Condition.compare, Except.map]
    exact decide_eq_decide.mpr Iff.rfl
  rw [decide?_of_known hname hparse hknown, ← decide_not]
  exact congrArg (fun met => Except.ok (some met)) (decide_eq_decide.mpr Int64.not_lt)

theorem spellsDirective_if :
    SpellsDirective "#if __VERSION__ >= 450" ⟨"if", "__VERSION__ >= 450"⟩ :=
  spellsDirective (v := "if __VERSION__ >= 450") (by decide) (by decide) (by decide +kernel)

theorem spellsDirective_elif :
    SpellsDirective "#elif __VERSION__ >= 300" ⟨"elif", "__VERSION__ >= 300"⟩ :=
  spellsDirective (v := "elif __VERSION__ >= 300") (by decide) (by decide) (by decide +kernel)

theorem unlines_blockLines (as : List Attachment) (r : Text) :
    Text.unlines (blockLines as) ++ r =
      ended ("#if __VERSION__ >= 450" :: as.flatMap Attachment.vulkanLines) ++
        (ended ("#elif __VERSION__ >= 300" :: as.flatMap Attachment.fetchLines) ++
          (ended ("#else" :: as.flatMap Attachment.legacyLines) ++ ("#endif" ++ r))) := by
  have hlines : blockLines as =
      ((("#if __VERSION__ >= 450" : Text) :: as.flatMap Attachment.vulkanLines) ++
        ((("#elif __VERSION__ >= 300" : Text) :: as.flatMap Attachment.fetchLines) ++
          (("#else" : Text) :: as.flatMap Attachment.legacyLines))) ++ ("#endif" : Text) :: [] := by
    simp [blockLines]
  rw [hlines, Text.unlines_append_cons, Text.ended_append, Text.ended_append, List.flatMap_nil,
    List.append_nil]
  simp only [List.append_assoc]

/-- What a version leaves of the block: the lines of one branch, and newlines. -/
def foldedBlock (version : Int64) (as : List Attachment) : Text :=
  let vulkan := decide (450 ≤ version)
  let fetch := decide (300 ≤ version)
  Byte.newline :: (remains vulkan (ended (as.flatMap Attachment.vulkanLines)) ++
    Byte.newline :: (remains (!vulkan && fetch) (ended (as.flatMap Attachment.fetchLines)) ++
      Byte.newline :: remains (!(vulkan || fetch)) (ended (as.flatMap Attachment.legacyLines))))

theorem folds_block {version : Int} {as : List Attachment} (has : forall a, a ∈ as -> a.IsDeclared)
    {stack stack' : List Branch} (hkeep : keeping stack = true) {r out : Text}
    (hr : r = [] ∨ r.head? = some Byte.newline) (h : Folds version false stack r stack' out) :
    Folds version true stack (Text.unlines (blockLines as) ++ r) stack'
      (foldedBlock (Int64.ofInt version) as ++ out) := by
  have hvulkan := (HoldLines.flatMap fun a ha => holdLines_vulkanLines (has a ha)).isInertLine
  have hfetch : forall l, l ∈ as.flatMap Attachment.fetchLines -> IsInertLine l := by
    intro l hl
    rcases List.mem_flatMap.mp hl with ⟨a, ha, hl⟩
    exact isInertLine_fetchLines (has a ha) l hl
  have hlegacy : forall l, l ∈ as.flatMap Attachment.legacyLines -> IsInertLine l := by
    intro l hl
    rcases List.mem_flatMap.mp hl with ⟨a, ha, hl⟩
    exact isInertLine_legacyLines (has a ha) l hl
  have hif : forall line, decide? version ⟨"if", "__VERSION__ >= 450"⟩ line =
      .ok (some (decide (450 ≤ Int64.ofInt version))) :=
    decide?_atLeast (by decide) parse_version
  have helif : forall line, (if (⟨"elif", "__VERSION__ >= 300"⟩ : Directive).name == ("elif" : Text)
      then decide? version ⟨"elif", "__VERSION__ >= 300"⟩ line else .ok (some true)) =
        .ok (some (decide (300 ≤ Int64.ofInt version))) := by
    intro line
    rw [if_pos (by decide)]
    exact decide?_atLeast (by decide) parse_version_fetch line
  have helse : forall line, (if (⟨"else", []⟩ : Directive).name == ("elif" : Text)
      then decide? version ⟨"else", []⟩ line else .ok (some true)) = .ok (some true) :=
    fun line => if_neg (by decide)
  have hblock := Folds.firstBranch spellsDirective_if rfl hkeep hif hvulkan
    (Folds.nextBranch spellsDirective_elif rfl (fun _ => helif) hfetch
      (Folds.nextBranch spellsDirective_else rfl (fun _ => helse) hlegacy
        (Folds.closeBranch spellsDirective_endif rfl rfl hr h)))
  rw [← unlines_blockLines] at hblock
  unfold foldedBlock
  simpa using hblock

/-- The lines of an attachment in the branch that a version selects. -/
def Attachment.linesFor (version : Int64) (a : Attachment) : List Text :=
  if 450 ≤ version then a.vulkanLines
  else if 300 ≤ version then a.fetchLines
  else a.legacyLines

theorem eq_newline_of_mem_blank {s : Text} {b : UInt8} (h : b ∈ Edit.blank s) :
    b = Byte.newline :=
  (List.mem_replicate.mp h).2

theorem foldedBlock_eq (version : Int64) (as : List Attachment) :
    exists u w, (forall b, b ∈ u -> b = Byte.newline) ∧ (forall b, b ∈ w -> b = Byte.newline) ∧
      foldedBlock version as = u ++ (ended (as.flatMap (Attachment.linesFor version)) ++ w) := by
  have hskip : forall s t : Text, (forall b, b ∈ t -> b = Byte.newline) ->
      forall b, b ∈ Byte.newline :: (Edit.blank s ++ t) -> b = Byte.newline := by
    intro s t ht b hb
    rcases List.mem_cons.mp hb with rfl | hb
    · rfl
    · rcases List.mem_append.mp hb with hb | hb
      · exact eq_newline_of_mem_blank hb
      · exact ht b hb
  have hnil : forall b, b ∈ ([] : Text) -> b = Byte.newline := fun b hb => by cases hb
  have hone : forall b, b ∈ [Byte.newline] -> b = Byte.newline := fun b hb =>
    List.mem_singleton.mp hb
  unfold foldedBlock Attachment.linesFor remains
  by_cases hvulkan : 450 ≤ version
  · refine ⟨[Byte.newline], _, hone, hskip (ended (as.flatMap Attachment.fetchLines)) _
      (hskip (ended (as.flatMap Attachment.legacyLines)) [] hnil), ?_⟩
    simp [hvulkan]
  · by_cases hfetch : 300 ≤ version
    · refine ⟨_, _, hskip (ended (as.flatMap Attachment.vulkanLines)) _ hone,
        hskip (ended (as.flatMap Attachment.legacyLines)) [] hnil, ?_⟩
      simp [hvulkan, hfetch]
    · refine ⟨_, [], hskip (ended (as.flatMap Attachment.vulkanLines)) _
        (hskip (ended (as.flatMap Attachment.fetchLines)) _ hone), hnil, ?_⟩
      simp [hvulkan, hfetch]

end Subpass

end EffectShader
