import EffectShader.Proofs.Resource.Outlines
import EffectShader.Proofs.Subpass.Attachments
import EffectShader.Proofs.Subpass.Block
import Mathlib.Algebra.Group.Int.Defs
import Mathlib.Data.Nat.Find

/-!
# The numbers of subpass outputs

The block declares a fragment output for each color attachment that is written, under
its location among all color attachments.  Attachments that are only read leave gaps
there, and a gap below an output cannot be numbered.
-/

namespace EffectShader

namespace Subpass

open Slots

/-!
# Outlines of attachments
-/

namespace Attachment

def declaresInput (a : Attachment) : Bool :=
  a.direction.reads && !Text.startsWith a.inputName "gl_"

/-- The attachment has a fragment output. -/
def declaresOutput (a : Attachment) : Bool :=
  a.direction.writes && !Text.startsWith a.name "gl_"

def inputOutline (a : Attachment) : Outline :=
  ⟨.subpassInput, a.inputName, inputType a.scalar, 1,
    some [⟨"input_attachment_index", Text.ofNat (a.input.getD 0)⟩]⟩

def outputOutline (a : Attachment) : Outline :=
  ⟨.fragColor, a.name, vectorType a.scalar, 1,
    some [⟨"location", Text.ofNat (a.location.getD 0)⟩]⟩

def outlines (a : Attachment) : List Outline :=
  (if a.declaresInput then [a.inputOutline] else []) ++
    (if a.declaresOutput then [a.outputOutline] else [])

theorem mem_outlines {a : Attachment} {x : Outline} :
    x ∈ a.outlines ↔
      (a.declaresInput = true ∧ x = a.inputOutline) ∨
        (a.declaresOutput = true ∧ x = a.outputOutline) := by
  unfold outlines
  rw [List.mem_append]
  cases a.declaresInput <;> cases a.declaresOutput <;> simp

end Attachment

theorem outlines_declaration {storage : Storage} {key : Text} {n : Nat}
    {precision type name : Text} {stage : Stages} {c : Category}
    (h : Reflect.categorize (declaration storage key n precision type name) stage = .ok (some c)) :
    Reflect.outlines stage (declaration storage key n precision type name) =
      if Text.startsWith name "gl_" then []
      else [⟨c, name, type, 1, some [⟨key, Text.ofNat n⟩]⟩] := by
  rw [Reflect.outlines, h]
  cases hname : Text.startsWith name "gl_" <;>
    simp [Reflect.outlinesOf, Declaration.vars, declaration, hname]

theorem outlines_declarations (a : Attachment) :
    a.declarations.flatMap (Reflect.outlines Stages.fragmentOnly) = a.outlines := by
  have huniform : Reflect.uniformCategory (inputType a.scalar) = .subpassInput := by
    cases a.scalar <;> decide +kernel
  have hinput : Reflect.outlines Stages.fragmentOnly a.inputDeclaration =
      if Text.startsWith a.inputName "gl_" then [] else [a.inputOutline] := by
    apply outlines_declaration
    show Except.ok (some (Reflect.uniformCategory (inputType a.scalar))) = _
    rw [huniform]
  have houtput : Reflect.outlines Stages.fragmentOnly (a.outputDeclaration .output) =
      if Text.startsWith a.name "gl_" then [] else [a.outputOutline] :=
    outlines_declaration rfl
  unfold Attachment.declarations Attachment.outlines Attachment.declaresInput
    Attachment.declaresOutput
  rw [List.flatMap_append]
  congr 1
  · cases a.direction.reads with
    | false => rfl
    | true => cases hname : Text.startsWith a.inputName "gl_" <;> simp [hinput, hname]
  · cases a.direction.writes with
    | false => rfl
    | true => cases hname : Text.startsWith a.name "gl_" <;> simp [houtput, hname]

theorem isPlain_declaration {storage : Storage} (h : storage ≠ .buffer) (key : Text) (n : Nat)
    (precision type name : Text) : (declaration storage key n precision type name).IsPlain := by
  refine ⟨rfl, h, ?_, rfl⟩
  intro v hv
  rw [List.mem_singleton.mp hv]

theorem isPlain_of_mem_declarations {a : Attachment} {d : Declaration} (h : d ∈ a.declarations) :
    d.IsPlain := by
  unfold Attachment.declarations at h
  rcases List.mem_append.mp h with h | h
  · split at h
    · rw [List.mem_singleton.mp h]
      exact isPlain_declaration (by decide) _ _ _ _ _
    · cases h
  · split at h
    · rw [List.mem_singleton.mp h]
      exact isPlain_declaration (by decide) _ _ _ _ _
    · cases h

/-!
# Reflecting attachments
-/

def InputsAgree (as : List Attachment) : Prop :=
  forall a, a ∈ as -> forall b, b ∈ as -> a.declaresInput = true -> b.declaresInput = true ->
    a.inputName = b.inputName -> inputType a.scalar = inputType b.scalar

instance (as : List Attachment) : Decidable (InputsAgree as) :=
  inferInstanceAs (Decidable (forall a, a ∈ as -> _))

theorem agrees_iff_inputsAgree {as : List Attachment} (has : Distinct as) :
    (forall x y, x ∈ as.flatMap Attachment.outlines -> y ∈ as.flatMap Attachment.outlines ->
      x.Agrees y) ↔ InputsAgree as := by
  simp only [List.mem_flatMap, Attachment.mem_outlines]
  constructor
  · intro h a ha b hb hina hinb hname
    exact (h _ _ ⟨a, ha, Or.inl ⟨hina, rfl⟩⟩ ⟨b, hb, Or.inl ⟨hinb, rfl⟩⟩ rfl hname).1
  · rintro h x y ⟨a, ha, ⟨hina, rfl⟩ | ⟨houta, rfl⟩⟩ ⟨b, hb, ⟨hinb, rfl⟩ | ⟨houtb, rfl⟩⟩
    · exact fun _ hname => ⟨h a ha b hb hina hinb hname, rfl⟩
    · exact fun hcategory => by cases hcategory
    · exact fun hcategory => by cases hcategory
    · intro _ hname
      rw [has.eq_of_name ha hb hname]
      exact ⟨rfl, rfl⟩

/-- The declarations of attachments can be reflected exactly if their inputs agree. -/
theorem reflect_attachments {o : Reflect.Options} (hstage : o.stage = Stages.fragmentOnly)
    {as : List Attachment} (has : Distinct as) {ts : List Token} {ds : List Declaration}
    (hds : Declaration.ofTokens ts = .ok ds)
    (hsame : ds.map Declaration.unplaced =
      (as.flatMap Attachment.declarations).map Declaration.unplaced) :
    ((exists info, reflect o ts = .ok info) ↔ InputsAgree as) ∧
      forall info, reflect o ts = .ok info ->
      info.HasOutlines (as.flatMap Attachment.outlines) := by
  have hplain : forall d, d ∈ ds -> d.IsPlain := by
    intro d hd
    have hmem := List.mem_map_of_mem (f := Declaration.unplaced) hd
    rw [hsame] at hmem
    rcases List.mem_map.mp hmem with ⟨d', hd', heq⟩
    rcases List.mem_flatMap.mp hd' with ⟨a, _, ha⟩
    rw [← Declaration.isPlain_unplaced, ← heq, Declaration.isPlain_unplaced]
    exact isPlain_of_mem_declarations ha
  have houtlines : ds.flatMap (Reflect.outlines o.stage) = as.flatMap Attachment.outlines := by
    have hunplaced : forall ds : List Declaration, ds.flatMap (Reflect.outlines o.stage) =
        (ds.map Declaration.unplaced).flatMap (Reflect.outlines o.stage) := by
      intro ds
      rw [List.flatMap_map]
      simp only [Reflect.outlines_unplaced]
    rw [hunplaced, hsame, ← hunplaced, hstage, List.flatMap_assoc]
    simp only [outlines_declarations]
  have hreflect := reflect_outlines (o := o) hds hplain
  rw [houtlines, agrees_iff_inputsAgree has] at hreflect
  exact hreflect

/-!
# Numbering outputs
-/

structure AreOutputs (as : List Attachment) (ps : List Param) : Prop where
  attachment : forall p, p ∈ ps ->
    exists a, a ∈ as ∧ a.declaresOutput = true ∧ p.outline = a.outputOutline
  output : forall a, a ∈ as -> a.declaresOutput = true ->
    exists p, p ∈ ps ∧ p.outline = a.outputOutline

theorem areOutputs_list {as : List Attachment} (has : Distinct as) {info : ShaderInfo}
    (hinfo : info.HasOutlines (as.flatMap Attachment.outlines)) :
    AreOutputs as (info.list .fragColor) := by
  have hattachment : forall p, p ∈ info.list .fragColor ->
      exists a, a ∈ as ∧ a.declaresOutput = true ∧ p.outline = a.outputOutline := by
    intro p hp
    rcases mem_list.mp hp with ⟨hmem, hcategory⟩
    rcases List.mem_flatMap.mp (hinfo.outline p hmem) with ⟨a, ha, houtline⟩
    rcases Attachment.mem_outlines.mp houtline with ⟨_, heq⟩ | ⟨hout, heq⟩
    · have hother : p.category = .subpassInput := congrArg Outline.category heq
      rw [hcategory] at hother
      cases hother
    · exact ⟨a, ha, hout, heq⟩
  refine ⟨hattachment, ?_⟩
  intro a ha hout
  rcases hinfo.resource a.outputOutline (List.mem_flatMap.mpr
    ⟨a, ha, Attachment.mem_outlines.mpr (Or.inr ⟨hout, rfl⟩)⟩) with ⟨p, hp, hcategory, hname⟩
  have hlist : p ∈ info.list .fragColor := mem_list.mpr ⟨hp, hcategory⟩
  rcases hattachment p hlist with ⟨b, hb, _, heq⟩
  have hnames : b.name = a.name := (congrArg Outline.name heq).symm.trans hname
  rw [has.eq_of_name hb ha hnames] at heq
  exact ⟨p, hlist, heq⟩

/-- Every color attachment without an output is numbered behind all outputs. -/
def OutputsFirst (as : List Attachment) : Prop :=
  forall a, a ∈ as -> forall b, b ∈ as -> a.declaresOutput = false -> b.declaresOutput = true ->
    forall m, m ∈ a.location -> forall n, n ∈ b.location -> n < m

instance (as : List Attachment) : Decidable (OutputsFirst as) :=
  inferInstanceAs (Decidable (forall a, a ∈ as -> _))

theorem exists_location_of_declaresOutput {as : List Attachment} (has : Located as) {a : Attachment}
    (ha : a ∈ as) (h : a.declaresOutput = true) : exists n, a.location = some n := by
  have hcolor : a.aspect = .color := by
    have hsupports := (has.declared a ha).supported
    unfold Attachment.declaresOutput at h
    rw [Bool.and_eq_true] at h
    cases haspect : a.aspect with
    | color => rfl
    | depth | stencil =>
        rw [haspect] at hsupports
        cases hdirection : a.direction <;> rw [hdirection] at h hsupports
        · cases h.1
        · cases hsupports
        · cases hsupports
  apply Option.isSome_iff_exists.mp
  rw [has.color a ha, hcolor]
  rfl

section Numbering

variable {as : List Attachment} (has : Located as) (hcount : as.length < 2 ^ 63)

include has hcount

theorem explicit?_of_outline {a : Attachment} (ha : a ∈ as) {n : Nat} (hn : a.location = some n)
    {p : Param} (heq : p.outline = a.outputOutline) :
    Space.explicit? ⟨true, false⟩ p = some (n : Int) := by
  have hfits : Numeral.fits (n : Int) = true := by
    have hlt := has.lt_length ha hn
    unfold Numeral.fits
    simp
    omega
  have htext : Text.ofNat n = Text.ofInt (n : Int) := rfl
  show layoutInt? p.layout "location" = _
  rw [layoutInt?_outline, heq]
  unfold Attachment.outputOutline Outline.number? Layout.int? Layout.value?
  rw [hn, Option.getD_some, htext]
  simp [Numeral.decimal?_ofInt, hfits]

theorem AreOutputs.exists_location {ps : List Param} (h : AreOutputs as ps) {p : Param}
    (hp : p ∈ ps) :
    exists a n, a ∈ as ∧ a.declaresOutput = true ∧ p.name = a.name ∧ a.location = some n ∧
      Space.explicit? ⟨true, false⟩ p = some (n : Int) := by
  rcases h.attachment p hp with ⟨a, ha, hout, heq⟩
  rcases exists_location_of_declaresOutput has ha hout with ⟨n, hn⟩
  exact ⟨a, n, ha, hout, congrArg Outline.name heq, hn, explicit?_of_outline has hcount ha hn heq⟩

theorem AreOutputs.wants_iff {ps : List Param} (h : AreOutputs as ps) (n : Int) :
    Space.Wants ⟨true, false⟩ ps n ↔
      exists a m, a ∈ as ∧ a.declaresOutput = true ∧ a.location = some m ∧ n = (m : Int) := by
  constructor
  · rintro ⟨p, hp, hn⟩
    rcases h.exists_location has hcount hp with ⟨a, m, ha, hout, _, hm, hexplicit⟩
    exact ⟨a, m, ha, hout, hm, Option.some.inj (hn.symm.trans hexplicit)⟩
  · rintro ⟨a, m, ha, hout, hm, rfl⟩
    rcases h.output a ha hout with ⟨p, hp, heq⟩
    exact ⟨p, hp, explicit?_of_outline has hcount ha hm heq⟩

/-- The locations of the outputs are consistent exactly if no gap is below an output. -/
theorem AreOutputs.consistent_iff {ps : List Param} (h : AreOutputs as ps) :
    Space.Consistent ⟨true, false⟩ ps ↔ OutputsFirst as := by
  have hwants := h.wants_iff has hcount
  constructor
  · intro hconsistent a ha b hb hgap hout m hm n hn
    rcases hconsistent.consecutive with ⟨k, hk⟩
    by_contra hle
    have hbelow : (n : Int) < k := ((hk n).mp ((hwants n).mpr ⟨b, n, hb, hout, hn, rfl⟩)).2
    have hwant := (hwants m).mp ((hk m).mpr ⟨by omega, by omega⟩)
    rcases hwant with ⟨c, i, hc, hcout, hi, heq⟩
    have him : i = m := by omega
    rw [him] at hi
    rw [has.eq_of_location ha hc hm hi, hcout] at hgap
    cases hgap
  · intro hfirst
    constructor
    · intro p q n hp hq hpn hqn
      rcases h.exists_location has hcount hp with ⟨a, i, ha, _, hpname, hi, hpi⟩
      rcases h.exists_location has hcount hq with ⟨b, j, hb, _, hqname, hj, hqj⟩
      have hij : i = j := by
        have hni := Option.some.inj (hpn.symm.trans hpi)
        have hnj := Option.some.inj (hqn.symm.trans hqj)
        omega
      rw [← hij] at hj
      rw [hpname, hqname, has.eq_of_location ha hb hi hj]
    · -- The outputs take the numbers up to the first one that none of them has.
      classical
      let taken (m : Nat) : Prop := exists a, a ∈ as ∧ a.declaresOutput = true ∧ a.location = some m
      have hfree : exists m, ¬ taken m := by
        refine ⟨as.length, ?_⟩
        rintro ⟨a, ha, _, hm⟩
        exact Nat.lt_irrefl _ (has.lt_length ha hm)
      have hdown : forall m n, m ≤ n -> taken n -> taken m := by
        rintro m n hle ⟨b, hb, hout, hn⟩
        rcases Nat.eq_or_lt_of_le hle with rfl | hlt
        · exact ⟨b, hb, hout, hn⟩
        · rcases has.exists_location hb hn hlt with ⟨a, ha, hm⟩
          refine ⟨a, ha, ?_, hm⟩
          by_contra hgap
          have hlater := hfirst a ha b hb (Bool.eq_false_of_not_eq_true hgap) hout m hm n hn
          exact Nat.lt_asymm hlt hlater
      refine ⟨Nat.find hfree, fun n => ?_⟩
      rw [hwants]
      constructor
      · rintro ⟨a, m, ha, hout, hm, rfl⟩
        refine ⟨by omega, ?_⟩
        by_contra hle
        exact Nat.find_spec hfree (hdown _ m (by omega) ⟨a, ha, hout, hm⟩)
      · rintro ⟨hn, hlt⟩
        have htaken : taken n.toNat := not_not.mp (Nat.find_min hfree (m := n.toNat) (by omega))
        rcases htaken with ⟨a, ha, hout, hm⟩
        exact ⟨a, n.toNat, ha, hout, hm, by omega⟩

variable {info : ShaderInfo} (hinfo : info.HasOutlines (as.flatMap Attachment.outlines))

include hinfo

/-- The attachments can be numbered exactly if no gap is below an output. -/
theorem allocate_attachments_iff : (allocate info).2 = none ↔ OutputsFirst as := by
  have hcategory : forall p, p ∈ info.params ->
      p.category = .fragColor ∨
        (p.category = .subpassInput ∧ Space.explicit? ⟨false, false⟩ p = none) := by
    intro p hp
    rcases List.mem_flatMap.mp (hinfo.outline p hp) with ⟨a, _, houtline⟩
    rcases Attachment.mem_outlines.mp houtline with ⟨_, heq⟩ | ⟨_, heq⟩
    · refine Or.inr ⟨congrArg Outline.category heq, ?_⟩
      show layoutInt? p.layout "binding" = none
      rw [layoutInt?_outline, heq]
      rfl
    · exact Or.inl (congrArg Outline.category heq)
  have hdescriptors : forall f : Param -> Bool,
      Space.Consistent ⟨false, false⟩ ((descriptors info).filter f) := by
    intro f
    apply consistent_of_none
    intro p hp
    rcases mem_descriptors.mp (List.mem_filter.mp hp).1 with ⟨hmem, hdescriptor⟩
    rcases hcategory p hmem with hfrag | ⟨_, hnone⟩
    · rw [hfrag] at hdescriptor
      cases hdescriptor
    · exact hnone
  have hempty : forall c, c ≠ .fragColor -> c ≠ .subpassInput -> forall s : Space,
      s.Consistent (info.list c) := by
    intro c hfrag hinput s
    apply consistent_of_none
    intro p hp
    rcases mem_list.mp hp with ⟨hmem, rfl⟩
    rcases hcategory p hmem with h | ⟨h, _⟩
    · exact absurd h hfrag
    · exact absurd h hinput
  rw [allocate_eq_none_iff, spaces_eq]
  simp only [List.forall_mem_cons, hdescriptors, true_and,
    hempty .vertexInput (by decide) (by decide), hempty .varying (by decide) (by decide)]
  rw [(areOutputs_list has.toDistinct hinfo).consistent_iff has hcount]
  simp

theorem location_of_allocate (hbuilt : info.Built) (hsuccess : (allocate info).2 = none) :
    (forall p, p ∈ (allocate info).1.list .fragColor ->
      exists a, a ∈ as ∧ a.declaresOutput = true ∧ p.name = a.name ∧
        p.location = a.location.map Int.ofNat) ∧
      forall a, a ∈ as -> a.declaresOutput = true ->
        exists p, p ∈ (allocate info).1.list .fragColor ∧ p.name = a.name ∧
          p.location = a.location.map Int.ofNat := by
  have houtputs := areOutputs_list has.toDistinct (hinfo.allocate hbuilt hsuccess)
  have hnumbered : Space.Numbered ⟨true, false⟩ ((allocate info).1.list .fragColor) := by
    refine (numbered_of_allocate hbuilt hsuccess).2
      (⟨true, false⟩, (allocate info).1.list .fragColor) ?_
    rw [spaces_eq]
    simp
  have hlocation : forall p, p ∈ (allocate info).1.list .fragColor ->
      exists a, a ∈ as ∧ a.declaresOutput = true ∧ p.name = a.name ∧
        p.location = a.location.map Int.ofNat := by
    intro p hp
    rcases houtputs.exists_location has hcount hp with ⟨a, n, ha, hout, hname, hn, hexplicit⟩
    refine ⟨a, ha, hout, hname, ?_⟩
    rw [hn]
    exact hnumbered.kept p n hp hexplicit
  refine ⟨hlocation, ?_⟩
  intro a ha hout
  rcases houtputs.output a ha hout with ⟨p, hp, heq⟩
  rcases hlocation p hp with ⟨b, hb, _, hname, hloc⟩
  have hnames : b.name = a.name := hname.symm.trans (congrArg Outline.name heq)
  rw [has.eq_of_name hb ha hnames] at hloc
  exact ⟨p, hp, congrArg Outline.name heq, hloc⟩

end Numbering

end Subpass

/-!
# The locations of subpass outputs

A source whose only declarations come from its attachment pragmas is expanded, folded
for a version with input attachments, reflected and numbered.  Each output has the
location of its attachment if the numbering succeeds.  It fails where a color
attachment that is only read comes before one that is written.
-/

namespace Subpass

open Lexer Declaration Fold Slots
open Text (ended)

/-!
# The declarations of an expanded source
-/

def Silent (b : Text) : Prop :=
  forall r ws ds, Lexes true r ws -> Declares ws ds ->
    exists us, Lexes true (b ++ r) us ∧ Declares us ds

theorem silent_nil : Silent [] :=
  fun _ ws _ hlexes hws => ⟨ws, hlexes, hws⟩

theorem silent_newlines {w : Text} (hw : forall c, c ∈ w -> c = Byte.newline) : Silent w := by
  intro r ws ds hlexes hws
  have hsep : forall c, c ∈ w -> isSeparator c = true := fun c hc => hw c hc ▸ rfl
  have hfresh : (true || w.contains Byte.newline) = true := rfl
  rcases exists_lexes_separators hsep (hfresh ▸ hlexes) with ⟨us, hus, hshape⟩
  exact ⟨us, hus, Declaration.declares_separators rfl hshape hws⟩

/-- The source around the block leaves no declarations, and at the block no comment, directive,
group or branch that is left out is open. -/
def Hosts (version : Int) (before after : Text) : Prop :=
  exists us stack b a,
    Lexes true before us ∧ EndsLine us ∧ Runs version [] us stack b ∧ Silent b ∧
      keeping stack = true ∧ Folds version false stack after [] a ∧ ofText? a = some []

theorem exists_lexes_of_ofText? {s : Text} {ds : List Declaration} (h : ofText? s = some ds) :
    exists ws, Lexes true s ws ∧ Declares ws ds := by
  rcases ofText?_eq_some_iff.mp h with ⟨ts, htokens, hds⟩
  rcases tokenize_eq_ok_iff.mp htokens with ⟨ws, hlexes, rfl⟩
  refine ⟨ws, hlexes, ?_⟩
  apply (chunks_of_units (ofTokens_eq_ok_iff.mp hds)).declares (map_piece_place _ ws)
  intro w hw
  rcases hlexes.exists_extent? hw with ⟨_, _, _, _, _, hextent⟩
  exact kind_ne_eof_of_extent? hextent

theorem head?_unlines_blockLines (as : List Attachment) (r : Text) :
    (Text.unlines (blockLines as) ++ r).head? = some Byte.hash := by
  rw [unlines_blockLines]
  rfl

theorem exists_fold_block {version : Int} (hlow : 450 ≤ version) (hhigh : version < 2 ^ 63)
    {as : List Attachment} (has : forall a, a ∈ as -> a.IsDeclared) {before after : Text}
    (hafter : after = [] ∨ after.head? = some Byte.newline) (hhosts : Hosts version before after) :
    exists text ts ds, fold (before ++ (Text.unlines (blockLines as) ++ after)) version = .ok text ∧
      tokenize text = .ok ts ∧ ofTokens ts = .ok ds ∧
      ds.map unplaced = (as.flatMap Attachment.declarations).map unplaced := by
  rcases hhosts with ⟨us, stack, b, a, hus, hend, hruns, hsilent, hkeep, hfolds, hnone⟩
  have hvulkan : 450 ≤ Int64.ofInt version := by
    rw [Int64.le_iff_toInt_le, Int64.toInt_ofInt_of_le (by omega) hhigh]
    exact hlow
  have hblock := folds_block has hkeep hafter hfolds
  rcases foldedBlock_eq (Int64.ofInt version) as with ⟨u, w, hu, hw, hfolded⟩
  have hbranch : as.flatMap (Attachment.linesFor (Int64.ofInt version)) =
      as.flatMap Attachment.vulkanLines :=
    List.flatMap_congr fun a _ => if_pos hvulkan
  rw [hfolded, hbranch, List.append_assoc, List.append_assoc] at hblock
  have hhead : forall c, (Text.unlines (blockLines as) ++ after).head? = some c ->
      isSeparator c = false := by
    intro c hc
    rw [head?_unlines_blockLines] at hc
    cases hc
    rfl
  have hfold := (Folds.behind hus hend hruns hhead hblock).fold_eq
  have hlines := HoldLines.flatMap fun a ha => holdLines_vulkanLines (has a ha)
  rcases exists_lexes_of_ofText? hnone with ⟨_, hlexes₁, hdeclares₁⟩
  rcases silent_newlines hw _ _ _ hlexes₁ hdeclares₁ with ⟨_, hlexes₂, hdeclares₂⟩
  rcases hlines.exists_lexes hlexes₂ hdeclares₂ with ⟨_, hlexes₃, hdeclares₃⟩
  rcases silent_newlines hu _ _ _ hlexes₃ hdeclares₃ with ⟨_, hlexes₄, hdeclares₄⟩
  rcases hsilent _ _ _ hlexes₄ hdeclares₄ with ⟨ws, hlexes, hdeclares⟩
  rcases hdeclares _ (map_piece_place Position.start ws) with ⟨ds, hunits, hsame⟩
  rw [List.append_nil] at hsame
  exact ⟨_, _, ds, hfold, tokenize_eq_ok_iff.mpr ⟨ws, hlexes, rfl⟩, ofTokens_eq_ok_iff.mpr hunits,
    hsame⟩

theorem hosts_plain {version : Int} {s : Text} {ts : List Token} (htokens : tokenize s = .ok ts)
    (hplain : forall t, t ∈ ts -> t.kind ≠ .directive)
    (hnone : ofText? (Byte.newline :: s) = some []) : Hosts version [] (Byte.newline :: s) := by
  rcases tokenize_eq_ok_iff.mp htokens with ⟨ws, hlexes, rfl⟩
  have hinert : forall w, w ∈ ws -> IsInert w := by
    intro w hw
    apply isInert_of_kind
    have hmem : w ∈ (place Position.start ws).map Token.piece := by
      rw [map_piece_place]
      exact List.mem_append_left _ hw
    rcases List.mem_map.mp hmem with ⟨t, ht, rfl⟩
    exact hplain t ht
  have hfolds : Folds version true [] s [] (plainText [] (spell ws)) :=
    ⟨ws, hlexes, Runs.inert hinert⟩
  have htext : plainText [] (spell ws) = s := hlexes.flatten_eq
  rw [htext] at hfolds
  exact ⟨[], [], [], Byte.newline :: s, by constructor, Or.inl rfl, Runs.nil [], silent_nil, rfl,
    hfolds.newline, hnone⟩

theorem expand_eq_of_sorted {code : Text} {ls : List Text} {as : List Attachment} {place : Nat}
    (hsurvey : code.lines.foldlM Survey.read ⟨[], [], none, none⟩ = .ok ⟨ls, as, none, some place⟩)
    (hne : as ≠ []) (hsorted : (assign 0 0 as).Pairwise fun a b => a.le b = true)
    (lines : LineMap) :
    exists e, expand code lines = .ok e ∧ e.attachments = assign 0 0 as := by
  rcases exists_expand hsurvey rfl hne lines with ⟨e, hexpand, hattachments⟩
  exact ⟨e, hexpand, hattachments.trans (List.mergeSort_of_pairwise hsorted)⟩

/-!
# Expanding, folding, reflecting and numbering
-/

section Expansion

variable {code before after : Text} {lines : LineMap} {e : Expansion} {version : Int}
  {o : Reflect.Options}

theorem exists_reflect_expand (h : expand code lines = .ok e)
    (hplace : surroundings code = some (before, after)) (hhosts : Hosts version before after)
    (hlow : 450 ≤ version) (hhigh : version < 2 ^ 63) (hstage : o.stage = Stages.fragmentOnly) :
    exists text ts, fold e.code version = .ok text ∧ tokenize text = .ok ts ∧
      ((exists info, reflect o ts = .ok info) ↔ InputsAgree e.attachments) ∧
      forall info, reflect o ts = .ok info ->
        info.HasOutlines (e.attachments.flatMap Attachment.outlines) := by
  rcases expand_spec h hplace with ⟨hlocated, hcode, hafter⟩
  rcases exists_fold_block hlow hhigh hlocated.declared hafter hhosts with
    ⟨text, ts, ds, hfold, htokens, hds, hsame⟩
  exact ⟨text, ts, hcode ▸ hfold, htokens,
    reflect_attachments hstage hlocated.toDistinct hds hsame⟩

/-- The attachments of a source can be reflected and numbered for a version with input attachments
exactly if inputs of one name have one type and no color attachment without an output lies below an
output.  The outputs then have the locations of their attachments. -/
theorem output_locations_iff (h : expand code lines = .ok e)
    (hplace : surroundings code = some (before, after)) (hhosts : Hosts version before after)
    (hlow : 450 ≤ version) (hhigh : version < 2 ^ 63) (hstage : o.stage = Stages.fragmentOnly)
    (hcount : e.attachments.length < 2 ^ 63) :
    exists text ts, fold e.code version = .ok text ∧ tokenize text = .ok ts ∧
      ((exists info, reflect o ts = .ok info ∧ (allocate info).2 = none) ↔
        InputsAgree e.attachments ∧ OutputsFirst e.attachments) ∧
      forall info, reflect o ts = .ok info -> (allocate info).2 = none ->
        (forall p, p ∈ (allocate info).1.list .fragColor ->
          exists a, a ∈ e.attachments ∧ a.declaresOutput = true ∧ p.name = a.name ∧
            p.location = a.location.map Int.ofNat) ∧
        forall a, a ∈ e.attachments -> a.declaresOutput = true ->
          exists p, p ∈ (allocate info).1.list .fragColor ∧ p.name = a.name ∧
            p.location = a.location.map Int.ofNat := by
  have hlocated := (expand_spec h hplace).1
  rcases exists_reflect_expand h hplace hhosts hlow hhigh hstage with
    ⟨text, ts, hfold, htokens, hreflect, houtlines⟩
  have hallocate : forall info, reflect o ts = .ok info ->
      ((allocate info).2 = none ↔ OutputsFirst e.attachments) := fun info hinfo =>
    allocate_attachments_iff hlocated hcount (houtlines info hinfo)
  refine ⟨text, ts, hfold, htokens, ⟨?_, ?_⟩, ?_⟩
  · rintro ⟨info, hinfo, hsuccess⟩
    exact ⟨hreflect.mp ⟨info, hinfo⟩, (hallocate info hinfo).mp hsuccess⟩
  · rintro ⟨hagree, hfirst⟩
    rcases hreflect.mpr hagree with ⟨info, hinfo⟩
    exact ⟨info, hinfo, (hallocate info hinfo).mpr hfirst⟩
  · intro info hinfo hsuccess
    exact location_of_allocate hlocated hcount (houtlines info hinfo) (built_of_reflect hinfo)
      hsuccess

end Expansion

/-- Two attachments that are written. -/
theorem output_locations_iff_written :
    exists e text ts info,
      expand "#pragma subpassColor out a\n#pragma subpassColor inout b\n// Mixed."
        LineMap.identity = .ok e ∧
      fold e.code 450 = .ok text ∧ tokenize text = .ok ts ∧
      reflect (.bare Stages.fragmentOnly) ts = .ok info ∧ (allocate info).2 = none ∧
      exists p, p ∈ (allocate info).1.list .fragColor ∧ p.name = "b" ∧ p.location = some 1 := by
  have hsurvey : (Text.lines
      "#pragma subpassColor out a\n#pragma subpassColor inout b\n// Mixed.").foldlM
      Survey.read ⟨[], [], none, none⟩ = .ok
      ⟨["// Mixed.", [], []], [⟨.color, .output, .float, [], "a", 1, none, none⟩,
        ⟨.color, .both, .float, [], "b", 2, none, none⟩], none, some 0⟩ := by
    decide +kernel
  rcases expand_eq_of_sorted hsurvey (by simp) (by decide +kernel) LineMap.identity with
    ⟨e, hexpand, hattachments⟩
  have hplace : surroundings
      "#pragma subpassColor out a\n#pragma subpassColor inout b\n// Mixed." =
      some ([], Text.ofString "\n\n// Mixed.") := by
    decide +kernel
  have htokens : (tokenize "\n// Mixed.").toOption.any
      (fun ts => ts.all fun t => t.kind != .directive) = true := by
    decide +kernel
  rcases (Option.any_eq_true _ _).mp htokens with ⟨ts, hts, hkinds⟩
  have hhosts : Hosts 450 [] (Text.ofString "\n\n// Mixed.") :=
    hosts_plain (toOption_eq_some_iff.mp hts) (by simpa using hkinds) (by decide +kernel)
  rcases output_locations_iff (o := .bare Stages.fragmentOnly) hexpand hplace hhosts (by decide)
    (by decide) rfl (by rw [hattachments]; decide) with
    ⟨text, ts, hfold, htokens, hiff, hlocations⟩
  have hconditions : InputsAgree e.attachments ∧ OutputsFirst e.attachments := by
    rw [hattachments]
    decide
  rcases hiff.mpr hconditions with ⟨info, hinfo, hsuccess⟩
  rcases (hlocations info hinfo hsuccess).2 ⟨.color, .both, .float, [], "b", 2, some 0, some 1⟩
    (by rw [hattachments]; decide) (by decide) with ⟨p, hp, hname, hlocation⟩
  exact ⟨e, text, ts, info, hexpand, hfold, htokens, hinfo, hsuccess, p, hp, hname, hlocation⟩

/-- An attachment that is only read comes before one that is written, which then has no number. -/
theorem output_behind_input_not_numbered :
    exists e text ts info,
      expand "#pragma subpassColor in a\n#pragma subpassColor out b" LineMap.identity = .ok e ∧
      fold e.code 450 = .ok text ∧ tokenize text = .ok ts ∧
      reflect (.bare Stages.fragmentOnly) ts = .ok info ∧ (allocate info).2 ≠ none := by
  have hsurvey : (Text.lines "#pragma subpassColor in a\n#pragma subpassColor out b").foldlM
      Survey.read ⟨[], [], none, none⟩ = .ok
      ⟨[[], []], [⟨.color, .input, .float, [], "a", 1, none, none⟩,
        ⟨.color, .output, .float, [], "b", 2, none, none⟩], none, some 0⟩ := by
    decide +kernel
  rcases expand_eq_of_sorted hsurvey (by simp) (by decide +kernel) LineMap.identity with
    ⟨e, hexpand, hattachments⟩
  have hplace : surroundings "#pragma subpassColor in a\n#pragma subpassColor out b" =
      some ([], [Byte.newline]) := by
    decide +kernel
  have htokens : tokenize [] = .ok [Token.endAt Position.start] := by
    decide +kernel
  have hhosts : Hosts 450 [] [Byte.newline] :=
    hosts_plain htokens (by simp [Token.endAt]) (by decide +kernel)
  rcases exists_reflect_expand (o := .bare Stages.fragmentOnly) hexpand hplace hhosts (by decide)
    (by decide) rfl with ⟨text, ts, hfold, htokens, hreflect, houtlines⟩
  have hagree : InputsAgree e.attachments := by
    rw [hattachments]
    decide
  have hgap : ¬ OutputsFirst e.attachments := by
    rw [hattachments]
    decide
  rcases hreflect.mpr hagree with ⟨info, hinfo⟩
  refine ⟨e, text, ts, info, hexpand, hfold, htokens, hinfo, ?_⟩
  rw [Ne, allocate_attachments_iff (expand_spec hexpand hplace).1 (by rw [hattachments]; decide)
    (houtlines info hinfo)]
  exact hgap

end Subpass

end EffectShader
