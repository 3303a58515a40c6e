import EffectShader.Proofs.Resource.Merging
import Mathlib.Data.List.Pairwise

/-!
# Declarations and their resources

Reflection adds the records of the declarations one after the other.  What a
declaration of variables says of their resources is an outline: the category, the
name, the type and the layout.  Variables can be reflected exactly if their outlines
agree, and then the resources have these outlines.
-/

namespace EffectShader

/-- What the declaration of a variable says of its resource. -/
structure Outline where
  category : Category
  name : Text
  type : Text
  count : Int64
  items : Option (List LayoutItem)
  deriving DecidableEq, Repr

namespace Outline

def number? (x : Outline) (key : Text) : Option Int :=
  x.items.bind fun items => Layout.int? ⟨items, 0, 0⟩ key

/-- Outlines of one resource have the same type. -/
def Agrees (x y : Outline) : Prop :=
  x.category = y.category -> x.name = y.name -> x.type = y.type ∧ x.count = y.count

theorem Agrees.refl (x : Outline) : x.Agrees x :=
  fun _ _ => ⟨rfl, rfl⟩

theorem Agrees.symm {x y : Outline} (h : x.Agrees y) : y.Agrees x := by
  intro hcategory hname
  rcases h hcategory.symm hname.symm with ⟨htype, hcount⟩
  exact ⟨htype.symm, hcount.symm⟩

end Outline

def Param.outline (p : Param) : Outline :=
  ⟨p.category, p.name, p.type, p.count, p.layout.map Layout.items⟩

theorem layoutInt?_outline (p : Param) (key : Text) :
    layoutInt? p.layout key = p.outline.number? key := by
  unfold Param.outline Outline.number?
  cases p.layout with
  | none => rfl
  | some l => rfl

/-- A declaration of variables that are no arrays and have a layout. -/
structure Declaration.IsPlain (d : Declaration) : Prop where
  unblocked : d.isBlock = false
  storage : d.storage ≠ .buffer
  single : forall v, v ∈ d.vars -> v.length = none
  layout : d.layout.isSome = true

theorem Declaration.vars_unplaced (d : Declaration) :
    d.unplaced.vars = d.vars.map Variable.unplaced := by
  unfold Declaration.vars Declaration.unplaced DeclarationBody.unplaced
  cases d.body <;> rfl

theorem Declaration.isPlain_unplaced (d : Declaration) : d.unplaced.IsPlain ↔ d.IsPlain := by
  have hblock : d.unplaced.isBlock = d.isBlock := by
    unfold Declaration.isBlock Declaration.unplaced DeclarationBody.unplaced
    cases d.body <;> rfl
  have hlayout : d.unplaced.layout.isSome = d.layout.isSome := Option.isSome_map
  have hsingle : (forall v, v ∈ d.unplaced.vars -> v.length = none) ↔
      forall v, v ∈ d.vars -> v.length = none := by
    rw [vars_unplaced, List.forall_mem_map]
    rfl
  constructor
  · exact fun h => ⟨hblock ▸ h.unblocked, h.storage, hsingle.mp h.single, hlayout ▸ h.layout⟩
  · exact fun h => ⟨hblock ▸ h.unblocked, h.storage, hsingle.mpr h.single, hlayout ▸ h.layout⟩

namespace Reflect

open ShaderInfo

def outlinesOf (d : Declaration) (category : Option Category) (vs : List Variable) : List Outline :=
  match category with
  | none => []
  | some category =>
      (vs.filter fun v => !Text.startsWith v.name "gl_").map fun v =>
        ⟨category, v.name, d.type, 1, d.layout.map Layout.items⟩

def outlines (stage : Stages) (d : Declaration) : List Outline :=
  match categorize d stage with
  | .ok category => outlinesOf d category d.vars
  | .error _ => []

theorem outlines_unplaced (stage : Stages) (d : Declaration) :
    outlines stage d.unplaced = outlines stage d := by
  have hcategory : categorize d.unplaced stage = categorize d stage := rfl
  have hitems : d.unplaced.layout.map Layout.items = d.layout.map Layout.items := by
    show (d.layout.map Layout.unplaced).map Layout.items = _
    rw [Option.map_map]
    rfl
  unfold outlines
  rw [hcategory]
  cases categorize d stage with
  | error e => rfl
  | ok c =>
      cases c with
      | none => rfl
      | some category =>
          simp only [outlinesOf, Declaration.vars_unplaced, hitems, List.filter_map, List.map_map]
          rfl

/-!
# The records of declarations
-/

def records (o : Options) (previous : Nat) : List Declaration -> Except Diagnostic (List Param)
  | [] => .ok []
  | d :: ds =>
      match paramsOf d o.stage with
      | .error e => .error e
      | .ok params =>
          let inGlobalSet := o.pragmas.builtinScope? d.line previous
          let added := params.map fun p => scope inGlobalSet (tag o d p)
          (records o d.line ds).map (added ++ ·)

/-- Reflection succeeds exactly if all declarations have records that can be added. -/
theorem collect_eq_ok_iff {o : Options} {info s : ShaderInfo} {previous : Nat}
    {ds : List Declaration} :
    collect o info previous ds = .ok s ↔
      exists ps, records o previous ds = .ok ps ∧ info.addAll ps = (s, none) := by
  induction ds generalizing info previous with
  | nil => simp [collect, records, addAll]
  | cons d ds ih =>
      rw [collect, records]
      cases paramsOf d o.stage with
      | error e => simp
      | ok params =>
          dsimp only
          generalize (params.map fun p =>
            scope (o.pragmas.builtinScope? d.line previous) (tag o d p)) = added
          have hrest : (exists ps, (records o d.line ds).map (added ++ ·) = .ok ps ∧
              info.addAll ps = (s, none)) ↔
              exists qs, records o d.line ds = .ok qs ∧ info.addAll (added ++ qs) = (s, none) := by
            cases records o d.line ds <;> simp [Except.map]
          rw [hrest]
          simp only [addAll_append]
          rcases info.addAll added with ⟨t, conflict⟩
          cases conflict with
          | some c => simp
          | none => exact ih

theorem outline_scope (inGlobalSet : Option Bool) (p : Param) :
    (scope inGlobalSet p).outline = p.outline := by
  cases inGlobalSet <;> rfl

theorem categorize_of_ne_buffer {d : Declaration} (h : d.storage ≠ .buffer) (stage : Stages) :
    exists c, categorize d stage = .ok c ∧
      forall category, c = some category -> category ≠ .block ∧ category ≠ .buffer := by
  have huniform : uniformCategory d.type ≠ .block ∧ uniformCategory d.type ≠ .buffer := by
    unfold uniformCategory
    split
    · decide
    · split <;> decide
  unfold categorize
  cases hstorage : d.storage with
  | buffer => exact absurd hstorage h
  | uniform => exact ⟨_, rfl, fun category hc => Option.some.inj hc ▸ huniform⟩
  | varying => exact ⟨_, rfl, fun category hc => by cases hc; decide⟩
  | both =>
      dsimp only
      split
      · exact ⟨_, rfl, fun category hc => by cases hc; decide⟩
      · exact ⟨_, rfl, fun category hc => by cases hc⟩
  | _ =>
      dsimp only
      split
      · exact ⟨_, rfl, fun category hc => by cases hc; decide⟩
      · split
        · exact ⟨_, rfl, fun category hc => by cases hc; decide⟩
        · exact ⟨_, rfl, fun category hc => by cases hc⟩

theorem exists_ofVariables {d : Declaration} {o : Options} {c : Option Category}
    (hc : categorize d o.stage = .ok c) {vs : List Variable}
    (h : forall v, v ∈ vs -> v.length = none) :
    exists ps, ofVariables d o.stage vs = .ok ps ∧
      ps.map (fun p => (tag o d p).outline) = outlinesOf d c vs := by
  induction vs with
  | nil => exact ⟨[], rfl, by cases c <;> rfl⟩
  | cons v vs ih =>
      rcases List.forall_mem_cons.mp h with ⟨hv, hvs⟩
      rcases ih hvs with ⟨ps, hps, houtlines⟩
      rw [ofVariables, hc]
      cases hname : Text.startsWith v.name "gl_" with
      | true =>
          refine ⟨ps, hps, houtlines.trans ?_⟩
          cases c with
          | none => rfl
          | some category => simp [outlinesOf, hname]
      | false =>
          cases c with
          | none => exact ⟨ps, hps, houtlines⟩
          | some category =>
              dsimp only
              rw [ofVariable, hv, hps]
              refine ⟨_, rfl, ?_⟩
              rw [List.map_cons, houtlines]
              simp [outlinesOf, hname, tag, Param.outline, Param.new]

theorem exists_paramsOf {d : Declaration} (h : d.IsPlain) (o : Options) :
    exists ps, paramsOf d o.stage = .ok ps ∧
      ps.map (fun p => (tag o d p).outline) = outlines o.stage d := by
  rcases categorize_of_ne_buffer h.storage o.stage with ⟨c, hc, _⟩
  rw [paramsOf, h.unblocked, outlines, hc]
  exact exists_ofVariables hc h.single

theorem exists_records {ds : List Declaration} (h : forall d, d ∈ ds -> d.IsPlain) (o : Options)
    (previous : Nat) :
    exists ps, records o previous ds = .ok ps ∧
      ps.map Param.outline = ds.flatMap (outlines o.stage) := by
  induction ds generalizing previous with
  | nil => exact ⟨[], rfl, rfl⟩
  | cons d ds ih =>
      rcases List.forall_mem_cons.mp h with ⟨hd, hds⟩
      rcases exists_paramsOf hd o with ⟨ps, hps, hhere⟩
      rcases ih hds d.line with ⟨qs, hqs, hrest⟩
      rw [records, hps, hqs]
      refine ⟨_, rfl, ?_⟩
      rw [List.map_append, hrest, List.flatMap_cons, ← hhere, List.map_map]
      congr 1
      apply List.map_congr_left
      intro p _
      exact outline_scope _ _

end Reflect

/-!
# The resources of records
-/

namespace ShaderInfo

structure HasOutlines (info : ShaderInfo) (xs : List Outline) : Prop where
  outline : forall p, p ∈ info.params -> p.outline ∈ xs
  resource : forall x, x ∈ xs ->
    exists p, p ∈ info.params ∧ p.category = x.category ∧ p.name = x.name

theorem outline_combine {p : Param} (h : p.layout.isSome = true) (q : Param) :
    (combine p q).outline = p.outline := by
  unfold combine Param.outline
  dsimp only
  rw [Option.or_of_isSome h]

theorem exists_of_add {s s' : ShaderInfo} {p : Param} (h : s.add p = .ok s') :
    forall k, k ∈ s.params.map key ++ [key p] -> k ∈ s'.params.map key := by
  intro k hk
  rcases add_cases h with ⟨_, hparams⟩ | ⟨old, hold, _, hparams⟩
  · rw [hparams, List.map_append]
    exact hk
  · rw [hparams, keys_enrich]
    rcases List.mem_append.mp hk with hk | hk
    · exact hk
    · rw [List.mem_singleton.mp hk]
      rcases isNamed_of_find? hold with ⟨hmem, hcategory, hname⟩
      exact List.mem_map.mpr ⟨old, hmem, Prod.ext hcategory hname⟩

theorem keys_of_addAll {s s' : ShaderInfo} {ps : List Param} (h : s.addAll ps = (s', none)) :
    forall k, k ∈ s.params.map key ++ ps.map key -> k ∈ s'.params.map key := by
  induction ps generalizing s with
  | nil =>
      cases h
      simp
  | cons p ps ih =>
      rcases addAll_cons h with ⟨t, hadd, hrest⟩
      intro k hk
      apply ih hrest
      rw [List.map_cons, List.append_cons] at hk
      rcases List.mem_append.mp hk with hk | hk
      · exact List.mem_append_left _ (exists_of_add hadd k hk)
      · exact List.mem_append_right _ hk

theorem hasOutlines_of_addAll {ps : List Param} {info : ShaderInfo}
    (hlayout : forall p, p ∈ ps -> p.layout.isSome = true) (h : empty.addAll ps = (info, none)) :
    info.HasOutlines (ps.map Param.outline) := by
  constructor
  · have hall := forall_of_addAll
      (P := fun p => p.outline ∈ ps.map Param.outline ∧ p.layout.isSome = true)
      (fun q p hq => ⟨outline_combine hq.2 p ▸ hq.1, by simp [combine, hq.2]⟩)
      (by simp [empty]) (fun p hp => ⟨List.mem_map_of_mem hp, hlayout p hp⟩) h
    exact fun p hp => (hall p hp).1
  · intro x hx
    rcases List.mem_map.mp hx with ⟨p, hp, rfl⟩
    have hkey := keys_of_addAll h (key p) (List.mem_append_right _ (List.mem_map_of_mem hp))
    rcases List.mem_map.mp hkey with ⟨q, hq, heq⟩
    exact ⟨q, hq, congrArg Prod.fst heq, congrArg Prod.snd heq⟩

theorem signature_eq_iff {p q : Param} (hp : p.category ≠ .block ∧ p.category ≠ .buffer)
    (hq : q.category ≠ .block ∧ q.category ≠ .buffer) :
    (key p = key q -> signature p = signature q) ↔ p.outline.Agrees q.outline := by
  unfold signature Outline.Agrees Param.outline key
  rw [if_neg (by simp [hp]), if_neg (by simp [hq])]
  simp

theorem coherent_iff {ps : List Param}
    (h : forall p, p ∈ ps -> p.category ≠ .block ∧ p.category ≠ .buffer) :
    Coherent ps ↔
      forall x y, x ∈ ps.map Param.outline -> y ∈ ps.map Param.outline -> x.Agrees y := by
  have hpairs : Coherent ps ↔ (ps.map Param.outline).Pairwise Outline.Agrees := by
    rw [List.pairwise_map]
    exact List.Pairwise.iff_of_mem fun hp hq => signature_eq_iff (h _ hp) (h _ hq)
  rw [hpairs]
  constructor
  · intro hagree x y hx hy
    have hsymm : Std.Symm Outline.Agrees := ⟨fun _ _ => Outline.Agrees.symm⟩
    exact hagree.forall_of_forall (fun x _ => Outline.Agrees.refl x) hx hy
  · exact fun hall => List.pairwise_of_forall_mem_list fun x hx y hy => hall x y hx hy

end ShaderInfo

/-- Variables can be reflected exactly if their outlines agree, and then the resources have these
outlines. -/
theorem reflect_outlines {o : Reflect.Options} {ts : List Token} {ds : List Declaration}
    (hds : Declaration.ofTokens ts = .ok ds) (hplain : forall d, d ∈ ds -> d.IsPlain) :
    ((exists info, reflect o ts = .ok info) ↔
      forall x y, x ∈ ds.flatMap (Reflect.outlines o.stage) ->
        y ∈ ds.flatMap (Reflect.outlines o.stage) -> x.Agrees y) ∧
      forall info, reflect o ts = .ok info ->
        info.HasOutlines (ds.flatMap (Reflect.outlines o.stage)) := by
  rcases Reflect.exists_records hplain o 0 with ⟨ps, hps, houtlines⟩
  have hreflect : forall info,
      reflect o ts = .ok info ↔ ShaderInfo.empty.addAll ps = (info, none) := by
    intro info
    rw [reflect, hds]
    dsimp only
    rw [Reflect.collect_eq_ok_iff, hps]
    simp
  have houtline : forall p, p ∈ ps ->
      p.category ≠ .block ∧ p.category ≠ .buffer ∧ p.layout.isSome = true := by
    intro p hp
    have hmem := List.mem_map_of_mem (f := Param.outline) hp
    rw [houtlines] at hmem
    rcases List.mem_flatMap.mp hmem with ⟨d, hd, hx⟩
    rcases Reflect.categorize_of_ne_buffer (hplain d hd).storage o.stage with ⟨c, hc, hcategory⟩
    rw [Reflect.outlines, hc] at hx
    dsimp only at hx
    cases c with
    | none => cases hx
    | some category =>
        rcases List.mem_map.mp hx with ⟨v, _, heq⟩
        have hcat : category = p.category := congrArg Outline.category heq
        have hitems : d.layout.map Layout.items = p.layout.map Layout.items :=
          congrArg Outline.items heq
        rw [← hcat]
        refine ⟨(hcategory category rfl).1, (hcategory category rfl).2, ?_⟩
        rw [← Option.isSome_map, ← hitems, Option.isSome_map]
        exact (hplain d hd).layout
  rw [← houtlines]
  constructor
  · rw [← ShaderInfo.coherent_iff fun p hp => ⟨(houtline p hp).1, (houtline p hp).2.1⟩,
      ← ShaderInfo.addAll_empty_succeeds_iff]
    simp only [hreflect]
    constructor
    · rintro ⟨info, h⟩
      rw [h]
    · exact fun h => ⟨_, Prod.ext rfl h⟩
  · intro info h
    exact ShaderInfo.hasOutlines_of_addAll (fun p hp => (houtline p hp).2.2) ((hreflect info).mp h)

/-!
# Numbering
-/

namespace Slots

/-- Numbering succeeds exactly if the explicit numbers of each space are consistent. -/
theorem allocate_eq_none_iff (info : ShaderInfo) :
    (allocate info).2 = none ↔ forall x, x ∈ spaces info -> x.1.Consistent x.2 := by
  unfold allocate
  dsimp only
  rw [allocateAll_succeeds, spaces_map (fun p _ => unnumbered_withSet p), List.forall_mem_map]
  simp only [consistent_map_withSet]

theorem consistent_of_none {s : Space} {ps : List Param}
    (h : forall p, p ∈ ps -> s.explicit? p = none) : s.Consistent ps := by
  constructor
  · intro p q n hp _ hn
    rw [h p hp] at hn
    cases hn
  · refine ⟨0, fun n => ⟨?_, fun hn => by omega⟩⟩
    rintro ⟨p, hp, hn⟩
    rw [h p hp] at hn
    cases hn

end Slots

namespace ShaderInfo

theorem HasOutlines.allocate {info : ShaderInfo} {xs : List Outline} (hinfo : info.HasOutlines xs)
    (hbuilt : info.Built) (hsuccess : (Slots.allocate info).2 = none) :
    (Slots.allocate info).1.HasOutlines xs := by
  have hsame := (Slots.numbered_of_allocate hbuilt hsuccess).1
  have houtline : (Slots.allocate info).1.params.map Param.outline =
      info.params.map Param.outline := by
    have hmap := congrArg (List.map Param.outline) hsame
    rw [List.map_map, List.map_map] at hmap
    exact hmap
  have hmem : forall x, x ∈ (Slots.allocate info).1.params.map Param.outline ↔
      x ∈ info.params.map Param.outline := fun x => by rw [houtline]
  constructor
  · intro p hp
    rcases List.mem_map.mp ((hmem _).mp (List.mem_map_of_mem hp)) with ⟨q, hq, heq⟩
    rw [← heq]
    exact hinfo.outline q hq
  · intro x hx
    rcases hinfo.resource x hx with ⟨q, hq, hcategory, hname⟩
    rcases List.mem_map.mp ((hmem _).mpr (List.mem_map_of_mem hq)) with ⟨p, hp, heq⟩
    exact ⟨p, hp, (congrArg Outline.category heq).trans hcategory,
      (congrArg Outline.name heq).trans hname⟩

end ShaderInfo

end EffectShader
