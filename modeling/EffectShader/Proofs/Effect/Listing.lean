import EffectShader.Effect.Output
import EffectShader.Proofs.Resource.Agreement
import EffectShader.Proofs.Resource.Records

/-!
# Listed resources

The output has a list for every category, groups of descriptors by rate, and the
resources that the pipeline provides by name in two scopes.  Each resource has its
places among these lists.  It stands once at each of them and nowhere else, except
that the scopes have no list for subpass inputs.
-/

namespace EffectShader

namespace ResourceLists

/-!
# Places
-/

/-- Where the output lists resources. -/
inductive Listing where
  /-- The effect's own resources of a category. -/
  | own (c : Category)
  /-- The descriptors of a category in the group of a rate. -/
  | group (r : Rate) (c : Category)
  /-- What the pipeline provides by name in one of the two scopes. -/
  | provided (inGlobalSet : Bool)

def ofCategory (l : DescriptorLists) : Category -> List Param
  | .block => l.blocks
  | .samplerTexture => l.samplerTextures
  | .sampler => l.samplers
  | .texture => l.textures
  | .image => l.images
  | .subpassInput => l.subpassInputs
  | .buffer => l.buffers
  | _ => []

def ofScope (l : BuiltinLists) : List Param :=
  l.blocks ++ l.samplerTextures ++ l.buffers ++ l.images

/-- The resources listed at a place. -/
def listedAt (l : ResourceLists) : Listing -> List Param
  | .own .vertexInput => l.vertexInputs
  | .own .varying => l.varyings
  | .own .fragColor => l.fragColors
  | .own .uniform => l.uniforms
  | .own c => ofCategory l.descriptors c
  | .group r c => (l.groups.filter fun g => g.1 == r).flatMap fun g => ofCategory g.2 c
  | .provided inGlobalSet => ofScope (if inGlobalSet then l.globals else l.locals)

/-- The resource belongs to the place: a descriptor of pass rate to its group, another one that the
pipeline provides to its scope, another one to its list and its group, anything else to its list. -/
def Listing.isFor (p : Param) : Listing -> Bool
  | .own c => p.category == c && !(c.isDescriptor && (p.rate == .perPass || p.builtin))
  | .group r c =>
      p.category == c && c.isDescriptor && p.rate == r && (r == .perPass || !p.builtin)
  | .provided inGlobalSet =>
      p.category.isDescriptor && p.rate != .perPass && p.builtin && p.inGlobalSet == inGlobalSet

/-- A subpass input that the pipeline provides by name. -/
def isNamedInput (p : Param) : Bool :=
  p.category == .subpassInput && p.rate != .perPass && p.builtin

theorem exists_isFor (p : Param) : exists place : Listing, place.isFor p = true := by
  by_cases hown : (Listing.own p.category).isFor p = true
  · exact ⟨_, hown⟩
  · simp only [Listing.isFor, beq_self_eq_true, Bool.true_and, Bool.not_eq_true', Bool.not_eq_false,
      Bool.and_eq_true, Bool.or_eq_true, beq_iff_eq] at hown
    rcases hown with ⟨hdescriptor, hrate | hbuiltin⟩
    · exact ⟨.group .perPass p.category, by simp [Listing.isFor, hdescriptor, hrate]⟩
    · by_cases hrate : p.rate = .perPass
      · exact ⟨.group .perPass p.category, by simp [Listing.isFor, hdescriptor, hrate]⟩
      · exact ⟨.provided p.inGlobalSet, by simp [Listing.isFor, hdescriptor, hrate, hbuiltin]⟩

/-!
# The lists of a program
-/

theorem ofCategory_ofParams (ps : List Param) (c : Category) :
    ofCategory (.ofParams ps) c = ps.filter fun p => p.category == c && c.isDescriptor := by
  cases c <;> simp [ofCategory, DescriptorLists.ofParams, Category.isDescriptor]

theorem ofScope_perm {ps : List Param} (h : forall p, p ∈ ps -> p.category.isDescriptor = true) :
    (ofScope (.ofParams ps)).Perm (ps.filter fun p => !(p.category == .subpassInput)) := by
  apply List.perm_iff_count.mpr
  intro p
  simp only [ofScope, BuiltinLists.ofParams, List.count_append, ShaderInfo.count_filter_eq]
  by_cases hp : p ∈ ps
  · have hdescriptor := h p hp
    cases hc : p.category <;> rw [hc] at hdescriptor
    all_goals first
      | exact absurd hdescriptor (by decide)
      | simp
  · simp [List.count_eq_zero_of_not_mem hp]

theorem isOwn_eq (p : Param) :
    isOwn p = !(p.category.isDescriptor && (p.rate == .perPass || p.builtin)) := by
  unfold isOwn isPassDescriptor isBuiltinDescriptor
  cases p.category.isDescriptor <;> cases p.builtin <;> cases p.rate <;> rfl

theorem isGrouped_eq (p : Param) :
    isGrouped p = (p.category.isDescriptor && (p.rate == .perPass || !p.builtin)) := by
  unfold isGrouped isPassDescriptor
  rw [isOwn_eq]
  cases p.category.isDescriptor <;> cases p.builtin <;> cases p.rate <;> rfl

theorem listedAt_own (info : ShaderInfo) (c : Category) :
    (ofInfo info).listedAt (.own c) = info.all.filter fun p => (Listing.own c).isFor p := by
  have hlist : (ofInfo info).listedAt (.own c) =
      (info.all.filter isOwn).filter fun p => p.category == c := by
    cases c <;> rfl
  rw [hlist, List.filter_filter]
  apply List.filter_congr
  intro p _
  rw [isOwn_eq, Listing.isFor]
  by_cases hc : p.category = c
  · rw [hc]
  · rw [beq_eq_false_iff_ne.mpr hc, Bool.false_and, Bool.false_and]

theorem listedAt_group (info : ShaderInfo) (r : Rate) (c : Category) :
    (ofInfo info).listedAt (.group r c) = info.all.filter fun p => (Listing.group r c).isFor p := by
  have hgroup : (ofInfo info).listedAt (.group r c) =
      ofCategory (.ofParams (info.all.filter fun p => isGrouped p && p.rate == r)) c ++ [] := by
    cases r <;> rfl
  rw [hgroup, List.append_nil, ofCategory_ofParams, List.filter_filter]
  apply List.filter_congr
  intro p _
  rw [isGrouped_eq, Listing.isFor]
  by_cases hc : p.category = c
  · by_cases hr : p.rate = r
    · rw [hc, hr, beq_self_eq_true, beq_self_eq_true]
      cases c.isDescriptor <;> cases r <;> cases p.builtin <;> rfl
    · rw [beq_eq_false_iff_ne.mpr hr]
      simp
  · rw [beq_eq_false_iff_ne.mpr hc]
    simp

theorem listedAt_provided (info : ShaderInfo) (inGlobalSet : Bool) :
    ((ofInfo info).listedAt (.provided inGlobalSet)).Perm
      (info.all.filter fun p => (Listing.provided inGlobalSet).isFor p && !isNamedInput p) := by
  have hscope : (ofInfo info).listedAt (.provided inGlobalSet) =
      ofScope (.ofParams (info.all.filter fun p => (Listing.provided inGlobalSet).isFor p)) := by
    have hfilter : (info.all.filter isBuiltinDescriptor).filter
        (fun p => p.inGlobalSet == inGlobalSet) =
          info.all.filter fun p => (Listing.provided inGlobalSet).isFor p := by
      rw [List.filter_filter]
      apply List.filter_congr
      intro p _
      exact Bool.and_comm _ _
    rw [← hfilter]
    cases inGlobalSet with
    | true =>
        rw [show (fun p : Param => p.inGlobalSet == true) = fun p => p.inGlobalSet from
          funext fun p => by cases p.inGlobalSet <;> rfl]
        rfl
    | false =>
        rw [show (fun p : Param => p.inGlobalSet == false) = fun p => !p.inGlobalSet from
          funext fun p => by cases p.inGlobalSet <;> rfl]
        rfl
  rw [hscope]
  refine (ofScope_perm ?_).trans ?_
  · intro p hp
    have hfor := (List.mem_filter.mp hp).2
    simp only [Listing.isFor, Bool.and_eq_true] at hfor
    exact hfor.1.1.1
  · rw [List.filter_filter]
    apply List.Perm.of_eq
    apply List.filter_congr
    intro p _
    simp only [Listing.isFor, isNamedInput]
    cases p.category <;> cases p.rate <;> cases p.builtin <;>
      cases p.inGlobalSet == inGlobalSet <;> rfl

/-!
# Resources and places
-/

/-- A subpass input that is provided by name belongs to a scope only. -/
theorem isFor_isNamedInput {p : Param} (h : isNamedInput p = true) {place : Listing}
    (hplace : place.isFor p = true) : place = .provided p.inGlobalSet := by
  simp only [isNamedInput, Bool.and_eq_true, beq_iff_eq, bne_iff_ne] at h
  rcases h with ⟨⟨hcategory, hrate⟩, hbuiltin⟩
  cases place with
  | own c =>
      simp only [Listing.isFor, Bool.and_eq_true, beq_iff_eq, hcategory] at hplace
      rcases hplace with ⟨rfl, hplace⟩
      simp [Category.isDescriptor, hbuiltin] at hplace
  | group r c =>
      simp only [Listing.isFor, Bool.and_eq_true, beq_iff_eq] at hplace
      rcases hplace with ⟨⟨_, rfl⟩, hplace⟩
      simp [hrate, hbuiltin] at hplace
  | provided inGlobalSet =>
      simp only [Listing.isFor, Bool.and_eq_true, beq_iff_eq] at hplace
      rw [hplace.2]

/-- Every place lists its resources, except for subpass inputs that are provided by name. -/
theorem listedAt_perm (info : ShaderInfo) (place : Listing) :
    ((ofInfo info).listedAt place).Perm
      (info.params.filter fun p => place.isFor p && !isNamedInput p) := by
  have hother : (forall inGlobalSet, place ≠ .provided inGlobalSet) ->
      (info.all.filter fun p => place.isFor p) =
        info.all.filter fun p => place.isFor p && !isNamedInput p := by
    intro hne
    apply List.filter_congr
    intro p _
    cases hnamed : isNamedInput p with
    | false => simp
    | true =>
        rw [Bool.not_true, Bool.and_false, Bool.eq_false_iff]
        intro hplace
        exact hne _ (isFor_isNamedInput hnamed hplace)
  refine List.Perm.trans ?_ (info.all_perm.filter _)
  cases place with
  | own c =>
      rw [listedAt_own, hother (fun _ h => nomatch h)]
  | group r c =>
      rw [listedAt_group, hother (fun _ h => nomatch h)]
  | provided inGlobalSet => exact listedAt_provided info inGlobalSet

theorem count_listedAt (info : ShaderInfo) (place : Listing) (p : Param) :
    ((ofInfo info).listedAt place).count p =
      if place.isFor p && !isNamedInput p then info.params.count p else 0 := by
  rw [(listedAt_perm info place).count_eq, ShaderInfo.count_filter_eq]

theorem not_mem_listedAt (info : ShaderInfo) {p : Param} (h : isNamedInput p = true)
    (place : Listing) : p ∉ (ofInfo info).listedAt place := by
  rw [(listedAt_perm info place).mem_iff, List.mem_filter, h]
  simp

end ResourceLists

open ResourceLists

/-- Every list of the output holds the resources that belong to its place, each once, except for the
subpass inputs that the pipeline provides by name: a resource is listed as it should be exactly if
it is none of these, and these are listed nowhere. -/
theorem listed_iff {info : ShaderInfo} (hbuilt : info.Built) :
    (forall place, ((ofInfo info).listedAt place).Perm
      (info.params.filter fun p => place.isFor p && !isNamedInput p)) ∧
    forall p, p ∈ info.params ->
      ((exists place : Listing, place.isFor p = true) ∧
        ((forall place, ((ofInfo info).listedAt place).count p = if place.isFor p then 1 else 0) ↔
          isNamedInput p = false) ∧
        (isNamedInput p = true -> forall place, p ∉ (ofInfo info).listedAt place)) := by
  have hnodup : info.params.Nodup := hbuilt.keys_nodup.of_map
  constructor
  · exact listedAt_perm info
  · intro p hp
    have hone : info.params.count p = 1 := List.count_eq_one_of_mem hnodup hp
    have hcount : forall place, ((ofInfo info).listedAt place).count p =
        if place.isFor p && !isNamedInput p then 1 else 0 := by
      intro place
      rw [count_listedAt, hone]
    refine ⟨exists_isFor p, ?_, ?_⟩
    · constructor
      · intro hall
        rcases exists_isFor p with ⟨place, hplace⟩
        have hlisted := (hcount place).symm.trans (hall place)
        rw [hplace, if_pos rfl] at hlisted
        cases hnamed : isNamedInput p with
        | false => rfl
        | true => simp [hnamed] at hlisted
      · intro hnamed place
        rw [hcount place, hnamed, Bool.not_false, Bool.and_true]
    · exact not_mem_listedAt info

/-- A sampler of the effect beside a subpass input of the pipeline. -/
theorem listed_iff_sampler :
    exists info p q,
      ShaderInfo.mergeStages ShaderInfo.empty
        [(.bare Stages.fragmentOnly, "uniform sampler2D a; uniform subpassInput cc_b;")] =
          some info ∧
      info.params = [p, q] ∧
      (forall place,
        ((ofInfo info).listedAt place).count p = if place.isFor p then 1 else 0) ∧
      forall place, q ∉ (ofInfo info).listedAt place := by
  have hrun : ((ShaderInfo.mergeStages ShaderInfo.empty
      [(.bare Stages.fragmentOnly, "uniform sampler2D a; uniform subpassInput cc_b;")]).any
      fun info => info.params.map isNamedInput == [false, true]) = true := by
    decide +kernel
  rcases (Option.any_eq_true _ _).mp hrun with ⟨info, hinfo, hnamed⟩
  rcases List.map_eq_cons_iff.mp (beq_iff_eq.mp hnamed) with ⟨p, _, hparams, hp, hrest⟩
  rcases List.map_eq_singleton_iff.mp hrest with ⟨q, rfl, hq⟩
  have hbuilt := ShaderInfo.built_of_mergeStages ShaderInfo.Built.empty hinfo
  rcases listed_iff hbuilt with ⟨_, hlisted⟩
  refine ⟨info, p, q, hinfo, hparams, ?_, ?_⟩
  · exact (hlisted p (by simp [hparams])).2.1.mpr hp
  · exact (hlisted q (by simp [hparams])).2.2 hq

/-- A subpass input that belongs to the local scope and is listed nowhere. -/
theorem subpassInput_not_listed :
    exists info p,
      ShaderInfo.mergeStages ShaderInfo.empty
        [(.bare Stages.fragmentOnly, "uniform subpassInput cc_b;")] = some info ∧
      p ∈ info.params ∧ (Listing.provided false).isFor p = true ∧
      forall place, p ∉ (ofInfo info).listedAt place := by
  have hrun : ((ShaderInfo.mergeStages ShaderInfo.empty
      [(.bare Stages.fragmentOnly, "uniform subpassInput cc_b;")]).any fun info =>
      info.params.any fun p => (Listing.provided false).isFor p && isNamedInput p) = true := by
    decide +kernel
  rcases (Option.any_eq_true _ _).mp hrun with ⟨info, hinfo, hany⟩
  rcases List.any_eq_true.mp hany with ⟨p, hp, hfacts⟩
  rcases Bool.and_eq_true_iff.mp hfacts with ⟨hplace, hnamed⟩
  exact ⟨info, p, hinfo, hp, hplace, not_mem_listedAt info hnamed⟩

end EffectShader
