import EffectShader.Proofs.Resource.Agreement

/-!
# Shared slots

Material, global and local descriptors are numbered apart, and each kind has a
descriptor set of its own.  A layout qualifier can move a descriptor to the set of
another kind, where its binding may be taken: the bindings of different kinds are
never compared.
-/

namespace EffectShader

namespace Slots

/-- The descriptor set and the binding of a resource. -/
def slot (p : Param) : Int × Option Int :=
  (p.set, p.binding)

/-- The descriptor set that a resource asks for. -/
def wantedSet (p : Param) : Int :=
  (layoutInt? p.layout "set").getD (defaultSet p)

theorem defaultSet_eq_iff {p q : Param} :
    defaultSet p = defaultSet q ↔
      p.builtin = q.builtin ∧ (p.builtin = true -> p.inGlobalSet = q.inGlobalSet) := by
  unfold defaultSet
  cases p.builtin <;> cases q.builtin <;> cases p.inGlobalSet <;> cases q.inGlobalSet <;> decide

theorem exists_common_space {info : ShaderInfo} {p q : Param} (hp : p ∈ descriptors info)
    (hq : q ∈ descriptors info) (hkind : defaultSet p = defaultSet q) :
    exists x, x ∈ spaces info ∧ p ∈ x.2 ∧ q ∈ x.2 ∧ x.1.byLocation = false := by
  rcases defaultSet_eq_iff.mp hkind with ⟨hbuiltin, hglobal⟩
  have hmember : forall f : Param -> Bool, f p = true -> f q = true ->
      p ∈ (descriptors info).filter f ∧ q ∈ (descriptors info).filter f := by
    intro f hfp hfq
    exact ⟨List.mem_filter.mpr ⟨hp, hfp⟩, List.mem_filter.mpr ⟨hq, hfq⟩⟩
  rw [spaces_eq]
  cases hpb : p.builtin with
  | false =>
      rw [hpb] at hbuiltin
      rcases hmember (fun r => !r.builtin) (by simp [hpb]) (by simp [← hbuiltin]) with ⟨hp, hq⟩
      exact ⟨_, List.mem_cons_self, hp, hq, rfl⟩
  | true =>
      have hsame := hglobal hpb
      rw [hpb] at hbuiltin
      cases hpg : p.inGlobalSet with
      | true =>
          rw [hpg] at hsame
          rcases hmember (fun r => r.builtin && r.inGlobalSet) (by simp [hpb, hpg])
            (by simp [← hbuiltin, ← hsame]) with ⟨hp, hq⟩
          exact ⟨_, List.mem_cons_of_mem _ List.mem_cons_self, hp, hq, rfl⟩
      | false =>
          rw [hpg] at hsame
          rcases hmember (fun r => r.builtin && !r.inGlobalSet) (by simp [hpb, hpg])
            (by simp [← hbuiltin, ← hsame]) with ⟨hp, hq⟩
          exact ⟨_, List.mem_cons_of_mem _ (List.mem_cons_of_mem _ List.mem_cons_self), hp, hq, rfl⟩

section

variable {info : ShaderInfo} {p q : Param}

theorem binding_ne_of_kind (hbuilt : info.Built) (hsuccess : (allocate info).2 = none)
    (hp : p ∈ descriptors (allocate info).1) (hq : q ∈ descriptors (allocate info).1)
    (hname : p.name ≠ q.name) (hkind : defaultSet p = defaultSet q) : p.binding ≠ q.binding := by
  rcases exists_common_space hp hq hkind with ⟨x, hx, hpx, hqx, hlocation⟩
  have hnumbered := (numbered_of_allocate hbuilt hsuccess).2 x hx
  intro hbinding
  apply hname
  apply hnumbered.separate p q hpx hqx
  unfold Space.slot
  rw [hlocation]
  exact hbinding

theorem set_eq_wantedSet (hp : p ∈ descriptors (allocate info).1) : p.set = wantedSet p := by
  rcases mem_descriptors.mp hp with ⟨hmem, hdescriptor⟩
  exact hasSet_of_allocate hmem hdescriptor

theorem exists_descriptor (hbuilt : info.Built) (hsuccess : (allocate info).2 = none)
    (hp : p ∈ descriptors (allocate info).1) :
    exists r, r ∈ descriptors info ∧ unnumbered r = unnumbered p := by
  rcases mem_descriptors.mp hp with ⟨hmem, hdescriptor⟩
  have hsame : unnumbered p ∈ info.params.map unnumbered := by
    rw [← (numbered_of_allocate hbuilt hsuccess).1]
    exact List.mem_map_of_mem hmem
  rcases List.mem_map.mp hsame with ⟨r, hr, heq⟩
  have hcategory : r.category = p.category := eq_of_unnumbered Param.category (fun _ => rfl) heq
  exact ⟨r, mem_descriptors.mpr ⟨hr, hcategory ▸ hdescriptor⟩, heq⟩

theorem wantedSet_eq_defaultSet (hbuilt : info.Built) (hsuccess : (allocate info).2 = none)
    (hstay : forall r n, r ∈ descriptors info -> layoutInt? r.layout "set" = some n ->
      n = defaultSet r) (hp : p ∈ descriptors (allocate info).1) : wantedSet p = defaultSet p := by
  rcases exists_descriptor hbuilt hsuccess hp with ⟨r, hr, heq⟩
  have hlayout : r.layout = p.layout := eq_of_unnumbered Param.layout (fun _ => rfl) heq
  have hkind : defaultSet r = defaultSet p := eq_of_unnumbered defaultSet (fun _ => rfl) heq
  unfold wantedSet
  cases hset : layoutInt? p.layout "set" with
  | none => rfl
  | some n => exact (hstay r n hr (hlayout ▸ hset)).trans hkind

end

/-- Two descriptors of different names share a slot exactly if they are of different kinds, ask for
the same set and got the same binding.  That needs a qualifier that asks for the set of another
kind. -/
theorem shared_slot_iff {info : ShaderInfo} (hbuilt : info.Built)
    (hsuccess : (allocate info).2 = none) :
    (forall p q, p ∈ descriptors (allocate info).1 -> q ∈ descriptors (allocate info).1 ->
      p.name ≠ q.name ->
      (slot p = slot q ↔
        defaultSet p ≠ defaultSet q ∧ wantedSet p = wantedSet q ∧ p.binding = q.binding)) ∧
    ((forall r n, r ∈ descriptors info -> layoutInt? r.layout "set" = some n -> n = defaultSet r) ->
      forall p q, p ∈ descriptors (allocate info).1 -> q ∈ descriptors (allocate info).1 ->
        p.name ≠ q.name -> slot p ≠ slot q) := by
  have hiff : forall p q, p ∈ descriptors (allocate info).1 ->
      q ∈ descriptors (allocate info).1 -> p.name ≠ q.name ->
      (slot p = slot q ↔
        defaultSet p ≠ defaultSet q ∧ wantedSet p = wantedSet q ∧ p.binding = q.binding) := by
    intro p q hp hq hname
    unfold slot
    rw [Prod.mk.injEq, set_eq_wantedSet hp, set_eq_wantedSet hq]
    constructor
    · rintro ⟨hset, hbinding⟩
      refine ⟨?_, hset, hbinding⟩
      intro hkind
      exact binding_ne_of_kind hbuilt hsuccess hp hq hname hkind hbinding
    · exact And.right
  constructor
  · exact hiff
  · intro hstay p q hp hq hname hslot
    rcases (hiff p q hp hq hname).mp hslot with ⟨hkind, hset, _⟩
    apply hkind
    rw [← wantedSet_eq_defaultSet hbuilt hsuccess hstay hp, hset,
      wantedSet_eq_defaultSet hbuilt hsuccess hstay hq]

theorem exists_two {α β : Type} {l : List Param} {f : Param -> α} {g : Param -> β} {a b : α × β}
    (h : l.map (fun p => (f p, g p)) = [a, b]) :
    exists p q, l = [p, q] ∧ (f p = a.1 ∧ g p = a.2) ∧ f q = b.1 ∧ g q = b.2 := by
  rcases List.map_eq_cons_iff.mp h with ⟨p, _, rfl, rfl, hrest⟩
  rcases List.map_eq_cons_iff.mp hrest with ⟨q, _, rfl, rfl, hnil⟩
  rw [List.map_eq_nil_iff.mp hnil]
  exact ⟨p, q, rfl, ⟨rfl, rfl⟩, rfl, rfl⟩

/-- The first binding of the material set and the first of the local set. -/
theorem shared_slot_iff_apart :
    exists info p q,
      ShaderInfo.mergeStages ShaderInfo.empty
        [(.bare Stages.fragmentOnly, "uniform sampler2D a; uniform sampler2D cc_b;")] = some info ∧
      descriptors (allocate info).1 = [p, q] ∧ p.binding = q.binding ∧ slot p ≠ slot q := by
  have hrun : ((ShaderInfo.mergeStages ShaderInfo.empty
      [(.bare Stages.fragmentOnly, "uniform sampler2D a; uniform sampler2D cc_b;")]).any fun info =>
      (allocate info).2.isNone &&
        (descriptors info).all (fun r => (layoutInt? r.layout "set").isNone) &&
        (descriptors (allocate info).1).map (fun p => (p.name, p.binding)) ==
          [(("a" : Text), some 0), ("cc_b", some 0)]) = true := by
    decide +kernel
  rcases (Option.any_eq_true _ _).mp hrun with ⟨info, hinfo, hfacts⟩
  simp only [Bool.and_eq_true, List.all_eq_true, Option.isNone_iff_eq_none, beq_iff_eq] at hfacts
  rcases hfacts with ⟨⟨hsuccess, hfree⟩, hslots⟩
  rcases exists_two hslots with ⟨p, q, hpair, hp, hq⟩
  have hbuilt := ShaderInfo.built_of_mergeStages ShaderInfo.Built.empty hinfo
  refine ⟨info, p, q, hinfo, hpair, hp.2.trans hq.2.symm, ?_⟩
  apply (shared_slot_iff hbuilt hsuccess).2
  · intro r n hr hn
    rw [hfree r hr] at hn
    cases hn
  · simp [hpair]
  · simp [hpair]
  · rw [hp.1, hq.1]
    decide

/-- A material descriptor that asks for the local set meets a local one at its first binding. -/
theorem shared_slot_moved :
    exists info p q,
      ShaderInfo.mergeStages ShaderInfo.empty
        [(.bare Stages.fragmentOnly,
          "layout(set = 2) uniform sampler2D a; uniform sampler2D cc_b;")] = some info ∧
      (allocate info).2 = none ∧ descriptors (allocate info).1 = [p, q] ∧
      p.name ≠ q.name ∧ slot p = (2, some 0) ∧ slot q = (2, some 0) := by
  have hrun : ((ShaderInfo.mergeStages ShaderInfo.empty
      [(.bare Stages.fragmentOnly,
        "layout(set = 2) uniform sampler2D a; uniform sampler2D cc_b;")]).any fun info =>
      (allocate info).2.isNone &&
        (descriptors (allocate info).1).map (fun p => (p.name, slot p)) ==
          [(("a" : Text), (2, some 0)), ("cc_b", (2, some 0))]) = true := by
    decide +kernel
  rcases (Option.any_eq_true _ _).mp hrun with ⟨info, hinfo, hfacts⟩
  simp only [Bool.and_eq_true, Option.isNone_iff_eq_none, beq_iff_eq] at hfacts
  rcases hfacts with ⟨hsuccess, hslots⟩
  rcases exists_two hslots with ⟨p, q, hpair, hp, hq⟩
  refine ⟨info, p, q, hinfo, hsuccess, hpair, ?_, hp.2, hq.2⟩
  rw [hp.1, hq.1]
  decide

end Slots

end EffectShader
