import EffectShader.Proofs.Resource.Filling
import EffectShader.Proofs.Resource.Records

/-!
# Numbering without gaps

A space whose explicit numbers are consistent is numbered from zero without gaps.  The
spaces of a program have no resource in common and the numbers that one of them gives
are written back without a change to the others, so the numbering of a program
is that of each of its spaces.
-/

namespace EffectShader

namespace Slots

/-!
## The numbering of a space
-/

/-- The resources of a space are numbered without gaps. -/
structure Space.Numbered (s : Space) (ps : List Param) : Prop where
  total : forall p, p ∈ ps -> exists n, s.slot p = some n
  kept : forall p n, p ∈ ps -> s.explicit? p = some n -> s.slot p = some n
  separate : forall p q, p ∈ ps -> q ∈ ps -> s.slot p = s.slot q -> p.name = q.name
  consecutive : exists m : Nat, forall n, s.Uses ps n ↔ 0 ≤ n ∧ n < m
  indexed : forall before p after, ps = before ++ p :: after -> s.TakesIndex before p after

theorem filling_of_consistent {s : Space} {ps : List Param} (h : (entries s [] ps).Coherent)
    (hplace : misplaced? 0 (claimed (entries s [] ps)) = none) :
    Filling s (entries s [] ps) (claimed (entries s [] ps)).length
      (ps.map fun p => s.assign p (s.explicit? p)) := by
  have hclaimed := mem_iff_of_misplaced? hplace
  have hrange : forall n o, Claims.owner? (entries s [] ps) n = some o ->
      0 ≤ n ∧ n < (claimed (entries s [] ps)).length := by
    intro n o ho
    have := (hclaimed n).mp (mem_claimed.mpr ⟨o, mem_of_owner? ho⟩)
    omega
  have hentry : forall p n, p ∈ ps -> s.explicit? p = some n ->
      exists o, Claims.owner? (entries s [] ps) n = some o ∧ o.name = p.name := by
    intro p n hp hn
    have hmem : (n, p) ∈ entries s [] ps := mem_entries.mpr (Or.inr ⟨hp, hn⟩)
    rcases owner?_of_mem hmem with ⟨o, ho⟩
    exact ⟨o, ho, h n o p (mem_of_owner? ho) hmem⟩
  have hused : forall n o, Claims.owner? (entries s [] ps) n = some o ->
      s.Uses (ps.map fun p => s.assign p (s.explicit? p)) n := by
    intro n o ho
    rcases mem_entries.mp (mem_of_owner? ho) with hnil | ⟨hmem, hexplicit⟩
    · cases hnil
    · refine ⟨_, List.mem_map.mpr ⟨o, hmem, rfl⟩, ?_⟩
      rw [slot_assign, hexplicit]
  have hbelow : forall n, 0 ≤ n -> n < ((claimed (entries s [] ps)).length : Int) ->
      exists o, Claims.owner? (entries s [] ps) n = some o := by
    intro n hle hlt
    rcases mem_claimed.mp ((hclaimed n).mpr (by omega)) with ⟨p, hp⟩
    exact owner?_of_mem hp
  constructor
  case nonneg =>
    intro q n hq hslot
    rcases List.mem_map.mp hq with ⟨p, hp, rfl⟩
    rw [slot_assign] at hslot
    rcases hentry p n hp hslot with ⟨o, ho, _⟩
    exact (hrange n o ho).1
  case kept =>
    intro q n hq hexplicit
    rcases List.mem_map.mp hq with ⟨p, hp, rfl⟩
    rw [explicit?_assign] at hexplicit
    rw [slot_assign, hexplicit]
  case used => exact hused
  case owned =>
    intro q n hq hslot
    rcases List.mem_map.mp hq with ⟨p, hp, rfl⟩
    rw [slot_assign] at hslot
    rw [name_assign]
    exact hentry p n hp hslot
  case start => exact Int.natCast_nonneg _
  case below => exact hbelow
  case above =>
    intro _ n o ho
    exact (hrange n o ho).2
  case bounded =>
    intro n o ho
    have hcount : (claimed (entries s [] ps)).length ≤
        ((ps.map fun p => s.assign p (s.explicit? p)).filterMap s.slot).length := by
      apply length_le_of_uses
      intro m hle hlt
      rcases hbelow m hle hlt with ⟨o', ho'⟩
      exact hused m o' ho'
    have hle := List.length_filterMap_le s.slot (ps.map fun p => s.assign p (s.explicit? p))
    have := (hrange n o ho).2
    omega

theorem consecutive_of_filling {s : Space} {claims : Claims} {next : Int} {ps : List Param}
    (h : Filling s claims next ps) (htotal : forall p, p ∈ ps -> exists n, s.slot p = some n)
    (hnames : s.byIndex = true -> (ps.map Param.name).Nodup) :
    exists m : Nat, forall n, s.Uses ps n ↔ 0 ≤ n ∧ n < m := by
  have hstart := h.start
  cases hindex : s.byIndex with
  | false =>
      refine ⟨next.toNat, fun n => ⟨?_, ?_⟩⟩
      · rintro ⟨p, hp, hslot⟩
        rcases h.owned p n hp hslot with ⟨o, ho, _⟩
        have := h.nonneg p n hp hslot
        have := h.above hindex n o ho
        omega
      · rintro ⟨hle, hlt⟩
        rcases h.below n hle (by omega) with ⟨o, ho⟩
        exact h.used n o ho
  | true =>
      -- As many different numbers below the number of resources as there are resources.
      have hinj : forall p q, p ∈ ps -> q ∈ ps -> s.slot p = s.slot q -> p = q := by
        intro p q hp hq heq
        rcases htotal p hp with ⟨n, hn⟩
        rcases h.owned p n hp hn with ⟨o, ho, hop⟩
        rcases h.owned q n hq (heq ▸ hn) with ⟨o', ho', hoq⟩
        rw [ho] at ho'
        cases ho'
        exact List.inj_on_of_nodup_map (hnames hindex) hp hq (hop.symm.trans hoq)
      have hlength : (ps.filterMap s.slot).length = ps.length := by
        apply List.filterMap_length_eq_length.mpr
        intro p hp
        rcases htotal p hp with ⟨n, hn⟩
        rw [hn]
        rfl
      have hnodup : (ps.filterMap s.slot).Nodup := by
        apply List.pairwise_filterMap.mpr
        apply (List.pairwise_map.mp (hnames hindex)).imp_of_mem
        intro p q hp hq hne n hn m hm heq
        apply hne
        rw [hinj p q hp hq (by rw [hn, hm, heq])]
      have hsub : ps.filterMap s.slot ⊆ (List.range ps.length).map fun i : Nat => (i : Int) := by
        intro n hn
        rcases List.mem_filterMap.mp hn with ⟨p, hp, hslot⟩
        rcases h.owned p n hp hslot with ⟨o, ho, _⟩
        have hle := h.nonneg p n hp hslot
        have hlt := h.bounded n o ho
        exact List.mem_map.mpr ⟨n.toNat, List.mem_range.mpr (by omega), by omega⟩
      have hperm := (hnodup.subperm hsub).perm_of_length_le (by simp [hlength])
      refine ⟨ps.length, fun n => ?_⟩
      have hiff : s.Uses ps n ↔ n ∈ ps.filterMap s.slot := List.mem_filterMap.symm
      rw [hiff, hperm.mem_iff, List.mem_map]
      constructor
      · rintro ⟨i, hi, rfl⟩
        have := List.mem_range.mp hi
        omega
      · rintro ⟨hle, hlt⟩
        exact ⟨n.toNat, List.mem_range.mpr (by omega), by omega⟩

theorem allocateSpace_succeeds (s : Space) (ps : List Param) :
    (allocateSpace s ps).failure = none ↔ s.Consistent ps := by
  rcases claim_eq s coherent_nil ps with ⟨hiff, heq⟩
  rw [consistent_iff, ← hiff]
  unfold allocateSpace
  rcases hclaim : claim s [] ps with ⟨⟨params, failure⟩, claims⟩
  rw [hclaim] at heq
  cases failure with
  | some e =>
      constructor
      · intro h
        cases h
      · rintro ⟨h, _⟩
        cases h
  | none =>
      rcases heq rfl with ⟨_, hclaims⟩
      dsimp only at hclaims ⊢
      rw [← hclaims]
      cases hplace : misplaced? 0 (claimed claims) with
      | none => exact ⟨fun _ => ⟨rfl, rfl⟩, fun _ => rfl⟩
      | some n =>
          -- A misplaced number has a claimant, so the failure is reported.
          rcases mem_claimed.mp (misplaced?_mem hplace) with ⟨p, hp⟩
          rcases owner?_of_mem hp with ⟨o, ho⟩
          simp [ho]

theorem allocateSpace_renumbers (s : Space) (ps : List Param)
    (hnames : s.byIndex = true -> (ps.map Param.name).Nodup)
    (h : (allocateSpace s ps).failure = none) :
    Renumbered s ps (allocateSpace s ps).params ∧
      s.Numbered (allocateSpace s ps).params := by
  have hconsistent := consistent_iff.mp ((allocateSpace_succeeds s ps).mp h)
  rcases claim_eq s coherent_nil ps with ⟨hiff, heq⟩
  have hfailure := hiff.mpr hconsistent.1
  rcases heq hfailure with ⟨hparams, hclaims⟩
  have hclaimed : Renumbered s ps (ps.map fun p => s.assign p (s.explicit? p)) := by
    apply List.forall₂_map_right_iff.mpr
    exact List.forall₂_same.mpr fun p _ => ⟨_, rfl⟩
  have hfilling := filling_of_consistent hconsistent.1 hconsistent.2
  have hwaits : forall q, q ∈ ps.map (fun p => s.assign p (s.explicit? p)) ->
      s.slot q = s.explicit? q := by
    intro q hq
    rcases List.mem_map.mp hq with ⟨p, _, rfl⟩
    rw [slot_assign, explicit?_assign]
  have hnames₁ : s.byIndex = true ->
      ((ps.map fun p => s.assign p (s.explicit? p)).map Param.name).Nodup := by
    intro hindex
    rw [names_of_renumbers hclaimed]
    exact hnames hindex
  rcases @fill_spec _ _ _ [] _ hfilling hwaits hnames₁ with
    ⟨qs, claims', next', hout, hrenumbers, hfilled, htotal, hindexed⟩
  have hresult : (allocateSpace s ps).params = qs := by
    unfold allocateSpace
    rcases hclaim : claim s [] ps with ⟨⟨params, failure⟩, claims⟩
    rw [hclaim] at hfailure hparams hclaims
    dsimp only at hfailure hparams hclaims
    rw [hfailure]
    dsimp only
    rw [hclaims, hconsistent.2, hparams]
    exact hout
  rw [hresult]
  constructor
  · exact hclaimed.trans hrenumbers
  · constructor
    case total => exact htotal
    case kept => exact hfilled.kept
    case separate =>
      intro p q hp hq heq
      rcases htotal p hp with ⟨n, hn⟩
      rcases hfilled.owned p n hp hn with ⟨o, ho, hop⟩
      rcases hfilled.owned q n hq (heq ▸ hn) with ⟨o', ho', hoq⟩
      rw [ho] at ho'
      cases ho'
      exact hop.symm.trans hoq
    case consecutive =>
      apply consecutive_of_filling hfilled htotal
      intro hindex
      rw [List.nil_append, names_of_renumbers hrenumbers]
      exact hnames₁ hindex
    case indexed => exact hindexed

/-!
## The spaces of a program
-/

open ShaderInfo (key)

/-- The resource without the numbers that an allocation gives. -/
def unnumbered (p : Param) : Param :=
  { p with binding := none, location := none, set := 0 }

theorem unnumbered_assign (s : Space) (p : Param) (n : Option Int) :
    unnumbered (s.assign p n) = unnumbered p := by
  unfold Space.assign
  split <;> rfl

theorem unnumbered_withSet (p : Param) : unnumbered (withSet p) = unnumbered p := by
  unfold withSet
  split <;> rfl

theorem eq_of_unnumbered {α : Type} {p q : Param} (f : Param -> α)
    (hf : forall r, f (unnumbered r) = f r) (h : unnumbered p = unnumbered q) : f p = f q := by
  rw [← hf p, h, hf q]

theorem key_eq_of_unnumbered {p q : Param} (h : unnumbered p = unnumbered q) : key p = key q :=
  eq_of_unnumbered key (fun _ => rfl) h

/-- The resources that are bound through descriptor sets. -/
def descriptors (info : ShaderInfo) : List Param :=
  (Category.all.filter Category.isDescriptor).flatMap info.list

theorem mem_list {info : ShaderInfo} {c : Category} {p : Param} :
    p ∈ info.list c ↔ p ∈ info.params ∧ p.category = c := by
  unfold ShaderInfo.list
  rw [List.mem_filter, beq_iff_eq]

theorem mem_descriptors {info : ShaderInfo} {p : Param} :
    p ∈ descriptors info ↔ p ∈ info.params ∧ p.category.isDescriptor = true := by
  unfold descriptors
  rw [List.mem_flatMap]
  constructor
  · rintro ⟨c, hc, hp⟩
    rcases mem_list.mp hp with ⟨hmem, rfl⟩
    exact ⟨hmem, (List.mem_filter.mp hc).2⟩
  · rintro ⟨hp, hdescriptor⟩
    refine ⟨p.category, List.mem_filter.mpr ⟨?_, hdescriptor⟩, mem_list.mpr ⟨hp, rfl⟩⟩
    cases p.category <;> decide

theorem spaces_eq (info : ShaderInfo) :
    spaces info =
      [(⟨false, false⟩, (descriptors info).filter fun p => !p.builtin),
       (⟨false, false⟩, (descriptors info).filter fun p => p.builtin && p.inGlobalSet),
       (⟨false, false⟩, (descriptors info).filter fun p => p.builtin && !p.inGlobalSet),
       (⟨true, true⟩, info.list .vertexInput),
       (⟨true, false⟩, info.list .varying),
       (⟨true, false⟩, info.list .fragColor)] :=
  rfl

theorem mem_params_of_spaces {info : ShaderInfo} {x : Space × List Param} {p : Param}
    (hx : x ∈ spaces info) (hp : p ∈ x.2) : p ∈ info.params := by
  rw [spaces_eq] at hx
  simp only [List.mem_cons, List.not_mem_nil, or_false] at hx
  rcases hx with rfl | rfl | rfl | rfl | rfl | rfl
  · exact (mem_descriptors.mp (List.mem_filter.mp hp).1).1
  · exact (mem_descriptors.mp (List.mem_filter.mp hp).1).1
  · exact (mem_descriptors.mp (List.mem_filter.mp hp).1).1
  · exact (mem_list.mp hp).1
  · exact (mem_list.mp hp).1
  · exact (mem_list.mp hp).1

theorem spaces_disjoint (info : ShaderInfo) :
    (spaces info).Pairwise fun x y => forall p, p ∈ x.2 -> p ∉ y.2 := by
  have hcategory : forall c p, c.isDescriptor = false -> p ∈ descriptors info ->
      p ∉ info.list c := by
    intro c p hc hp hlist
    rw [← (mem_list.mp hlist).2, (mem_descriptors.mp hp).2] at hc
    cases hc
  have hother : forall c d p, c ≠ d -> p ∈ info.list c -> p ∉ info.list d := by
    intro c d p hne hc hd
    exact hne ((mem_list.mp hc).2.symm.trans (mem_list.mp hd).2)
  have hvertex := hcategory .vertexInput
  have hvarying := hcategory .varying
  have hcolor := hcategory .fragColor
  rw [spaces_eq]
  simp only [List.pairwise_cons, List.mem_cons, List.not_mem_nil, or_false, forall_eq_or_imp,
    forall_eq, List.mem_filter, Bool.and_eq_true, Bool.not_eq_true']
  refine ⟨⟨?_, ?_, ?_, ?_, ?_⟩, ⟨?_, ?_, ?_, ?_⟩, ⟨?_, ?_, ?_⟩, ⟨?_, ?_⟩, ?_, ?_⟩
  all_goals first
    | exact fun p hp => hcategory _ p rfl hp.1
    | exact fun p hp => hother _ _ p (by decide) hp
    | grind

theorem spaces_map {info : ShaderInfo} {g : Param -> Param}
    (hg : forall p, p ∈ info.params -> unnumbered (g p) = unnumbered p) :
    spaces ⟨info.params.map g⟩ = (spaces info).map fun x => (x.1, x.2.map g) := by
  have hfilter : forall (f : Param -> Bool) (ps : List Param),
      (forall p, p ∈ ps -> f (g p) = f p) -> (ps.map g).filter f = (ps.filter f).map g := by
    intro f ps h
    rw [List.filter_map]
    exact congrArg (List.map g) (List.filter_congr h)
  have hlist : forall c, ShaderInfo.list ⟨info.params.map g⟩ c = (info.list c).map g := by
    intro c
    apply hfilter
    intro p hp
    rw [eq_of_unnumbered Param.category (fun _ => rfl) (hg p hp)]
  have hdescriptors : descriptors ⟨info.params.map g⟩ = (descriptors info).map g := by
    unfold descriptors
    rw [List.map_flatMap]
    exact congrArg (List.flatMap · _) (funext hlist)
  have hsubset : forall p, p ∈ descriptors info ->
      (g p).builtin = p.builtin ∧ (g p).inGlobalSet = p.inGlobalSet := by
    intro p hp
    have h := hg p (mem_descriptors.mp hp).1
    exact ⟨eq_of_unnumbered Param.builtin (fun _ => rfl) h,
      eq_of_unnumbered Param.inGlobalSet (fun _ => rfl) h⟩
  rw [spaces_eq, spaces_eq, hdescriptors, hlist, hlist, hlist, hfilter, hfilter, hfilter]
  · rfl
  all_goals
    intro p hp
    rcases hsubset p hp with ⟨hbuiltin, hglobal⟩
    simp only [hbuiltin, hglobal]

theorem spaces_keys_nodup {info : ShaderInfo} (hkeys : (info.params.map key).Nodup)
    {x : Space × List Param} (hx : x ∈ spaces info) : (x.2.map key).Nodup := by
  have hparams : info.params.Nodup := hkeys.of_map
  have hnodup : x.2.Nodup := by
    have hlist : forall c, (info.list c).Nodup := fun c => hparams.filter _
    have hdescriptors : (descriptors info).Nodup := by
      apply List.nodup_flatMap.mpr
      constructor
      · intro c _
        exact hlist c
      · have hall : (Category.all.filter Category.isDescriptor).Nodup := by
          decide
        apply hall.imp
        intro c d hne p hc hd
        exact hne ((mem_list.mp hc).2.symm.trans (mem_list.mp hd).2)
    rw [spaces_eq] at hx
    simp only [List.mem_cons, List.not_mem_nil, or_false] at hx
    rcases hx with rfl | rfl | rfl | rfl | rfl | rfl
    · exact hdescriptors.filter _
    · exact hdescriptors.filter _
    · exact hdescriptors.filter _
    · exact hlist _
    · exact hlist _
    · exact hlist _
  apply hnodup.map_on
  intro p hp q hq heq
  exact List.inj_on_of_nodup_map hkeys (mem_params_of_spaces hx hp) (mem_params_of_spaces hx hq) heq

theorem spaces_names_nodup {info : ShaderInfo} (hkeys : (info.params.map key).Nodup)
    {x : Space × List Param} (hx : x ∈ spaces info) (hindex : x.1.byIndex = true) :
    (x.2.map Param.name).Nodup := by
  have hlist : x.2 = info.list .vertexInput := by
    rw [spaces_eq] at hx
    simp only [List.mem_cons, List.not_mem_nil, or_false] at hx
    rcases hx with rfl | rfl | rfl | rfl | rfl | rfl
    all_goals first
      | rfl
      | cases hindex
  have hnodup := spaces_keys_nodup hkeys hx
  apply hnodup.of_map.map_on
  intro p hp q hq hname
  apply List.inj_on_of_nodup_map hnodup hp hq
  rw [hlist] at hp hq
  unfold key
  rw [(mem_list.mp hp).2, (mem_list.mp hq).2, hname]

/-!
## Writing numbers back
-/

def update (qs : List Param) (p : Param) : Param :=
  (qs.find? fun q => q.isNamed p.category p.name).getD p

theorem update_cons_of_key {q : Param} {qs : List Param} {p : Param} (h : key q = key p) :
    update (q :: qs) p = q := by
  unfold update
  rw [List.find?_cons, ShaderInfo.isNamed_iff_key.mpr h]
  rfl

theorem update_cons_of_ne {q : Param} {qs : List Param} {p : Param} (h : key q ≠ key p) :
    update (q :: qs) p = update qs p := by
  unfold update
  have hnot : q.isNamed p.category p.name = false := by
    apply Bool.eq_false_iff.mpr
    intro hnamed
    exact h (ShaderInfo.isNamed_iff_key.mp hnamed)
  rw [List.find?_cons, hnot]

theorem update_eq_self {qs : List Param} {p : Param} (h : forall q, q ∈ qs -> key q ≠ key p) :
    update qs p = p := by
  induction qs with
  | nil => rfl
  | cons q qs ih =>
      rw [update_cons_of_ne (h q List.mem_cons_self)]
      exact ih fun r hr => h r (List.mem_cons_of_mem q hr)

theorem Space.Renumbers.unnumbered_eq {s : Space} {p q : Param} (h : s.Renumbers p q) :
    unnumbered q = unnumbered p := by
  rcases h with ⟨n, rfl⟩
  exact unnumbered_assign s p n

theorem Space.Renumbers.key_eq {s : Space} {p q : Param} (h : s.Renumbers p q) :
    ShaderInfo.key q = ShaderInfo.key p :=
  key_eq_of_unnumbered h.unnumbered_eq

theorem exists_renumbers {s : Space} {ps qs : List Param} (h : Renumbered s ps qs) {q : Param}
    (hq : q ∈ qs) : exists p, p ∈ ps ∧ s.Renumbers p q := by
  induction h with
  | nil => cases hq
  | cons hpq _ ih =>
      rcases List.mem_cons.mp hq with rfl | hq
      · exact ⟨_, List.mem_cons_self, hpq⟩
      · rcases ih hq with ⟨p, hp, hpq⟩
        exact ⟨p, List.mem_cons_of_mem _ hp, hpq⟩

theorem map_update {s : Space} {ps qs : List Param} (hkeys : (ps.map key).Nodup)
    (h : Renumbered s ps qs) : ps.map (update qs) = qs := by
  induction h with
  | nil => rfl
  | @cons p q ps qs hpq _ ih =>
      rw [List.map_cons, List.nodup_cons] at hkeys
      rw [List.map_cons, update_cons_of_key hpq.key_eq]
      congr 1
      rw [← ih hkeys.2]
      apply List.map_congr_left
      intro r hr
      rw [ih hkeys.2]
      apply update_cons_of_ne
      rw [hpq.key_eq]
      intro heq
      exact hkeys.1 (heq ▸ List.mem_map_of_mem hr)

section

variable {info : ShaderInfo} {s : Space} {ps qs : List Param}

theorem unnumbered_update (hkeys : (info.params.map key).Nodup)
    (hps : forall p, p ∈ ps -> p ∈ info.params) (h : Renumbered s ps qs) (p : Param)
    (hp : p ∈ info.params) : unnumbered (update qs p) = unnumbered p := by
  unfold update
  cases hfind : qs.find? fun q => q.isNamed p.category p.name with
  | none => rfl
  | some q =>
      rcases exists_renumbers h (List.mem_of_find?_eq_some hfind) with ⟨r, hr, hrq⟩
      have hkey : key q = key p := by
        apply ShaderInfo.isNamed_iff_key.mp
        exact List.find?_some (p := fun q : Param => q.isNamed p.category p.name) hfind
      have heq : r = p := by
        apply List.inj_on_of_nodup_map hkeys (hps r hr) hp
        rw [← hrq.key_eq, hkey]
      rw [← heq]
      exact hrq.unnumbered_eq

theorem spaces_writeBack (hkeys : (info.params.map key).Nodup)
    {before after : List (Space × List Param)} (hspaces : spaces info = before ++ (s, ps) :: after)
    (h : Renumbered s ps qs) : spaces (writeBack info qs) = before ++ (s, qs) :: after := by
  have hmem : (s, ps) ∈ spaces info := by
    rw [hspaces]
    simp
  have hps : forall p, p ∈ ps -> p ∈ info.params := fun p hp => mem_params_of_spaces hmem hp
  have hdisjoint := spaces_disjoint info
  rw [hspaces, List.pairwise_append, List.pairwise_cons] at hdisjoint
  rcases hdisjoint with ⟨_, ⟨hafter, _⟩, hbefore⟩
  have hother : forall x, x ∈ spaces info -> (forall p, p ∈ x.2 -> p ∉ ps) ->
      x.2.map (update qs) = x.2 := by
    intro x hx hnot
    rw [List.map_congr_left (g := id), List.map_id]
    intro p hp
    apply update_eq_self
    intro q hq hkey
    rcases exists_renumbers h hq with ⟨r, hr, hrq⟩
    have heq : r = p := by
      apply List.inj_on_of_nodup_map hkeys (hps r hr) (mem_params_of_spaces hx hp)
      rw [← hrq.key_eq, hkey]
    exact hnot p hp (heq ▸ hr)
  have hsame : forall xs : List (Space × List Param), (forall x, x ∈ xs -> x ∈ spaces info) ->
      (forall x, x ∈ xs -> forall p, p ∈ x.2 -> p ∉ ps) ->
      xs.map (fun x => (x.1, x.2.map (update qs))) = xs := by
    intro xs hxs hnot
    rw [List.map_congr_left (g := id), List.map_id]
    intro x hx
    rw [hother x (hxs x hx) (hnot x hx)]
    rfl
  have hwrite : spaces (writeBack info qs) =
      (spaces info).map fun x => (x.1, x.2.map (update qs)) :=
    spaces_map (unnumbered_update hkeys hps h)
  rw [hwrite, hspaces, List.map_append, List.map_cons, hsame before, hsame after,
    map_update (spaces_keys_nodup hkeys hmem) h]
  · intro x hx
    rw [hspaces]
    simp [hx]
  · intro x hx p hp hmem
    exact hafter x hx p hmem hp
  · intro x hx
    rw [hspaces]
    simp [hx]
  · intro x hx
    exact hbefore x hx (s, ps) List.mem_cons_self

end

/-!
## All spaces
-/

theorem allocateAll_succeeds (info : ShaderInfo) (xs : List (Space × List Param)) :
    (allocateAll info xs).2 = none ↔ forall x, x ∈ xs -> x.1.Consistent x.2 := by
  induction xs generalizing info with
  | nil => simp [allocateAll]
  | cons x xs ih =>
      rcases x with ⟨s, ps⟩
      have hspace := allocateSpace_succeeds s ps
      rw [allocateAll, List.forall_mem_cons]
      dsimp only
      cases hfailure : (allocateSpace s ps).failure with
      | some e =>
          constructor
          · intro h
            cases h
          · rintro ⟨h, _⟩
            rw [hspace.mpr h] at hfailure
            cases hfailure
      | none =>
          dsimp only
          rw [ih]
          constructor
          · intro h
            exact ⟨hspace.mp hfailure, h⟩
          · exact fun h => h.2

/-- Each further space is numbered; those before it keep their numbers. -/
theorem allocateAll_numbers {info : ShaderInfo} (hkeys : (info.params.map key).Nodup)
    {before xs : List (Space × List Param)} (hspaces : spaces info = before ++ xs)
    (hbefore : forall x, x ∈ before -> x.1.Numbered x.2) (h : (allocateAll info xs).2 = none) :
    (allocateAll info xs).1.params.map unnumbered = info.params.map unnumbered ∧
      forall x, x ∈ spaces (allocateAll info xs).1 -> x.1.Numbered x.2 := by
  induction xs generalizing info before with
  | nil =>
      rw [List.append_nil] at hspaces
      refine ⟨rfl, ?_⟩
      rw [allocateAll, hspaces]
      exact hbefore
  | cons x xs ih =>
      rcases x with ⟨s, ps⟩
      have hmem : (s, ps) ∈ spaces info := by
        rw [hspaces]
        simp
      have hconsistent := (allocateAll_succeeds info ((s, ps) :: xs)).mp h
      have hfailure : (allocateSpace s ps).failure = none :=
        (allocateSpace_succeeds s ps).mpr (hconsistent _ List.mem_cons_self)
      rcases allocateSpace_renumbers s ps (spaces_names_nodup hkeys hmem) hfailure with
        ⟨hrenumbered, hnumbered⟩
      have hsame := unnumbered_update hkeys (fun p hp => mem_params_of_spaces hmem hp) hrenumbered
      have hwritten : (writeBack info (allocateSpace s ps).params).params.map unnumbered =
          info.params.map unnumbered := by
        rw [writeBack, List.map_map]
        exact List.map_congr_left hsame
      have hkeys' : ((writeBack info (allocateSpace s ps).params).params.map key).Nodup := by
        rw [writeBack, List.map_map, List.map_congr_left (g := key)]
        · exact hkeys
        · intro p hp
          exact key_eq_of_unnumbered (hsame p hp)
      rw [allocateAll] at h ⊢
      rw [hfailure] at h ⊢
      have hnext := spaces_writeBack hkeys hspaces hrenumbered
      rw [List.append_cons] at hnext
      rcases ih hkeys' hnext (fun x hx => by
        rcases List.mem_append.mp hx with hx | hx
        · exact hbefore x hx
        · rw [List.mem_singleton.mp hx]
          exact hnumbered) h with ⟨hparams, hall⟩
      exact ⟨hparams.trans hwritten, hall⟩

theorem consistent_map_withSet (s : Space) (ps : List Param) :
    s.Consistent (ps.map withSet) ↔ s.Consistent ps := by
  have hname : forall p, (withSet p).name = p.name := fun p =>
    eq_of_unnumbered Param.name (fun _ => rfl) (unnumbered_withSet p)
  have hexplicit : forall p, s.explicit? (withSet p) = s.explicit? p := by
    intro p
    unfold Space.explicit?
    rw [eq_of_unnumbered Param.layout (fun _ => rfl) (unnumbered_withSet p)]
  have hwants : forall n, s.Wants (ps.map withSet) n ↔ s.Wants ps n := by
    intro n
    unfold Space.Wants
    simp [hexplicit]
  constructor
  · intro h
    constructor
    · intro p q n hp hq hn hm
      have := h.coherent _ _ n (List.mem_map_of_mem hp) (List.mem_map_of_mem hq)
        ((hexplicit p).trans hn) ((hexplicit q).trans hm)
      rwa [hname, hname] at this
    · rcases h.consecutive with ⟨k, hk⟩
      exact ⟨k, fun n => (hwants n).symm.trans (hk n)⟩
  · intro h
    constructor
    · intro p q n hp hq hn hm
      rcases List.mem_map.mp hp with ⟨p, hp', rfl⟩
      rcases List.mem_map.mp hq with ⟨q, hq', rfl⟩
      rw [hexplicit] at hn hm
      rw [hname, hname]
      exact h.coherent p q n hp' hq' hn hm
    · rcases h.consecutive with ⟨k, hk⟩
      exact ⟨k, fun n => (hwants n).trans (hk n)⟩

/-- Successful numbering numbers every space without gaps and changes nothing but the numbers. -/
theorem numbered_of_allocate {info : ShaderInfo} (h : info.Built)
    (hsuccess : (allocate info).2 = none) :
    (allocate info).1.params.map unnumbered = info.params.map unnumbered ∧
      forall x, x ∈ spaces (allocate info).1 -> x.1.Numbered x.2 := by
  have hkeys : ((info.params.map withSet).map key).Nodup := by
    rw [List.map_map, List.map_congr_left (g := key)]
    · exact h.keys_nodup
    · intro p _
      exact key_eq_of_unnumbered (unnumbered_withSet p)
  have hnone : forall x, x ∈ ([] : List (Space × List Param)) -> x.1.Numbered x.2 := by
    simp
  rcases allocateAll_numbers hkeys rfl hnone hsuccess with ⟨hparams, hall⟩
  have hset : (info.params.map withSet).map unnumbered = info.params.map unnumbered := by
    rw [List.map_map]
    exact List.map_congr_left fun p _ => unnumbered_withSet p
  exact ⟨hparams.trans hset, hall⟩

/-- Numbering fails exactly on inconsistent explicit numbers in some space.  Otherwise it numbers
every space without gaps and changes nothing but the numbers. -/
theorem allocate_numbers_iff {info : ShaderInfo} (h : info.Built) :
    ((allocate info).2 = none ↔ forall x, x ∈ spaces info -> x.1.Consistent x.2) ∧
      ((allocate info).2 = none ->
        (allocate info).1.params.map unnumbered = info.params.map unnumbered ∧
          forall x, x ∈ spaces (allocate info).1 -> x.1.Numbered x.2) := by
  have hset : spaces ⟨info.params.map withSet⟩ =
      (spaces info).map fun x => (x.1, x.2.map withSet) :=
    spaces_map fun p _ => unnumbered_withSet p
  constructor
  · unfold allocate
    rw [allocateAll_succeeds, hset, List.forall_mem_map]
    simp only [consistent_map_withSet]
  · exact numbered_of_allocate h

/-- The second of two attributes asks for the location that the first would take. -/
theorem allocate_numbers_iff_two :
    exists info : ShaderInfo, info.Built ∧
      (allocate info).1.params.map Param.location = [some 1, some 0] ∧
      forall x, x ∈ spaces (allocate info).1 -> x.1.Numbered x.2 := by
  let first : Param := Param.new "a_uv" .vertexInput
  let second : Param :=
    { Param.new "a_position" .vertexInput with layout := some ⟨[⟨"location", "0"⟩], 0, 0⟩ }
  have hbuilt : ShaderInfo.Built ⟨[first, second]⟩ := by
    apply ShaderInfo.Built.add (s := ⟨[first]⟩) (p := second)
    · exact ShaderInfo.Built.add ShaderInfo.Built.empty rfl
    · rfl
  have hsuccess : (allocate ⟨[first, second]⟩).2 = none := by
    decide +kernel
  refine ⟨⟨[first, second]⟩, hbuilt, by decide +kernel, ?_⟩
  exact ((allocate_numbers_iff hbuilt).2 hsuccess).2

end Slots

end EffectShader
