import EffectShader.Resource.Reflect
import Mathlib.Data.List.Perm.Basic

/-!
# Collected resources

A record that is added goes to the end of the resources or enriches the one that is
there already.  Neither changes the category, the name, the members or the size of a
resource, so names stay unique in a category, and what holds of every single record
holds of every resource that was collected from them.
-/

namespace EffectShader

namespace ShaderInfo

/-!
# One record
-/

theorem isNamed_iff {p : Param} {c : Category} {name : Text} :
    p.isNamed c name = true ↔ p.category = c ∧ p.name = name := by
  simp [Param.isNamed]

theorem isNamed_of_find? {s : ShaderInfo} {c : Category} {name : Text} {p : Param}
    (h : s.find? c name = some p) : p ∈ s.params ∧ p.category = c ∧ p.name = name := by
  constructor
  · exact List.mem_of_find?_eq_some h
  · exact isNamed_iff.mp (List.find?_some (p := fun q : Param => q.isNamed c name) h)

/-- The resources after a record that is present already. -/
def enrich (params : List Param) (p : Param) : List Param :=
  params.map fun q => if q.isNamed p.category p.name then combine q p else q

theorem add_cases {s s' : ShaderInfo} {p : Param} (h : s.add p = .ok s') :
    (s.find? p.category p.name = none ∧ s'.params = s.params ++ [p]) ∨
      (exists old, s.find? p.category p.name = some old ∧ agrees old p = true ∧
        s'.params = enrich s.params p) := by
  unfold add at h
  cases hfind : s.find? p.category p.name with
  | none =>
      rw [hfind] at h
      cases h
      exact Or.inl ⟨rfl, rfl⟩
  | some old =>
      rw [hfind] at h
      dsimp only at h
      split at h
      · rename_i hagrees
        cases h
        exact Or.inr ⟨old, rfl, hagrees, rfl⟩
      · cases h

theorem forall_of_add {P : Param -> Prop} {s s' : ShaderInfo} {p : Param}
    (hcombine : forall q, P q -> P (combine q p)) (hs : forall q, q ∈ s.params -> P q) (hp : P p)
    (h : s.add p = .ok s') : forall q, q ∈ s'.params -> P q := by
  intro q hq
  rcases add_cases h with ⟨_, hparams⟩ | ⟨_, _, _, hparams⟩
  · rw [hparams] at hq
    rcases List.mem_append.mp hq with hq | hq
    · exact hs q hq
    · rw [List.mem_singleton.mp hq]
      exact hp
  · rw [hparams] at hq
    rcases List.mem_map.mp hq with ⟨r, hr, rfl⟩
    split
    · exact hcombine r (hs r hr)
    · exact hs r hr

/-!
# Unique names
-/

def key (p : Param) : Category × Text :=
  (p.category, p.name)

/-- The resources of a program that were added record by record. -/
inductive Built : ShaderInfo -> Prop
  | empty : Built empty
  | add {s s' : ShaderInfo} {p : Param} : Built s -> s.add p = .ok s' -> Built s'

theorem isNamed_iff_key {p q : Param} : q.isNamed p.category p.name = true ↔ key q = key p := by
  rw [isNamed_iff]
  exact Prod.mk.injEq _ _ _ _ ▸ Iff.rfl

theorem keys_enrich (ps : List Param) (p : Param) : (enrich ps p).map key = ps.map key := by
  unfold enrich
  rw [List.map_map]
  apply List.map_congr_left
  intro q _
  rw [Function.comp_apply]
  split <;> rfl

theorem Built.keys_nodup {s : ShaderInfo} (h : s.Built) : (s.params.map key).Nodup := by
  induction h with
  | empty => exact List.nodup_nil
  | @add s s' p _ hadd ih =>
      rcases add_cases hadd with ⟨hnew, hparams⟩ | ⟨_, _, _, hparams⟩
      · rw [hparams, List.map_append, List.nodup_append]
        refine ⟨ih, by simp, ?_⟩
        intro k hk l hl heq
        rcases List.mem_map.mp hk with ⟨q, hq, rfl⟩
        rw [List.mem_singleton.mp hl] at heq
        exact List.find?_eq_none.mp hnew q hq (isNamed_iff_key.mpr heq)
      · rw [hparams, keys_enrich]
        exact ih

/-!
# Several records
-/

theorem addAll_cons {s s' : ShaderInfo} {p : Param} {ps : List Param}
    (h : s.addAll (p :: ps) = (s', none)) :
    exists t, s.add p = .ok t ∧ t.addAll ps = (s', none) := by
  unfold addAll at h
  cases hadd : s.add p with
  | error e =>
      rw [hadd] at h
      cases (Prod.mk.inj h).2
  | ok t =>
      rw [hadd] at h
      exact ⟨t, rfl, h⟩

theorem forall_of_addAll {P : Param -> Prop} {s s' : ShaderInfo} {ps : List Param}
    (hcombine : forall q p, P q -> P (combine q p)) (hs : forall q, q ∈ s.params -> P q)
    (hps : forall p, p ∈ ps -> P p) (h : s.addAll ps = (s', none)) :
    forall q, q ∈ s'.params -> P q := by
  induction ps generalizing s with
  | nil =>
      cases h
      exact hs
  | cons p ps ih =>
      rcases addAll_cons h with ⟨t, hadd, hrest⟩
      apply ih _ (fun r hr => hps r (List.mem_cons_of_mem p hr)) hrest
      exact forall_of_add (fun q => hcombine q p) hs (hps p List.mem_cons_self) hadd

end ShaderInfo

/-!
# Reflected records
-/

namespace Reflect

theorem forall_of_collect {P : Param -> Prop} {o : Options} {info s : ShaderInfo} {previous : Nat}
    {ds : List Declaration} (hcombine : forall q p, P q -> P (ShaderInfo.combine q p))
    (hrecord : forall d ps p, d ∈ ds -> paramsOf d o.stage = .ok ps -> p ∈ ps ->
      forall inGlobalSet, P (scope inGlobalSet (tag o d p)))
    (hinfo : forall q, q ∈ info.params -> P q) (h : collect o info previous ds = .ok s) :
    forall q, q ∈ s.params -> P q := by
  induction ds generalizing info previous with
  | nil =>
      cases h
      exact hinfo
  | cons d ds ih =>
      rw [collect] at h
      cases hparams : paramsOf d o.stage with
      | error e =>
          rw [hparams] at h
          cases h
      | ok ps =>
          rw [hparams] at h
          dsimp only at h
          split at h
          · cases h
          · rename_i info' hadd
            apply ih (fun d' ps' p hd => hrecord d' ps' p (List.mem_cons_of_mem d hd)) _ h
            apply ShaderInfo.forall_of_addAll hcombine hinfo _ hadd
            intro q hq
            rcases List.mem_map.mp hq with ⟨p, hp, rfl⟩
            exact hrecord d ps p List.mem_cons_self hparams hp _

theorem forall_of_reflect {P : Param -> Prop} {o : Options} {ts : List Token} {s : ShaderInfo}
    (hcombine : forall q p, P q -> P (ShaderInfo.combine q p))
    (hrecord : forall d ps p, paramsOf d o.stage = .ok ps -> p ∈ ps ->
      forall inGlobalSet, P (scope inGlobalSet (tag o d p)))
    (h : reflect o ts = .ok s) : forall q, q ∈ s.params -> P q := by
  unfold reflect at h
  cases hds : Declaration.ofTokens ts with
  | error e =>
      rw [hds] at h
      cases h
  | ok ds =>
      rw [hds] at h
      exact forall_of_collect hcombine (fun d ps p _ => hrecord d ps p)
        (by simp [ShaderInfo.empty]) h

end Reflect

/-!
# Records of one resource

Adding a record touches the resource of its category and name and no other.  Which
records can be added depends only on what the records of one resource declare, and
what a resource comes to depends only on its own records in their order.
-/

namespace ShaderInfo

/-!
# One record
-/

/-- What two records of a resource have to agree on: the members of a block, otherwise the type and
the length. -/
def signature (p : Param) : List (Text × Text × Int64) :=
  if p.category == .block || p.category == .buffer then
    p.members.map fun m => (m.name, m.type, m.count)
  else [([], p.type, p.count)]

theorem sameMembers_iff {as bs : List Member} :
    sameMembers as bs = true ↔
      as.map (fun m => (m.name, m.type, m.count)) = bs.map fun m => (m.name, m.type, m.count) := by
  induction as generalizing bs with
  | nil => cases bs <;> simp [sameMembers]
  | cons a as ih =>
      cases bs with
      | nil => simp [sameMembers]
      | cons b bs =>
          have hiff : sameMembers (a :: as) (b :: bs) = true ↔
              sameMember a b = true ∧ sameMembers as bs = true := by
            simp only [sameMembers, List.length_cons, List.zip_cons_cons, List.all_cons,
              Bool.and_eq_true, beq_iff_eq, Nat.add_right_cancel_iff]
            exact and_left_comm
          rw [hiff, ih]
          simp [sameMember, and_assoc]

theorem agrees_iff {p q : Param} (h : key p = key q) :
    agrees p q = true ↔ signature p = signature q := by
  have hcategory : q.category = p.category := (congrArg Prod.fst h).symm
  unfold agrees signature
  rw [hcategory]
  split
  · exact sameMembers_iff
  · simp

theorem isNamed_key {p q : Param} (h : key p = key q) (c : Category) (name : Text) :
    p.isNamed c name = q.isNamed c name := by
  unfold Param.isNamed
  rw [show p.category = q.category from congrArg Prod.fst h,
    show p.name = q.name from congrArg Prod.snd h]

theorem key_of_isNamed {p q : Param} {c : Category} {name : Text} (hp : p.isNamed c name = true)
    (hq : q.isNamed c name = true) : key p = key q := by
  rcases isNamed_iff.mp hp with ⟨rfl, rfl⟩
  exact (isNamed_iff_key.mp hq).symm

/-- A resource, if there is one, with one more record of it. -/
def enter (r : Option Param) (p : Param) : Option Param :=
  some (r.elim p fun q => combine q p)

theorem find?_enrich {s : ShaderInfo} (p : Param) (c : Category) (name : Text) :
    (enrich s.params p).find? (fun q => q.isNamed c name) =
      if p.isNamed c name then (s.find? c name).map fun q => combine q p else s.find? c name := by
  have hsame : (fun q : Param => q.isNamed c name) ∘
      (fun q : Param => if q.isNamed p.category p.name then combine q p else q) =
        fun q => q.isNamed c name := by
    funext q
    rw [Function.comp_apply]
    split <;> rfl
  unfold enrich
  rw [List.find?_map, hsame]
  change (s.find? c name).map _ = _
  cases hfind : s.find? c name with
  | none => simp
  | some q =>
      have hq : q.isNamed c name = true := isNamed_iff.mpr (isNamed_of_find? hfind).2
      rw [Option.map_some]
      by_cases hp : p.isNamed c name = true
      · rw [if_pos hp, if_pos (isNamed_iff_key.mpr (key_of_isNamed hq hp))]
        rfl
      · rw [if_neg hp, if_neg]
        intro hqp
        exact hp (isNamed_key (isNamed_iff_key.mp hqp) c name ▸ hq)

theorem find?_add {s s' : ShaderInfo} {p : Param} (h : s.add p = .ok s') (c : Category)
    (name : Text) :
    s'.find? c name = if p.isNamed c name then enter (s.find? c name) p else s.find? c name := by
  rcases add_cases h with ⟨hnew, hparams⟩ | ⟨old, hold, _, hparams⟩
  · unfold find? at hnew ⊢
    rw [hparams, List.find?_append]
    by_cases hp : p.isNamed c name = true
    · rcases isNamed_iff.mp hp with ⟨rfl, rfl⟩
      rw [hnew, if_pos hp]
      simp [enter, hp]
    · simp [hp]
  · unfold find?
    rw [hparams, find?_enrich]
    by_cases hp : p.isNamed c name = true
    · rcases isNamed_iff.mp hp with ⟨rfl, rfl⟩
      rw [if_pos hp, if_pos hp]
      change _ = enter (s.find? _ _) p
      rw [hold]
      rfl
    · rw [if_neg hp, if_neg hp]
      rfl

/-!
# Several records
-/

theorem find?_addAll {s s' : ShaderInfo} {ps : List Param} (h : s.addAll ps = (s', none))
    (c : Category) (name : Text) :
    s'.find? c name = (ps.filter fun p => p.isNamed c name).foldl enter (s.find? c name) := by
  induction ps generalizing s with
  | nil =>
      cases h
      rfl
  | cons p ps ih =>
      rcases addAll_cons h with ⟨t, hadd, hrest⟩
      rw [ih hrest, find?_add hadd]
      by_cases hp : p.isNamed c name = true
      · rw [if_pos hp, List.filter_cons, if_pos hp, List.foldl_cons]
      · rw [if_neg hp, List.filter_cons, if_neg hp]

/-- The records of each resource declare the same. -/
def Coherent (ps : List Param) : Prop :=
  ps.Pairwise fun p q => key p = key q -> signature p = signature q

theorem Coherent.perm {ps qs : List Param} (h : Coherent ps) (hperm : ps.Perm qs) :
    Coherent qs := by
  apply (hperm.pairwise_iff _).mp h
  intro p q hpq hkey
  exact (hpq hkey.symm).symm

theorem add_succeeds_iff (s : ShaderInfo) (p : Param) :
    (exists s', s.add p = .ok s') ↔
      forall q, s.find? p.category p.name = some q -> signature q = signature p := by
  unfold add
  cases hfind : s.find? p.category p.name with
  | none => simp
  | some old =>
      have hkey : key old = key p := isNamed_iff_key.mp (isNamed_iff.mpr (isNamed_of_find? hfind).2)
      simp only [Option.some.injEq, forall_eq']
      rw [← agrees_iff hkey]
      split
      · rename_i hagrees
        exact ⟨fun _ => hagrees, fun _ => ⟨_, rfl⟩⟩
      · rename_i hagrees
        constructor
        · rintro ⟨_, hs'⟩
          cases hs'
        · intro h
          exact absurd h hagrees

theorem addAll_succeeds_cons (s : ShaderInfo) (p : Param) (ps : List Param) :
    (s.addAll (p :: ps)).2 = none ↔ exists t, s.add p = .ok t ∧ (t.addAll ps).2 = none := by
  rw [addAll]
  cases s.add p with
  | error e => simp
  | ok t => simp

/-- Records can be added exactly if they agree with the resources that are there and with each
other. -/
theorem addAll_succeeds_iff (s : ShaderInfo) (ps : List Param) :
    (s.addAll ps).2 = none ↔
      (forall p q, p ∈ ps -> s.find? p.category p.name = some q -> signature q = signature p) ∧
        Coherent ps := by
  induction ps generalizing s with
  | nil => simp [addAll, Coherent]
  | cons p ps ih =>
      rw [addAll_succeeds_cons]
      constructor
      · rintro ⟨t, hadd, hrest⟩
        have hfirst := (add_succeeds_iff s p).mp ⟨t, hadd⟩
        rcases (ih t).mp hrest with ⟨hold, hpairs⟩
        have hnext : forall r, r ∈ ps -> key p = key r -> signature p = signature r := by
          intro r hr hkey
          have hnamed : p.isNamed r.category r.name = true := isNamed_iff_key.mpr hkey
          have hfind := find?_add hadd r.category r.name
          rw [if_pos hnamed] at hfind
          rcases isNamed_iff.mp hnamed with ⟨hc, hn⟩
          cases hs : s.find? r.category r.name with
          | none =>
              rw [hs] at hfind
              exact hold r p hr hfind
          | some q =>
              rw [hs] at hfind
              rw [← hc, ← hn] at hs
              rw [← hfirst q hs]
              exact hold r (combine q p) hr hfind
        refine ⟨?_, List.pairwise_cons.mpr ⟨hnext, hpairs⟩⟩
        intro r q hr hq
        rcases List.mem_cons.mp hr with rfl | hr
        · exact hfirst q hq
        · have hfind := find?_add hadd r.category r.name
          by_cases hnamed : p.isNamed r.category r.name = true
          · rw [if_pos hnamed, hq] at hfind
            exact hold r (combine q p) hr hfind
          · rw [if_neg hnamed, hq] at hfind
            exact hold r q hr hfind
      · rintro ⟨hold, hpairs⟩
        rcases List.pairwise_cons.mp hpairs with ⟨hfirst, hpairs⟩
        rcases (add_succeeds_iff s p).mpr (fun q => hold p q List.mem_cons_self) with ⟨t, hadd⟩
        refine ⟨t, hadd, (ih t).mpr ⟨?_, hpairs⟩⟩
        intro r q hr hq
        rw [find?_add hadd] at hq
        split at hq
        · rename_i hnamed
          have hsame := hfirst r hr (isNamed_iff_key.mp hnamed)
          cases hs : s.find? r.category r.name with
          | none =>
              rw [hs] at hq
              cases hq
              exact hsame
          | some q' =>
              rw [hs] at hq
              cases hq
              exact hold r q' (List.mem_cons_of_mem p hr) hs
        · exact hold r q (List.mem_cons_of_mem p hr) hq

/-- Into nothing, records can be added exactly if those of each resource agree. -/
theorem addAll_empty_succeeds_iff (ps : List Param) :
    (empty.addAll ps).2 = none ↔ Coherent ps := by
  rw [addAll_succeeds_iff, and_iff_right]
  intro p q _ h
  cases h

theorem addAll_append {s : ShaderInfo} (ps qs : List Param) :
    s.addAll (ps ++ qs) =
      match s.addAll ps with
      | (t, none) => t.addAll qs
      | failed => failed := by
  induction ps generalizing s with
  | nil => rfl
  | cons p ps ih =>
      rw [List.cons_append, addAll, addAll]
      cases s.add p with
      | error e => rfl
      | ok t => exact ih

/-!
# All resources
-/

theorem count_filter_eq (ps : List Param) (f : Param -> Bool) (p : Param) :
    (ps.filter f).count p = if f p then ps.count p else 0 := by
  split
  · rename_i hf
    exact List.count_filter hf
  · rename_i hf
    apply List.count_eq_zero_of_not_mem
    intro hmem
    exact hf (List.mem_filter.mp hmem).2

theorem all_perm (s : ShaderInfo) : s.all.Perm s.params := by
  apply List.perm_iff_count.mpr
  intro p
  have hlist : forall c, (s.list c).count p = if p.category == c then s.params.count p else 0 :=
    fun c => count_filter_eq s.params (fun q => q.category == c) p
  unfold all
  rw [List.count_flatMap, show List.count p ∘ s.list = _ from funext hlist]
  cases p.category <;> simp [Category.all]

theorem filter_isNamed {ps : List Param} (hkeys : (ps.map key).Nodup) (c : Category) (name : Text) :
    ps.filter (fun p => p.isNamed c name) = (ps.find? fun p => p.isNamed c name).toList := by
  induction ps with
  | nil => rfl
  | cons p ps ih =>
      rcases List.nodup_cons.mp hkeys with ⟨hp, hkeys⟩
      rw [List.filter_cons, List.find?_cons]
      cases hnamed : p.isNamed c name with
      | false => exact ih hkeys
      | true =>
          rw [if_pos rfl, List.filter_eq_nil_iff.mpr]
          · rfl
          · intro q hq hnamed'
            exact hp (List.mem_map.mpr ⟨q, hq, key_of_isNamed hnamed' hnamed⟩)

theorem filter_all {s : ShaderInfo} (hkeys : (s.params.map key).Nodup) (c : Category)
    (name : Text) :
    s.all.filter (fun p => p.isNamed c name) = (s.find? c name).toList := by
  have hperm := (all_perm s).filter fun p => p.isNamed c name
  rw [filter_isNamed hkeys] at hperm
  change (s.all.filter _).Perm (s.find? c name).toList at hperm
  cases hfind : s.find? c name with
  | none =>
      rw [hfind] at hperm
      exact hperm.eq_nil
  | some p =>
      rw [hfind] at hperm
      exact List.perm_singleton.mp hperm

end ShaderInfo

end EffectShader
