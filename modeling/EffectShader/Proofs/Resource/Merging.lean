import EffectShader.Proofs.Resource.Agreement
import EffectShader.Proofs.Resource.Records

/-!
# Merging stages

Two stages can be merged in one order exactly if they can be merged in the other, and
either order comes to the same resources with the same stages and gates.  Everything
else is what the first stage says, except that a layout may come from the second if
the first has none.
-/

namespace EffectShader

theorem Stages.union_comm (s t : Stages) : s.union t = t.union s := by
  unfold Stages.union
  rw [Bool.or_comm s.vertex, Bool.or_comm s.fragment, Bool.or_comm s.compute]

namespace ShaderInfo

/-!
# Merged parts
-/

/-- The information with program parts merged one after the other, up to the first that
conflicts. -/
def mergeParts (s : ShaderInfo) : List ShaderInfo -> ShaderInfo × Option Conflict
  | [] => (s, none)
  | part :: parts =>
      match s.merge part with
      | (t, none) => mergeParts t parts
      | failed => failed

theorem mergeParts_eq (s : ShaderInfo) (parts : List ShaderInfo) :
    s.mergeParts parts = s.addAll (parts.flatMap all) := by
  induction parts generalizing s with
  | nil => rfl
  | cons part parts ih =>
      rw [mergeParts, List.flatMap_cons, addAll_append, merge]
      rcases s.addAll part.all with ⟨t, _ | e⟩
      · exact ih t
      · rfl

theorem mergeParts_succeeds_of_perm {xs ys : List ShaderInfo} (hperm : xs.Perm ys)
    (h : (empty.mergeParts xs).2 = none) : (empty.mergeParts ys).2 = none := by
  rw [mergeParts_eq, addAll_empty_succeeds_iff] at h ⊢
  exact h.perm (hperm.flatMap_right all)

theorem find?_mergeParts {a b : ShaderInfo} (ha : a.Built) (hb : b.Built)
    (h : (empty.mergeParts [a, b]).2 = none) (c : Category) (name : Text) :
    (empty.mergeParts [a, b]).1.find? c name =
      Option.merge combine (a.find? c name) (b.find? c name) := by
  have hadd : empty.addAll (a.all ++ b.all) = ((empty.mergeParts [a, b]).1, none) := by
    rw [← h, mergeParts_eq]
    simp
  rw [find?_addAll hadd, List.filter_append, filter_all ha.keys_nodup, filter_all hb.keys_nodup]
  cases a.find? c name <;> cases b.find? c name <;> rfl

/-!
# Two records of a resource
-/

/-- The macros that gate a resource. -/
def gates (p : Param) : List Text :=
  p.defines.getD []

theorem gates_combine (x y : Param) :
    gates (combine x y) = (gates x).filter (gates y).contains := by
  change (commonDefines (gates x) (gates y)).getD [] = _
  unfold commonDefines
  dsimp only
  split
  · rename_i hnil
    rw [List.isEmpty_iff.mp hnil]
    rfl
  · rfl

theorem mem_gates_combine {x y : Param} {d : Text} :
    d ∈ gates (combine x y) ↔ d ∈ gates x ∧ d ∈ gates y := by
  rw [gates_combine, List.mem_filter, List.contains_iff_mem]

theorem layoutInt?_or_comm (l m : Option Layout) (k : Text) :
    layoutInt? (l.or m) k = layoutInt? (m.or l) k ↔
      (l.isSome = true -> m.isSome = true -> layoutInt? l k = layoutInt? m k) := by
  cases l <;> cases m <;> simp

/-- What a resource comes to in the two orders of its records: only the first argument's stage may
declare it, only the second's, or both.  If both do, each order keeps what the record that it merges
first says, its layout only if it has one. -/
inductive Swapped : Option Param -> Option Param -> Option Param -> Option Param -> Prop
  | absent : Swapped none none none none
  | first (x : Param) : Swapped (some x) none (some x) (some x)
  | second (y : Param) : Swapped none (some y) (some y) (some y)
  | both {x y p q : Param}
      (signature : signature p = signature q)
      (stages : p.stages = x.stages.union y.stages ∧ q.stages = x.stages.union y.stages)
      (gates : forall d, (d ∈ gates p ↔ d ∈ gates x ∧ d ∈ gates y) ∧
        (d ∈ gates q ↔ d ∈ gates x ∧ d ∈ gates y))
      (rate : p.rate = x.rate ∧ q.rate = y.rate)
      (sample : p.sample = x.sample ∧ q.sample = y.sample)
      (access : p.access = x.access ∧ q.access = y.access)
      (builtin : p.builtin = x.builtin ∧ q.builtin = y.builtin)
      (inGlobalSet : p.inGlobalSet = x.inGlobalSet ∧ q.inGlobalSet = y.inGlobalSet)
      (set : p.set = x.set ∧ q.set = y.set)
      (layout : p.layout = x.layout.or y.layout ∧ q.layout = y.layout.or x.layout)
      (numbers : forall k, layoutInt? p.layout k = layoutInt? q.layout k ↔
        (x.layout.isSome = true -> y.layout.isSome = true ->
          layoutInt? x.layout k = layoutInt? y.layout k)) :
      Swapped (some x) (some y) (some p) (some q)

theorem swapped_combine {x y : Param} (h : signature x = signature y) :
    Swapped (some x) (some y) (some (combine x y)) (some (combine y x)) := by
  constructor
  case signature => exact h
  case stages => exact ⟨rfl, Stages.union_comm y.stages x.stages⟩
  case gates =>
    intro d
    rw [mem_gates_combine, mem_gates_combine]
    exact ⟨Iff.rfl, and_comm⟩
  case rate => exact ⟨rfl, rfl⟩
  case sample => exact ⟨rfl, rfl⟩
  case access => exact ⟨rfl, rfl⟩
  case builtin => exact ⟨rfl, rfl⟩
  case inGlobalSet => exact ⟨rfl, rfl⟩
  case set => exact ⟨rfl, rfl⟩
  case layout => exact ⟨rfl, rfl⟩
  case numbers =>
    intro k
    exact layoutInt?_or_comm x.layout y.layout k

theorem signature_eq_of_mergeParts {a b : ShaderInfo} (h : (empty.mergeParts [a, b]).2 = none)
    {c : Category} {name : Text} {x y : Param} (hx : a.find? c name = some x)
    (hy : b.find? c name = some y) : signature x = signature y := by
  rw [mergeParts_eq, addAll_empty_succeeds_iff, List.flatMap_cons, List.flatMap_singleton] at h
  rcases isNamed_of_find? hx with ⟨hxmem, hxnamed⟩
  rcases isNamed_of_find? hy with ⟨hymem, hynamed⟩
  apply (List.pairwise_append.mp h).2.2 x ((all_perm a).mem_iff.mpr hxmem) y
    ((all_perm b).mem_iff.mpr hymem)
  exact key_of_isNamed (isNamed_iff.mpr hxnamed) (isNamed_iff.mpr hynamed)

theorem swapped_mergeParts {a b : ShaderInfo} (ha : a.Built) (hb : b.Built)
    (h : (empty.mergeParts [a, b]).2 = none) (c : Category) (name : Text) :
    Swapped (a.find? c name) (b.find? c name) ((empty.mergeParts [a, b]).1.find? c name)
      ((empty.mergeParts [b, a]).1.find? c name) := by
  have hswap := mergeParts_succeeds_of_perm (List.Perm.swap b a []) h
  rw [find?_mergeParts ha hb h, find?_mergeParts hb ha hswap]
  cases hx : a.find? c name with
  | none =>
      cases b.find? c name with
      | none => exact Swapped.absent
      | some y => exact Swapped.second y
  | some x =>
      cases hy : b.find? c name with
      | none => exact Swapped.first x
      | some y => exact swapped_combine (signature_eq_of_mergeParts h hx hy)

end ShaderInfo

/-!
# Reflected stages
-/

namespace Reflect

theorem built_of_collect {o : Options} {info s : ShaderInfo} {previous : Nat}
    {ds : List Declaration} (hinfo : info.Built) (h : collect o info previous ds = .ok s) :
    s.Built := by
  induction ds generalizing info previous with
  | nil =>
      cases h
      exact hinfo
  | cons d ds ih =>
      rw [collect] at h
      cases hparams : paramsOf d o.stage with
      | error e =>
          rw [hparams] at h
          cases h
      | ok ps =>
          rw [hparams] at h
          dsimp only at h
          split at h
          · cases h
          · rename_i hadd
            exact ih (hinfo.addAll hadd) h

end Reflect

theorem built_of_reflect {o : Reflect.Options} {ts : List Token} {s : ShaderInfo}
    (h : reflect o ts = .ok s) : s.Built := by
  unfold reflect at h
  split at h
  · cases h
  · exact Reflect.built_of_collect ShaderInfo.Built.empty h

open ShaderInfo

/-- The order in which two stages are merged decides neither whether they can be merged nor which
resources they have, nor the stages and gates of a resource.  The other attributes are those of the
record that is merged first, so the order decides them, and the explicit numbers, for exactly the
resources on which the stages differ. -/
theorem merge_order {o₁ o₂ : Reflect.Options} {ts₁ ts₂ : List Token} {a b : ShaderInfo}
    (ha : reflect o₁ ts₁ = .ok a) (hb : reflect o₂ ts₂ = .ok b) :
    ((empty.mergeParts [a, b]).2 = none ↔ (empty.mergeParts [b, a]).2 = none) ∧
      ((empty.mergeParts [a, b]).2 = none ->
        forall c name, Swapped (a.find? c name) (b.find? c name)
          ((empty.mergeParts [a, b]).1.find? c name)
          ((empty.mergeParts [b, a]).1.find? c name)) := by
  constructor
  · constructor
    · exact mergeParts_succeeds_of_perm (List.Perm.swap b a [])
    · exact mergeParts_succeeds_of_perm (List.Perm.swap a b [])
  · exact swapped_mergeParts (built_of_reflect ha) (built_of_reflect hb)

/-- Either order takes the binding from the one stage that asks for it. -/
theorem merge_order_layout :
    exists ts₁ ts₂ a b p q,
      tokenize "uniform sampler2D t;" = .ok ts₁ ∧
      tokenize "layout(binding = 0) uniform sampler2D t;" = .ok ts₂ ∧
      reflect (.bare Stages.vertexOnly) ts₁ = .ok a ∧
      reflect (.bare Stages.fragmentOnly) ts₂ = .ok b ∧
      (empty.mergeParts [b, a]).2 = none ∧
      Swapped (a.find? .samplerTexture "t") (b.find? .samplerTexture "t") (some p) (some q) ∧
      layoutInt? p.layout "binding" = some 0 := by
  have hrun : ((tokenize "uniform sampler2D t;").toOption.any fun ts₁ =>
      (tokenize "layout(binding = 0) uniform sampler2D t;").toOption.any fun ts₂ =>
      (reflect (.bare Stages.vertexOnly) ts₁).toOption.any fun a =>
      (reflect (.bare Stages.fragmentOnly) ts₂).toOption.any fun b =>
      (empty.mergeParts [a, b]).2.isNone &&
        (((empty.mergeParts [a, b]).1.find? .samplerTexture "t").any fun p =>
          layoutInt? p.layout "binding" == some 0) &&
        ((empty.mergeParts [b, a]).1.find? .samplerTexture "t").isSome) = true := by
    decide +kernel
  simp only [Option.any_eq_true, toOption_eq_some_iff, Bool.and_eq_true, Option.isNone_iff_eq_none,
    Option.isSome_iff_exists, beq_iff_eq] at hrun
  rcases hrun with ⟨ts₁, hts₁, ts₂, hts₂, a, ha, b, hb, ⟨hmerge, p, hp, hbinding⟩, q, hq⟩
  rcases merge_order ha hb with ⟨hiff, hswapped⟩
  have htex := hswapped hmerge .samplerTexture "t"
  rw [hp, hq] at htex
  exact ⟨ts₁, ts₂, a, b, p, q, hts₁, hts₂, ha, hb, hiff.mp hmerge, htex, hbinding⟩

/-- A rate that only one stage gives is kept in one order and lost in the other. -/
theorem merge_order_rate_differs :
    exists ts₁ ts₂ pragmas a b p q,
      tokenize "uniform sampler2D t;" = .ok ts₁ ∧
      tokenize "#pragma rate t pass\nuniform sampler2D t;" = .ok ts₂ ∧
      (extractDefines ts₂ DefineSet.empty).2 = .ok pragmas ∧
      reflect (.bare Stages.vertexOnly) ts₁ = .ok a ∧
      reflect ⟨Stages.fragmentOnly, pragmas, []⟩ ts₂ = .ok b ∧
      empty.mergeParts [a, b] = (⟨[p]⟩, none) ∧ empty.mergeParts [b, a] = (⟨[q]⟩, none) ∧
      p.rate ≠ q.rate ∧ p.builtin ≠ q.builtin := by
  have hrun : ((tokenize "uniform sampler2D t;").toOption.any fun ts₁ =>
      (tokenize "#pragma rate t pass\nuniform sampler2D t;").toOption.any fun ts₂ =>
      (extractDefines ts₂ DefineSet.empty).2.toOption.any fun pragmas =>
      (reflect (.bare Stages.vertexOnly) ts₁).toOption.any fun a =>
      (reflect ⟨Stages.fragmentOnly, pragmas, []⟩ ts₂).toOption.any fun b =>
      (empty.mergeParts [a, b]).1.params.head?.any fun p =>
      (empty.mergeParts [b, a]).1.params.head?.any fun q =>
      empty.mergeParts [a, b] == (⟨[p]⟩, none) && empty.mergeParts [b, a] == (⟨[q]⟩, none) &&
        p.rate != q.rate && p.builtin != q.builtin) = true := by
    decide +kernel
  simp only [Option.any_eq_true, toOption_eq_some_iff, Bool.and_eq_true, beq_iff_eq,
    bne_iff_ne] at hrun
  rcases hrun with ⟨ts₁, hts₁, ts₂, hts₂, pragmas, hpragmas, a, ha, b, hb, p, _, q, _,
    ⟨⟨hab, hba⟩, hrate⟩, hbuiltin⟩
  exact ⟨ts₁, ts₂, pragmas, a, b, p, q, hts₁, hts₂, hpragmas, ha, hb, hab, hba, hrate, hbuiltin⟩

/-!
# Records that are added one by one

A record that conflicts with the resource of its name leaves the information as it is, so
what comes out of any records is what the accepted ones come to.  A resource starts as
its first record; every later one adds its stages and takes away the gates that it does
not have.
-/

namespace ShaderInfo

/-!
# Accepted records
-/

/-- Each of some records is added, whether or not one before conflicts. -/
def addEach (s : ShaderInfo) (ps : List Param) : ShaderInfo :=
  ps.foldl (fun s p => (s.addAll [p]).1) s

/-- Those of some records that do not conflict when each is added. -/
def accepted (s : ShaderInfo) : List Param -> List Param
  | [] => []
  | p :: ps =>
      if (s.addAll [p]).2.isNone then p :: accepted (s.addAll [p]).1 ps
      else accepted (s.addAll [p]).1 ps

theorem addAll_singleton_of_conflict {s : ShaderInfo} {p : Param}
    (h : (s.addAll [p]).2 ≠ none) : (s.addAll [p]).1 = s := by
  unfold addAll at h ⊢
  cases hadd : s.add p with
  | error e => rfl
  | ok t =>
      rw [hadd] at h
      exact absurd rfl h

theorem addAll_accepted (s : ShaderInfo) (ps : List Param) :
    s.addAll (s.accepted ps) = (s.addEach ps, none) := by
  induction ps generalizing s with
  | nil => rfl
  | cons p ps ih =>
      change _ = ((s.addAll [p]).1.addEach ps, none)
      rw [accepted]
      split
      · rename_i haccepted
        have hnone : s.addAll [p] = ((s.addAll [p]).1, none) :=
          Prod.ext rfl (Option.isNone_iff_eq_none.mp haccepted)
        rw [← List.singleton_append, addAll_append, hnone]
        exact ih _
      · rename_i hconflict
        have hsame : (s.addAll [p]).1 = s :=
          addAll_singleton_of_conflict (mt Option.isNone_iff_eq_none.mpr hconflict)
        rw [hsame]
        exact ih s

/-!
# Names of a category
-/

/-- The names of a category in the order of its resources. -/
def names (s : ShaderInfo) (c : Category) : List Text :=
  (s.list c).map fun p => p.name

theorem names_eq (s : ShaderInfo) (c : Category) :
    s.names c = ((s.params.map key).filter fun k => k.1 == c).map Prod.snd := by
  unfold names list
  rw [List.filter_map, List.map_map]
  rfl

theorem names_nodup {s : ShaderInfo} (h : (s.params.map key).Nodup) (c : Category) :
    (s.names c).Nodup := by
  rw [names_eq]
  apply (h.filter _).map_on
  intro k hk l hl heq
  have hcategory : k.1 = l.1 := by
    rw [eq_of_beq (List.mem_filter.mp hk).2, eq_of_beq (List.mem_filter.mp hl).2]
  exact Prod.ext hcategory heq

theorem mem_names_iff {s : ShaderInfo} {c : Category} {name : Text} :
    name ∈ s.names c ↔ (s.find? c name).isSome = true := by
  unfold names list find?
  simp [Param.isNamed, and_assoc]

/-- A record adds its name to its category, unless the name is there. -/
theorem names_add {s t : ShaderInfo} {p : Param} (h : s.add p = .ok t) (c : Category) :
    t.names c = if p.category = c ∧ p.name ∉ s.names c then s.names c ++ [p.name]
      else s.names c := by
  rcases add_cases h with ⟨hnew, hparams⟩ | ⟨old, hold, _, hparams⟩
  · have hmem : p.name ∉ s.names p.category := by
      rw [mem_names_iff, hnew]
      exact Bool.false_ne_true
    unfold names list at hmem ⊢
    rw [hparams, List.filter_append, List.map_append, List.filter_cons, List.filter_nil]
    by_cases hc : p.category = c
    · subst hc
      rw [if_pos (beq_self_eq_true _), if_pos ⟨rfl, hmem⟩]
      rfl
    · rw [if_neg (by simpa using hc), if_neg fun h => hc h.1]
      exact List.append_nil _
  · have hsame : t.names c = s.names c := by
      rw [names_eq, names_eq, hparams, keys_enrich]
    rw [hsame, if_neg]
    rintro ⟨rfl, hnew⟩
    rw [mem_names_iff, hold] at hnew
    exact hnew rfl

theorem names_addAll {s t : ShaderInfo} {ps : List Param} (h : s.addAll ps = (t, none))
    {c : Category} {seen : List Text} (hseen : s.names c = seen.eraseDups) :
    t.names c =
      (seen ++ (ps.filter fun p => p.category == c).map fun p => p.name).eraseDups := by
  induction ps generalizing s seen with
  | nil =>
      cases h
      rw [List.filter_nil, List.map_nil, List.append_nil]
      exact hseen
  | cons p ps ih =>
      rcases addAll_cons h with ⟨u, hadd, hrest⟩
      have hnames := names_add hadd c
      rw [List.filter_cons]
      by_cases hc : p.category = c
      · rw [if_pos (beq_iff_eq.mpr hc), List.map_cons, List.append_cons]
        apply ih hrest
        rw [hnames, List.eraseDups_append, hseen]
        by_cases hmem : p.name ∈ seen <;> simp [List.removeAll, List.eraseDups_cons, hc, hmem]
      · rw [if_neg (by simpa using hc)]
        apply ih hrest
        rw [hnames, if_neg fun h => hc h.1, hseen]

/-!
# Records of one resource
-/

theorem foldl_enter (p : Param) (ps : List Param) :
    ps.foldl enter (some p) = some (ps.foldl combine p) := by
  induction ps generalizing p with
  | nil => rfl
  | cons q ps ih => exact ih (combine p q)

theorem stages_foldl_combine (p : Param) (ps : List Param) :
    (ps.foldl combine p).stages = ps.foldl (fun s q => s.union q.stages) p.stages := by
  induction ps generalizing p with
  | nil => rfl
  | cons q ps ih => exact ih (combine p q)

theorem gates_foldl_combine (p : Param) (ps : List Param) :
    gates (ps.foldl combine p) =
      (gates p).filter fun d => ps.all fun q => (gates q).contains d := by
  induction ps generalizing p with
  | nil => exact (List.filter_eq_self.mpr fun _ _ => rfl).symm
  | cons q ps ih =>
      rw [List.foldl_cons, ih, gates_combine, List.filter_filter]
      apply List.filter_congr
      intro d _
      rw [List.all_cons, Bool.and_comm]

theorem find?_of_mem_list {s : ShaderInfo} (h : (s.params.map key).Nodup) {c : Category}
    {p : Param} (hp : p ∈ s.list c) : s.find? c p.name = some p := by
  rcases List.mem_filter.mp hp with ⟨hmem, hcategory⟩
  have hnamed : p.isNamed c p.name = true := isNamed_iff.mpr ⟨eq_of_beq hcategory, rfl⟩
  have hfilter := filter_isNamed h c p.name
  have hin : p ∈ s.params.filter fun q => q.isNamed c p.name := List.mem_filter.mpr ⟨hmem, hnamed⟩
  rw [hfilter] at hin
  exact Option.mem_toList.mp hin

/-- Adding records is a union that no conflict disturbs: each category holds the names of its
accepted records, each once and in their first order; a resource has the stages of all its
accepted records and those gates of the first that all others have. -/
theorem addEach_union (ps : List Param) :
    (forall s p, (addAll s [p]).2 ≠ none -> (addAll s [p]).1 = s) ∧
      forall c, ((empty.addEach ps).names c).Nodup ∧
        (empty.addEach ps).names c =
          (((empty.accepted ps).filter fun p => p.category == c).map fun p => p.name).eraseDups ∧
        forall p, p ∈ (empty.addEach ps).list c ->
          exists first rest,
            (empty.accepted ps).filter (fun q => q.isNamed c p.name) = first :: rest ∧
              p.stages = (first :: rest).foldl (fun s q => s.union q.stages) Stages.none ∧
              gates p = (gates first).filter fun d => rest.all fun q => (gates q).contains d := by
  have hadd := addAll_accepted empty ps
  have hkeys := (Built.empty.addAll hadd).keys_nodup
  refine ⟨fun s p => addAll_singleton_of_conflict, fun c => ⟨names_nodup hkeys c, ?_, ?_⟩⟩
  · rw [names_addAll hadd (show empty.names c = ([] : List Text).eraseDups from rfl),
      List.nil_append]
  · intro p hp
    have hfind := find?_addAll hadd c p.name
    rw [find?_of_mem_list hkeys hp] at hfind
    cases hrecords : (empty.accepted ps).filter (fun q => q.isNamed c p.name) with
    | nil =>
        rw [hrecords] at hfind
        cases hfind
    | cons first rest =>
        rw [hrecords] at hfind
        have hp : p = rest.foldl combine first :=
          Option.some.inj (hfind.trans (foldl_enter first rest))
        refine ⟨first, rest, rfl, ?_, ?_⟩
        · rw [hp, stages_foldl_combine]
          rfl
        · rw [hp, gates_foldl_combine]

/-- A texture as some stages declare it. -/
def textureRecord (name type : Text) (stages : Stages) (gates : List Text) : Param :=
  { Param.new name .samplerTexture with type, stages, defines := some gates }

/-- Two stages declare a texture alike; in between come another texture, and a record of the
first one with another type. -/
def overlapping : List Param :=
  [textureRecord "t" "sampler2D" Stages.vertexOnly ["A", "B", "C"],
   textureRecord "u" "sampler2D" Stages.fragmentOnly [],
   textureRecord "t" "samplerCube" Stages.computeOnly ["A"],
   textureRecord "t" "sampler2D" Stages.fragmentOnly ["C", "A"]]

theorem addEach_union_overlapping :
    exists p q s, s = empty.addEach (overlapping.take 2) ∧
      (s.addAll [textureRecord "t" "samplerCube" Stages.computeOnly ["A"]]).2 ≠ none ∧
      (s.addAll [textureRecord "t" "samplerCube" Stages.computeOnly ["A"]]).1 = s ∧
      (empty.addEach overlapping).names .samplerTexture = (["t", "u"] : List Text) ∧
      (empty.addEach overlapping).list .samplerTexture = [p, q] ∧
      p.stages = Stages.vertexOnly.union Stages.fragmentOnly ∧
      gates p = (["A", "C"] : List Text) := by
  rcases addEach_union overlapping with ⟨hatomic, hcategory⟩
  rcases hcategory .samplerTexture with ⟨_, hnames, hresource⟩
  have hconflict : ((empty.addEach (overlapping.take 2)).addAll
      [textureRecord "t" "samplerCube" Stages.computeOnly ["A"]]).2 ≠ none := by
    decide
  rcases hresource _ List.mem_cons_self with ⟨first, rest, hrecords, hstages, hgates⟩
  cases hrecords
  exact ⟨_, _, _, rfl, hconflict, hatomic _ _ hconflict, hnames, rfl, hstages, hgates⟩

end ShaderInfo

end EffectShader
