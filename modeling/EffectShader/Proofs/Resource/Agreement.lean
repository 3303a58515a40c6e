import EffectShader.Proofs.Numeral
import EffectShader.Proofs.Resource.Allocation
import EffectShader.Proofs.Resource.Decorated

/-!
# Decorated layouts and allocated numbers

The numbers of a program's resources are chosen once, from the layouts that merging
kept, and written into the source of every stage.  A decorated declaration carries the
numbers of its resource exactly if those that it had before are the same.
-/

namespace EffectShader

namespace ShaderInfo

/-!
# Programs
-/

/-- The information with the resources of more stages merged in; `none` if one cannot be read or
conflicts with the stages before it. -/
def mergeStages (info : ShaderInfo) : List (Reflect.Options × Text) -> Option ShaderInfo
  | [] => some info
  | (o, code) :: stages =>
      (tokenize code).toOption.bind fun ts =>
        (reflect o ts).toOption.bind fun part =>
          let (info, conflict) := info.merge part
          if conflict.isSome then none else mergeStages info stages

theorem mergeStages_cons {info info' : ShaderInfo} {o : Reflect.Options} {code : Text}
    {stages : List (Reflect.Options × Text)}
    (h : mergeStages info ((o, code) :: stages) = some info') :
    exists ts part next, tokenize code = .ok ts ∧ reflect o ts = .ok part ∧
      info.merge part = (next, none) ∧ mergeStages next stages = some info' := by
  rw [mergeStages] at h
  rcases Option.bind_eq_some_iff.mp h with ⟨ts, hts, h⟩
  rcases Option.bind_eq_some_iff.mp h with ⟨part, hpart, h⟩
  refine ⟨ts, part, (info.merge part).1, toOption_eq_some_iff.mp hts,
    toOption_eq_some_iff.mp hpart, ?_⟩
  cases hmerge : info.merge part with
  | mk next conflict =>
      rw [hmerge] at h
      cases conflict with
      | none => exact ⟨rfl, h⟩
      | some e => cases h

theorem Built.addAll {s s' : ShaderInfo} {ps : List Param} (h : s.Built)
    (hadd : s.addAll ps = (s', none)) : s'.Built := by
  induction ps generalizing s with
  | nil =>
      cases hadd
      exact h
  | cons p ps ih =>
      rcases addAll_cons hadd with ⟨t, hp, hps⟩
      exact ih (Built.add h hp) hps

theorem built_of_mergeStages {info info' : ShaderInfo} {stages : List (Reflect.Options × Text)}
    (hinfo : info.Built) (h : mergeStages info stages = some info') : info'.Built := by
  induction stages generalizing info with
  | nil =>
      rw [← Option.some.inj h]
      exact hinfo
  | cons x stages ih =>
      rcases mergeStages_cons h with ⟨_, _, next, _, _, hmerge, hrest⟩
      exact ih (hinfo.addAll hmerge) hrest

theorem ofText?_of_mergeStages {info info' : ShaderInfo} {stages : List (Reflect.Options × Text)}
    (h : mergeStages info stages = some info') {o : Reflect.Options} {code : Text}
    (hmem : (o, code) ∈ stages) : exists ds, Declaration.ofText? code = some ds := by
  induction stages generalizing info with
  | nil => cases hmem
  | cons x stages ih =>
      rcases mergeStages_cons h with ⟨ts, _, next, htokens, hreflect, _, hrest⟩
      rcases List.mem_cons.mp hmem with rfl | hmem
      · unfold reflect at hreflect
        split at hreflect
        · cases hreflect
        · rename_i ds hds
          exact ⟨ds, Declaration.ofText?_eq_some_iff.mpr ⟨ts, htokens, hds⟩⟩
      · exact ih hrest hmem

end ShaderInfo

namespace Decorate

/-!
# Numbered resources
-/

def IsNumber (n : Option Int) : Prop :=
  exists k : Nat, n = some (k : Int) ∧ k < 2 ^ 63

def HasNumber (p : Param) : Prop :=
  if p.category.usesLocation then IsNumber p.location
  else p.category.isDescriptor = true ∧ IsNumber p.binding

def category? (stage : Stages) (d : Declaration) : Option Category :=
  if d.isBlock then some (if d.storage == .buffer then .buffer else .block)
  else
    match Reflect.categorize d stage with
    | .ok c => c
    | .error _ => none

def names (d : Declaration) : List Text :=
  if d.isBlock then [d.type] else d.vars.map (·.name)

/-- A block or variable of the declaration is this resource, which has a number. -/
structure DeclaresNumbered (info : ShaderInfo) (stage : Stages) (d : Declaration) (p : Param) :
    Prop where
  found : exists c name, category? stage d = some c ∧ name ∈ names d ∧ info.find? c name = some p
  hasNumber : HasNumber p

theorem category?_unplaced (stage : Stages) (d : Declaration) :
    category? stage d.unplaced = category? stage d := by
  unfold category? Declaration.isBlock Declaration.unplaced DeclarationBody.unplaced
  cases d.body <;> rfl

theorem names_unplaced (d : Declaration) : names d.unplaced = names d := by
  unfold names Declaration.isBlock Declaration.vars Declaration.unplaced DeclarationBody.unplaced
  cases d.body <;> simp [Variable.unplaced]

theorem DeclaresNumbered.congr {info : ShaderInfo} {stage : Stages} {d d' : Declaration} {p : Param}
    (h : DeclaresNumbered info stage d p) (hsame : d'.unplaced = d.unplaced) :
    DeclaresNumbered info stage d' p := by
  rcases h.found with ⟨c, name, hc, hname, hp⟩
  refine ⟨⟨c, name, ?_, ?_, hp⟩, h.hasNumber⟩
  · rw [← category?_unplaced, hsame, category?_unplaced]
    exact hc
  · rw [← names_unplaced, hsame, names_unplaced]
    exact hname

theorem isAllocated_of_hasNumber {p : Param} (h : HasNumber p) : isAllocated p = true := by
  unfold HasNumber at h
  unfold isAllocated
  split at h
  · rcases h with ⟨k, hk, _⟩
    simp [hk]
  · rcases h with ⟨_, k, hk, _⟩
    simp [hk]

/-!
# Decorated declarations of resources
-/

structure IsPart (stage : Stages) (d : Declaration) (name : Text) (p : Option Param)
    (e : Declaration) : Prop where
  names : names e = [name]
  category : category? stage e = category? stage d
  layout : e.layout = partLayout d p

def numbered? (info : ShaderInfo) (c : Category) (name : Text) : Option Param :=
  (info.find? c name).filter isAllocated

theorem paramsFor?_block {info : ShaderInfo} {stage : Stages} {d : Declaration} {c : Category}
    (hd : d.isBlock = true) (hc : category? stage d = some c) :
    paramsFor? d stage info =
      (info.find? c d.type).bind fun p =>
        if p.binding.any (0 ≤ ·) then some [some p] else none := by
  unfold category? at hc
  rw [if_pos hd] at hc
  unfold paramsFor?
  rw [if_pos hd, Option.some.inj hc]

theorem paramsFor?_variables {info : ShaderInfo} {stage : Stages} {d : Declaration} {c : Category}
    (hd : d.isBlock = false) (hc : category? stage d = some c) :
    paramsFor? d stage info =
      if c != .uniform && (d.vars.map fun v => numbered? info c v.name).any Option.isSome then
        some (d.vars.map fun v => numbered? info c v.name)
      else none := by
  unfold category? at hc
  rw [if_neg (by simp [hd])] at hc
  unfold paramsFor?
  rw [if_neg (by simp [hd])]
  split at hc
  · rename_i c' hcategory
    rw [hcategory, hc]
    rfl
  · cases hc

theorem isPart_layout {stage : Stages} {d : Declaration} {v : Variable} {p : Option Param}
    (hd : d.isBlock = false) (hv : d.vars = [v]) :
    IsPart stage d v.name p { d with layout := partLayout d p } := by
  refine ⟨?_, rfl, rfl⟩
  unfold names
  rw [if_neg (by simp [show ({ d with layout := partLayout d p } : Declaration).isBlock = false
    from hd])]
  exact congrArg (List.map (·.name)) hv

theorem isPart_variable {stage : Stages} {d : Declaration} {v : Variable} {p : Option Param}
    (hd : d.isBlock = false) :
    IsPart stage d v.name p { d with layout := partLayout d p, body := .variables [v] } := by
  refine ⟨rfl, ?_, rfl⟩
  unfold category?
  rw [hd]
  rfl

theorem exists_parts (stage : Stages) (find : Text -> Option Param) {d : Declaration}
    (hd : d.isBlock = false) :
    exists part : Variable -> Declaration,
      decoratedBy d (d.vars.map fun v => find v.name) = d.vars.map part ∧
        forall v, v ∈ d.vars -> IsPart stage d v.name (find v.name) (part v) := by
  by_cases hone : exists p, (d.vars.map fun v => find v.name) = [some p]
  · rcases hone with ⟨p, hp⟩
    rcases List.map_eq_singleton_iff.mp hp with ⟨v, hv, hfind⟩
    refine ⟨fun u => { d with layout := partLayout d (find u.name) }, ?_, ?_⟩
    · rw [hp, hv, List.map_singleton, hfind]
      rfl
    · intro u hu
      rw [hv] at hu
      rw [List.mem_singleton.mp hu]
      exact isPart_layout hd hv
  · refine ⟨fun u => { d with layout := partLayout d (find u.name), body := .variables [u] }, ?_,
      fun u _ => isPart_variable hd⟩
    have hzip : d.vars.zip (d.vars.map fun v => find v.name) =
        d.vars.map fun v => (v, find v.name) := by
      have hmap := List.zip_map' (l := d.vars) (f := id) (g := fun v => find v.name)
      simpa using hmap
    rw [decoratedBy_of_many hone, hzip, List.map_map]
    rfl

theorem find?_block {info : ShaderInfo} {stage : Stages} {d : Declaration} {p : Param}
    (hd : d.isBlock = true) (h : DeclaresNumbered info stage d p) :
    paramsFor? d stage info = some [some p] := by
  rcases h.found with ⟨c, name, hc, hname, hp⟩
  have htype : name = d.type := by
    unfold names at hname
    rw [if_pos hd] at hname
    exact List.mem_singleton.mp hname
  rw [htype] at hp
  have hbinding : p.binding.any (0 ≤ ·) = true := by
    have hnumber := h.hasNumber
    have hcategory : p.category = c := (ShaderInfo.isNamed_of_find? hp).2.1
    unfold category? at hc
    rw [if_pos hd] at hc
    have hlocation : p.category.usesLocation = false := by
      rw [hcategory, ← Option.some.inj hc]
      split <;> rfl
    unfold HasNumber at hnumber
    rw [if_neg (by simp [hlocation])] at hnumber
    rcases hnumber.2 with ⟨k, hk, _⟩
    simp [hk]
  rw [paramsFor?_block hd hc, hp, Option.bind_some, if_pos hbinding]

theorem find?_variables {info : ShaderInfo} {stage : Stages} {d : Declaration} {p : Param}
    (hd : d.isBlock = false) (h : DeclaresNumbered info stage d p) :
    exists c v, category? stage d = some c ∧ v ∈ d.vars ∧ numbered? info c v.name = some p ∧
      info.find? c v.name = some p ∧
      paramsFor? d stage info = some (d.vars.map fun v => numbered? info c v.name) := by
  rcases h.found with ⟨c, name, hc, hname, hp⟩
  unfold names at hname
  rw [if_neg (by simp [hd])] at hname
  rcases List.mem_map.mp hname with ⟨v, hv, rfl⟩
  have hnumbered : numbered? info c v.name = some p := by
    unfold numbered?
    rw [hp, Option.filter_some, if_pos (isAllocated_of_hasNumber h.hasNumber)]
  have hcategory : (c != .uniform) = true := by
    rw [← (ShaderInfo.isNamed_of_find? hp).2.1]
    have hnumber := h.hasNumber
    unfold HasNumber at hnumber
    cases hcategory : p.category <;> first | rfl | (rw [hcategory] at hnumber; cases hnumber.1)
  refine ⟨c, v, hc, hv, hnumbered, hp, ?_⟩
  rw [paramsFor?_variables hd hc, if_pos]
  rw [hcategory, Bool.true_and, List.any_map, List.any_eq_true]
  exact ⟨v, hv, by simp [hnumbered]⟩

theorem exists_paramsFor? {info : ShaderInfo} {stage : Stages} {d : Declaration}
    {params : List (Option Param)} (hd : d.isBlock = false)
    (h : paramsFor? d stage info = some params) :
    exists c, category? stage d = some c ∧
      params = d.vars.map fun v => numbered? info c v.name := by
  unfold category?
  rw [if_neg (by simp [hd])]
  unfold paramsFor? at h
  rw [if_neg (by simp [hd])] at h
  split at h
  · rename_i c hcategory
    dsimp only at h
    split at h
    · refine ⟨c, by rw [hcategory], (Option.some.inj h).symm⟩
    · cases h
  · cases h

theorem paramsFor?_ne_none {info : ShaderInfo} {stage : Stages} {d : Declaration} {p : Param}
    (h : DeclaresNumbered info stage d p) : paramsFor? d stage info ≠ none := by
  cases hd : d.isBlock with
  | true =>
      rw [find?_block hd h]
      exact Option.some_ne_none _
  | false =>
      rcases find?_variables hd h with ⟨c, v, _, _, _, _, hparams⟩
      rw [hparams]
      exact Option.some_ne_none _

theorem declaresNumbered_decorated {info : ShaderInfo} {stage : Stages} {d e : Declaration}
    {p : Param} (he : e ∈ decorated stage info d) (h : DeclaresNumbered info stage e p) :
    DeclaresNumbered info stage d p ∧ e.layout = partLayout d (some p) := by
  unfold decorated at he
  cases hparams : paramsFor? d stage info with
  | none =>
      rw [hparams] at he
      rw [List.mem_singleton.mp he] at h
      exact absurd hparams (paramsFor?_ne_none h)
  | some params =>
      rw [hparams] at he
      cases hd : d.isBlock with
      | true =>
          rcases paramsFor?_of_isBlock hd hparams with ⟨q, rfl⟩
          have heq : e = { d with layout := partLayout d (some q) } := List.mem_singleton.mp he
          subst heq
          have hdeclares : DeclaresNumbered info stage d p := ⟨h.found, h.hasNumber⟩
          rw [find?_block hd hdeclares] at hparams
          rw [List.singleton_inj.mp (Option.some.inj hparams)]
          exact ⟨hdeclares, rfl⟩
      | false =>
          rcases exists_paramsFor? hd hparams with ⟨c, hc, rfl⟩
          rcases exists_parts stage (numbered? info c) hd with ⟨part, hparts, hpart⟩
          dsimp only at he
          rw [hparts] at he
          rcases List.mem_map.mp he with ⟨v, hv, rfl⟩
          have hv' := hpart v hv
          rcases h.found with ⟨c', name, hc', hname, hp⟩
          rw [hv'.category, hc] at hc'
          cases hc'
          rw [hv'.names, List.mem_singleton] at hname
          subst hname
          have hnumbered : numbered? info c v.name = some p := by
            unfold numbered?
            rw [hp, Option.filter_some, if_pos (isAllocated_of_hasNumber h.hasNumber)]
          refine ⟨⟨⟨c, v.name, hc, ?_, hp⟩, h.hasNumber⟩, ?_⟩
          · unfold names
            rw [if_neg (by simp [hd])]
            exact List.mem_map_of_mem hv
          · rw [hv'.layout, hnumbered]

theorem exists_declaresNumbered {info : ShaderInfo} {stage : Stages} {d : Declaration} {p : Param}
    (h : DeclaresNumbered info stage d p) :
    exists e, e ∈ decorated stage info d ∧ DeclaresNumbered info stage e p := by
  unfold decorated
  cases hd : d.isBlock with
  | true =>
      rw [find?_block hd h]
      exact ⟨_, List.mem_cons_self, h.found, h.hasNumber⟩
  | false =>
      rcases find?_variables hd h with ⟨c, v, hc, hv, _, hp, hparams⟩
      rw [hparams]
      rcases exists_parts stage (numbered? info c) hd with ⟨part, hparts, hpart⟩
      dsimp only
      rw [hparts]
      refine ⟨part v, List.mem_map_of_mem hv, ⟨c, v.name, ?_, ?_, hp⟩, h.hasNumber⟩
      · rw [(hpart v hv).category, hc]
      · rw [(hpart v hv).names]
        exact List.mem_cons_self

/-!
# Numbers in layouts
-/

def hasKey (items : List LayoutItem) (key : Text) : Bool :=
  items.any fun i => i.key == key

/-- The integer that the first entry of a key gives. -/
def itemInt? (items : List LayoutItem) (key : Text) : Option Int :=
  Layout.int? ⟨items, 0, 0⟩ key

theorem layoutInt?_eq (l : Option Layout) (key : Text) :
    layoutInt? l key = itemInt? (entries l) key := by
  cases l with
  | none => rfl
  | some l => rfl

theorem itemInt?_append (items : List LayoutItem) (i : LayoutItem) (key : Text) :
    itemInt? (items ++ [i]) key =
      if hasKey items key then itemInt? items key
      else if i.key == key then Numeral.decimal? i.value else none := by
  unfold itemInt? Layout.int? Layout.value? hasKey
  rw [List.find?_append]
  cases hfind : items.find? fun i => i.key == key with
  | some j =>
      have hany : (items.any fun i => i.key == key) = true :=
        List.any_eq_true.mpr ⟨j, List.mem_of_find?_eq_some hfind,
          List.find?_some (p := fun i : LayoutItem => i.key == key) hfind⟩
      rw [if_pos hany]
      rfl
  | none =>
      have hany : ¬ (items.any fun i => i.key == key) = true := by
        intro hany
        rcases List.any_eq_true.mp hany with ⟨j, hj, hkey⟩
        exact List.find?_eq_none.mp hfind j hj hkey
      rw [if_neg hany, Option.none_or, List.find?_singleton]
      cases i.key == key <;> rfl

theorem itemInt?_withItem (items : List LayoutItem) (key : Text) (n : Int) :
    itemInt? (withItem items key n) key =
      if hasKey items key then itemInt? items key else Numeral.decimal? (Text.ofInt n) := by
  have hwith : withItem items key n =
      if hasKey items key then items else items ++ [⟨key, Text.ofInt n⟩] := rfl
  rw [hwith]
  cases hkey : hasKey items key with
  | true => rfl
  | false =>
      rw [if_neg Bool.false_ne_true, itemInt?_append, hkey, beq_self_eq_true]
      rfl

theorem itemInt?_withItem_of_ne {key key' : Text} (hne : key ≠ key') (items : List LayoutItem)
    (n : Int) : itemInt? (withItem items key n) key' = itemInt? items key' := by
  unfold withItem
  split
  · rfl
  · rw [itemInt?_append, beq_false_of_ne hne]
    cases hkey : hasKey items key' with
    | true => rfl
    | false =>
        have hfind : items.find? (fun i => i.key == key') = none := by
          apply List.find?_eq_none.mpr
          intro j hj hkey'
          rw [hasKey, List.any_eq_true.mpr ⟨j, hj, hkey'⟩] at hkey
          cases hkey
        unfold itemInt? Layout.int? Layout.value?
        rw [hfind]
        rfl

theorem hasKey_withItem_of_ne {key key' : Text} (hne : key ≠ key') (items : List LayoutItem)
    (n : Int) : hasKey (withItem items key n) key' = hasKey items key' := by
  unfold withItem
  split
  · rfl
  · unfold hasKey
    rw [List.any_append]
    simp [beq_false_of_ne hne]

/-- The layout gives the numbers of the resource. -/
def Agrees (l : Option Layout) (p : Param) : Prop :=
  if p.category.usesLocation then layoutInt? l "location" = p.location
  else layoutInt? l "set" = some p.set ∧ layoutInt? l "binding" = p.binding

def Keeps (l : Option Layout) (key : Text) (n : Option Int) : Prop :=
  hasKey (entries l) key = true -> layoutInt? l key = n

/-- Where the layout speaks of the numbers of the resource, it gives them. -/
def KeepsAll (l : Option Layout) (p : Param) : Prop :=
  if p.category.usesLocation then Keeps l "location" p.location
  else Keeps l "set" (some p.set) ∧ Keeps l "binding" p.binding

theorem decimal?_of_isNumber {n : Option Int} (h : IsNumber n) :
    Numeral.decimal? (Text.ofInt (n.getD (-1))) = n := by
  rcases h with ⟨k, rfl, hk⟩
  have hfits : Numeral.fits (k : Int) = true := by
    unfold Numeral.fits
    simp
    omega
  rw [Option.getD_some, Numeral.decimal?_ofInt, if_pos hfits]

theorem keeps_iff (l : Option Layout) (key : Text) (n : Option Int) :
    (if hasKey (entries l) key then itemInt? (entries l) key else n) = n ↔ Keeps l key n := by
  unfold Keeps
  rw [layoutInt?_eq]
  cases hasKey (entries l) key <;> simp

/-- A completed layout gives the numbers exactly if those that were there do. -/
theorem agrees_partLayout_iff {d : Declaration} {p : Param} (hnumber : HasNumber p)
    (hset : p.category.isDescriptor = true -> Numeral.fits p.set = true) :
    Agrees (partLayout d (some p)) p ↔ KeepsAll d.layout p := by
  have hint : forall key, layoutInt? (partLayout d (some p)) key =
      itemInt? (itemsFor (entries d.layout) p) key := fun key => layoutInt?_eq _ key
  unfold Agrees KeepsAll
  unfold HasNumber at hnumber
  simp only [hint]
  unfold itemsFor
  cases hlocation : p.category.usesLocation with
  | true =>
      simp only [hlocation, if_true] at hnumber ⊢
      rw [itemInt?_withItem, decimal?_of_isNumber hnumber]
      exact keeps_iff _ _ _
  | false =>
      simp only [hlocation, Bool.false_eq_true, if_false] at hnumber ⊢
      have hdecimal : Numeral.decimal? (Text.ofInt p.set) = some p.set := by
        rw [Numeral.decimal?_ofInt, if_pos (hset hnumber.1)]
      rw [itemInt?_withItem_of_ne (by decide), itemInt?_withItem, itemInt?_withItem,
        hasKey_withItem_of_ne (by decide), itemInt?_withItem_of_ne (by decide), hdecimal,
        decimal?_of_isNumber hnumber.2]
      exact and_congr (keeps_iff _ _ _) (keeps_iff _ _ _)

/-!
# Allocated numbers
-/

/-- The layout repeats numbers of another one: what it says of them is decimal and the same. -/
def Repeats (l m : Option Layout) : Prop :=
  forall key, key ∈ (["location", "set", "binding"] : List Text) ->
    hasKey (entries l) key = true ->
    exists n, layoutInt? l key = some n ∧ layoutInt? m key = some n

end Decorate

namespace Slots

def HasSet (p : Param) : Prop :=
  p.category.isDescriptor = true -> p.set = (layoutInt? p.layout "set").getD (defaultSet p)

theorem HasSet.assign {p : Param} (h : HasSet p) (s : Space) (n : Option Int) :
    HasSet (s.assign p n) := by
  unfold Space.assign
  split
  · exact h
  · exact h

theorem hasSet_withSet (p : Param) : HasSet (withSet p) := by
  intro hdescriptor
  have hcategory : (withSet p).category = p.category :=
    eq_of_unnumbered Param.category (fun _ => rfl) (unnumbered_withSet p)
  rw [hcategory] at hdescriptor
  unfold withSet
  rw [if_pos hdescriptor]
  rfl

section

variable {P : Param -> Prop} {s : Space}

theorem forall_of_claim (hassign : forall p n, P p -> P (s.assign p n)) (claims : Claims)
    {ps : List Param} (hps : forall p, p ∈ ps -> P p) :
    forall q, q ∈ (claim s claims ps).1.params -> P q := by
  induction ps generalizing claims with
  | nil => simp [claim]
  | cons p ps ih =>
      have hp := hps p List.mem_cons_self
      have hrest : forall claims q, q ∈ (claim s claims ps).1.params -> P q := fun claims =>
        ih claims fun q hq => hps q (List.mem_cons_of_mem _ hq)
      have hproceed : forall n claims q, q ∈ s.assign p n :: (claim s claims ps).1.params ->
        P q := by
        intro n claims q hq
        rcases List.mem_cons.mp hq with rfl | hq
        · exact hassign p n hp
        · exact hrest claims q hq
      rw [claim]
      dsimp only
      split
      · exact hproceed _ _
      · split
        · split
          · exact hproceed _ _
          · exact hps
        · exact hproceed _ _

theorem forall_of_fill (hassign : forall p n, P p -> P (s.assign p n)) {claims : Claims}
    {next : Int} {earlier ps : List Param} (hearlier : forall p, p ∈ earlier -> P p)
    (hps : forall p, p ∈ ps -> P p) : forall q, q ∈ fill s claims next earlier ps -> P q := by
  induction ps generalizing claims next earlier with
  | nil => exact hearlier
  | cons p ps ih =>
      have hp := hps p List.mem_cons_self
      have hrest := fun q hq => hps q (List.mem_cons_of_mem _ hq)
      have hnext : forall q, P q -> forall r, r ∈ earlier ++ [q] -> P r := by
        intro q hq r hr
        rcases List.mem_append.mp hr with hr | hr
        · exact hearlier r hr
        · rw [List.mem_singleton.mp hr]
          exact hq
      rw [fill]
      dsimp only
      split
      · exact ih (hnext p hp) hrest
      · split
        · exact ih (hnext _ (hassign p _ hp)) hrest
        · exact ih (hnext _ (hassign p _ hp)) hrest

theorem forall_of_allocateSpace (hassign : forall p n, P p -> P (s.assign p n)) {ps : List Param}
    (hps : forall p, p ∈ ps -> P p) : forall q, q ∈ (allocateSpace s ps).params -> P q := by
  have hclaim := forall_of_claim hassign [] hps
  unfold allocateSpace
  split
  · rename_i params e claims heq
    rw [heq] at hclaim
    exact hclaim
  · rename_i params claims heq
    rw [heq] at hclaim
    dsimp only
    split
    · exact hclaim
    · exact forall_of_fill hassign (by simp) hclaim

end

theorem forall_of_allocateAll {P : Param -> Prop}
    (hassign : forall (s : Space) p n, P p -> P (s.assign p n)) {info : ShaderInfo}
    {xs : List (Space × List Param)} (hinfo : forall p, p ∈ info.params -> P p)
    (hxs : forall x, x ∈ xs -> forall p, p ∈ x.2 -> P p) :
    forall q, q ∈ (allocateAll info xs).1.params -> P q := by
  induction xs generalizing info with
  | nil => exact hinfo
  | cons x xs ih =>
      rcases x with ⟨s, ps⟩
      have hspace := forall_of_allocateSpace (hassign s) (hxs (s, ps) List.mem_cons_self)
      have hwritten : forall q, q ∈ (writeBack info (allocateSpace s ps).params).params -> P q := by
        intro q hq
        rcases List.mem_map.mp hq with ⟨p, hp, rfl⟩
        cases hfind : (allocateSpace s ps).params.find? fun q => q.isNamed p.category p.name with
        | none => exact hinfo p hp
        | some q => exact hspace q (List.mem_of_find?_eq_some hfind)
      rw [allocateAll]
      split
      · exact hwritten
      · exact ih hwritten fun x hx => hxs x (List.mem_cons_of_mem _ hx)

theorem hasSet_of_allocate {info : ShaderInfo} {p : Param} (hp : p ∈ (allocate info).1.params) :
    HasSet p := by
  have hall : forall q, q ∈ info.params.map withSet -> HasSet q := by
    intro q hq
    rcases List.mem_map.mp hq with ⟨r, _, rfl⟩
    exact hasSet_withSet r
  exact forall_of_allocateAll (fun s p n h => HasSet.assign h s n) hall
    (fun x hx q hq => hall q (mem_params_of_spaces hx hq)) p hp

theorem exists_space {info : ShaderInfo} {p : Param} (hp : p ∈ info.params)
    (hcategory : p.category.usesLocation = true ∨ p.category.isDescriptor = true) :
    exists x, x ∈ spaces info ∧ p ∈ x.2 ∧ x.1.byLocation = p.category.usesLocation := by
  rw [spaces_eq]
  cases hlocation : p.category.usesLocation with
  | true =>
      have hlist : p ∈ info.list p.category := mem_list.mpr ⟨hp, rfl⟩
      have hcases : p.category = .vertexInput ∨ p.category = .varying ∨
        p.category = .fragColor := by
        cases hc : p.category <;> simp_all [Category.usesLocation]
      rcases hcases with hc | hc | hc <;> rw [hc] at hlist
      · exact ⟨(⟨true, true⟩, info.list .vertexInput), by simp, hlist, rfl⟩
      · exact ⟨(⟨true, false⟩, info.list .varying), by simp, hlist, rfl⟩
      · exact ⟨(⟨true, false⟩, info.list .fragColor), by simp, hlist, rfl⟩
  | false =>
      rw [hlocation] at hcategory
      have hmem : p ∈ descriptors info :=
        mem_descriptors.mpr ⟨hp, hcategory.resolve_left Bool.false_ne_true⟩
      cases hbuiltin : p.builtin with
      | false =>
          exact ⟨_, List.mem_cons_self, List.mem_filter.mpr ⟨hmem, by simp [hbuiltin]⟩, rfl⟩
      | true =>
          cases hglobal : p.inGlobalSet with
          | true =>
              exact ⟨_, List.mem_cons_of_mem _ List.mem_cons_self,
                List.mem_filter.mpr ⟨hmem, by simp [hbuiltin, hglobal]⟩, rfl⟩
          | false =>
              exact ⟨_, List.mem_cons_of_mem _ (List.mem_cons_of_mem _ List.mem_cons_self),
                List.mem_filter.mpr ⟨hmem, by simp [hbuiltin, hglobal]⟩, rfl⟩

theorem slot_of_allocate {info : ShaderInfo} (hbuilt : info.Built)
    (hsuccess : (allocate info).2 = none) {p : Param} (hp : p ∈ (allocate info).1.params)
    (hcategory : p.category.usesLocation = true ∨ p.category.isDescriptor = true) {n : Int}
    (h : layoutInt? p.layout (if p.category.usesLocation then "location" else "binding") = some n) :
    (if p.category.usesLocation then p.location else p.binding) = some n := by
  rcases exists_space hp hcategory with ⟨x, hx, hpx, hlocation⟩
  have hkept := ((numbered_of_allocate hbuilt hsuccess).2 x hx).kept p n hpx
  unfold Space.explicit? Space.key Space.slot at hkept
  rw [hlocation] at hkept
  apply hkept
  rw [← h]

end Slots

theorem Numeral.fits_of_decimal? {s : Text} {n : Int} (h : decimal? s = some n) :
    fits n = true := by
  unfold decimal? inBase? at h
  dsimp only at h
  split at h
  · cases h
  · rcases Option.bind_eq_some_iff.mp h with ⟨k, _, hk⟩
    split at hk
    · rename_i hfits
      rw [← Option.some.inj hk]
      exact hfits
    · cases hk

namespace Decorate

theorem fits_set {info : ShaderInfo} {p : Param} (hp : p ∈ (Slots.allocate info).1.params)
    (hdescriptor : p.category.isDescriptor = true) : Numeral.fits p.set = true := by
  rw [Slots.hasSet_of_allocate hp hdescriptor]
  cases hset : layoutInt? p.layout "set" with
  | some n =>
      rcases Option.bind_eq_some_iff.mp hset with ⟨l, _, hint⟩
      rcases Option.bind_eq_some_iff.mp hint with ⟨s, _, hdecimal⟩
      exact Numeral.fits_of_decimal? hdecimal
  | none =>
      rw [Option.getD_none]
      unfold Slots.defaultSet
      split
      · rfl
      · split <;> rfl

theorem hasNumber_category {p : Param} (h : HasNumber p) :
    p.category.usesLocation = true ∨ p.category.isDescriptor = true := by
  unfold HasNumber at h
  split at h
  · rename_i hlocation
    exact Or.inl hlocation
  · exact Or.inr h.1

theorem keepsAll_of_repeats {info : ShaderInfo} (hbuilt : info.Built)
    (hsuccess : (Slots.allocate info).2 = none) {p : Param}
    (hp : p ∈ (Slots.allocate info).1.params) (hnumber : HasNumber p) {l : Option Layout}
    (h : Repeats l p.layout) : KeepsAll l p := by
  have hslot := fun n => Slots.slot_of_allocate hbuilt hsuccess hp (hasNumber_category hnumber)
    (n := n)
  unfold HasNumber at hnumber
  unfold KeepsAll
  cases hlocation : p.category.usesLocation with
  | true =>
      simp only [hlocation, if_true] at hslot ⊢
      intro hkey
      rcases h "location" (by decide) hkey with ⟨n, hl, hm⟩
      rw [hl, hslot n hm]
  | false =>
      simp only [hlocation, Bool.false_eq_true, if_false] at hslot hnumber ⊢
      constructor
      · intro hkey
        rcases h "set" (by decide) hkey with ⟨n, hl, hm⟩
        rw [hl, Slots.hasSet_of_allocate hp hnumber.1, hm]
        rfl
      · intro hkey
        rcases h "binding" (by decide) hkey with ⟨n, hl, hm⟩
        rw [hl, hslot n hm]

theorem entries_unplaced (l : Option Layout) : entries (l.map Layout.unplaced) = entries l := by
  cases l <;> rfl

theorem Agrees.congr {l l' : Option Layout} {p : Param}
    (h : l'.map Layout.unplaced = l.map Layout.unplaced) : Agrees l' p ↔ Agrees l p := by
  have hentries : entries l' = entries l := by
    rw [← entries_unplaced, h, entries_unplaced]
  unfold Agrees
  simp only [layoutInt?_eq, hentries]

/-- The declaration takes the place of another one, or of a part of it. -/
def PartOf (stage : Stages) (info : ShaderInfo) (d d' : Declaration) : Prop :=
  exists e, e ∈ decorated stage info d ∧ d'.unplaced = e.unplaced

end Decorate

open Decorate

/-- The declarations of a decorated source give their resources' numbers exactly if the layouts of
the source do where they speak of them, as those do that repeat the layouts which merging kept. -/
theorem decorated_layouts {stages : List (Reflect.Options × Text)} {info : ShaderInfo}
    (hmerged : ShaderInfo.mergeStages ShaderInfo.empty stages = some info)
    (hsuccess : (Slots.allocate info).2 = none) {o : Reflect.Options} {code : Text}
    (hmem : (o, code) ∈ stages) (hclean : CleanSource code) :
    exists text ds ds', decorate code o.stage (Slots.allocate info).1 = .ok text ∧
      Declaration.ofText? code = some ds ∧ Declaration.ofText? text = some ds' ∧
      (forall d p, d ∈ ds -> DeclaresNumbered (Slots.allocate info).1 o.stage d p ->
        exists d', d' ∈ ds' ∧ PartOf o.stage (Slots.allocate info).1 d d' ∧
          DeclaresNumbered (Slots.allocate info).1 o.stage d' p) ∧
      forall d' p, d' ∈ ds' -> DeclaresNumbered (Slots.allocate info).1 o.stage d' p ->
        exists d, d ∈ ds ∧ PartOf o.stage (Slots.allocate info).1 d d' ∧
          DeclaresNumbered (Slots.allocate info).1 o.stage d p ∧
          (Agrees d'.layout p ↔ KeepsAll d.layout p) ∧
          (Repeats d.layout p.layout -> Agrees d'.layout p) := by
  rcases ShaderInfo.ofText?_of_mergeStages hmerged hmem with ⟨ds, hds⟩
  have hbuilt := ShaderInfo.built_of_mergeStages ShaderInfo.Built.empty hmerged
  rcases exists_decorate hds hclean o.stage (Slots.allocate info).1 with
    ⟨text, ds', htext, hds', hsame⟩
  refine ⟨text, ds, ds', htext, hds, hds', ?_, ?_⟩
  · intro d p hd hp
    rcases exists_declaresNumbered hp with ⟨e, he, hep⟩
    have hpart : e.unplaced ∈ ds'.map Declaration.unplaced := by
      rw [hsame]
      exact List.mem_map_of_mem (List.mem_flatMap.mpr ⟨d, hd, he⟩)
    rcases List.mem_map.mp hpart with ⟨d', hd', heq⟩
    exact ⟨d', hd', ⟨e, he, heq⟩, hep.congr heq⟩
  · intro d' p hd' hp
    have hpart : d'.unplaced ∈
        (ds.flatMap (decorated o.stage (Slots.allocate info).1)).map Declaration.unplaced := by
      rw [← hsame]
      exact List.mem_map_of_mem hd'
    rcases List.mem_map.mp hpart with ⟨e, he, heq⟩
    rcases List.mem_flatMap.mp he with ⟨d, hd, he⟩
    rcases declaresNumbered_decorated he (hp.congr heq) with ⟨hdp, hlayout⟩
    have hparam : p ∈ (Slots.allocate info).1.params := by
      rcases hp.found with ⟨c, name, _, _, hfind⟩
      exact (ShaderInfo.isNamed_of_find? hfind).1
    have hagrees : Agrees d'.layout p ↔ KeepsAll d.layout p := by
      rw [Agrees.congr (congrArg Declaration.layout heq.symm), hlayout]
      exact agrees_partLayout_iff hp.hasNumber (fits_set hparam)
    refine ⟨d, hd, ⟨e, he, heq.symm⟩, hdp, hagrees, ?_⟩
    intro hrepeats
    exact hagrees.mpr (keepsAll_of_repeats hbuilt hsuccess hparam hp.hasNumber hrepeats)

def Reflect.Options.bare (stage : Stages) : Reflect.Options :=
  ⟨stage, Extraction.empty, []⟩

theorem declaresNumbered_of_find? {info : ShaderInfo} {stage : Stages} {d : Declaration} {p : Param}
    {name : Text} (hp : info.find? .samplerTexture name = some p) (hbinding : p.binding = some 0)
    (hc : category? stage d = some .samplerTexture) (hname : name ∈ names d) :
    DeclaresNumbered info stage d p := by
  refine ⟨⟨.samplerTexture, name, hc, hname, hp⟩, ?_⟩
  unfold HasNumber
  rw [(ShaderInfo.isNamed_of_find? hp).2.1]
  exact ⟨rfl, 0, hbinding, by decide⟩

/-- A stage that says nothing gets the binding that another one asks for. -/
theorem decorated_layouts_completed :
    exists info text ds d p,
      ShaderInfo.mergeStages ShaderInfo.empty
        [(.bare Stages.vertexOnly, "layout(binding = 0) uniform sampler2D a;"),
          (.bare Stages.fragmentOnly, "uniform sampler2D a;")] = some info ∧
      (Slots.allocate info).2 = none ∧
      decorate "uniform sampler2D a;" Stages.fragmentOnly (Slots.allocate info).1 = .ok text ∧
      Declaration.ofText? text = some ds ∧ d ∈ ds ∧
      DeclaresNumbered (Slots.allocate info).1 Stages.fragmentOnly d p ∧ Agrees d.layout p := by
  have hrun : ((ShaderInfo.mergeStages ShaderInfo.empty
      [(.bare Stages.vertexOnly, "layout(binding = 0) uniform sampler2D a;"),
        (.bare Stages.fragmentOnly, "uniform sampler2D a;")]).any fun info =>
      (Slots.allocate info).2.isNone &&
        ((Slots.allocate info).1.find? .samplerTexture "a").any fun p =>
          p.binding == some 0) = true := by
    decide +kernel
  have hsource : ((Declaration.ofText? "uniform sampler2D a;").any fun ds => ds.length == 1 &&
      ds.all fun d => category? Stages.fragmentOnly d == some .samplerTexture &&
        (names d).contains "a" && d.layout.isNone) = true := by
    decide +kernel
  have hclean : CleanSource "uniform sampler2D a;" := by
    decide +kernel
  rcases (Option.any_eq_true _ _).mp hrun with ⟨info, hinfo, hrun⟩
  rcases Bool.and_eq_true_iff.mp hrun with ⟨hsuccess, hfind⟩
  rcases (Option.any_eq_true _ _).mp hfind with ⟨p, hp, hbinding⟩
  rcases (Option.any_eq_true _ _).mp hsource with ⟨source, hds, hsource⟩
  simp only [Bool.and_eq_true, beq_iff_eq, List.all_eq_true, List.contains_iff_mem,
    Option.isNone_iff_eq_none] at hsuccess hbinding hsource
  rcases List.length_eq_one_iff.mp hsource.1 with ⟨d, rfl⟩
  have hd : d ∈ [d] := List.mem_cons_self
  rcases decorated_layouts hinfo hsuccess (List.mem_cons_of_mem _ List.mem_cons_self) hclean with
    ⟨text, ds, ds', htext, hds', hread, hkept, hagrees⟩
  rw [Option.some.inj (hds'.symm.trans hds)] at hkept hagrees
  rcases hsource.2 d hd with ⟨⟨hcategory, hname⟩, _⟩
  have hdeclares := declaresNumbered_of_find? hp hbinding hcategory hname
  rcases hkept d p hd hdeclares with ⟨d', hd', _, hp'⟩
  refine ⟨info, text, ds', d', p, hinfo, hsuccess, htext, hread, hd', hp', ?_⟩
  rcases hagrees d' p hd' hp' with ⟨d₁, hd₁, _, _, _, hrepeats⟩
  apply hrepeats
  intro key _ hkey
  rw [(hsource.2 d₁ hd₁).2] at hkey
  cases hkey

/-- A stage keeps a binding of its own that merging gave up for that of another stage. -/
theorem decorated_layout_differs :
    exists info text ds d p,
      ShaderInfo.mergeStages ShaderInfo.empty
        [(.bare Stages.vertexOnly, "layout(binding = 0) uniform sampler2D a;"),
          (.bare Stages.fragmentOnly, "layout(binding = 1) uniform sampler2D a;")] = some info ∧
      (Slots.allocate info).2 = none ∧
      decorate "layout(binding = 1) uniform sampler2D a;" Stages.fragmentOnly
        (Slots.allocate info).1 = .ok text ∧
      Declaration.ofText? text = some ds ∧ d ∈ ds ∧
      DeclaresNumbered (Slots.allocate info).1 Stages.fragmentOnly d p ∧ ¬ Agrees d.layout p := by
  have hrun : ((ShaderInfo.mergeStages ShaderInfo.empty
      [(.bare Stages.vertexOnly, "layout(binding = 0) uniform sampler2D a;"),
        (.bare Stages.fragmentOnly, "layout(binding = 1) uniform sampler2D a;")]).any fun info =>
      (Slots.allocate info).2.isNone &&
        (((Slots.allocate info).1.find? .samplerTexture "a").any fun p => p.binding == some 0) &&
        (decorate "layout(binding = 1) uniform sampler2D a;" Stages.fragmentOnly
          (Slots.allocate info).1).toOption.any fun text =>
            (Declaration.ofText? text).any fun ds => ds.any fun d =>
              category? Stages.fragmentOnly d == some .samplerTexture && (names d).contains "a" &&
                layoutInt? d.layout "binding" == some 1) = true := by
    decide +kernel
  rcases (Option.any_eq_true _ _).mp hrun with ⟨info, hinfo, hrun⟩
  rcases Bool.and_eq_true_iff.mp hrun with ⟨hrun, hdecorate⟩
  rcases Bool.and_eq_true_iff.mp hrun with ⟨hsuccess, hfind⟩
  rcases (Option.any_eq_true _ _).mp hfind with ⟨p, hp, hbinding⟩
  rcases (Option.any_eq_true _ _).mp hdecorate with ⟨text, htext, hread⟩
  rcases (Option.any_eq_true _ _).mp hread with ⟨ds, hds, hany⟩
  rcases List.any_eq_true.mp hany with ⟨d, hd, hfacts⟩
  simp only [Bool.and_eq_true, beq_iff_eq, List.contains_iff_mem, Option.isNone_iff_eq_none]
    at hsuccess hbinding hfacts
  refine ⟨info, text, ds, d, p, hinfo, hsuccess, toOption_eq_some_iff.mp htext, hds, hd,
    declaresNumbered_of_find? hp hbinding hfacts.1.1 hfacts.1.2, ?_⟩
  unfold Agrees
  rw [(ShaderInfo.isNamed_of_find? hp).2.1, hfacts.2, hbinding]
  rintro ⟨_, heq⟩
  cases heq

end EffectShader
