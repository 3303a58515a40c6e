import EffectShader.Proofs.Condition.Printing
import EffectShader.Proofs.Resource.Records
import Mathlib.Algebra.Group.Int.Defs

/-!
# Layouts of merged blocks

Two declarations of a uniform block merge if their members agree in names, types and
array lengths.  Whether a member is an array does not count, but it decides how much
room the member takes: an array of one element fills whole rows of sixteen bytes.
Merged blocks are therefore laid out alike exactly if no narrow member, other than the
last, is an array in one declaration only.
-/

namespace EffectShader

namespace Std140

/-!
# Rows
-/

/-- An element of the type takes less than a row of sixteen bytes. -/
def isNarrow (type : Text) : Bool :=
  (GlslType.lookup? type).any fun t => t.size < 16

/-- A narrow member is an array in one of two declarations. -/
def IsApart (m n : Member) : Prop :=
  m.isArray ≠ n.isArray ∧ isNarrow m.type = true

def sizes : List Nat :=
  [4, 8, 16, 32, 48, 64]

theorem size_mem_sizes {name : Text} {t : GlslType} (h : GlslType.lookup? name = some t)
    (hplain : t.isOpaque = false) (halign : t.alignment ≠ 12) : t.size ∈ sizes := by
  have hmem : t ∈ GlslType.table := List.mem_of_find?_eq_some h
  have hall : GlslType.table.all (fun t =>
      t.isOpaque || t.alignment == 12 || sizes.contains t.size) = true := by
    decide +kernel
  have ht := List.all_eq_true.mp hall t hmem
  simpa [hplain, halign] using ht

theorem tdiv_of_row {a d : Int} (ha : -2 ^ 63 ≤ a) (ha' : a < 2 ^ 63) (hrow : a.tmod 16 = 0)
    (hd : 16 < d) (hd' : d < 32) :
    ((a + d).bmod (2 ^ 64)).tdiv 16 = ((a + 31).bmod (2 ^ 64)).tdiv 16 := by
  rcases Int.dvd_of_tmod_eq_zero hrow with ⟨k, rfl⟩
  simp only [Int.bmod, Int.tdiv_eq_ediv]
  omega

theorem roundUp_of_row {o : Int64} (h : o % 16 = 0) {s : Nat} (hs : s = 4 ∨ s = 8) :
    roundUp (o + Int64.ofNat s) 16 = roundUp (o + 16) 16 := by
  have hrow : o.toInt.tmod 16 = 0 := by
    have hmod := congrArg Int64.toInt h
    rw [Int64.toInt_mod] at hmod
    exact hmod
  have hround : forall d : Int64, 16 < d.toInt -> d.toInt < 32 ->
      (o + d) / 16 = (o + 31) / 16 := by
    intro d hd hd'
    apply Int64.toInt_inj.mp
    rw [Int64.toInt_div, Int64.toInt_div, Int64.toInt_add, Int64.toInt_add]
    exact congrArg (fun n => Int.bmod n (2 ^ 64))
      (tdiv_of_row o.le_toInt o.toInt_lt hrow hd hd')
  have hsum : forall x : Int64, o + x + 16 - 1 = o + (x + 16 - 1) := by
    intro x
    simp only [Int64.sub_eq_add_neg, Int64.add_assoc]
  unfold roundUp
  rw [hsum, hsum]
  rcases hs with rfl | rfl
  · rw [hround (Int64.ofNat 4 + 16 - 1) (by decide) (by decide)]
    rfl
  · rw [hround (Int64.ofNat 8 + 16 - 1) (by decide) (by decide)]
    rfl

/-!
# One member
-/

def room (m : Member) (t : GlslType) : Int64 :=
  if m.isArray then roundUp (Int64.ofNat t.size) 16 * m.count else Int64.ofNat t.size

theorem place_spec {o e : Int64} {m : Member} (h : place o m = .ok e) :
    exists t, GlslType.lookup? m.type = some t ∧ t.size ∈ sizes ∧ e = o + room m t ∧
      (m.isArray = true -> m.count ≠ 0 ∧ o % 16 = 0) := by
  unfold place at h
  cases htype : GlslType.lookup? m.type with
  | none =>
      rw [htype] at h
      cases h
  | some t =>
      rw [htype] at h
      dsimp only at h
      split at h
      · cases h
      · rename_i hplain
        split at h
        · cases h
        · rename_i hsized
          split at h
          · cases h
          · split at h
            · cases h
            · rename_i halign
              by_cases hpadding :
                  (o % (if m.isArray then 16 else Int64.ofNat t.alignment) != 0) = true
              · rw [if_pos hpadding] at h
                cases h
              · rw [if_neg hpadding] at h
                cases h
                refine ⟨t, rfl, ?_, rfl, ?_⟩
                · exact size_mem_sizes htype (by simpa using hplain) (by simpa using halign)
                · intro harray
                  constructor
                  · simpa [harray] using hsized
                  · simpa [harray] using hpadding

/-- A member that is an array of one element in the first declaration only. -/
theorem place_apart {o e e' : Int64} {m n : Member} (hm : place o m = .ok e)
    (hn : place o n = .ok e') (htype : m.type = n.type) (hcount : m.count = 1)
    (harray : m.isArray = true) (hplain : n.isArray = false) :
    (e = e' ↔ isNarrow m.type = false) ∧ roundUp e 16 = roundUp e' 16 := by
  rcases place_spec hm with ⟨t, ht, hsize, rfl, hrow⟩
  rcases place_spec hn with ⟨t', ht', _, rfl, _⟩
  have hsame : t' = t := by
    rw [← htype, ht] at ht'
    exact (Option.some.inj ht').symm
  subst hsame
  unfold isNarrow room
  rw [ht, harray, hplain, hcount, Int64.add_right_inj]
  simp only [if_true, Bool.false_eq_true, if_false, Option.any_some]
  rcases hrow harray with ⟨_, hrow⟩
  have hsmall := fun s => roundUp_of_row (s := s) hrow
  generalize t'.size = s at *
  simp only [sizes, List.mem_cons, List.not_mem_nil, or_false] at hsize
  rcases hsize with rfl | rfl | hsize
  · exact ⟨by decide, (hsmall 4 (Or.inl rfl)).symm⟩
  · exact ⟨by decide, (hsmall 8 (Or.inr rfl)).symm⟩
  · rcases hsize with rfl | rfl | rfl | rfl
    all_goals exact ⟨by decide, rfl⟩

/-- What two declarations of a member have in common, beside the room they take. -/
structure Alike (m n : Member) : Prop where
  same : ShaderInfo.sameMember m n = true
  first : m.isArray = false -> m.count = 1
  second : n.isArray = false -> n.count = 1

theorem Alike.type_eq {m n : Member} (h : Alike m n) : m.type = n.type ∧ m.count = n.count := by
  have hsame := h.same
  simp only [ShaderInfo.sameMember, Bool.and_eq_true, beq_iff_eq] at hsame
  exact ⟨hsame.1.2, hsame.2⟩

theorem place_alike {o e e' : Int64} {m n : Member} (h : Alike m n) (hm : place o m = .ok e)
    (hn : place o n = .ok e') : (e = e' ↔ ¬ IsApart m n) ∧ roundUp e 16 = roundUp e' 16 := by
  rcases h.type_eq with ⟨htype, hcount⟩
  have hapart : m.isArray ≠ n.isArray -> (¬ IsApart m n ↔ isNarrow m.type = false) := by
    intro hne
    simp [IsApart, hne]
  cases hmarray : m.isArray with
  | true =>
      cases hnarray : n.isArray with
      | false =>
          rw [hapart (by rw [hmarray, hnarray]; decide)]
          exact place_apart hm hn htype (hcount.trans (h.second hnarray)) hmarray hnarray
      | true =>
          have hroom : e = e' := by
            unfold place at hm hn
            rw [htype, hcount, hmarray] at hm
            rw [hnarray, hm] at hn
            exact Except.ok.inj hn
          subst hroom
          simp [IsApart, hmarray, hnarray]
  | false =>
      cases hnarray : n.isArray with
      | true =>
          rcases place_apart hn hm htype.symm (hcount.symm.trans (h.first hmarray)) hnarray
            hmarray with ⟨hiff, hround⟩
          rw [hapart (by rw [hmarray, hnarray]; decide), htype, ← hiff]
          exact ⟨eq_comm, hround.symm⟩
      | false =>
          have hroom : e = e' := by
            unfold place at hm hn
            rw [htype, hcount, hmarray] at hm
            rw [hnarray, hm] at hn
            exact Except.ok.inj hn
          subst hroom
          simp [IsApart, hmarray, hnarray]

/-!
# All members
-/

inductive Laid : Int64 -> List Member -> Int64 -> Prop where
  | nil (o : Int64) : Laid o [] o
  | cons {o next last : Int64} {m : Member} {ms : List Member} :
      place o m = .ok next -> m.offset = o -> Laid next ms last -> Laid o (m :: ms) last

theorem place_offset (o x : Int64) (m : Member) : place o { m with offset := x } = place o m := rfl

section Placing

variable {block : Text} {line : Int}

theorem placeAll_cons_eq_ok_iff {o last : Int64} {m : Member} {ms placed : List Member} :
    placeAll block line o (m :: ms) = .ok (placed, last) ↔
      exists next rest, place o m = .ok next ∧ placeAll block line next ms = .ok (rest, last) ∧
        placed = { m with offset := o } :: rest := by
  rw [placeAll]
  cases hm : place o m with
  | error e => simp
  | ok next =>
      dsimp only
      cases hms : placeAll block line next ms with
      | error e => simp [hms]
      | ok read =>
          constructor
          · intro h
            cases h
            exact ⟨next, read.1, rfl, hms, rfl⟩
          · rintro ⟨_, rest, hnext, hrest, rfl⟩
            cases hnext
            rw [hms] at hrest
            cases hrest
            rfl

theorem layOut_eq_ok_iff {ms placed : List Member} {size : Int64} :
    layOut block line ms = .ok (placed, size) ↔
      exists last, placeAll block line 0 ms = .ok (placed, last) ∧ roundUp last 16 = size := by
  unfold layOut
  rcases placeAll block line 0 ms with e | ⟨members, last⟩
  · simp [Except.map]
  · simp [Except.map]

theorem laid_of_placeAll {o last : Int64} {ms placed : List Member}
    (h : placeAll block line o ms = .ok (placed, last)) : Laid o placed last := by
  induction ms generalizing o placed with
  | nil =>
      cases h
      exact Laid.nil _
  | cons m ms ih =>
      rcases placeAll_cons_eq_ok_iff.mp h with ⟨next, rest, hplace, hrest, rfl⟩
      exact Laid.cons (by rw [place_offset, hplace]) rfl (ih hrest)

theorem forall_of_placeAll {P : Member -> Prop} {o last : Int64} {ms placed : List Member}
    (hoffset : forall m x, P m -> P { m with offset := x })
    (h : placeAll block line o ms = .ok (placed, last)) (hms : forall m, m ∈ ms -> P m) :
    forall m, m ∈ placed -> P m := by
  induction ms generalizing o placed with
  | nil =>
      cases h
      exact List.forall_mem_nil P
  | cons m ms ih =>
      rcases placeAll_cons_eq_ok_iff.mp h with ⟨next, rest, _, hrest, rfl⟩
      rcases List.forall_mem_cons.mp hms with ⟨hm, hms⟩
      exact List.forall_mem_cons.mpr ⟨hoffset m o hm, ih hrest hms⟩

end Placing

/-- Members of one block that are alike are laid out alike up to the first that is apart. -/
theorem laid_alike_iff {o e e' : Int64} {ms ns : List Member} (hms : Laid o ms e)
    (hns : Laid o ns e') (h : List.Forall₂ Alike ms ns) :
    (roundUp e 16 = roundUp e' 16 ∧ ms.map (·.offset) = ns.map (·.offset)) ↔
      forall x, x ∈ (ms.zip ns).dropLast -> ¬ IsApart x.1 x.2 := by
  induction h generalizing o e e' with
  | nil =>
      cases hms
      cases hns
      simp
  | @cons m n ms ns hmn hrest ih =>
      cases hms with
      | @cons _ next _ _ _ hplace hoffset hms =>
          cases hns with
          | @cons _ next' _ _ _ hplace' hoffset' hns =>
              rcases place_alike hmn hplace hplace' with ⟨hnext, hround⟩
              rw [List.map_cons, List.map_cons, hoffset, hoffset', List.zip_cons_cons]
              cases hrest with
              | nil =>
                  cases hms
                  cases hns
                  simp [hround]
              | @cons m₂ n₂ ms ns hmn₂ hrest =>
                  have hsame : ((m₂ :: ms).map (·.offset) = (n₂ :: ns).map (·.offset)) ->
                      next = next' := by
                    intro hoffsets
                    have hfirst := (List.cons.inj hoffsets).1
                    cases hms with
                    | cons _ hm₂ _ =>
                        cases hns with
                        | cons _ hn₂ _ => exact hm₂.symm.trans (hfirst.trans hn₂)
                  rw [List.zip_cons_cons, List.dropLast_cons_cons, List.forall_mem_cons,
                    ← List.zip_cons_cons, ← hnext, List.cons_eq_cons]
                  constructor
                  · rintro ⟨hsize, _, hoffsets⟩
                    have heq := hsame hoffsets
                    subst heq
                    exact ⟨rfl, (ih hms hns).mp ⟨hsize, hoffsets⟩⟩
                  · rintro ⟨rfl, hapart⟩
                    rcases (ih hms hns).mpr hapart with ⟨hsize, hoffsets⟩
                    exact ⟨hsize, rfl, hoffsets⟩

theorem isRuntimeSized_of_laid {o e : Int64} {ms : List Member} (h : Laid o ms e) :
    Reflect.isRuntimeSized ms = false := by
  induction h with
  | nil => rfl
  | @cons o next last m ms hplace _ _ ih =>
      rcases place_spec hplace with ⟨_, _, _, _, hcount⟩
      unfold Reflect.isRuntimeSized at ih ⊢
      rw [List.any_cons, ih, Bool.or_false]
      cases harray : m.isArray with
      | false => rfl
      | true => simp [(hcount harray).1]

end Std140

/-!
# Blocks of a stage
-/

namespace Reflect

/-- How a uniform block comes out of reflection: one with an array of unknown length has no layout,
every other one is laid out from the start. -/
structure HasLayout (p : Param) : Prop where
  counts : forall m, m ∈ p.members -> m.isArray = false -> m.count = 1
  placed : (isRuntimeSized p.members = true ∧ p.size = 0 ∧
      forall m, m ∈ p.members -> m.offset = 0) ∨
    exists last, Std140.Laid 0 p.members last ∧ p.size = Std140.roundUp last 16

theorem ofMemberVariable_spec {block : Text} {b : BlockMember} {v : Variable} {m : Member}
    (h : ofMemberVariable block b v = .ok m) :
    (m.isArray = false -> m.count = 1) ∧ m.offset = 0 := by
  unfold ofMemberVariable at h
  cases hlength : v.length with
  | none =>
      rw [hlength] at h
      cases h
      exact ⟨fun _ => rfl, rfl⟩
  | some source =>
      rw [hlength] at h
      dsimp only at h
      split at h
      · cases h
        constructor
        · intro hplain
          cases hplain
        · rfl
      · split at h
        · cases h
          constructor
          · intro hplain
            cases hplain
          · rfl
        · cases h

theorem exists_of_mem_mapM {f : Variable -> Except Diagnostic Member} {vs : List Variable}
    {ms : List Member} (h : vs.mapM f = .ok ms) {m : Member} (hm : m ∈ ms) :
    exists v, v ∈ vs ∧ f v = .ok m := by
  induction vs generalizing ms with
  | nil =>
      cases h
      cases hm
  | cons v vs ih =>
      rw [List.mapM_cons] at h
      cases hv : f v with
      | error e =>
          rw [hv] at h
          cases h
      | ok first =>
          cases hvs : vs.mapM f with
          | error e =>
              rw [hv, hvs] at h
              cases h
          | ok rest =>
              rw [hv, hvs] at h
              cases h
              rcases List.mem_cons.mp hm with rfl | hm
              · exact ⟨v, List.mem_cons_self, hv⟩
              · rcases ih hvs hm with ⟨u, hu, hfu⟩
                exact ⟨u, List.mem_cons_of_mem v hu, hfu⟩

theorem forall_of_ofMembers {P : Member -> Prop} {block : Text} {c : Category}
    {bs : List BlockMember} {ms : List Member}
    (hP : forall b v m, ofMemberVariable block b v = .ok m -> P m)
    (h : ofMembers block c bs = .ok ms) : forall m, m ∈ ms -> P m := by
  induction bs generalizing ms with
  | nil =>
      cases h
      exact List.forall_mem_nil P
  | cons b bs ih =>
      rw [ofMembers] at h
      split at h
      · cases h
      · cases hvars : b.vars.mapM (ofMemberVariable block b) with
        | error e =>
            rw [hvars] at h
            cases h
        | ok first =>
            rw [hvars] at h
            dsimp only at h
            rcases hrest : ofMembers block c bs with e | rest
            · rw [hrest] at h
              cases h
            · rw [hrest] at h
              cases h
              intro m hm
              rcases List.mem_append.mp hm with hm | hm
              · rcases exists_of_mem_mapM hvars hm with ⟨v, _, hv⟩
                exact hP b v m hv
              · exact ih hrest m hm

theorem ofBlock_cases {d : Declaration} {p : Param} (h : ofBlock d = .ok p)
    (hblock : p.category = .block) :
    exists ms, ofMembers d.type .block d.members = .ok ms ∧
      ((isRuntimeSized ms = true ∧ p.members = ms ∧ p.size = 0) ∨
        exists last, Std140.placeAll d.type d.line 0 ms = .ok (p.members, last) ∧
          p.size = Std140.roundUp last 16) := by
  unfold ofBlock at h
  generalize hc : (if d.storage == .buffer then Category.buffer else .block) = c at h
  dsimp only at h
  cases hms : ofMembers d.type c d.members with
  | error e =>
      rw [hms] at h
      cases h
  | ok ms =>
      rw [hms] at h
      dsimp only at h
      split at h
      · rcases hlaid : Std140.layOut d.type d.line ms with e | ⟨placed, size⟩
        · rw [hlaid] at h
          cases h
        · rw [hlaid] at h
          cases h
          have hcategory : c = .block := hblock
          subst hcategory
          rcases Std140.layOut_eq_ok_iff.mp hlaid with ⟨last, hplaced, rfl⟩
          exact ⟨ms, hms, Or.inr ⟨last, hplaced, rfl⟩⟩
      · rename_i hsized
        cases h
        have hcategory : c = .block := hblock
        subst hcategory
        simp only [beq_self_eq_true, Bool.true_and, Bool.not_eq_true, Bool.not_eq_false'] at hsized
        exact ⟨ms, hms, Or.inl ⟨(Bool.and_eq_true_iff.mp hsized).2, rfl, rfl⟩⟩

theorem hasLayout_of_ofBlock {d : Declaration} {p : Param} (h : ofBlock d = .ok p)
    (hblock : p.category = .block) : HasLayout p := by
  rcases ofBlock_cases h hblock with ⟨ms, hms, hplaced⟩
  have hspec : forall m, m ∈ ms -> (m.isArray = false -> m.count = 1) ∧ m.offset = 0 :=
    forall_of_ofMembers (fun _ _ _ => ofMemberVariable_spec) hms
  rcases hplaced with ⟨hsized, rfl, hsize⟩ | ⟨last, hplaced, hsize⟩
  · constructor
    · exact fun m hm => (hspec m hm).1
    · exact Or.inl ⟨hsized, hsize, fun m hm => (hspec m hm).2⟩
  · constructor
    · exact Std140.forall_of_placeAll (fun _ _ h => h) hplaced fun m hm => (hspec m hm).1
    · exact Or.inr ⟨last, Std140.laid_of_placeAll hplaced, hsize⟩

theorem categorize_ne_block {d : Declaration} {stage : Stages} {c : Category}
    (h : categorize d stage = .ok (some c)) : c ≠ .block := by
  rintro rfl
  unfold categorize at h
  cases hstorage : d.storage with
  | uniform =>
      rw [hstorage] at h
      have hc : uniformCategory d.type = .block := Option.some.inj (Except.ok.inj h)
      unfold uniformCategory at hc
      repeat' split at hc
      all_goals cases hc
  | _ =>
      rw [hstorage] at h
      dsimp only at h
      repeat' split at h
      all_goals cases h

theorem category_ofVariable {d : Declaration} {c : Category} {v : Variable} {p : Param}
    (h : ofVariable d c v = .ok p) : p.category = c := by
  unfold ofVariable at h
  dsimp only at h
  split at h
  · cases h
    rfl
  · split at h
    · cases h
    · cases h
      rfl

theorem category_of_mem_ofVariables {d : Declaration} {stage : Stages} {vs : List Variable}
    {ps : List Param} {p : Param} (h : ofVariables d stage vs = .ok ps) (hp : p ∈ ps) :
    categorize d stage = .ok (some p.category) := by
  induction vs generalizing ps with
  | nil =>
      cases h
      cases hp
  | cons v vs ih =>
      rw [ofVariables] at h
      split at h
      · exact ih h hp
      · split at h
        · cases h
        · exact ih h hp
        · rename_i c hc
          split at h
          · cases h
          · rename_i first hfirst
            rcases hrest : ofVariables d stage vs with e | rest
            · rw [hrest] at h
              cases h
            · rw [hrest] at h
              cases h
              rcases List.mem_cons.mp hp with rfl | hp
              · rw [hc, category_ofVariable hfirst]
              · exact ih hrest hp

theorem exists_ofBlock_of_reflect {o : Options} {ts : List Token} {s : ShaderInfo}
    (h : reflect o ts = .ok s) :
    forall p, p ∈ s.params -> p.category = .block ->
      exists d q, ofBlock d = .ok q ∧ q.category = .block ∧ q.members = p.members ∧
        q.size = p.size := by
  apply forall_of_reflect (P := fun p => p.category = .block -> exists d q, ofBlock d = .ok q ∧
    q.category = .block ∧ q.members = p.members ∧ q.size = p.size) _ _ h
  · exact fun q p hq => hq
  · intro d ps p hparams hp inGlobalSet hblock
    have hcategory : p.category = .block := by
      cases inGlobalSet <;> exact hblock
    have hof : ofBlock d = .ok p := by
      unfold paramsOf at hparams
      split at hparams
      · rcases hof : ofBlock d with e | q
        · rw [hof] at hparams
          cases hparams
        · rw [hof] at hparams
          cases hparams
          rw [List.mem_singleton.mp hp]
      · exact absurd hcategory (categorize_ne_block (category_of_mem_ofVariables hparams hp))
    cases inGlobalSet <;> exact ⟨d, p, hof, hcategory, rfl, rfl⟩

theorem hasLayout_of_reflect {o : Options} {ts : List Token} {s : ShaderInfo}
    (h : reflect o ts = .ok s) :
    forall p, p ∈ s.params -> p.category = .block -> HasLayout p := by
  intro p hp hblock
  rcases exists_ofBlock_of_reflect h p hp hblock with ⟨d, q, hof, hqblock, hmembers, hsize⟩
  rcases hasLayout_of_ofBlock hof hqblock with ⟨hcounts, hplaced⟩
  rw [hmembers] at hcounts hplaced
  rw [hsize] at hplaced
  exact ⟨hcounts, hplaced⟩

end Reflect

namespace ShaderInfo

theorem alike_of_sameMembers {ms ns : List Member} (h : sameMembers ms ns = true)
    (hms : forall m, m ∈ ms -> m.isArray = false -> m.count = 1)
    (hns : forall n, n ∈ ns -> n.isArray = false -> n.count = 1) :
    List.Forall₂ Std140.Alike ms ns := by
  rw [sameMembers, Bool.and_eq_true, beq_iff_eq] at h
  rw [List.forall₂_iff_zip]
  refine ⟨h.1, ?_⟩
  intro m n hmem
  rcases List.of_mem_zip hmem with ⟨hm, hn⟩
  exact ⟨List.all_eq_true.mp h.2 (m, n) hmem, hms m hm, hns n hn⟩

theorem isRuntimeSized_of_alike {ms ns : List Member} (h : List.Forall₂ Std140.Alike ms ns) :
    Reflect.isRuntimeSized ms = Reflect.isRuntimeSized ns := by
  -- a length of zero belongs to an array
  have hzero : forall m : Member, (m.isArray = false -> m.count = 1) ->
      (m.isArray && m.count == 0) = (m.count == 0) := by
    intro m hm
    cases harray : m.isArray with
    | true => rfl
    | false =>
        rw [hm harray]
        rfl
  induction h with
  | nil => rfl
  | @cons m n ms ns hmn _ ih =>
      unfold Reflect.isRuntimeSized at ih ⊢
      rw [List.any_cons, List.any_cons, ih, hzero m hmn.first, hzero n hmn.second, hmn.type_eq.2]

/-- Two declarations of a uniform block that merge have one layout exactly if the layout is not
known before run time, or no narrow member but the last is an array in one of them only. -/
theorem merged_layout_iff {o₁ o₂ : Reflect.Options} {ts₁ ts₂ : List Token}
    {i₁ i₂ s s' : ShaderInfo} {p q : Param} (h₁ : reflect o₁ ts₁ = .ok i₁)
    (h₂ : reflect o₂ ts₂ = .ok i₂) (hp : p ∈ i₁.params) (hq : q ∈ i₂.params)
    (hblock : q.category = .block) (hfind : s.find? .block q.name = some p)
    (hadd : s.add q = .ok s') :
    (p.size = q.size ∧ p.members.map (·.offset) = q.members.map (·.offset)) ↔
      Reflect.isRuntimeSized p.members = true ∨
        forall x, x ∈ (p.members.zip q.members).dropLast -> ¬ Std140.IsApart x.1 x.2 := by
  have hpblock : p.category = .block := (isNamed_of_find? hfind).2.1
  have hsame : sameMembers p.members q.members = true := by
    rcases add_cases hadd with ⟨hnone, _⟩ | ⟨old, hold, hagrees, _⟩
    · rw [hblock, hfind] at hnone
      cases hnone
    · rw [hblock, hfind] at hold
      cases hold
      unfold agrees at hagrees
      rw [hpblock] at hagrees
      exact hagrees
  have hplayout := Reflect.hasLayout_of_reflect h₁ p hp hpblock
  have hqlayout := Reflect.hasLayout_of_reflect h₂ q hq hblock
  have halike := alike_of_sameMembers hsame hplayout.counts hqlayout.counts
  have hsized := isRuntimeSized_of_alike halike
  rcases hplayout.placed with ⟨hpsized, hpsize, hpoffsets⟩ | ⟨last, hplaid, hpsize⟩
  · rcases hqlayout.placed with ⟨hqsized, hqsize, hqoffsets⟩ | ⟨last', hqlaid, _⟩
    · refine iff_of_true ⟨hpsize.trans hqsize.symm, ?_⟩ (Or.inl hpsized)
      have hlength : p.members.length = q.members.length := halike.length_eq
      rw [List.map_eq_replicate_iff.mpr hpoffsets, List.map_eq_replicate_iff.mpr hqoffsets, hlength]
    · rw [hpsized, Std140.isRuntimeSized_of_laid hqlaid] at hsized
      cases hsized
  · rcases hqlayout.placed with ⟨hqsized, _, _⟩ | ⟨last', hqlaid, hqsize⟩
    · rw [hqsized, Std140.isRuntimeSized_of_laid hplaid] at hsized
      cases hsized
    · rw [hpsize, hqsize, Std140.laid_alike_iff hplaid hqlaid halike,
        Std140.isRuntimeSized_of_laid hplaid]
      simp

end ShaderInfo

/-!
# An array of one element

The blocks of `uniform B{float a;float b;};` and `uniform B{float a[1];float b;};` merge,
and the second member stands at different places.
-/

namespace Reflect

/-- The options of a stage without pragmas. -/
def Options.plain (stage : Stages) : Options :=
  ⟨stage, Extraction.empty, []⟩

def floatMember (name : Text) (isArray : Bool) (offset : Int64) : Member :=
  ⟨name, "float", [], 1, isArray, offset⟩

theorem reflect_floats :
    exists ts i p, tokenize "uniform B{float a;float b;};" = .ok ts ∧
      reflect (Options.plain .vertexOnly) ts = .ok i ∧ i.find? .block "B" = some p ∧
      p.size = 16 ∧ p.members = [floatMember "a" false 0, floatMember "b" false 4] := by
  have hrun : (tokenize "uniform B{float a;float b;};").toOption.bind (fun ts =>
      (reflect (Options.plain .vertexOnly) ts).toOption.bind fun i =>
        (i.find? .block "B").map fun p => (p.size, p.members)) =
      some (16, [floatMember "a" false 0, floatMember "b" false 4]) := by
    decide +kernel
  cases htokens : tokenize "uniform B{float a;float b;};" with
  | error e =>
      rw [htokens] at hrun
      cases hrun
  | ok ts =>
      cases hi : reflect (Options.plain .vertexOnly) ts with
      | error e =>
          rw [htokens] at hrun
          simp [hi, Except.toOption] at hrun
      | ok i =>
          rw [htokens] at hrun
          simp only [Except.toOption, hi, Option.bind_some, Option.map_eq_some_iff,
            Prod.mk.injEq] at hrun
          rcases hrun with ⟨p, hp, hsize, hmembers⟩
          exact ⟨ts, i, p, rfl, hi, hp, hsize, hmembers⟩

def rowBlock : Declaration :=
  ⟨.uniform, none, [], [], "B", 8, .block
    [⟨[], "float", [⟨"a", some "1", 1, 16, 20⟩], 1⟩, ⟨[], "float", [⟨"b", none, 1, 27, 28⟩], 1⟩] [],
    0, 31, 1⟩

theorem ofTokens_rowBlock :
    exists ts, tokenize "uniform B{float a[1];float b;};" = .ok ts ∧
      Declaration.ofTokens ts = .ok [rowBlock] := by
  have hrun : (tokenize "uniform B{float a[1];float b;};").toOption.bind (fun ts =>
      (Declaration.ofTokens ts).toOption) = some [rowBlock] := by
    decide +kernel
  cases htokens : tokenize "uniform B{float a[1];float b;};" with
  | error e =>
      rw [htokens] at hrun
      cases hrun
  | ok ts =>
      cases hds : Declaration.ofTokens ts with
      | error e =>
          rw [htokens] at hrun
          simp [hds, Except.toOption] at hrun
      | ok ds =>
          rw [htokens] at hrun
          simp only [Except.toOption, hds, Option.bind_some, Option.some.injEq] at hrun
          exact ⟨ts, rfl, by rw [hds, hrun]⟩

theorem arrayLength_of_parse {source : Text} {n : Int64} (hne : source.isEmpty = false)
    (hparse : Condition.parse source = .ok (.literal (.int n))) (hpos : 0 < n) (name : Text)
    (line : Nat) : arrayLength name source line = .ok (n, []) := by
  unfold arrayLength constant
  rw [hne, hparse]
  exact if_pos hpos

theorem parse_one : Condition.parse "1" = .ok (.literal (.int 1)) :=
  Condition.parse_of_print (by decide +kernel) (by decide +kernel)

theorem ofMembers_pair {type : Text} {t : GlslType} (htype : GlslType.lookup? type = some t)
    (hplain : t.isOpaque = false) {a b : Variable} {source : Text} {n : Int64}
    (ha : a.length = some source) (hb : b.length = none)
    (hlength : arrayLength a.name source a.line = .ok (n, [])) :
    ofMembers "B" .block [⟨[], type, [a], 1⟩, ⟨[], type, [b], 1⟩] =
      .ok [⟨a.name, type, [], n, true, 0⟩, ⟨b.name, type, [], 1, false, 0⟩] := by
  have hproblem : forall vs, memberProblem? "B" .block ⟨[], type, vs, 1⟩ = none := by
    intro vs
    unfold memberProblem?
    rw [htype]
    dsimp only
    rw [hplain]
    rfl
  have harray : ofMemberVariable "B" ⟨[], type, [a], 1⟩ a =
      .ok ⟨a.name, type, [], n, true, 0⟩ := by
    unfold ofMemberVariable
    rw [ha]
    dsimp only
    rw [hlength]
    rfl
  have hsingle : ofMemberVariable "B" ⟨[], type, [b], 1⟩ b =
      .ok ⟨b.name, type, [], 1, false, 0⟩ := by
    unfold ofMemberVariable
    rw [hb]
    rfl
  simp only [ofMembers, hproblem, List.mapM_cons, List.mapM_nil, harray, hsingle]
  rfl

theorem ofMembers_rowBlock :
    ofMembers "B" .block rowBlock.members =
      .ok [floatMember "a" true 0, floatMember "b" false 0] := by
  have htype : GlslType.lookup? "float" = some ⟨"float", .scalar, .float, 1, 1⟩ := rfl
  exact ofMembers_pair htype rfl rfl rfl (arrayLength_of_parse rfl parse_one (by decide) "a" 1)

theorem exists_reflect {ts : List Token} {d : Declaration} {ms placed : List Member}
    {size : Int64} (stage : Stages) (hds : Declaration.ofTokens ts = .ok [d])
    (hisBlock : d.isBlock = true) (hstorage : (d.storage == .buffer) = false)
    (hname : isBuiltinName d.type = false) (hms : ofMembers d.type .block d.members = .ok ms)
    (hlaid : Std140.layOut d.type d.line ms = .ok (placed, size)) :
    exists i p, reflect (Options.plain stage) ts = .ok i ∧ i.find? .block d.type = some p ∧
      p.size = size ∧ p.members = placed := by
  have hof : exists p, ofBlock d = .ok p ∧ p.isNamed .block d.type = true ∧ p.size = size ∧
      p.members = placed := by
    unfold ofBlock
    rw [hstorage, hname]
    simp only [Bool.false_eq_true, if_false, hms, hlaid, Bool.false_and, Bool.not_false,
      Bool.and_true, beq_self_eq_true, if_true]
    exact ⟨_, rfl, ShaderInfo.isNamed_iff.mpr ⟨rfl, rfl⟩, rfl, rfl⟩
  rcases hof with ⟨p, hof, hnamed, hsize, hmembers⟩
  have hparams : paramsOf d (Options.plain stage).stage = .ok [p] := by
    unfold paramsOf
    rw [if_pos hisBlock, hof]
    rfl
  have hreflect : reflect (Options.plain stage) ts = .ok ⟨[tag (Options.plain stage) d p]⟩ := by
    unfold reflect
    rw [hds]
    dsimp only
    rw [collect, hparams]
    rfl
  exact ⟨_, _, hreflect, List.find?_cons_of_pos hnamed, hsize, hmembers⟩

theorem reflect_row :
    exists ts i q, tokenize "uniform B{float a[1];float b;};" = .ok ts ∧
      reflect (Options.plain .fragmentOnly) ts = .ok i ∧ i.find? .block "B" = some q ∧
      q.size = 32 ∧ q.members = [floatMember "a" true 0, floatMember "b" false 16] := by
  rcases ofTokens_rowBlock with ⟨ts, htokens, hds⟩
  have hlaid : Std140.layOut "B" 1 [floatMember "a" true 0, floatMember "b" false 0] =
      .ok ([floatMember "a" true 0, floatMember "b" false 16], 32) := rfl
  rcases exists_reflect .fragmentOnly hds rfl rfl (by decide) ofMembers_rowBlock hlaid with
    ⟨i, q, hi, hq, hsize, hmembers⟩
  exact ⟨ts, i, q, htokens, hi, hq, hsize, hmembers⟩

end Reflect

namespace ShaderInfo

theorem merge_row :
    exists ts₁ ts₂ i₁ i₂ s p q, tokenize "uniform B{float a;float b;};" = .ok ts₁ ∧
      tokenize "uniform B{float a[1];float b;};" = .ok ts₂ ∧
      reflect (Reflect.Options.plain .vertexOnly) ts₁ = .ok i₁ ∧
      reflect (Reflect.Options.plain .fragmentOnly) ts₂ = .ok i₂ ∧
      i₁.find? .block "B" = some p ∧ i₂.find? .block "B" = some q ∧ i₁.add q = .ok s ∧
      p.size = 16 ∧ p.members = [Reflect.floatMember "a" false 0, Reflect.floatMember "b" false 4] ∧
      q.size = 32 ∧
      q.members = [Reflect.floatMember "a" true 0, Reflect.floatMember "b" false 16] := by
  rcases Reflect.reflect_floats with ⟨ts₁, i₁, p, htokens₁, hi₁, hp, hpsize, hpmembers⟩
  rcases Reflect.reflect_row with ⟨ts₂, i₂, q, htokens₂, hi₂, hq, hqsize, hqmembers⟩
  rcases isNamed_of_find? hp with ⟨_, hpblock, _⟩
  rcases isNamed_of_find? hq with ⟨_, hqblock, hqname⟩
  have hagrees : agrees p q = true := by
    unfold agrees
    rw [hpblock, hpmembers, hqmembers, if_pos (by decide)]
    decide
  have hadd : exists s, i₁.add q = .ok s := by
    unfold add
    rw [hqblock, hqname, hp]
    exact ⟨_, if_pos hagrees⟩
  rcases hadd with ⟨s, hadd⟩
  exact ⟨ts₁, ts₂, i₁, i₂, s, p, q, htokens₁, htokens₂, hi₁, hi₂, hp, hq, hadd, hpsize, hpmembers,
    hqsize, hqmembers⟩

/-- Blocks merge although the second member stands at different places. -/
theorem merged_layout_differs :
    exists ts₁ ts₂ i₁ i₂ s p q, tokenize "uniform B{float a;float b;};" = .ok ts₁ ∧
      tokenize "uniform B{float a[1];float b;};" = .ok ts₂ ∧
      reflect (Reflect.Options.plain .vertexOnly) ts₁ = .ok i₁ ∧
      reflect (Reflect.Options.plain .fragmentOnly) ts₂ = .ok i₂ ∧
      i₁.find? .block "B" = some p ∧ i₂.find? .block "B" = some q ∧ i₁.add q = .ok s ∧
      p.size ≠ q.size ∧ p.members.map (·.offset) ≠ q.members.map (·.offset) := by
  rcases merge_row with ⟨ts₁, ts₂, i₁, i₂, s, p, q, htokens₁, htokens₂, hi₁, hi₂, hp, hq, hadd,
    hpsize, hpmembers, hqsize, hqmembers⟩
  refine ⟨ts₁, ts₂, i₁, i₂, s, p, q, htokens₁, htokens₂, hi₁, hi₂, hp, hq, hadd, ?_, ?_⟩
  · rw [hpsize, hqsize]
    decide
  · rw [hpmembers, hqmembers]
    decide

theorem merged_layout_iff_row :
    exists ts₁ ts₂ i₁ i₂ s p q, tokenize "uniform B{float a;float b;};" = .ok ts₁ ∧
      tokenize "uniform B{float a[1];float b;};" = .ok ts₂ ∧
      reflect (Reflect.Options.plain .vertexOnly) ts₁ = .ok i₁ ∧
      reflect (Reflect.Options.plain .fragmentOnly) ts₂ = .ok i₂ ∧
      p ∈ i₁.params ∧ q ∈ i₂.params ∧ q.category = .block ∧ i₁.find? .block q.name = some p ∧
      i₁.add q = .ok s ∧
      ((p.size = q.size ∧ p.members.map (·.offset) = q.members.map (·.offset)) ↔
        Reflect.isRuntimeSized p.members = true ∨
          forall x, x ∈ (p.members.zip q.members).dropLast -> ¬ Std140.IsApart x.1 x.2) := by
  rcases merge_row with ⟨ts₁, ts₂, i₁, i₂, s, p, q, htokens₁, htokens₂, hi₁, hi₂, hp, hq, hadd, _⟩
  rcases isNamed_of_find? hq with ⟨hqmem, hqblock, hqname⟩
  have hfind : i₁.find? .block q.name = some p := by
    rw [hqname]
    exact hp
  exact ⟨ts₁, ts₂, i₁, i₂, s, p, q, htokens₁, htokens₂, hi₁, hi₂, (isNamed_of_find? hp).1, hqmem,
    hqblock, hfind, hadd,
    merged_layout_iff hi₁ hi₂ (isNamed_of_find? hp).1 hqmem hqblock hfind hadd⟩

end ShaderInfo

end EffectShader
