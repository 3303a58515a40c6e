import EffectShader.Resource.Slots
import Mathlib.Data.List.Nodup
import Mathlib.Data.List.Perm.Subperm
import Mathlib.Data.Nat.Init

/-!
# Explicit numbers

The numbers that layout qualifiers give are claimed first.  The claims are accepted if
equal numbers belong to equal names and if the numbers run from zero without gaps.
-/

namespace EffectShader

namespace Slots

/-!
## What is asked for and what is given
-/

def Space.Wants (s : Space) (ps : List Param) (n : Int) : Prop :=
  exists p, p ∈ ps ∧ s.explicit? p = some n

def Space.Uses (s : Space) (ps : List Param) (n : Int) : Prop :=
  exists p, p ∈ ps ∧ s.slot p = some n

/-- The explicit numbers of a space do not contradict each other. -/
structure Space.Consistent (s : Space) (ps : List Param) : Prop where
  coherent : forall p q n, p ∈ ps -> q ∈ ps ->
    s.explicit? p = some n -> s.explicit? q = some n -> p.name = q.name
  consecutive : exists k : Nat, forall n, s.Wants ps n ↔ 0 ≤ n ∧ n < k

@[simp]
theorem slot_assign (s : Space) (p : Param) (n : Option Int) : s.slot (s.assign p n) = n := by
  unfold Space.slot Space.assign
  split <;> rfl

@[simp]
theorem explicit?_assign (s : Space) (p : Param) (n : Option Int) :
    s.explicit? (s.assign p n) = s.explicit? p := by
  unfold Space.explicit? Space.assign
  split <;> rfl

@[simp]
theorem name_assign (s : Space) (p : Param) (n : Option Int) : (s.assign p n).name = p.name := by
  unfold Space.assign
  split <;> rfl

theorem assign_assign (s : Space) (p : Param) (n m : Option Int) :
    s.assign (s.assign p n) m = s.assign p m := by
  unfold Space.assign
  split <;> rfl

theorem assign_slot (s : Space) (p : Param) : s.assign p (s.slot p) = p := by
  unfold Space.assign Space.slot
  split <;> rfl

/-!
## Claims
-/

theorem owner?_cons (c : Claims) (n m : Int) (p : Param) :
    Claims.owner? ((n, p) :: c) m = if n = m then some p else c.owner? m := by
  unfold Claims.owner?
  rw [List.find?_cons]
  by_cases h : n = m
  · rw [if_pos h, beq_iff_eq.mpr h]
    rfl
  · rw [if_neg h, beq_eq_false_iff_ne.mpr h]

theorem mem_of_owner? {c : Claims} {n : Int} {p : Param} (h : c.owner? n = some p) :
    (n, p) ∈ c := by
  unfold Claims.owner? at h
  rcases Option.map_eq_some_iff.mp h with ⟨⟨m, q⟩, hfind, rfl⟩
  have hm : m = n := by
    simpa using List.find?_some hfind
  rw [← hm]
  exact List.mem_of_find?_eq_some hfind

theorem owner?_of_mem {c : Claims} {n : Int} {p : Param} (h : (n, p) ∈ c) :
    exists q, c.owner? n = some q := by
  unfold Claims.owner?
  cases hfind : c.find? fun entry => entry.1 == n with
  | none =>
      have := List.find?_eq_none.mp hfind (n, p) h
      simp at this
  | some entry => exact ⟨entry.2, rfl⟩

def Claims.Coherent (c : Claims) : Prop :=
  forall n p q, (n, p) ∈ c -> (n, q) ∈ c -> p.name = q.name

theorem coherent_cons {c : Claims} {n : Int} {p : Param} (hc : c.Coherent)
    (hp : forall q, (n, q) ∈ c -> q.name = p.name) : Claims.Coherent ((n, p) :: c) := by
  intro m q r hq hr
  rcases List.mem_cons.mp hq with hq | hq
  · cases hq
    rcases List.mem_cons.mp hr with hr | hr
    · cases hr
      rfl
    · exact (hp r hr).symm
  · rcases List.mem_cons.mp hr with hr | hr
    · cases hr
      exact hp q hq
    · exact hc m q r hq hr

/-- The claims of the layout qualifiers, the latest first. -/
def entries (s : Space) (claims : Claims) : List Param -> Claims
  | [] => claims
  | p :: ps =>
      match s.explicit? p with
      | none => entries s claims ps
      | some n => entries s ((n, p) :: claims) ps

theorem mem_entries {s : Space} {claims : Claims} {ps : List Param} {n : Int} {p : Param} :
    (n, p) ∈ entries s claims ps ↔ (n, p) ∈ claims ∨ (p ∈ ps ∧ s.explicit? p = some n) := by
  induction ps generalizing claims with
  | nil => simp [entries]
  | cons q ps ih =>
      rw [entries]
      cases hq : s.explicit? q with
      | none =>
          rw [ih, List.mem_cons]
          constructor
          · rintro (h | ⟨h, hn⟩)
            · exact Or.inl h
            · exact Or.inr ⟨Or.inr h, hn⟩
          · rintro (h | ⟨rfl | h, hn⟩)
            · exact Or.inl h
            · rw [hq] at hn
              cases hn
            · exact Or.inr ⟨h, hn⟩
      | some m =>
          dsimp only
          rw [ih, List.mem_cons, List.mem_cons]
          constructor
          · rintro ((h | h) | ⟨h, hn⟩)
            · cases h
              exact Or.inr ⟨Or.inl rfl, hq⟩
            · exact Or.inl h
            · exact Or.inr ⟨Or.inr h, hn⟩
          · rintro (h | ⟨rfl | h, hn⟩)
            · exact Or.inl (Or.inr h)
            · rw [hq] at hn
              cases hn
              exact Or.inl (Or.inl rfl)
            · exact Or.inr ⟨h, hn⟩

theorem claim_eq (s : Space) {claims : Claims} (hc : claims.Coherent) (ps : List Param) :
    ((claim s claims ps).1.failure = none ↔ (entries s claims ps).Coherent) ∧
      ((claim s claims ps).1.failure = none ->
        (claim s claims ps).1.params = ps.map (fun p => s.assign p (s.explicit? p)) ∧
          (claim s claims ps).2 = entries s claims ps) := by
  induction ps generalizing claims with
  | nil =>
      constructor
      · exact ⟨fun _ => hc, fun _ => rfl⟩
      · intro _
        exact ⟨rfl, rfl⟩
  | cons p ps ih =>
      rw [claim, entries]
      cases hp : s.explicit? p with
      | none =>
          rcases ih hc with ⟨hiff, heq⟩
          refine ⟨hiff, fun h => ?_⟩
          rcases heq h with ⟨hparams, hclaims⟩
          refine ⟨?_, hclaims⟩
          rw [List.map_cons, hp, ← hparams]
      | some n =>
          dsimp only
          cases howner : claims.owner? n with
          | none =>
              have hnew : Claims.Coherent ((n, p) :: claims) := by
                apply coherent_cons hc
                intro q hq
                rcases owner?_of_mem hq with ⟨o, ho⟩
                rw [howner] at ho
                cases ho
              rcases ih hnew with ⟨hiff, heq⟩
              refine ⟨hiff, fun h => ?_⟩
              rcases heq h with ⟨hparams, hclaims⟩
              refine ⟨?_, hclaims⟩
              rw [List.map_cons, hp, ← hparams]
          | some other =>
              dsimp only
              have hother := mem_of_owner? howner
              by_cases hname : other.name = p.name
              · rw [if_pos (beq_iff_eq.mpr hname)]
                have hnew : Claims.Coherent ((n, p) :: claims) := by
                  apply coherent_cons hc
                  intro q hq
                  rw [← hname]
                  exact hc n q other hq hother
                rcases ih hnew with ⟨hiff, heq⟩
                refine ⟨hiff, fun h => ?_⟩
                rcases heq h with ⟨hparams, hclaims⟩
                refine ⟨?_, hclaims⟩
                rw [List.map_cons, hp, ← hparams]
              · rw [if_neg (by simpa using hname)]
                constructor
                · constructor
                  · intro h
                    cases h
                  · intro h
                    apply absurd _ hname
                    apply h n other p
                    · exact mem_entries.mpr (Or.inl (List.mem_cons_of_mem _ hother))
                    · exact mem_entries.mpr (Or.inl List.mem_cons_self)
                · intro h
                  cases h

/-!
## Numbers in a row
-/

theorem misplaced?_mem {i n : Int} {ns : List Int} (h : misplaced? i ns = some n) : n ∈ ns := by
  induction ns generalizing i with
  | nil => cases h
  | cons m ns ih =>
      rw [misplaced?] at h
      split at h
      · exact List.mem_cons_of_mem m (ih h)
      · cases h
        exact List.mem_cons_self

theorem mem_iff_of_misplaced? {i : Int} {ns : List Int} (h : misplaced? i ns = none) (n : Int) :
    n ∈ ns ↔ i ≤ n ∧ n < i + ns.length := by
  induction ns generalizing i with
  | nil =>
      constructor
      · intro hn
        cases hn
      · rintro ⟨hle, hlt⟩
        simp at hlt
        omega
  | cons m ns ih =>
      rw [misplaced?] at h
      split at h
      · rename_i hm
        have hm : m = i := by
          simpa using hm
        rw [List.mem_cons, ih h, List.length_cons, hm]
        omega
      · cases h

theorem misplaced?_of_interval {i : Int} {ns : List Int} {k : Nat} (hs : ns.Pairwise (· < ·))
    (h : forall n, n ∈ ns ↔ i ≤ n ∧ n < i + k) : misplaced? i ns = none := by
  induction ns generalizing i k with
  | nil => rfl
  | cons m ns ih =>
      rcases List.pairwise_cons.mp hs with ⟨hleast, hs⟩
      have hm := (h m).mp List.mem_cons_self
      have hi : i ∈ m :: ns := (h i).mpr (by omega)
      have hmi : m = i := by
        rcases List.mem_cons.mp hi with hi | hi
        · exact hi.symm
        · have := hleast i hi
          omega
      rw [misplaced?, if_pos (by simpa using hmi)]
      apply @ih (i + 1) (k - 1) hs
      intro n
      constructor
      · intro hn
        have hbounds := (h n).mp (List.mem_cons_of_mem m hn)
        have := hleast n hn
        omega
      · intro hn
        rcases List.mem_cons.mp ((h n).mpr (by omega)) with hn' | hn'
        · omega
        · exact hn'

theorem mem_claimed {c : Claims} {n : Int} : n ∈ claimed c ↔ exists p, (n, p) ∈ c := by
  unfold claimed
  rw [List.mem_mergeSort, List.mem_eraseDups, List.mem_map]
  constructor
  · rintro ⟨⟨m, p⟩, hmem, rfl⟩
    exact ⟨p, hmem⟩
  · rintro ⟨p, hmem⟩
    exact ⟨(n, p), hmem, rfl⟩

theorem nodup_eraseDups (ns : List Int) : ns.eraseDups.Nodup := by
  induction h : ns.length using Nat.strong_induction_on generalizing ns with
  | _ k ih =>
      cases ns with
      | nil => simp
      | cons n ns =>
          rw [List.eraseDups_cons, List.nodup_cons]
          constructor
          · simp
          · apply ih _ _ _ rfl
            rw [← h, List.length_cons]
            exact Nat.lt_succ_of_le (List.length_filter_le _ _)

theorem claimed_increasing (c : Claims) : (claimed c).Pairwise (· < ·) := by
  have hsorted : (claimed c).Pairwise fun a b => decide (a ≤ b) = true := by
    apply List.pairwise_mergeSort
    · intro a b d hab hbd
      simp only [decide_eq_true_eq] at *
      omega
    · intro a b
      simp only [Bool.or_eq_true, decide_eq_true_eq]
      omega
  have hnodup : (claimed c).Nodup :=
    List.nodup_mergeSort.mpr (nodup_eraseDups _)
  apply (hsorted.and hnodup).imp
  rintro a b ⟨hle, hne⟩
  have hle : a ≤ b := of_decide_eq_true hle
  omega

theorem consistent_iff {s : Space} {ps : List Param} :
    s.Consistent ps ↔
      (entries s [] ps).Coherent ∧ misplaced? 0 (claimed (entries s [] ps)) = none := by
  have hentry : forall n p, (n, p) ∈ entries s [] ps ↔ p ∈ ps ∧ s.explicit? p = some n := by
    intro n p
    rw [mem_entries]
    simp
  have hwants : forall n, s.Wants ps n ↔ n ∈ claimed (entries s [] ps) := by
    intro n
    rw [mem_claimed]
    exact exists_congr fun p => (hentry n p).symm
  constructor
  · intro h
    constructor
    · intro n p q hp hq
      rcases (hentry n p).mp hp with ⟨hp, hn⟩
      rcases (hentry n q).mp hq with ⟨hq, hm⟩
      exact h.coherent p q n hp hq hn hm
    · rcases h.consecutive with ⟨k, hk⟩
      apply misplaced?_of_interval (k := k) (claimed_increasing _)
      intro n
      rw [← hwants, hk, Int.zero_add]
  · rintro ⟨hcoherent, hplace⟩
    constructor
    case coherent =>
      intro p q n hp hq hn hm
      exact hcoherent n p q ((hentry n p).mpr ⟨hp, hn⟩) ((hentry n q).mpr ⟨hq, hm⟩)
    case consecutive =>
      refine ⟨(claimed (entries s [] ps)).length, fun n => ?_⟩
      rw [hwants, mem_iff_of_misplaced? hplace, Int.zero_add]

theorem coherent_nil : Claims.Coherent [] := by
  intro n p q hp
  cases hp

/-!
# Numbers for the other resources

The resources without an explicit number take theirs one after the other, by the order
of declarations or from the next free number on.  One invariant holds before every such
step: the claims are exactly the numbers in use, each by one name, and all numbers below
the next one are claimed.
-/

/-!
## The next free number
-/

theorem length_le_of_uses {s : Space} {ps : List Param} {k : Nat}
    (h : forall n : Int, 0 ≤ n -> n < k -> s.Uses ps n) : k ≤ (ps.filterMap s.slot).length := by
  have hnodup : ((List.range k).map fun i : Nat => (i : Int)).Nodup :=
    List.nodup_range.map fun _ _ heq => Int.ofNat.inj heq
  have hsub : ((List.range k).map fun i : Nat => (i : Int)) ⊆ ps.filterMap s.slot := by
    intro n hn
    rcases List.mem_map.mp hn with ⟨i, hi, rfl⟩
    rcases h i (by omega) (by have := List.mem_range.mp hi; omega) with ⟨p, hp, hslot⟩
    exact List.mem_filterMap.mpr ⟨p, hp, hslot⟩
  have hle := (hnodup.subperm hsub).length_le
  rwa [List.length_map, List.length_range] at hle

theorem slots_lt_of_none {s : Space} {ps : List Param} {p : Param} (hp : p ∈ ps)
    (hslot : s.slot p = none) : (ps.filterMap s.slot).length < ps.length := by
  apply Nat.lt_of_le_of_ne (List.length_filterMap_le _ _)
  intro heq
  have := List.filterMap_length_eq_length.mp heq p hp
  rw [hslot] at this
  cases this

theorem firstFree_spec (claims : Claims) (tries : Nat) (next : Int) :
    next ≤ firstFree claims tries next ∧
      (forall n, next ≤ n -> n < firstFree claims tries next ->
        exists o, claims.owner? n = some o) ∧
      (claims.owner? (firstFree claims tries next) = none ∨
        firstFree claims tries next = next + tries) := by
  induction tries generalizing next with
  | zero =>
      refine ⟨Int.le_refl next, ?_, Or.inr (by simp [firstFree])⟩
      intro n hle hlt
      rw [firstFree] at hlt
      omega
  | succ tries ih =>
      rw [firstFree]
      cases howner : claims.owner? next with
      | none =>
          refine ⟨Int.le_refl next, ?_, Or.inl howner⟩
          intro n hle hlt
          simp at hlt
          omega
      | some o =>
          rw [if_pos Option.isSome_some]
          rcases ih (next + 1) with ⟨hle, hbelow, hend⟩
          refine ⟨by omega, ?_, ?_⟩
          · intro n hn hlt
            by_cases heq : n = next
            · exact ⟨o, heq ▸ howner⟩
            · exact hbelow n (by omega) hlt
          · rcases hend with hend | hend
            · exact Or.inl hend
            · right
              rw [hend]
              omega

theorem firstFree_free (claims : Claims) (next : Int) :
    claims.owner? (firstFree claims (claims.length + 1) next) = none := by
  rcases firstFree_spec claims (claims.length + 1) next with ⟨_, hbelow, hend⟩
  rcases hend with hend | hend
  · exact hend
  · -- Otherwise the numbers passed are one more than the claims.
    have hnodup : ((List.range (claims.length + 1)).map fun i : Nat => next + (i : Int)).Nodup :=
      List.nodup_range.map fun _ _ heq => Int.ofNat.inj (Int.add_left_cancel heq)
    have hsub : ((List.range (claims.length + 1)).map fun i : Nat => next + (i : Int)) ⊆
        claims.map (·.1) := by
      intro n hn
      rcases List.mem_map.mp hn with ⟨i, hi, rfl⟩
      have hi := List.mem_range.mp hi
      rcases hbelow (next + i) (by omega) (by rw [hend]; omega) with ⟨o, ho⟩
      exact List.mem_map.mpr ⟨(next + i, o), mem_of_owner? ho, rfl⟩
    have hle := (hnodup.subperm hsub).length_le
    rw [List.length_map, List.length_map, List.length_range] at hle
    omega

/-!
## One step of filling
-/

structure Filling (s : Space) (claims : Claims) (next : Int) (ps : List Param) : Prop where
  nonneg : forall p n, p ∈ ps -> s.slot p = some n -> 0 ≤ n
  kept : forall p n, p ∈ ps -> s.explicit? p = some n -> s.slot p = some n
  used : forall n o, claims.owner? n = some o -> s.Uses ps n
  owned : forall p n, p ∈ ps -> s.slot p = some n ->
    exists o, claims.owner? n = some o ∧ o.name = p.name
  start : 0 ≤ next
  below : forall n, 0 ≤ n -> n < next -> exists o, claims.owner? n = some o
  above : s.byIndex = false -> forall n o, claims.owner? n = some o -> n < next
  bounded : forall n o, claims.owner? n = some o -> n < ps.length

namespace Filling

variable {s : Space} {claims : Claims} {next n : Int} {before after : List Param} {p : Param}

theorem take (h : Filling s claims next (before ++ p :: after)) (hp : s.slot p = none)
    (hn : 0 ≤ n) (hfree : claims.owner? n = none) {next' : Int} (hle : next ≤ next')
    (hbelow : forall m, next ≤ m -> m < next' -> m = n ∨ exists o, claims.owner? m = some o)
    (habove : s.byIndex = false -> n < next')
    (hbound : n < (before ++ p :: after).length) :
    Filling s ((n, s.assign p (some n)) :: claims) next'
      (before ++ s.assign p (some n) :: after) := by
  have hsplit : forall q, q ∈ before ++ s.assign p (some n) :: after ->
      q = s.assign p (some n) ∨ q ∈ before ++ p :: after := by
    intro q hq
    simp only [List.mem_append, List.mem_cons] at hq ⊢
    tauto
  constructor
  case nonneg =>
    intro q m hq hslot
    rcases hsplit q hq with rfl | hq
    · rw [slot_assign] at hslot
      cases hslot
      exact hn
    · exact h.nonneg q m hq hslot
  case kept =>
    intro q m hq hexplicit
    rcases hsplit q hq with rfl | hq
    · rw [explicit?_assign] at hexplicit
      have := h.kept p m (by simp) hexplicit
      rw [hp] at this
      cases this
    · exact h.kept q m hq hexplicit
  case used =>
    intro m o howner
    rw [owner?_cons] at howner
    split at howner
    · rename_i hm
      exact ⟨s.assign p (some n), by simp, by rw [slot_assign, hm]⟩
    · rcases h.used m o howner with ⟨q, hq, hslot⟩
      refine ⟨q, ?_, hslot⟩
      simp only [List.mem_append, List.mem_cons] at hq ⊢
      rcases hq with hq | rfl | hq
      · exact Or.inl hq
      · rw [hp] at hslot
        cases hslot
      · exact Or.inr (Or.inr hq)
  case owned =>
    intro q m hq hslot
    rw [owner?_cons]
    rcases hsplit q hq with rfl | hq
    · rw [slot_assign] at hslot
      rw [if_pos (Option.some.inj hslot)]
      exact ⟨_, rfl, rfl⟩
    · rcases h.owned q m hq hslot with ⟨o, howner, hname⟩
      have hne : n ≠ m := by
        rintro rfl
        rw [hfree] at howner
        cases howner
      rw [if_neg hne]
      exact ⟨o, howner, hname⟩
  case start => exact Int.le_trans h.start hle
  case below =>
    intro m hm hlt
    rw [owner?_cons]
    split
    · exact ⟨_, rfl⟩
    · rename_i hne
      by_cases hlow : m < next
      · exact h.below m hm hlow
      · rcases hbelow m (by omega) hlt with heq | howner
        · exact absurd heq.symm hne
        · exact howner
  case above =>
    intro hindex m o howner
    rw [owner?_cons] at howner
    split at howner
    · rename_i hm
      exact hm ▸ habove hindex
    · exact Int.lt_of_lt_of_le (h.above hindex m o howner) hle
  case bounded =>
    intro m o howner
    rw [List.length_append, List.length_cons] at hbound ⊢
    rw [owner?_cons] at howner
    split at howner
    · rename_i hm
      exact hm ▸ hbound
    · have := h.bounded m o howner
      rwa [List.length_append, List.length_cons] at this

theorem firstFree_bound (h : Filling s claims next (before ++ p :: after)) (hp : s.slot p = none) :
    firstFree claims (claims.length + 1) next < (before ++ p :: after).length := by
  rcases firstFree_spec claims (claims.length + 1) next with ⟨hle, hbelow, _⟩
  have hstart := h.start
  have huses : forall m : Int, 0 ≤ m ->
      m < ((firstFree claims (claims.length + 1) next).toNat : Int) ->
      s.Uses (before ++ p :: after) m := by
    intro m hm hlt
    have howner : exists o, claims.owner? m = some o := by
      by_cases hlow : m < next
      · exact h.below m hm hlow
      · exact hbelow m (by omega) (by omega)
    rcases howner with ⟨o, ho⟩
    exact h.used m o ho
  have hcount := length_le_of_uses huses
  have hmem : p ∈ before ++ p :: after := by
    simp
  have hlt := slots_lt_of_none hmem hp
  omega

theorem takeNext (h : Filling s claims next (before ++ p :: after)) (hp : s.slot p = none)
    (hn : n = firstFree claims (claims.length + 1) next) :
    Filling s ((n, s.assign p (some n)) :: claims) (n + 1)
      (before ++ s.assign p (some n) :: after) := by
  rcases firstFree_spec claims (claims.length + 1) next with ⟨hle, hbelow, _⟩
  have hstart := h.start
  rw [← hn] at hle hbelow
  apply h.take hp
  case hn => omega
  case hfree => exact hn ▸ firstFree_free claims next
  case hle => omega
  case hbelow =>
    intro m hm hlt
    by_cases heq : m = n
    · exact Or.inl heq
    · exact Or.inr (hbelow m hm (by omega))
  case habove =>
    intro _
    omega
  case hbound => exact hn ▸ h.firstFree_bound hp

/-- No resource shares the name of one that has no number yet, so a number by index is free. -/
theorem takeIndex (h : Filling s claims next (before ++ p :: after)) (hp : s.slot p = none)
    (hindex : s.byIndex = true)
    (hnames : ((before ++ p :: after).map Param.name).Nodup)
    (hn : indexSlot? s claims before p before.length = some n) :
    n = before.length ∧
      Filling s ((n, s.assign p (some n)) :: claims) next
        (before ++ s.assign p (some n) :: after) := by
  have hunique : forall q m, q ∈ before ++ p :: after -> s.slot q = some m -> q.name ≠ p.name := by
    intro q m hq hslot hname
    have heq : q = p := List.inj_on_of_nodup_map hnames hq (by simp) hname
    rw [heq, hp] at hslot
    cases hslot
  unfold indexSlot? at hn
  split at hn
  · rename_i m hearlier
    rcases List.exists_of_findSome?_eq_some hearlier with ⟨q, hq, hfound⟩
    split at hfound
    · rename_i hname
      rcases Option.filter_eq_some_iff.mp hfound with ⟨hslot, _⟩
      exact absurd (by simpa using hname)
        (hunique q m (List.mem_append_left _ hq) hslot)
    · cases hfound
  · split at hn
    · rename_i hfree
      cases hn
      refine ⟨rfl, h.take hp (by omega) hfree (Int.le_refl next) ?_ ?_ ?_⟩
      · intro m hm hlt
        omega
      · intro hnot
        rw [hindex] at hnot
        cases hnot
      · rw [List.length_append, List.length_cons]
        omega
    · rename_i o howner
      split at hn
      · rename_i hname
        rcases h.used _ o howner with ⟨q, hq, hslot⟩
        rcases h.owned q _ hq hslot with ⟨o', howner', hname'⟩
        rw [howner] at howner'
        cases howner'
        exact absurd (by rw [← hname']; simpa using hname) (hunique q _ hq hslot)
      · cases hn

end Filling

/-!
## A whole run
-/

def Space.Renumbers (s : Space) (p q : Param) : Prop :=
  exists n, q = s.assign p n

theorem Space.Renumbers.trans {s : Space} {p q r : Param} (hpq : s.Renumbers p q)
    (hqr : s.Renumbers q r) : s.Renumbers p r := by
  rcases hpq with ⟨n, rfl⟩
  rcases hqr with ⟨m, rfl⟩
  exact ⟨m, assign_assign s p n m⟩

theorem Space.Renumbers.name_eq {s : Space} {p q : Param} (h : s.Renumbers p q) :
    q.name = p.name := by
  rcases h with ⟨n, rfl⟩
  exact name_assign s p n

theorem Space.Renumbers.explicit?_eq {s : Space} {p q : Param} (h : s.Renumbers p q) :
    s.explicit? q = s.explicit? p := by
  rcases h with ⟨n, rfl⟩
  exact explicit?_assign s p n

abbrev Renumbered (s : Space) : List Param -> List Param -> Prop :=
  List.Forall₂ s.Renumbers

theorem Renumbered.trans {s : Space} {ps qs rs : List Param} (hpq : Renumbered s ps qs)
    (hqr : Renumbered s qs rs) : Renumbered s ps rs := by
  induction hpq generalizing rs with
  | nil => exact hqr
  | cons h _ ih =>
      cases hqr with
      | cons h' hrest => exact .cons (h.trans h') (ih hrest)

theorem wants_iff_of_renumbers {s : Space} {ps qs : List Param}
    (h : Renumbered s ps qs) (n : Int) : s.Wants qs n ↔ s.Wants ps n := by
  unfold Space.Wants
  induction h with
  | nil => rfl
  | cons hpq _ ih => simp only [List.mem_cons, exists_eq_or_imp, hpq.explicit?_eq, ih]

theorem names_of_renumbers {s : Space} {ps qs : List Param}
    (h : Renumbered s ps qs) : qs.map Param.name = ps.map Param.name := by
  induction h with
  | nil => rfl
  | cons hpq _ ih => rw [List.map_cons, List.map_cons, hpq.name_eq, ih]

/-- The rule for numbers by index: a resource without an explicit number has the index of its
declaration, unless one declared later asks for it or one declared earlier has it. -/
def Space.TakesIndex (s : Space) (before : List Param) (p : Param) (after : List Param) : Prop :=
  s.byIndex = true -> s.explicit? p = none -> ¬ s.Wants after before.length ->
    ¬ s.Uses before before.length -> s.slot p = some (before.length : Int)

theorem fill_step {s : Space} {claims : Claims} {next : Int} {before after : List Param} {p : Param}
    (h : Filling s claims next (before ++ p :: after))
    (hwaits : forall q, q ∈ p :: after -> s.slot q = s.explicit? q)
    (hnames : s.byIndex = true -> ((before ++ p :: after).map Param.name).Nodup) :
    exists claims' next' n, Filling s claims' next' (before ++ s.assign p (some n) :: after) ∧
      fill s claims next before (p :: after) =
        fill s claims' next' (before ++ [s.assign p (some n)]) after ∧
      s.TakesIndex before (s.assign p (some n)) after := by
  have hexplicit := hwaits p List.mem_cons_self
  rw [fill]
  cases hslot : s.slot p with
  | some n =>
      -- The number of the layout qualifier stays.
      have hn : 0 ≤ n := h.nonneg p n (by simp) hslot
      have hsame : s.assign p (some n) = p := by
        rw [← hslot, assign_slot]
      refine ⟨claims, next, n, ?_, ?_, ?_⟩
      · rw [hsame]
        exact h
      · rw [hsame, if_pos]
        simpa using hn
      · intro _ hnone
        rw [explicit?_assign, ← hexplicit, hslot] at hnone
        cases hnone
  | none =>
      rw [if_neg (by simp)]
      dsimp only
      cases hchoice : if s.byIndex then indexSlot? s claims before p before.length else none with
      | some n =>
          have hindex : s.byIndex = true := by
            by_contra hnot
            rw [if_neg hnot] at hchoice
            cases hchoice
          rw [if_pos hindex] at hchoice
          rcases h.takeIndex hslot hindex (hnames hindex) hchoice with ⟨hn, hfill⟩
          refine ⟨_, next, n, hfill, rfl, ?_⟩
          intro _ _ _ _
          rw [slot_assign, hn]
      | none =>
          refine ⟨_, _, _, h.takeNext hslot rfl, rfl, ?_⟩
          intro hindex _ hwants huses
          -- The index is held, yet neither an earlier resource nor a qualifier claims it.
          rw [if_pos hindex] at hchoice
          exfalso
          have howner : exists o, claims.owner? before.length = some o := by
            unfold indexSlot? at hchoice
            split at hchoice
            · cases hchoice
            · split at hchoice
              · cases hchoice
              · rename_i o ho
                exact ⟨o, ho⟩
          rcases howner with ⟨o, ho⟩
          rcases h.used _ o ho with ⟨q, hq, hqslot⟩
          rcases List.mem_append.mp hq with hq | hq
          · exact huses ⟨q, hq, hqslot⟩
          · rcases List.mem_cons.mp hq with rfl | hafter
            · rw [hslot] at hqslot
              cases hqslot
            · exact hwants ⟨q, hafter, by rw [← hwaits q hq, hqslot]⟩

theorem fill_spec {s : Space} {claims : Claims} {next : Int} {before ps : List Param}
    (h : Filling s claims next (before ++ ps))
    (hwaits : forall q, q ∈ ps -> s.slot q = s.explicit? q)
    (hnames : s.byIndex = true -> ((before ++ ps).map Param.name).Nodup) :
    exists qs claims' next', fill s claims next before ps = before ++ qs ∧
      Renumbered s ps qs ∧ Filling s claims' next' (before ++ qs) ∧
      (forall q, q ∈ qs -> exists n, s.slot q = some n) ∧
      (forall front q back, qs = front ++ q :: back ->
        s.TakesIndex (before ++ front) q back) := by
  induction ps generalizing claims next before with
  | nil =>
      refine ⟨[], claims, next, by rw [fill, List.append_nil], .nil, h, ?_, ?_⟩
      · intro q hq
        cases hq
      · intro front q back heq
        simp at heq
  | cons p ps ih =>
      rcases fill_step h hwaits hnames with ⟨claims₁, next₁, n, hfill, hrun, hindex⟩
      rw [List.append_cons] at hfill
      have hnames₁ : s.byIndex = true ->
          ((before ++ [s.assign p (some n)] ++ ps).map Param.name).Nodup := by
        intro hby
        have := hnames hby
        simpa using this
      rcases ih hfill (fun q hq => hwaits q (List.mem_cons_of_mem p hq)) hnames₁ with
        ⟨qs, claims₂, next₂, hout, hrenumbers, hfilled, htotal, hindexed⟩
      refine ⟨s.assign p (some n) :: qs, claims₂, next₂, ?_, ?_, ?_, ?_, ?_⟩
      · rw [hrun, hout, ← List.append_cons]
      · exact .cons ⟨some n, rfl⟩ hrenumbers
      · rw [List.append_cons]
        exact hfilled
      · intro q hq
        rcases List.mem_cons.mp hq with rfl | hq
        · exact ⟨n, slot_assign s p (some n)⟩
        · exact htotal q hq
      · intro front q back heq
        cases front with
        | nil =>
            cases heq
            intro hby hnone hwants huses
            rw [List.append_nil] at huses hwants ⊢
            apply hindex hby hnone _ huses
            rwa [← wants_iff_of_renumbers hrenumbers]
        | cons r front =>
            cases heq
            have := hindexed front q back rfl
            rwa [← List.append_cons] at this

end Slots

end EffectShader
