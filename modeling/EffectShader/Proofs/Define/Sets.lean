import EffectShader.Define.Basic
import Mathlib.Data.List.Nodup

/-!
# Sets of defines

Defines are added and removed one at a time.  Whatever was done to a set, each name
stands in it once and the index knows its place.  What a set holds under a name
depends only on the records of that name since it was last removed.
-/

namespace EffectShader

namespace DefineSet

/-!
# Places of names
-/

def names (s : DefineSet) : List Text :=
  s.list.map Define.name

def place? (ns : List Text) (name : Text) : Option Nat :=
  ns.findIdx? fun n => n == name

/-- Each name stands once, and the index gives its place. -/
structure Consistent (s : DefineSet) : Prop where
  nodup : s.names.Nodup
  indexed : forall name, s.index.get? name = place? s.names name

theorem place?_append (ns ms : List Text) (name : Text) :
    place? (ns ++ ms) name = (place? ns name).or ((place? ms name).map (· + ns.length)) :=
  List.findIdx?_append

theorem place?_cons (n : Text) (ns : List Text) (name : Text) :
    place? (n :: ns) name = if n = name then some 0 else (place? ns name).map (· + 1) := by
  unfold place?
  rw [List.findIdx?_cons]
  by_cases h : n = name <;> simp [h]

theorem place?_eq_none_iff {ns : List Text} {name : Text} :
    place? ns name = none ↔ name ∉ ns := by
  unfold place?
  rw [List.findIdx?_eq_none_iff]
  constructor
  · intro h hmem
    simpa using h name hmem
  · intro h n hn
    have hne : n ≠ name := fun heq => h (heq ▸ hn)
    simpa using hne

theorem mem_of_place? {ns : List Text} {name : Text} {i : Nat} (h : place? ns name = some i) :
    name ∈ ns := by
  apply Decidable.byContradiction
  intro hmem
  rw [place?_eq_none_iff.mpr hmem] at h
  cases h

theorem place?_eq_some_iff {ns : List Text} (h : ns.Nodup) {name : Text} {i : Nat} :
    place? ns name = some i ↔ ns[i]? = some name := by
  unfold place?
  rw [List.findIdx?_eq_some_iff_getElem]
  constructor
  · rintro ⟨hlt, hname, _⟩
    rw [List.getElem?_eq_getElem hlt, eq_of_beq hname]
  · intro hget
    rcases List.getElem?_eq_some_iff.mp hget with ⟨hlt, hname⟩
    refine ⟨hlt, by simp [hname], ?_⟩
    intro j hj hbeq
    have heq : ns[j] = ns[i] := by simpa [hname] using hbeq
    exact Nat.ne_of_lt hj ((List.Nodup.getElem_inj_iff h).mp heq)

theorem exists_split {ds : List Define} (h : (ds.map Define.name).Nodup) {name : Text} {i : Nat}
    (hplace : place? (ds.map Define.name) name = some i) :
    exists before d after, ds = before ++ d :: after ∧ before.length = i ∧ d.name = name ∧
      (forall e, e ∈ before -> e.name ≠ name) ∧ forall e, e ∈ after -> e.name ≠ name := by
  have hget := (place?_eq_some_iff h).mp hplace
  rw [List.getElem?_map, Option.map_eq_some_iff] at hget
  rcases hget with ⟨d, hd, rfl⟩
  rcases List.getElem?_eq_some_iff.mp hd with ⟨hlt, hd⟩
  have hsplit : ds = ds.take i ++ d :: ds.drop (i + 1) := by
    rw [← hd, List.getElem_cons_drop, List.take_append_drop]
  rw [hsplit, List.map_append, List.map_cons, List.nodup_append, List.nodup_cons] at h
  refine ⟨_, d, _, hsplit, by simp; omega, rfl, ?_, ?_⟩
  · intro e he
    exact h.2.2 e.name (List.mem_map_of_mem he) d.name List.mem_cons_self
  · intro e he heq
    exact h.2.1.1 (heq ▸ List.mem_map_of_mem he)

/-!
# One change

What a change does to the list can be told without the index.
-/

section Change

variable {s : DefineSet}

theorem Consistent.get?_eq (h : s.Consistent) (name : Text) :
    s.get? name = s.list.find? fun d => d.name == name := by
  unfold get?
  rw [h.indexed]
  cases hplace : place? s.names name with
  | none =>
      have hmem := place?_eq_none_iff.mp hplace
      rw [Option.bind_none, eq_comm, List.find?_eq_none]
      intro d hd
      have hne : d.name ≠ name := fun heq => hmem (heq ▸ List.mem_map_of_mem hd)
      simpa using hne
  | some i =>
      rcases exists_split h.nodup hplace with ⟨before, d, after, hlist, rfl, hname, hbefore, _⟩
      have hnone : before.find? (fun e => e.name == name) = none := by
        rw [List.find?_eq_none]
        intro e he
        simpa using hbefore e he
      rw [hlist, List.find?_append, hnone]
      simp [hname]

theorem name_updatedBy (old new : Define) : (old.updatedBy new).name = old.name := by
  unfold Define.updatedBy Define.typedBy Define.gatedBy
  split <;> split <;> (try split) <;> (try split) <;> rfl

def noting (d : Define) (e : Define) : Define :=
  if e.name = d.name then e.updatedBy d else e

theorem name_noting (d e : Define) : (noting d e).name = e.name := by
  unfold noting
  split
  · exact name_updatedBy e d
  · rfl

theorem map_noting_of_ne {d : Define} {ds : List Define}
    (h : forall e, e ∈ ds -> e.name ≠ d.name) : ds.map (noting d) = ds := by
  calc
    ds.map (noting d) = ds.map id := List.map_congr_left fun e he => if_neg (h e he)
    _ = ds := List.map_id ds

theorem names_noting (d : Define) (ds : List Define) :
    (ds.map (noting d)).map Define.name = ds.map Define.name := by
  rw [List.map_map]
  exact List.map_congr_left fun e _ => name_noting d e

theorem modify_append_cons (f : Define -> Define) (before : List Define) (d : Define)
    (after : List Define) :
    (before ++ d :: after).modify before.length f = before ++ f d :: after :=
  List.modifyTailIdx_add (List.modifyHead f) 0 before (d :: after)

/-- The list after a record of a define: an old define is updated where it stands, a new one goes to
the end. -/
theorem Consistent.list_add (h : s.Consistent) (d : Define) :
    (s.add d).list =
      if d.name ∈ s.names then s.list.map (noting d) else s.list ++ [d] := by
  unfold add
  split
  · rename_i hplace
    rw [h.indexed] at hplace
    rw [if_neg (place?_eq_none_iff.mp hplace)]
  · rename_i i hplace
    rw [h.indexed] at hplace
    rcases exists_split h.nodup hplace with ⟨before, e, after, hlist, rfl, hname, hbefore, hafter⟩
    rw [if_pos (mem_of_place? hplace)]
    dsimp only
    rw [hlist, modify_append_cons, List.map_append, List.map_cons, map_noting_of_ne hbefore,
      map_noting_of_ne hafter]
    unfold noting
    rw [if_pos hname]

theorem Consistent.names_add (h : s.Consistent) (d : Define) :
    (s.add d).names = if d.name ∈ s.names then s.names else s.names ++ [d.name] := by
  unfold names
  rw [h.list_add]
  change _ = if d.name ∈ s.names then _ else _
  split
  · exact names_noting d s.list
  · rw [List.map_append, List.map_singleton]

theorem Consistent.index_add (h : s.Consistent) (d : Define) :
    (s.add d).index =
      if d.name ∈ s.names then s.index else s.index.put d.name s.list.length := by
  unfold add
  split
  · rename_i hplace
    rw [h.indexed] at hplace
    rw [if_neg (place?_eq_none_iff.mp hplace)]
  · rename_i i hplace
    rw [h.indexed] at hplace
    rw [if_pos (mem_of_place? hplace)]

theorem Consistent.add (h : s.Consistent) (d : Define) : (s.add d).Consistent := by
  by_cases hmem : d.name ∈ s.names
  · constructor
    · rw [h.names_add, if_pos hmem]
      exact h.nodup
    · intro name
      rw [h.names_add, h.index_add, if_pos hmem, if_pos hmem]
      exact h.indexed name
  · constructor
    · rw [h.names_add, if_neg hmem, List.nodup_append]
      refine ⟨h.nodup, List.nodup_singleton _, ?_⟩
      intro n hn m hm heq
      rw [List.mem_singleton.mp hm] at heq
      exact hmem (heq ▸ hn)
    · intro name
      rw [h.names_add, h.index_add, if_neg hmem, if_neg hmem, place?_append, place?_cons]
      by_cases hname : d.name = name
      · rw [← hname, Table.get?_put_self, place?_eq_none_iff.mpr hmem]
        simp [names]
      · rw [Table.get?_put_of_ne _ _ hname, h.indexed, if_neg hname]
        simp [place?]

theorem Consistent.exists_remove (h : s.Consistent) {name : Text} (hmem : name ∈ s.names) :
    exists before d after, s.list = before ++ d :: after ∧ d.name = name ∧
      (forall e, e ∈ before -> e.name ≠ name) ∧ (forall e, e ∈ after -> e.name ≠ name) ∧
      s.remove name =
        ⟨before ++ after, renumber (s.index.erase name) before.length after⟩ := by
  cases hplace : place? s.names name with
  | none => exact absurd hmem (place?_eq_none_iff.mp hplace)
  | some i =>
      rcases exists_split h.nodup hplace with ⟨before, d, after, hlist, rfl, hname, hbefore, hafter⟩
      refine ⟨before, d, after, hlist, hname, hbefore, hafter, ?_⟩
      unfold remove
      rw [h.indexed, hplace]
      dsimp only
      rw [hlist, List.eraseIdx_append_of_length_le (Nat.le_refl _)]
      simp

theorem Consistent.remove_of_not_mem (h : s.Consistent) {name : Text} (hmem : name ∉ s.names) :
    s.remove name = s := by
  unfold remove
  rw [h.indexed, place?_eq_none_iff.mpr hmem]

theorem Consistent.list_remove (h : s.Consistent) (name : Text) :
    (s.remove name).list = s.list.filter fun d => d.name != name := by
  have hkeep {ds : List Define} (hds : forall e, e ∈ ds -> e.name ≠ name) :
      ds.filter (fun d => d.name != name) = ds := by
    rw [List.filter_eq_self]
    intro e he
    simpa using hds e he
  by_cases hmem : name ∈ s.names
  · rcases h.exists_remove hmem with ⟨before, d, after, hlist, hname, hbefore, hafter, hremove⟩
    rw [hremove, hlist, List.filter_append, List.filter_cons_of_neg (by simp [hname]),
      hkeep hbefore, hkeep hafter]
  · rw [h.remove_of_not_mem hmem, hkeep]
    intro e he heq
    exact hmem (heq ▸ List.mem_map_of_mem he)

theorem Consistent.names_remove (h : s.Consistent) (name : Text) :
    (s.remove name).names = s.names.filter fun n => n != name := by
  unfold names
  rw [h.list_remove, List.filter_map]
  rfl

theorem get?_renumber {ds : List Define} (h : (ds.map Define.name).Nodup) (index : Table Nat)
    (i : Nat) (name : Text) :
    (renumber index i ds).get? name =
      ((place? (ds.map Define.name) name).map (· + i)).or (index.get? name) := by
  induction ds generalizing index i with
  | nil => rfl
  | cons d ds ih =>
      rw [List.map_cons, List.nodup_cons] at h
      rw [renumber, ih h.2, List.map_cons, place?_cons]
      by_cases hname : d.name = name
      · rw [if_pos hname, ← hname, place?_eq_none_iff.mpr h.1, Table.get?_put_self]
        simp
      · rw [if_neg hname, Table.get?_put_of_ne _ _ hname, Option.map_map]
        congr 2
        funext k
        rw [Function.comp_apply]
        omega

theorem Consistent.remove (h : s.Consistent) (name : Text) : (s.remove name).Consistent := by
  by_cases hmem : name ∈ s.names
  · constructor
    · rw [h.names_remove]
      exact h.nodup.filter _
    · intro n
      rcases h.exists_remove hmem with ⟨before, d, after, hlist, hname, hbefore, hafter, hremove⟩
      have hnodup : (before.map Define.name ++ name :: after.map Define.name).Nodup := by
        have := h.nodup
        unfold names at this
        rwa [hlist, List.map_append, List.map_cons, hname] at this
      have hindex : s.index.get? n =
          place? (before.map Define.name ++ name :: after.map Define.name) n := by
        rw [h.indexed, names, hlist, List.map_append, List.map_cons, hname]
      rw [List.nodup_append, List.nodup_cons] at hnodup
      rw [hremove, get?_renumber hnodup.2.1.2, Table.get?_erase, hindex]
      change _ = place? ((before ++ after).map Define.name) n
      rw [List.map_append, place?_append, place?_append, place?_cons, List.length_map]
      by_cases hn : n = name
      · have hbefore' : n ∉ before.map Define.name := by
          intro hmem
          rcases List.mem_map.mp hmem with ⟨e, he, heq⟩
          exact hbefore e he (heq.trans hn)
        rw [if_pos hn, place?_eq_none_iff.mpr hbefore', Option.or_none, Option.none_or]
      · rw [if_neg hn, if_neg (Ne.symm hn)]
        cases hafter' : place? (after.map Define.name) n with
        | none => simp
        | some k =>
            have hbefore' : n ∉ before.map Define.name := by
              intro hmem
              exact hnodup.2.2 n hmem n (List.mem_cons_of_mem _ (mem_of_place? hafter')) rfl
            rw [place?_eq_none_iff.mpr hbefore']
            simp
  · rw [h.remove_of_not_mem hmem]
    exact h

/-!
# What stands under a name
-/

theorem Consistent.get?_add (h : s.Consistent) (d : Define) (name : Text) :
    (s.add d).get? name =
      if d.name = name then some ((s.get? name).elim d fun old => old.updatedBy d)
      else s.get? name := by
  rw [(h.add d).get?_eq, h.get?_eq, h.list_add]
  by_cases hmem : d.name ∈ s.names
  · rw [if_pos hmem, List.find?_map]
    have hsame : (fun e : Define => e.name == name) ∘ noting d = fun e => e.name == name := by
      funext e
      rw [Function.comp_apply, name_noting]
    rw [hsame]
    cases hfind : s.list.find? (fun e => e.name == name) with
    | none =>
        have hne : d.name ≠ name := by
          intro heq
          rcases List.mem_map.mp hmem with ⟨e, he, hname⟩
          simpa [hname, heq] using List.find?_eq_none.mp hfind e he
        rw [if_neg hne]
        rfl
    | some e =>
        have hname : e.name = name := by simpa using List.find?_some hfind
        rw [Option.map_some, Option.elim_some]
        unfold noting
        rw [hname]
        by_cases heq : d.name = name
        · rw [if_pos heq, if_pos heq.symm]
        · rw [if_neg heq, if_neg (Ne.symm heq)]
  · rw [if_neg hmem, List.find?_append]
    by_cases heq : d.name = name
    · have hnone : s.list.find? (fun e => e.name == name) = none := by
        rw [List.find?_eq_none]
        intro e he
        have hne : e.name ≠ name := fun hname =>
          hmem (heq.trans hname.symm ▸ List.mem_map_of_mem he)
        simpa using hne
      rw [hnone, if_pos heq]
      simp [heq]
    · simp [heq]

theorem Consistent.get?_remove (h : s.Consistent) (removed name : Text) :
    (s.remove removed).get? name = if removed = name then none else s.get? name := by
  rw [(h.remove removed).get?_eq, h.get?_eq, h.list_remove, List.find?_filter]
  by_cases heq : removed = name
  · rw [if_pos heq, List.find?_eq_none]
    intro d _
    simp [heq]
  · rw [if_neg heq]
    congr 1
    funext d
    by_cases hname : d.name = name
    · simp [hname, Ne.symm heq]
    · simp [hname]

end Change

/-!
# Sequences of changes
-/

inductive Change where
  | add (d : Define)
  | remove (name : Text)

def apply (s : DefineSet) : Change -> DefineSet
  | .add d => s.add d
  | .remove name => s.remove name

def applyAll (s : DefineSet) (cs : List Change) : DefineSet :=
  cs.foldl apply s

theorem consistent_empty : empty.Consistent :=
  ⟨List.nodup_nil, fun _ => rfl⟩

theorem Consistent.apply {s : DefineSet} (h : s.Consistent) (c : Change) :
    (s.apply c).Consistent := by
  cases c with
  | add d => exact h.add d
  | remove name => exact h.remove name

theorem Consistent.applyAll {s : DefineSet} (h : s.Consistent) (cs : List Change) :
    (s.applyAll cs).Consistent := by
  induction cs generalizing s with
  | nil => exact h
  | cons c cs ih => exact ih (h.apply c)

/-!
# The order of names
-/

namespace Change

/-- The names of the records that are added, in their order. -/
def added (cs : List Change) : List Text :=
  cs.filterMap fun c =>
    match c with
    | .add d => some d.name
    | .remove _ => none

def removed (cs : List Change) : List Text :=
  cs.filterMap fun c =>
    match c with
    | .add _ => none
    | .remove name => some name

/-- The records of a name since it was last removed, after those from before. -/
def recordsFrom (rs : List Define) (name : Text) : List Change -> List Define
  | [] => rs
  | .add d :: cs => recordsFrom (if d.name = name then rs ++ [d] else rs) name cs
  | .remove n :: cs => recordsFrom (if n = name then [] else rs) name cs

/-- The records of a name since it was last removed. -/
def records (name : Text) (cs : List Change) : List Define :=
  recordsFrom [] name cs

end Change

theorem eraseDups_concat (ns : List Text) (n : Text) :
    (ns ++ [n]).eraseDups = if n ∈ ns then ns.eraseDups else ns.eraseDups ++ [n] := by
  rw [List.eraseDups_append]
  by_cases h : n ∈ ns <;> simp [List.removeAll, h, List.eraseDups_cons]

/-- Names that are never removed stand in the order in which they were first added. -/
theorem Consistent.names_applyAll {s : DefineSet} (h : s.Consistent) {keep : Text -> Bool}
    {seen : List Text} {cs : List Change} (hseen : s.names.filter keep = seen.eraseDups.filter keep)
    (hkeep : forall n, n ∈ Change.removed cs -> keep n = false) :
    (s.applyAll cs).names.filter keep = (seen ++ Change.added cs).eraseDups.filter keep := by
  induction cs generalizing s seen with
  | nil =>
      rw [Change.added, List.filterMap_nil, List.append_nil]
      exact hseen
  | cons c cs ih =>
      cases c with
      | add d =>
          have hadded : seen ++ Change.added (.add d :: cs) =
              seen ++ [d.name] ++ Change.added cs := by
            rw [List.append_assoc]
            rfl
          rw [hadded]
          apply ih (h.add d) _ hkeep
          have hiff : keep d.name = true -> (d.name ∈ s.names ↔ d.name ∈ seen) := by
            intro hd
            have hmem : d.name ∈ s.names.filter keep ↔ d.name ∈ seen.eraseDups.filter keep := by
              rw [hseen]
            simpa [hd] using hmem
          rw [h.names_add, eraseDups_concat]
          cases hd : keep d.name with
          | false =>
              split <;> split <;> simp [hd, hseen]
          | true =>
              by_cases hmem : d.name ∈ seen
              · rw [if_pos ((hiff hd).mpr hmem), if_pos hmem, hseen]
              · rw [if_neg (mt (hiff hd).mp hmem), if_neg hmem, List.filter_append,
                  List.filter_append, hseen]
      | remove name =>
          have hname : keep name = false := hkeep name List.mem_cons_self
          apply ih (h.remove name) _ fun n hn => hkeep n (List.mem_cons_of_mem name hn)
          rw [h.names_remove, List.filter_filter, ← hseen]
          apply List.filter_congr
          intro n _
          by_cases hn : n = name <;> simp [hn, hname]

/-!
# Records of a name
-/

def summary : List Define -> Option Define
  | [] => none
  | r :: rs => some (rs.foldl Define.updatedBy r)

theorem summary_concat (rs : List Define) (d : Define) :
    summary (rs ++ [d]) = some ((summary rs).elim d fun old => old.updatedBy d) := by
  cases rs with
  | nil => rfl
  | cons r rs =>
      rw [List.cons_append, summary, List.foldl_append]
      rfl

theorem Consistent.get?_applyAll {s : DefineSet} (h : s.Consistent) {rs : List Define} {name : Text}
    (hrs : s.get? name = summary rs) (cs : List Change) :
    (s.applyAll cs).get? name = summary (Change.recordsFrom rs name cs) := by
  induction cs generalizing s rs with
  | nil => exact hrs
  | cons c cs ih =>
      cases c with
      | add d =>
          apply ih (h.add d)
          rw [h.get?_add, hrs]
          split
          · exact (summary_concat rs d).symm
          · rfl
      | remove n =>
          apply ih (h.remove n)
          rw [h.get?_remove, hrs]
          split
          · rfl
          · rfl

end DefineSet

namespace Define

/-!
# Uses

A use is recorded with the gates around it and with a type, which metadata have not
fixed.
-/

def IsUse (d : Define) : Prop :=
  d.used = true ∧ d.explicit = false

/-- The gates are those of the first record that has as few of them as any. -/
def IsFirstShortest (rs : List Define) (gates : Option (List Text)) : Prop :=
  exists before r after, rs = before ++ r :: after ∧ r.defines = gates ∧
    (forall q, q ∈ before -> r.depth < q.depth) ∧ forall q, q ∈ after -> r.depth ≤ q.depth

/-- The type is that of a record, and no record has one of higher rank. -/
def IsLargest (rs : List Define) (type : DefineType) : Prop :=
  (exists r, r ∈ rs ∧ r.type = type) ∧ forall r, r ∈ rs -> r.type.rank ≤ type.rank

theorem depth_congr {d e : Define} (h : d.defines = e.defines) : d.depth = e.depth := by
  unfold depth
  rw [h]

theorem IsFirstShortest.concat {rs : List Define} {d r : Define}
    (h : IsFirstShortest rs d.defines) :
    IsFirstShortest (rs ++ [r]) (if r.depth < d.depth then r.defines else d.defines) := by
  rcases h with ⟨before, q, after, rfl, hq, hbefore, hafter⟩
  have hdepth := depth_congr hq
  split
  · rename_i hlt
    refine ⟨before ++ q :: after, r, [], rfl, rfl, ?_, by simp⟩
    intro e he
    rcases List.mem_append.mp he with he | he
    · exact Nat.lt_trans (hdepth ▸ hlt) (hbefore e he)
    · rcases List.mem_cons.mp he with rfl | he
      · exact hdepth ▸ hlt
      · exact Nat.lt_of_lt_of_le (hdepth ▸ hlt) (hafter e he)
  · rename_i hle
    refine ⟨before, q, after ++ [r], by simp, hq, hbefore, ?_⟩
    intro e he
    rcases List.mem_append.mp he with he | he
    · exact hafter e he
    · rw [List.mem_singleton.mp he, hdepth]
      exact Nat.le_of_not_lt hle

theorem IsLargest.concat {rs : List Define} {d r : Define} (h : IsLargest rs d.type) :
    IsLargest (rs ++ [r]) (if d.type.rank < r.type.rank then r.type else d.type) := by
  rcases h with ⟨⟨q, hq, htype⟩, hle⟩
  split
  · rename_i hlt
    refine ⟨⟨r, by simp, rfl⟩, ?_⟩
    intro e he
    rcases List.mem_append.mp he with he | he
    · exact Nat.le_trans (hle e he) (Nat.le_of_lt hlt)
    · exact Nat.le_of_eq (congrArg (fun q => q.type.rank) (List.mem_singleton.mp he))
  · rename_i hge
    refine ⟨⟨q, List.mem_append_left _ hq, htype⟩, ?_⟩
    intro e he
    rcases List.mem_append.mp he with he | he
    · exact hle e he
    · rw [List.mem_singleton.mp he]
      exact Nat.le_of_not_lt hge

theorem updatedBy_use {d r : Define} (hd : d.IsUse) (hr : r.IsUse) :
    (d.updatedBy r).IsUse ∧
      (d.updatedBy r).defines = (if r.depth < d.depth then r.defines else d.defines) ∧
      (d.updatedBy r).type = if d.type.rank < r.type.rank then r.type else d.type := by
  rcases hd with ⟨hused, hexplicit⟩
  unfold updatedBy typedBy gatedBy IsUse
  rw [hr.1, hused]
  by_cases hdepth : r.depth < d.depth <;> by_cases htype : d.type.rank < r.type.rank <;>
    simp [hdepth, htype, hused, hexplicit]

theorem foldl_uses {seen rs : List Define} {d : Define} (hd : d.IsUse)
    (hgates : IsFirstShortest seen d.defines) (htype : IsLargest seen d.type)
    (hrs : forall r, r ∈ rs -> r.IsUse) :
    IsFirstShortest (seen ++ rs) (rs.foldl updatedBy d).defines ∧
      IsLargest (seen ++ rs) (rs.foldl updatedBy d).type := by
  induction rs generalizing seen d with
  | nil =>
      rw [List.append_nil]
      exact ⟨hgates, htype⟩
  | cons r rs ih =>
      rcases updatedBy_use hd (hrs r List.mem_cons_self) with ⟨huse, hdefines, htype'⟩
      rw [List.append_cons, List.foldl_cons]
      apply ih huse _ _ fun q hq => hrs q (List.mem_cons_of_mem r hq)
      · rw [hdefines]
        exact hgates.concat
      · rw [htype']
        exact htype.concat

end Define

namespace DefineSet

theorem summary_uses {rs : List Define} {d : Define} (h : summary rs = some d)
    (hrs : forall r, r ∈ rs -> r.IsUse) :
    Define.IsFirstShortest rs d.defines ∧ Define.IsLargest rs d.type := by
  cases rs with
  | nil => cases h
  | cons r rs =>
      rw [← Option.some.inj h]
      have hgates : Define.IsFirstShortest [r] r.defines := ⟨[], r, [], rfl, rfl, by simp, by simp⟩
      have htype : Define.IsLargest [r] r.type := ⟨⟨r, by simp, rfl⟩, by simp⟩
      exact Define.foldl_uses (hrs r List.mem_cons_self) hgates htype
        fun q hq => hrs q (List.mem_cons_of_mem r hq)

/-- A set stays consistent under all changes: no name stands in it twice, the index gives
exactly the place of each name, and names that are never removed stand in the order in which
they were first added.  A name stands in it if records of it were added since it was last
removed; if they all come from uses, its gates are the first of the shortest ones and its type
is the largest. -/
theorem applyAll_consistent (cs : List Change) :
    (empty.applyAll cs).names.Nodup ∧
      (forall name i, (empty.applyAll cs).index.get? name = some i ↔
        ((empty.applyAll cs).list[i]?).map Define.name = some name) ∧
      (empty.applyAll cs).names.filter (fun n => !(Change.removed cs).contains n) =
        (Change.added cs).eraseDups.filter (fun n => !(Change.removed cs).contains n) ∧
      forall name,
        ((empty.applyAll cs).get? name = none ↔ Change.records name cs = []) ∧
          ((forall r, r ∈ Change.records name cs -> r.IsUse) ->
            forall d, (empty.applyAll cs).get? name = some d ->
              Define.IsFirstShortest (Change.records name cs) d.defines ∧
                Define.IsLargest (Change.records name cs) d.type) := by
  have hconsistent := consistent_empty.applyAll cs
  have hsummary (name : Text) :
      (empty.applyAll cs).get? name = summary (Change.records name cs) :=
    consistent_empty.get?_applyAll rfl cs
  refine ⟨hconsistent.nodup, ?_, ?_, ?_⟩
  · intro name i
    rw [hconsistent.indexed, place?_eq_some_iff hconsistent.nodup, names, List.getElem?_map]
  · have hseen (keep : Text -> Bool) :
        empty.names.filter keep = ([] : List Text).eraseDups.filter keep := rfl
    rw [consistent_empty.names_applyAll (hseen _) fun n hn => by simpa using hn, List.nil_append]
  · intro name
    rw [hsummary]
    constructor
    · cases Change.records name cs <;> simp [summary]
    · intro huses d hd
      exact summary_uses hd huses

/-- Two defines whose records alternate; one of them is removed and used again. -/
def alternating : List Change :=
  let use (name : Text) (type : DefineType) (gates : List Text) : Change :=
    .add { Define.new name with type, defines := some gates, used := true }
  [use "A" .number ["X"], use "B" .boolean ["X", "Y"], .remove "A", use "B" .number ["!X"],
   use "A" .boolean [], use "B" .boolean ["Z"]]

theorem applyAll_consistent_alternating :
    (forall r, r ∈ Change.records "B" alternating -> r.IsUse) ∧
      exists d, (empty.applyAll alternating).get? "B" = some d ∧
        (empty.applyAll alternating).index.get? "B" = some 0 ∧
        d.defines = some (["!X"] : List Text) ∧ d.type = .number ∧
        Define.IsFirstShortest (Change.records "B" alternating) d.defines ∧
        Define.IsLargest (Change.records "B" alternating) d.type := by
  have huses : forall r, r ∈ Change.records "B" alternating -> r.IsUse := by
    unfold Define.IsUse
    decide
  rcases applyAll_consistent alternating with ⟨_, _, _, hname⟩
  have hspec := (hname "B").2 huses
  refine ⟨huses, _, rfl, rfl, rfl, rfl, hspec _ rfl⟩

end DefineSet

end EffectShader
