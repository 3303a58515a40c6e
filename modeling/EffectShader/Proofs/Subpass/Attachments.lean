import EffectShader.Proofs.Subpass
import Mathlib.Data.List.Nodup
import Mathlib.Data.List.Pairwise
import Mathlib.Data.List.Perm.Basic

/-!
# The attachments of a source

Every attachment has a name of its own.  The color attachments are numbered from
zero on in the order of their pragmas, and the order of emission moves the numbers
with them.  The declarations stand in the place of one line, between the lines that
are kept.
-/

namespace EffectShader

namespace Subpass

/-!
# Names
-/

structure Distinct (as : List Attachment) : Prop where
  declared : forall a, a ∈ as -> a.IsDeclared
  names : (as.map Attachment.name).Nodup

theorem Distinct.read {s s' : Survey} {line : Text} (hs : Distinct s.attachments)
    (h : s.read line = .ok s') : Distinct s'.attachments := by
  rcases Survey.read_cases h with rfl | rfl | ⟨a, ha, hnew, rfl⟩
  · exact hs
  · exact hs
  · constructor
    · intro b hb
      rcases List.mem_append.mp hb with hb | hb
      · exact hs.declared b hb
      · rw [List.mem_singleton.mp hb]
        exact ha
    · dsimp only
      rw [List.map_append, List.map_singleton, ← List.concat_eq_append]
      refine hs.names.concat ?_
      intro hmem
      rcases List.mem_map.mp hmem with ⟨b, hb, heq⟩
      exact hnew b hb heq

theorem Distinct.foldlM {s s' : Survey} {ls : List Text} (hs : Distinct s.attachments)
    (h : ls.foldlM Survey.read s = .ok s') : Distinct s'.attachments := by
  induction ls generalizing s with
  | nil =>
      cases h
      exact hs
  | cons l ls ih =>
      rw [List.foldlM_cons] at h
      cases hread : s.read l with
      | error e =>
          rw [hread] at h
          cases h
      | ok t =>
          rw [hread] at h
          exact ih (hs.read hread) h

/-!
# Numbers
-/

section

variable (input location : Nat) (as : List Attachment)

theorem map_assign {α : Type} {f : Attachment -> α}
    (hf : forall a i l, f { a with input := i, location := l } = f a) :
    (assign input location as).map f = as.map f := by
  induction as generalizing input location with
  | nil => rfl
  | cons a as ih => rw [assign, List.map_cons, List.map_cons, ih, hf]

theorem map_name_assign :
    (assign input location as).map Attachment.name = as.map Attachment.name :=
  map_assign input location as fun _ _ _ => rfl

theorem exists_of_mem_assign {a : Attachment} (ha : a ∈ assign input location as) :
    exists b, b ∈ as ∧ (b.IsDeclared -> a.IsDeclared) ∧
      a.input.isSome = a.direction.reads ∧ a.location.isSome = (a.aspect == Aspect.color) := by
  induction as generalizing input location with
  | nil => cases ha
  | cons b as ih =>
      rw [assign] at ha
      rcases List.mem_cons.mp ha with rfl | ha
      · refine ⟨b, List.mem_cons_self, fun hb => ⟨hb.name, hb.precision, hb.supported⟩, ?_, ?_⟩
        · dsimp only
          cases b.direction.reads <;> rfl
        · dsimp only
          cases b.aspect == Aspect.color <;> rfl
      · rcases ih _ _ ha with ⟨c, hc, hspec⟩
        exact ⟨c, List.mem_cons_of_mem b hc, hspec⟩

theorem filterMap_input_assign :
    (assign input location as).filterMap Attachment.input =
      List.range' input (as.countP fun a => a.direction.reads) := by
  induction as generalizing input location with
  | nil => rfl
  | cons a as ih =>
      rw [assign, List.filterMap_cons, List.countP_cons]
      dsimp only
      cases a.direction.reads with
      | true => exact congrArg (input :: ·) (ih _ _)
      | false => exact ih _ _

theorem filterMap_location_assign :
    (assign input location as).filterMap Attachment.location =
      List.range' location (as.countP fun a => a.aspect == Aspect.color) := by
  induction as generalizing input location with
  | nil => rfl
  | cons a as ih =>
      rw [assign, List.filterMap_cons, List.countP_cons]
      dsimp only
      cases a.aspect == Aspect.color with
      | true => exact congrArg (location :: ·) (ih _ _)
      | false => exact ih _ _

end

/-- The attachments are distinct, and exactly the color attachments have locations, which are the
numbers from zero on. -/
structure Located (as : List Attachment) : Prop extends Distinct as where
  color : forall a, a ∈ as -> a.location.isSome = (a.aspect == Aspect.color)
  locations : exists n, (as.filterMap Attachment.location).Perm (List.range n)

theorem Distinct.located {as : List Attachment} (h : Distinct as) : Located (assign 0 0 as) := by
  refine ⟨⟨?_, ?_⟩, ?_, ?_⟩
  · intro a ha
    rcases exists_of_mem_assign 0 0 as ha with ⟨b, hb, hdeclared, _⟩
    exact hdeclared (h.declared b hb)
  · rw [map_name_assign]
    exact h.names
  · intro a ha
    rcases exists_of_mem_assign 0 0 as ha with ⟨_, _, _, _, hcolor⟩
    exact hcolor
  · rw [filterMap_location_assign, ← List.range_eq_range']
    exact ⟨_, List.Perm.refl _⟩

theorem Located.perm {as bs : List Attachment} (h : Located as) (hperm : bs.Perm as) :
    Located bs := by
  rcases h.locations with ⟨n, hn⟩
  refine ⟨⟨?_, ?_⟩, ?_, n, (hperm.filterMap _).trans hn⟩
  · exact fun a ha => h.declared a (hperm.mem_iff.mp ha)
  · exact (hperm.map _).nodup_iff.mpr h.names
  · exact fun a ha => h.color a (hperm.mem_iff.mp ha)

section

variable {as : List Attachment} {a b : Attachment} {n m : Nat}

theorem Distinct.eq_of_name (h : Distinct as) (ha : a ∈ as) (hb : b ∈ as)
    (heq : a.name = b.name) : a = b :=
  List.inj_on_of_nodup_map h.names ha hb heq

theorem Located.eq_of_location (h : Located as) (ha : a ∈ as) (hb : b ∈ as)
    (han : a.location = some n) (hbn : b.location = some n) : a = b := by
  rcases h.locations with ⟨k, hk⟩
  have hpairs := List.pairwise_filterMap.mp (hk.nodup_iff.mpr List.nodup_range)
  have hsymm : Std.Symm fun c d : Attachment => forall i, c.location = some i ->
      forall j, d.location = some j -> i ≠ j :=
    ⟨fun c d hcd i hi j hj heq => hcd j hj i hi heq.symm⟩
  by_contra hne
  exact hpairs.forall ha hb hne n han n hbn rfl

theorem Located.exists_location (h : Located as) (ha : a ∈ as) (han : a.location = some n)
    (hm : m < n) : exists b, b ∈ as ∧ b.location = some m := by
  rcases h.locations with ⟨k, hk⟩
  have hn : n ∈ List.range k := hk.mem_iff.mp (List.mem_filterMap.mpr ⟨a, ha, han⟩)
  have hmem : m ∈ List.range k := List.mem_range.mpr (Nat.lt_trans hm (List.mem_range.mp hn))
  exact List.mem_filterMap.mp (hk.mem_iff.mpr hmem)

theorem Located.lt_length (h : Located as) (ha : a ∈ as) (han : a.location = some n) :
    n < as.length := by
  rcases h.locations with ⟨k, hk⟩
  have hn : n ∈ List.range k := hk.mem_iff.mp (List.mem_filterMap.mpr ⟨a, ha, han⟩)
  calc n < k := List.mem_range.mp hn
    _ = (as.filterMap Attachment.location).length := by rw [hk.length_eq, List.length_range]
    _ ≤ as.length := List.length_filterMap_le _ _

end

/-!
# The place of the declarations
-/

/-- The text before and the text behind the declarations of a source, if there are any. -/
def surroundings (code : Text) : Option (Text × Text) :=
  match code.lines.foldlM Survey.read ⟨[], [], none, none⟩ with
  | .error _ => none
  | .ok survey =>
      let kept := survey.lines.reverse
      match survey.marker.or survey.first, survey.attachments with
      | some place, _ :: _ =>
          some (Text.ended (kept.take place),
            (kept.drop (place + 1)).flatMap (Byte.newline :: ·))
      | _, _ => none

theorem head?_flatMap_newline (ls : List Text) :
    ls.flatMap (Byte.newline :: ·) = [] ∨
      (ls.flatMap (Byte.newline :: ·)).head? = some Byte.newline := by
  cases ls with
  | nil => exact Or.inl rfl
  | cons l ls => exact Or.inr rfl

theorem located_of_expand {code : Text} {lines : LineMap} {e : Expansion}
    (h : expand code lines = .ok e) : Located e.attachments := by
  unfold expand at h
  cases hsurvey : code.lines.foldlM Survey.read ⟨[], [], none, none⟩ with
  | error e =>
      rw [hsurvey] at h
      cases h
  | ok survey =>
      rw [hsurvey] at h
      have hdistinct : Distinct survey.attachments :=
        Distinct.foldlM (s := ⟨[], [], none, none⟩) ⟨by simp, by simp⟩ hsurvey
      dsimp only at h
      split at h
      · rename_i hattachments
        cases h
        rw [hattachments] at hdistinct
        exact hdistinct.located.perm (List.mergeSort_perm _ _)
      · cases h
        exact ⟨⟨by simp, by simp⟩, by simp, 0, List.Perm.refl _⟩

theorem expand_spec {code before after : Text} {lines : LineMap} {e : Expansion}
    (h : expand code lines = .ok e) (hplace : surroundings code = some (before, after)) :
    Located e.attachments ∧
      e.code = before ++ (Text.unlines (blockLines e.attachments) ++ after) ∧
      (after = [] ∨ after.head? = some Byte.newline) := by
  have hlocated := located_of_expand h
  unfold expand at h
  unfold surroundings at hplace
  cases hsurvey : code.lines.foldlM Survey.read ⟨[], [], none, none⟩ with
  | error e =>
      rw [hsurvey] at h
      cases h
  | ok survey =>
      rw [hsurvey] at h hplace
      have hstart : Survey.IsInline ⟨[], [], none, none⟩ := ⟨by simp, by simp, by simp, by simp⟩
      have hinline := (hstart.foldlM (fun l => Text.not_mem_of_mem_lines) hsurvey).1
      dsimp only at h hplace
      split at h
      · rename_i place a rest hline hattachments
        rw [hline, hattachments] at hplace
        cases hplace
        cases h
        have hlt : place < survey.lines.reverse.length := by
          rw [List.length_reverse]
          rcases Option.or_eq_some_iff.mp hline with hmarker | ⟨_, hfirst⟩
          · exact hinline.marker place hmarker
          · exact hinline.first place hfirst
        refine ⟨hlocated, ?_, head?_flatMap_newline _⟩
        dsimp only
        rw [List.set_eq_take_append_cons_drop, if_pos hlt, Text.unlines_append_cons]
      · rename_i hnone
        split at hplace
        · rename_i place a rest hline hattachments
          exact absurd hattachments (hnone place a rest hline)
        · cases hplace

deriving instance DecidableEq for Survey

theorem mergeSort_pair {α : Type} (le : α -> α -> Bool) (a b : α) :
    [a, b].mergeSort le = if le a b then [a, b] else [b, a] := by
  rw [List.mergeSort]
  simp [List.merge]

theorem exists_expand {code : Text} {survey : Survey} {place : Nat}
    (hsurvey : code.lines.foldlM Survey.read ⟨[], [], none, none⟩ = .ok survey)
    (hplace : survey.marker.or survey.first = some place) (hne : survey.attachments ≠ [])
    (lines : LineMap) :
    exists e, expand code lines = .ok e ∧
      e.attachments = (assign 0 0 survey.attachments).mergeSort Attachment.le := by
  unfold expand
  rw [hsurvey]
  dsimp only
  rw [hplace]
  cases hattachments : survey.attachments with
  | nil => exact absurd hattachments hne
  | cons a as => exact ⟨_, rfl, rfl⟩

end Subpass

end EffectShader
