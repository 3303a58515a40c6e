import EffectShader.Text.Basic

/-!
# Searching a text

A search finds the first occurrence of a text.  The occurrence stays the first one when the text
behind it is replaced, and joining two texts adds occurrences across the seam only.
-/

namespace EffectShader

/-!
# Searching in a replaced text

Whether a text occurs at a place depends only on the bytes there: what stands
behind the occurrence, or behind a byte that the text does not hold, may change.
-/

namespace Text

theorem isPrefixOf_append_stop {p : Text} {c : UInt8} (hp : c ∉ p) (s r : Text) :
    p.isPrefixOf (s ++ c :: r) = p.isPrefixOf s := by
  induction p generalizing s with
  | nil => simp
  | cons a p ih =>
      rcases not_or.mp (mt List.mem_cons.mpr hp) with ⟨ha, hp⟩
      cases s with
      | nil => simp [List.isPrefixOf, Ne.symm ha]
      | cons b s => simp [List.isPrefixOf, ih hp]

theorem afterPrefix?_eq_none_of_append {p s : Text} (hlen : p.length ≤ s.length) {x : Text}
    (h : afterPrefix? p (s ++ x) = none) (y : Text) : afterPrefix? p (s ++ y) = none := by
  induction p generalizing s with
  | nil => simp [afterPrefix?] at h
  | cons a p ih =>
      cases s with
      | nil => simp at hlen
      | cons b s =>
          by_cases hab : a = b
          · subst hab
            simp only [List.cons_append, afterPrefix?, beq_self_eq_true, if_true] at h ⊢
            exact ih (by simpa using hlen) h
          · simp [afterPrefix?, hab]

theorem afterPrefix?_append (p s : Text) : afterPrefix? p (p ++ s) = some s := by
  induction p with
  | nil => rfl
  | cons a p ih => simp [afterPrefix?, ih]

theorem cut?_append_of_cut? {sep s before after : Text} (hsep : sep ≠ [])
    (h : cut? sep s = some (before, after)) (y : Text) :
    cut? sep (before ++ (sep ++ y)) = some (before, y) := by
  induction before generalizing s with
  | nil =>
      cases sep with
      | nil => exact absurd rfl hsep
      | cons a sep =>
          show cut? (a :: sep) (a :: (sep ++ y)) = some ([], y)
          have hfound : afterPrefix? (a :: sep) (a :: (sep ++ y)) = some y :=
            afterPrefix?_append (a :: sep) y
          rw [cut?, hfound]
  | cons b before ih =>
      cases s with
      | nil => simp [cut?, hsep] at h
      | cons c s =>
          have hs := eq_append_of_cut? h
          rw [cut?] at h
          cases hp : afterPrefix? sep (c :: s) with
          | some r =>
              rw [hp] at h
              cases h
          | none =>
              rw [hp] at h
              rcases Option.map_eq_some_iff.mp h with ⟨⟨u, v⟩, hcut, heq⟩
              cases heq
              have hnone : afterPrefix? sep (b :: (before ++ (sep ++ y))) = none := by
                have hold : afterPrefix? sep ((b :: (before ++ sep)) ++ after) = none := by
                  rw [← hp, hs]
                  simp
                have hnew := afterPrefix?_eq_none_of_append (by simp; omega) hold y
                simpa using hnew
              rw [List.cons_append, cut?, hnone, ih hcut]
              rfl

end Text

/-!
# Where a text occurs

A search finds the first occurrence of a text.  When two texts are joined, new
occurrences arise only across the seam, and none does if one of the two bytes at
the seam does not belong to the text that is looked for.
-/

namespace Text

section First

variable {sep s before after u v : Text}

theorem exists_cut?_of_append (hsep : sep ≠ []) (u v : Text) :
    exists before after, cut? sep (u ++ (sep ++ v)) = some (before, after) ∧
      before.length ≤ u.length := by
  induction u with
  | nil =>
      cases sep with
      | nil => exact absurd rfl hsep
      | cons a sep =>
          have hfound : afterPrefix? (a :: sep) (a :: (sep ++ v)) = some v :=
            afterPrefix?_append (a :: sep) v
          refine ⟨[], v, ?_, Nat.le_refl 0⟩
          show cut? (a :: sep) (a :: (sep ++ v)) = some ([], v)
          rw [cut?, hfound]
  | cons b u ih =>
      rcases ih with ⟨before, after, hcut, hle⟩
      rw [List.cons_append, cut?]
      cases afterPrefix? sep (b :: (u ++ (sep ++ v))) with
      | some r => exact ⟨[], r, rfl, Nat.zero_le _⟩
      | none =>
          refine ⟨b :: before, after, ?_, Nat.succ_le_succ hle⟩
          rw [hcut]
          rfl

theorem includes_iff (hsep : sep ≠ []) :
    includes s sep = true ↔ exists u v, s = u ++ (sep ++ v) := by
  unfold includes
  constructor
  · intro h
    rcases Option.isSome_iff_exists.mp h with ⟨⟨before, after⟩, hcut⟩
    exact ⟨before, after, eq_append_of_cut? hcut⟩
  · rintro ⟨u, v, rfl⟩
    rcases exists_cut?_of_append hsep u v with ⟨before, after, hcut, _⟩
    rw [hcut]
    rfl

theorem length_le_of_cut? (hsep : sep ≠ []) (hcut : cut? sep s = some (before, after))
    (hs : s = u ++ (sep ++ v)) : before.length ≤ u.length := by
  rcases exists_cut?_of_append hsep u v with ⟨before', after', hcut', hle⟩
  rw [← hs, hcut] at hcut'
  cases hcut'
  exact hle

theorem not_includes_of_cut? (hsep : sep ≠ []) (hcut : cut? sep s = some (before, after)) :
    ¬ includes before sep = true := by
  intro h
  rcases (includes_iff hsep).mp h with ⟨u, v, hbefore⟩
  have hs := eq_append_of_cut? hcut
  rw [hbefore, List.append_assoc, List.append_assoc] at hs
  have hle := length_le_of_cut? hsep hcut hs
  have hpos := List.length_pos_iff.mpr hsep
  rw [hbefore, List.length_append, List.length_append] at hle
  omega

theorem exists_append_of_cut? (hsep : sep ≠ []) (hcut : cut? sep s = some (before, after))
    (hs : s = u ++ (sep ++ v)) : exists w, u = before ++ w := by
  have hle := length_le_of_cut? hsep hcut hs
  have heq : before ++ (sep ++ after) = u ++ (sep ++ v) := (eq_append_of_cut? hcut).symm.trans hs
  rcases List.append_eq_append_iff.mp heq with ⟨w, hu, _⟩ | ⟨w, hbefore, _⟩
  · exact ⟨w, hu⟩
  · refine ⟨[], ?_⟩
    have hw : w = [] := by
      rw [← List.length_eq_zero_iff]
      rw [hbefore, List.length_append] at hle
      omega
    rw [hbefore, hw, List.append_nil, List.append_nil]

end First

/-!
# Joined texts
-/

/-- Of the two bytes at the seam of `x` and `y` one does not belong to `sep`. -/
def Seam (sep x y : Text) : Prop :=
  (forall b, x.getLast? = some b -> b ∉ sep) ∨ forall b, y.head? = some b -> b ∉ sep

theorem Seam.occurrence {sep x y u v : Text} (h : Seam sep x y)
    (heq : x ++ y = u ++ (sep ++ v)) :
    (exists w, x = u ++ (sep ++ w)) ∨ exists w, y = w ++ (sep ++ v) ∧ u = x ++ w := by
  rcases List.append_eq_append_iff.mp heq with ⟨w, hu, hy⟩ | ⟨c, hx, hrest⟩
  · exact Or.inr ⟨w, hy, hu⟩
  · rcases List.append_eq_append_iff.mp hrest with ⟨d, hc, _⟩ | ⟨d, hsep, hy⟩
    · exact Or.inl ⟨d, by rw [hx, hc]⟩
    · -- The occurrence starts with `c`, the end of `x`, and goes on with `d`, the start of `y`.
      rcases List.eq_nil_or_concat c with rfl | ⟨c, b, rfl⟩
      · refine Or.inr ⟨[], ?_, ?_⟩
        · rw [hy, hsep, List.nil_append, List.nil_append]
        · rw [hx, List.append_nil, List.append_nil]
      · cases d with
        | nil => exact Or.inl ⟨[], by rw [hx, hsep, List.append_nil, List.append_nil]⟩
        | cons a d =>
            exfalso
            rcases h with hlast | hhead
            · apply hlast b
              · rw [hx, List.concat_eq_append, ← List.append_assoc, List.getLast?_concat]
              · simp [hsep]
            · apply hhead a
              · rw [hy]
                rfl
              · simp [hsep]

theorem Seam.exists_of_cut? {sep x y before after : Text} (hsep : sep ≠ []) (h : Seam sep x y)
    (hx : cut? sep x = none) (hcut : cut? sep (x ++ y) = some (before, after)) :
    exists w, y = w ++ (sep ++ after) := by
  rcases h.occurrence (eq_append_of_cut? hcut) with ⟨w, rfl⟩ | ⟨w, hw, _⟩
  · rcases exists_cut?_of_append hsep before w with ⟨_, _, hsome, _⟩
    rw [hx] at hsome
    cases hsome
  · exact ⟨w, hw⟩

theorem Seam.not_includes {sep x y : Text} (hsep : sep ≠ []) (h : Seam sep x y)
    (hx : ¬ includes x sep = true) (hy : ¬ includes y sep = true) :
    ¬ includes (x ++ y) sep = true := by
  intro hxy
  rcases (includes_iff hsep).mp hxy with ⟨u, v, heq⟩
  rcases h.occurrence heq with ⟨w, hw⟩ | ⟨w, hw, _⟩
  · exact hx ((includes_iff hsep).mpr ⟨u, w, hw⟩)
  · exact hy ((includes_iff hsep).mpr ⟨w, v, hw⟩)

theorem cut?_append_of_seam {sep x y : Text} (hsep : sep ≠ [])
    (hx : ¬ includes x sep = true) (h : Seam sep x (sep ++ y)) :
    cut? sep (x ++ (sep ++ y)) = some (x, y) := by
  rcases exists_cut?_of_append hsep x y with ⟨before, after, hcut, hle⟩
  rcases h.occurrence (eq_append_of_cut? hcut) with ⟨w, hw⟩ | ⟨w, hy, hbefore⟩
  · exact absurd ((includes_iff hsep).mpr ⟨before, w, hw⟩) hx
  · have hw : w = [] := by
      rw [hbefore, List.length_append] at hle
      exact List.length_eq_zero_iff.mp (by omega)
    subst hw
    rw [List.append_nil] at hbefore
    rw [hcut, hbefore, List.append_cancel_left hy]

theorem exists_of_cut?_byte {c : UInt8} {x s before after : Text} (hx : c ∉ x)
    (hcut : cut? [c] (x ++ s) = some (before, after)) :
    exists list, before = x ++ list ∧ c ∉ list ∧ s = list ++ c :: after := by
  have heq : x ++ s = before ++ c :: after := eq_append_of_cut? hcut
  have hbefore : c ∉ before := fun hmem => by
    rcases List.append_of_mem hmem with ⟨u, v, huv⟩
    exact not_includes_of_cut? (by simp) hcut ((includes_iff (by simp)).mpr ⟨u, v, huv⟩)
  rcases List.append_eq_append_iff.mp heq with ⟨w, rfl, hs⟩ | ⟨w, rfl, hs⟩
  · exact ⟨w, rfl, fun hmem => hbefore (List.mem_append_right x hmem), hs⟩
  · cases w with
    | nil => exact ⟨[], by simp, List.not_mem_nil, hs.symm⟩
    | cons b w =>
        cases hs
        exact absurd (List.mem_append_right before List.mem_cons_self) hx

end Text

end EffectShader
