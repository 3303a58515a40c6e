import EffectShader.Proofs.Text.Lines
import EffectShader.Proofs.Text.Search
import EffectShader.Proofs.Text.Trim

/-!
# Carriage returns in front of newlines

A text whose lines end in a carriage return and a newline is searched, cut and trimmed as the text
with plain newlines is, if neither of the two bytes is looked for by itself.
-/

namespace EffectShader

namespace Text

def endLines (ending s : Text) : Text :=
  s.flatMap fun b => if b = Byte.newline then ending else [b]

/-- The text with a carriage return in front of each newline. -/
def withCarriages (s : Text) : Text :=
  endLines [Byte.carriage, Byte.newline] s

def IsInline (b : UInt8) : Prop :=
  b ≠ Byte.newline ∧ b ≠ Byte.carriage

instance (b : UInt8) : Decidable (IsInline b) :=
  inferInstanceAs (Decidable (_ ∧ _))

theorem lineInduction {motive : Text -> Prop} (nil : motive [])
    (newline : forall s, motive s -> motive (Byte.newline :: s))
    (inline : forall b s, b ≠ Byte.newline -> motive s -> motive (b :: s)) (s : Text) :
    motive s := by
  induction s with
  | nil => exact nil
  | cons b s ih =>
      by_cases hb : b = Byte.newline
      · subst hb
        exact newline s ih
      · exact inline b s hb ih

section EndLines

variable {ending : Text}

theorem endLines_nil : endLines ending [] = [] := rfl

theorem endLines_newline (s : Text) :
    endLines ending (Byte.newline :: s) = ending ++ endLines ending s := rfl

theorem endLines_cons {b : UInt8} (hb : b ≠ Byte.newline) (s : Text) :
    endLines ending (b :: s) = b :: endLines ending s := by
  rw [endLines, List.flatMap_cons, if_neg hb]
  rfl

theorem endLines_append (s t : Text) :
    endLines ending (s ++ t) = endLines ending s ++ endLines ending t :=
  List.flatMap_append

theorem endLines_eq_self {s : Text} (h : Byte.newline ∉ s) : endLines ending s = s := by
  induction s with
  | nil => rfl
  | cons b s ih =>
      rcases not_or.mp (mt List.mem_cons.mpr h) with ⟨hb, hs⟩
      rw [endLines_cons (Ne.symm hb), ih hs]

theorem reverse_endLines (s : Text) :
    (endLines ending s).reverse = endLines ending.reverse s.reverse := by
  unfold endLines
  rw [List.reverse_flatMap]
  congr 1
  funext b
  rw [Function.comp_apply]
  split
  · rfl
  · rfl

theorem isPrefixOf_endLines {w : Text} (hw : forall b, b ∈ w -> IsInline b)
    (hending : forall b, b ∈ ending -> ¬ IsInline b) (hne : ending ≠ []) (s : Text) :
    w.isPrefixOf (endLines ending s) = w.isPrefixOf s := by
  induction w generalizing s with
  | nil => rw [List.isPrefixOf_nil_left, List.isPrefixOf_nil_left]
  | cons a w ih =>
      rcases List.forall_mem_cons.mp hw with ⟨ha, hw⟩
      cases s with
      | nil => rfl
      | cons b s =>
          by_cases hb : b = Byte.newline
          · subst hb
            rw [endLines_newline]
            cases ending with
            | nil => exact absurd rfl hne
            | cons c ending =>
                have hac : a ≠ c := by
                  rintro rfl
                  exact hending a List.mem_cons_self ha
                rw [List.cons_append, List.isPrefixOf_cons_cons, List.isPrefixOf_cons_cons,
                  beq_false_of_ne hac, beq_false_of_ne ha.1, Bool.false_and, Bool.false_and]
          · rw [endLines_cons hb, List.isPrefixOf_cons_cons, List.isPrefixOf_cons_cons, ih hw]

end EndLines

/-!
# Trimming
-/

/-- White space is spelled so that no spelling starts with another one and the two bytes of a line
end are spelled by themselves. -/
structure IsSpelled (spellings : List Text) : Prop where
  nonempty : [] ∉ spellings
  free : forall v, v ∈ spellings -> forall w, w ∈ spellings -> v.isPrefixOf w = true -> v = w
  blank : forall w, w ∈ spellings -> forall c, w.head? = some c -> mayEndBlank c = true
  newline : [Byte.newline] ∈ spellings
  carriage : [Byte.carriage] ∈ spellings
  inline : forall w, w ∈ spellings -> (forall b, b ∈ w -> IsInline b) ∨ w.length = 1

theorem inline_of_all {spellings : List Text}
    (h : (spellings.all fun w => w.all (fun b => decide (IsInline b)) || w.length == 1) = true) :
    forall w, w ∈ spellings -> (forall b, b ∈ w -> IsInline b) ∨ w.length = 1 := by
  intro w hw
  simpa using List.all_eq_true.mp h w hw

theorem isSpelled_blankSpellings : IsSpelled blankSpellings :=
  ⟨by decide, blankSpellings_free, fun _ hw _ hc => (head_of_mem_blankSpellings hw hc).1,
    by decide, by decide, inline_of_all (by rfl)⟩

theorem isSpelled_reversedBlankSpellings : IsSpelled reversedBlankSpellings :=
  ⟨by decide, reversedBlankSpellings_free, head_of_mem_reversedBlankSpellings, by decide,
    by decide, inline_of_all (by rfl)⟩

namespace IsSpelled

variable {spellings : List Text} (h : IsSpelled spellings)

include h

theorem mem_of_not_isInline {b : UInt8} (hb : ¬ IsInline b) : [b] ∈ spellings := by
  rcases not_and_or.mp hb with hb | hb
  · rw [not_not.mp hb]
    exact h.newline
  · rw [not_not.mp hb]
    exact h.carriage

theorem dropBlanks_ending {x : Text} (hx : forall b, b ∈ x -> ¬ IsInline b) (s : Text) :
    dropBlanks spellings (x ++ s) = dropBlanks spellings s := by
  induction x with
  | nil => rfl
  | cons b x ih =>
      rcases List.forall_mem_cons.mp hx with ⟨hb, hx⟩
      rw [← ih hx, List.cons_append, ← List.singleton_append,
        dropBlanks_spelling h.nonempty h.free h.blank (h.mem_of_not_isInline hb)]

variable {ending : Text} (hending : forall b, b ∈ ending -> ¬ IsInline b) (hne : ending ≠ [])

include hending hne

theorem isPrefixOf_endLines {w : Text} (hw : w ∈ spellings) {b : UInt8} (hb : b ≠ Byte.newline)
    (s : Text) : w.isPrefixOf (b :: endLines ending s) = w.isPrefixOf (b :: s) := by
  rcases h.inline w hw with hinline | hlength
  · rw [← endLines_cons hb, Text.isPrefixOf_endLines hinline hending hne]
  · rcases List.length_eq_one_iff.mp hlength with ⟨c, rfl⟩
    rw [List.isPrefixOf_cons_cons, List.isPrefixOf_cons_cons, List.isPrefixOf_nil_left,
      List.isPrefixOf_nil_left]

theorem dropBlanks_endLines (s : Text) :
    dropBlanks spellings (endLines ending s) = endLines ending (dropBlanks spellings s) := by
  fun_induction dropBlanks spellings s with
  | case1 => rw [endLines_nil, dropBlanks]
  | case2 b s n hn ih =>
      have hw := (exists_of_blankExtent? h.nonempty hn).1
      rw [← ih]
      by_cases hmem : Byte.newline ∈ b :: s.take n
      · -- A spelling with a newline is the newline.
        have htake : b = Byte.newline ∧ s.take n = [] := by
          rcases h.inline _ hw with hinline | hlength
          · exact absurd rfl (hinline _ hmem).1
          · rw [List.length_cons, Nat.add_eq_right, List.length_eq_zero_iff] at hlength
            rw [hlength, List.mem_singleton] at hmem
            exact ⟨hmem.symm, hlength⟩
        have hdrop : s.drop n = s := by
          have hsplit := List.take_append_drop n s
          rwa [htake.2, List.nil_append] at hsplit
        rw [htake.1, endLines_newline, h.dropBlanks_ending hending, hdrop]
      · have hsplit : endLines ending (b :: s) =
            (b :: s.take n) ++ endLines ending (s.drop n) := by
          have hinline : endLines ending (b :: s.take n) = b :: s.take n := endLines_eq_self hmem
          rw [← hinline, ← endLines_append, List.cons_append, List.take_append_drop]
        rw [hsplit, dropBlanks_spelling h.nonempty h.free h.blank hw]
  | case3 b s hnone =>
      unfold blankExtent? at hnone
      have hb : b ≠ Byte.newline := by
        rintro rfl
        rw [if_neg (by decide), Option.map_eq_none_iff, List.find?_eq_none] at hnone
        exact hnone _ h.newline (by simp)
      rw [endLines_cons hb]
      apply dropBlanks_eq_self_of_none
      unfold blankExtent?
      split at hnone
      · rename_i hascii
        rw [if_pos hascii]
      · rename_i hascii
        rw [Option.map_eq_none_iff, List.find?_eq_none] at hnone
        rw [if_neg hascii, Option.map_eq_none_iff, List.find?_eq_none]
        intro w hw
        rw [h.isPrefixOf_endLines hending hne hw hb]
        exact hnone w hw

end IsSpelled

theorem trim_withCarriages (s : Text) : trim (withCarriages s) = withCarriages (trim s) := by
  have hleft : forall t, trimLeft (withCarriages t) = withCarriages (trimLeft t) :=
    isSpelled_blankSpellings.dropBlanks_endLines (by decide +kernel) (by decide)
  have hright : forall t, trimRight (withCarriages t) = withCarriages (trimRight t) := by
    intro t
    rw [trimRight_eq, trimRight_eq, withCarriages, reverse_endLines,
      isSpelled_reversedBlankSpellings.dropBlanks_endLines (by decide +kernel) (by decide),
      reverse_endLines]
    rfl
  rw [trim, hleft, hright, trim]

/-!
# Searching and cutting
-/

theorem withCarriages_nil : withCarriages [] = [] := rfl

theorem withCarriages_newline (s : Text) :
    withCarriages (Byte.newline :: s) = Byte.carriage :: Byte.newline :: withCarriages s := rfl

theorem withCarriages_cons {b : UInt8} (hb : b ≠ Byte.newline) (s : Text) :
    withCarriages (b :: s) = b :: withCarriages s :=
  endLines_cons hb s

theorem withCarriages_append (s t : Text) :
    withCarriages (s ++ t) = withCarriages s ++ withCarriages t :=
  endLines_append s t

theorem withCarriages_eq_self {s : Text} (h : Byte.newline ∉ s) : withCarriages s = s :=
  endLines_eq_self h

theorem withCarriages_eq_nil_iff {s : Text} : withCarriages s = [] ↔ s = [] := by
  cases s with
  | nil => exact iff_of_true rfl rfl
  | cons b s =>
      apply iff_of_false _ (List.cons_ne_nil b s)
      by_cases hb : b = Byte.newline
      · subst hb
        exact List.cons_ne_nil _ _
      · rw [withCarriages_cons hb]
        exact List.cons_ne_nil _ _

theorem newlines_withCarriages (s : Text) : newlines (withCarriages s) = newlines s := by
  induction s using lineInduction with
  | nil => rfl
  | newline s ih =>
      rw [withCarriages_newline, newlines_cons, newlines_cons, newlines_cons, ih]
      rfl
  | inline b s hb ih => rw [withCarriages_cons hb, newlines_cons, newlines_cons, ih]

theorem length_le_withCarriages (s : Text) : s.length ≤ (withCarriages s).length := by
  induction s using lineInduction with
  | nil => exact Nat.le_refl 0
  | newline s ih =>
      rw [withCarriages_newline, List.length_cons, List.length_cons, List.length_cons]
      omega
  | inline b s hb ih =>
      rw [withCarriages_cons hb, List.length_cons, List.length_cons]
      omega

theorem length_withCarriages_lt_iff {x y u v : Text} (h : x ++ y = u ++ v) :
    (withCarriages u).length < (withCarriages x).length ↔ u.length < x.length := by
  have hempty {w : Text} (hw : w.length = 0) : (withCarriages w).length = 0 := by
    rw [List.length_eq_zero_iff.mp hw]
    rfl
  rcases List.append_eq_append_iff.mp h with ⟨w, rfl, _⟩ | ⟨w, rfl, _⟩
  · rw [withCarriages_append, List.length_append, List.length_append]
    omega
  · have hle := length_le_withCarriages w
    rw [withCarriages_append, List.length_append, List.length_append]
    constructor
    · intro hlt
      by_contra hw
      have hw := hempty (w := w) (by omega)
      omega
    · omega

theorem head?_withCarriages {c : UInt8} (hc : IsInline c) (s : Text) :
    (withCarriages s).head? = some c ↔ s.head? = some c := by
  cases s using lineInduction with
  | nil => rfl
  | newline s =>
      rw [withCarriages_newline, List.head?_cons, List.head?_cons, Option.some.injEq,
        Option.some.injEq]
      exact iff_of_false (Ne.symm hc.2) (Ne.symm hc.1)
  | inline b s hb => rw [withCarriages_cons hb, List.head?_cons, List.head?_cons]

theorem head?_withCarriages_ne_newline (s : Text) :
    (withCarriages s).head? ≠ some Byte.newline := by
  cases s using lineInduction with
  | nil => exact fun h => nomatch h
  | newline s => exact fun h => absurd (Option.some.inj h) (by decide)
  | inline b s hb =>
      rw [withCarriages_cons hb]
      exact fun h => hb (Option.some.inj h)

theorem span_withCarriages {p : UInt8 -> Bool} (hp : p Byte.carriage = p Byte.newline) (s : Text) :
    (withCarriages s).takeWhile p = withCarriages (s.takeWhile p) ∧
      (withCarriages s).dropWhile p = withCarriages (s.dropWhile p) := by
  induction s using lineInduction with
  | nil => exact ⟨rfl, rfl⟩
  | newline s ih =>
      rw [withCarriages_newline]
      cases hnewline : p Byte.newline with
      | false =>
          have hstop := Bool.eq_false_iff.mp hnewline
          have hstop' := Bool.eq_false_iff.mp (hp.trans hnewline)
          rw [List.takeWhile_cons_of_neg hstop, List.takeWhile_cons_of_neg hstop',
            List.dropWhile_cons_of_neg hstop, List.dropWhile_cons_of_neg hstop']
          exact ⟨rfl, rfl⟩
      | true =>
          have hpass := hp.trans hnewline
          rw [List.takeWhile_cons_of_pos hpass, List.takeWhile_cons_of_pos hnewline,
            List.takeWhile_cons_of_pos hnewline, List.dropWhile_cons_of_pos hpass,
            List.dropWhile_cons_of_pos hnewline, List.dropWhile_cons_of_pos hnewline, ih.1, ih.2]
          exact ⟨rfl, rfl⟩
  | inline b s hb ih =>
      rw [withCarriages_cons hb]
      by_cases hpb : p b = true
      · rw [List.takeWhile_cons_of_pos hpb, List.takeWhile_cons_of_pos hpb,
          List.dropWhile_cons_of_pos hpb, List.dropWhile_cons_of_pos hpb, ih.1, ih.2,
          withCarriages_cons hb]
        exact ⟨rfl, rfl⟩
      · rw [List.takeWhile_cons_of_neg hpb, List.takeWhile_cons_of_neg hpb,
          List.dropWhile_cons_of_neg hpb, List.dropWhile_cons_of_neg hpb, withCarriages_cons hb]
        exact ⟨rfl, rfl⟩

theorem afterPrefix?_of_ne {a b : UInt8} (h : a ≠ b) (p s : Text) :
    afterPrefix? (a :: p) (b :: s) = none := by
  rw [afterPrefix?, beq_false_of_ne h]
  rfl

theorem afterPrefix?_withCarriages {p : Text} (hp : forall b, b ∈ p -> IsInline b) (s : Text) :
    afterPrefix? p (withCarriages s) = (afterPrefix? p s).map withCarriages := by
  induction p generalizing s with
  | nil => rfl
  | cons a p ih =>
      rcases List.forall_mem_cons.mp hp with ⟨ha, hp⟩
      cases s using lineInduction with
      | nil => rfl
      | newline s =>
          rw [withCarriages_newline, afterPrefix?_of_ne ha.1, afterPrefix?_of_ne ha.2]
          rfl
      | inline b s hb =>
          rw [withCarriages_cons hb, afterPrefix?, afterPrefix?, ih hp]
          split
          · rfl
          · rfl

theorem cut?_cons_of_ne {a b : UInt8} (h : a ≠ b) (p s : Text) :
    cut? (a :: p) (b :: s) =
      (cut? (a :: p) s).map (Prod.map (b :: ·) id) := by
  rw [cut?, afterPrefix?_of_ne h]
  rfl

theorem cut?_withCarriages {sep : Text} (hne : sep ≠ []) (hsep : forall b, b ∈ sep -> IsInline b)
    (s : Text) : cut? sep (withCarriages s) =
      (cut? sep s).map (Prod.map withCarriages withCarriages) := by
  rcases List.exists_cons_of_ne_nil hne with ⟨a, p, rfl⟩
  have ha := hsep a List.mem_cons_self
  induction s using lineInduction with
  | nil => rfl
  | newline s ih =>
      rw [withCarriages_newline, cut?_cons_of_ne ha.2, cut?_cons_of_ne ha.1, cut?_cons_of_ne ha.1,
        ih]
      simp only [Option.map_map]
      rfl
  | inline b s hb ih =>
      have hfound := afterPrefix?_withCarriages hsep (b :: s)
      rw [withCarriages_cons hb] at hfound ⊢
      rw [cut?, cut?, hfound, ih]
      cases afterPrefix? (a :: p) (b :: s) with
      | some after => rfl
      | none =>
          simp only [Option.map_none, Option.map_map]
          congr 1
          funext parts
          simp only [Function.comp_apply, Prod.map, withCarriages_cons hb]

theorem includes_withCarriages {sep : Text} (hne : sep ≠ [])
    (hsep : forall b, b ∈ sep -> IsInline b) (s : Text) :
    includes (withCarriages s) sep = includes s sep := by
  rw [includes, includes, cut?_withCarriages hne hsep, Option.isSome_map]

/-!
# Lines
-/

theorem subset_of_mem_lines {l s : Text} (h : l ∈ lines s) : l ⊆ s := by
  rcases List.append_of_mem h with ⟨ks, ls, hlines⟩
  rw [← unlines_lines s, hlines, unlines_append_cons]
  exact fun b hb => List.mem_append_right _ (List.mem_append_left _ hb)

/-- The lines with a carriage return at the end of each but the last. -/
def carriedLines : List Text -> List Text
  | [] => []
  | [l] => [l]
  | l :: k :: ls => (l ++ [Byte.carriage]) :: carriedLines (k :: ls)

theorem carriedLines_cons {ls : List Text} (h : ls ≠ []) (l : Text) :
    carriedLines (l :: ls) = (l ++ [Byte.carriage]) :: carriedLines ls := by
  cases ls with
  | nil => exact absurd rfl h
  | cons k ls => rfl

theorem carriedLines_append {ls : List Text} (h : ls ≠ []) (ks : List Text) :
    carriedLines (ks ++ ls) = ks.map (· ++ [Byte.carriage]) ++ carriedLines ls := by
  induction ks with
  | nil => rfl
  | cons k ks ih =>
      rw [List.cons_append, carriedLines_cons (List.append_ne_nil_of_right_ne_nil ks h), ih]
      rfl

theorem carriedLines_ne_nil {ls : List Text} (h : ls ≠ []) : carriedLines ls ≠ [] := by
  cases ls with
  | nil => exact absurd rfl h
  | cons l ls =>
      cases ls with
      | nil => exact List.cons_ne_nil _ _
      | cons k ls => exact List.cons_ne_nil _ _

theorem unlines_map_carried {ls : List Text} (hne : ls ≠ [])
    (hls : forall l, l ∈ ls -> Byte.newline ∉ l) :
    unlines (ls.map (· ++ [Byte.carriage])) = withCarriages (unlines ls) ++ [Byte.carriage] := by
  induction ls with
  | nil => exact absurd rfl hne
  | cons l ls ih =>
      rcases List.forall_mem_cons.mp hls with ⟨hl, hls⟩
      by_cases h : ls = []
      · subst h
        rw [List.map_singleton, unlines_singleton, unlines_singleton, withCarriages_eq_self hl]
      · rw [List.map_cons, unlines_cons (by simpa using h), unlines_cons h, ih h hls,
          withCarriages_append, withCarriages_eq_self hl, withCarriages_newline]
        simp

theorem unlines_carriedLines {ls : List Text} (hls : forall l, l ∈ ls -> Byte.newline ∉ l) :
    unlines (carriedLines ls) = withCarriages (unlines ls) := by
  induction ls with
  | nil => rfl
  | cons l ls ih =>
      rcases List.forall_mem_cons.mp hls with ⟨hl, hls⟩
      by_cases h : ls = []
      · subst h
        rw [carriedLines, unlines_singleton, withCarriages_eq_self hl]
      · rw [carriedLines_cons h, unlines_cons (carriedLines_ne_nil h), unlines_cons h, ih hls,
          withCarriages_append, withCarriages_eq_self hl, withCarriages_newline]
        simp

theorem mem_carriedLines {l : Text} {ls : List Text} (h : l ∈ carriedLines ls) :
    exists k, k ∈ ls ∧ (l = k ∨ l = k ++ [Byte.carriage]) := by
  fun_induction carriedLines ls with
  | case1 => cases h
  | case2 => exact ⟨_, List.mem_cons_self, Or.inl (List.mem_singleton.mp h)⟩
  | case3 k k' ls ih =>
      rcases List.mem_cons.mp h with heq | h
      · exact ⟨k, List.mem_cons_self, Or.inr heq⟩
      · rcases ih h with ⟨k'', hmem, heq⟩
        exact ⟨k'', List.mem_cons_of_mem k hmem, heq⟩

theorem lines_withCarriages (s : Text) : lines (withCarriages s) = carriedLines (lines s) := by
  have hls : forall l, l ∈ lines s -> Byte.newline ∉ l := fun l hl => not_mem_of_mem_lines hl
  conv_lhs => rw [← unlines_lines s]
  rw [← unlines_carriedLines hls, lines_unlines (carriedLines_ne_nil (lines_ne_nil s))]
  intro l hl
  rcases mem_carriedLines hl with ⟨k, hk, rfl | rfl⟩
  · exact hls l hk
  · rw [List.mem_append, not_or]
    exact ⟨hls k hk, by decide⟩

/-!
# Plain line ends again
-/

def withoutCarriages (s : Text) : Text :=
  replaceAll "\r\n" "\n" s

theorem withoutCarriages_cons {b : UInt8} (hb : b ≠ Byte.carriage) (s : Text) :
    withoutCarriages (b :: s) = b :: withoutCarriages s := by
  have hstart : List.isPrefixOf (ofString "\r\n") (b :: s) = false := by
    rw [show ofString "\r\n" = [Byte.carriage, Byte.newline] by decide, List.isPrefixOf_cons_cons,
      beq_false_of_ne (Ne.symm hb), Bool.false_and]
  rw [withoutCarriages, replaceAll, replaceFrom, hstart]
  rfl

theorem withoutCarriages_append {l : Text} (hl : Byte.carriage ∉ l) (s : Text) :
    withoutCarriages (l ++ s) = l ++ withoutCarriages s := by
  induction l with
  | nil => rfl
  | cons b l ih =>
      rcases not_or.mp (mt List.mem_cons.mpr hl) with ⟨hb, hl⟩
      rw [List.cons_append, withoutCarriages_cons (Ne.symm hb), ih hl, List.cons_append]

theorem withoutCarriages_newline (s : Text) :
    withoutCarriages (Byte.carriage :: Byte.newline :: s) =
      Byte.newline :: withoutCarriages s := rfl

theorem withoutCarriages_eq_self {s : Text} (hs : Byte.carriage ∉ s) : withoutCarriages s = s := by
  have happend := withoutCarriages_append hs []
  rwa [List.append_nil, show withoutCarriages [] = [] from rfl, List.append_nil] at happend

theorem withoutCarriages_withCarriages {s : Text} (hs : Byte.carriage ∉ s) :
    withoutCarriages (withCarriages s) = s := by
  induction s using lineInduction with
  | nil => rfl
  | newline s ih =>
      rw [withCarriages_newline, withoutCarriages_newline,
        ih fun hmem => hs (List.mem_cons_of_mem _ hmem)]
  | inline b s hb ih =>
      rcases not_or.mp (mt List.mem_cons.mpr hs) with ⟨hbc, hs⟩
      rw [withCarriages_cons hb, withoutCarriages_cons (Ne.symm hbc), ih hs]

/-- The second list has the lines of the first, some but the last with a carriage return at the
end. -/
inductive Carries : List Text -> List Text -> Prop where
  | last (l : Text) : Carries [l] [l]
  | plain (l : Text) {ls ks : List Text} : Carries ls ks -> Carries (l :: ls) (l :: ks)
  | carried (l : Text) {ls ks : List Text} : Carries ls ks ->
      Carries (l :: ls) ((l ++ [Byte.carriage]) :: ks)

theorem Carries.refl {ls : List Text} (h : ls ≠ []) : Carries ls ls := by
  induction ls with
  | nil => exact absurd rfl h
  | cons l ls ih =>
      by_cases hls : ls = []
      · subst hls
        exact Carries.last l
      · exact Carries.plain l (ih hls)

theorem Carries.append_left (xs : List Text) {ls ks : List Text} (h : Carries ls ks) :
    Carries (xs ++ ls) (xs ++ ks) := by
  induction xs with
  | nil => exact h
  | cons x xs ih => exact Carries.plain x ih

theorem Carries.ne_nil {ls ks : List Text} (h : Carries ls ks) : ls ≠ [] ∧ ks ≠ [] := by
  cases h with
  | last => exact ⟨List.cons_ne_nil _ _, List.cons_ne_nil _ _⟩
  | plain => exact ⟨List.cons_ne_nil _ _, List.cons_ne_nil _ _⟩
  | carried => exact ⟨List.cons_ne_nil _ _, List.cons_ne_nil _ _⟩

theorem Carries.withoutCarriages {ls ks : List Text} (h : Carries ls ks)
    (hls : forall l, l ∈ ls -> Byte.carriage ∉ l) :
    Text.withoutCarriages (unlines ks) = unlines ls := by
  induction h with
  | last l => rw [unlines_singleton, withoutCarriages_eq_self (hls l List.mem_cons_self)]
  | @plain l ls ks h ih =>
      rcases List.forall_mem_cons.mp hls with ⟨hl, hls⟩
      rw [unlines_cons h.ne_nil.2, unlines_cons h.ne_nil.1, withoutCarriages_append hl,
        withoutCarriages_cons (by decide), ih hls]
  | @carried l ls ks h ih =>
      rcases List.forall_mem_cons.mp hls with ⟨hl, hls⟩
      rw [unlines_cons h.ne_nil.2, unlines_cons h.ne_nil.1, List.append_assoc,
        withoutCarriages_append hl, List.singleton_append, withoutCarriages_newline, ih hls]

end Text

end EffectShader
