import EffectShader.Proofs.Text.Search
import EffectShader.Text.Blank
import Mathlib.Data.List.Find

/-!
# Trimmed texts

Trimming removes white space from both ends of a text.  What it leaves has none
at either end, and this does not change when other bytes are put in front.
-/

namespace EffectShader

namespace Text

/-!
# Dropping white space
-/

theorem dropBlanks_eq_self_of_none {spellings : List Text} {b : UInt8} {s : Text}
    (h : blankExtent? spellings b s = none) : dropBlanks spellings (b :: s) = b :: s := by
  rw [dropBlanks, h]

theorem blankExtent?_of_dropBlanks {spellings : List Text} {s : Text} {b : UInt8} {r : Text}
    (h : dropBlanks spellings s = b :: r) : blankExtent? spellings b r = none := by
  fun_induction dropBlanks spellings s with
  | case1 => cases h
  | case2 c s n hn ih => exact ih h
  | case3 c s hnone =>
      cases h
      exact hnone

theorem dropBlanks_dropBlanks (spellings : List Text) (s : Text) :
    dropBlanks spellings (dropBlanks spellings s) = dropBlanks spellings s := by
  cases h : dropBlanks spellings s with
  | nil => rw [dropBlanks]
  | cons b r => exact dropBlanks_eq_self_of_none (blankExtent?_of_dropBlanks h)

theorem dropBlanks_suffix (spellings : List Text) (s : Text) :
    dropBlanks spellings s <:+ s := by
  fun_induction dropBlanks spellings s with
  | case1 => exact List.suffix_rfl
  | case2 b s n hn ih =>
      exact (ih.trans (List.drop_suffix n s)).trans (List.suffix_cons b s)
  | case3 b s hnone => exact List.suffix_rfl

theorem blankExtent?_of_append {spellings : List Text} {b : UInt8} {s r : Text}
    (h : blankExtent? spellings b (s ++ r) = none) : blankExtent? spellings b s = none := by
  unfold blankExtent? at h ⊢
  split at h
  · rename_i hascii
    rw [if_pos hascii]
  · rename_i hascii
    rw [if_neg hascii]
    rw [Option.map_eq_none_iff, List.find?_eq_none] at h ⊢
    intro w hw hprefix
    apply h w hw
    rw [List.isPrefixOf_iff_prefix] at hprefix ⊢
    exact hprefix.trans (List.prefix_append (b :: s) r)

/-!
# Trimmed at the left
-/

theorem trimLeft_trimLeft (s : Text) : trimLeft (trimLeft s) = trimLeft s :=
  dropBlanks_dropBlanks blankSpellings s

theorem trimLeft_of_append {s r : Text} (h : trimLeft (s ++ r) = s ++ r) : trimLeft s = s := by
  cases s with
  | nil => rw [trimLeft, dropBlanks]
  | cons b s =>
    exact dropBlanks_eq_self_of_none (blankExtent?_of_append (blankExtent?_of_dropBlanks h))

theorem trimLeft_space (s : Text) : trimLeft (Byte.space :: s) = trimLeft s := by
  have hextent : blankExtent? blankSpellings Byte.space s = some 0 := by
    cases s <;> rfl
  rw [trimLeft, dropBlanks, hextent]
  rfl

/-!
# Trimmed at the right
-/

theorem trimRight_isPrefix (s : Text) : trimRight s <+: s := by
  unfold trimRight
  split
  · rw [← List.reverse_suffix, List.reverse_reverse]
    exact dropBlanks_suffix reversedBlankSpellings s.reverse
  · exact List.prefix_rfl

theorem trimRight_trimRight (s : Text) : trimRight (trimRight s) = trimRight s := by
  by_cases hlast : s.getLast?.any mayEndBlank
  · have hs : trimRight s = (dropBlanks reversedBlankSpellings s.reverse).reverse := by
      rw [trimRight, if_pos hlast]
    rw [hs]
    unfold trimRight
    split
    · rw [List.reverse_reverse, dropBlanks_dropBlanks]
    · rfl
  · have hs : trimRight s = s := by rw [trimRight, if_neg hlast]
    rw [hs, hs]

theorem space_mem_reversedBlankSpellings {w : Text} (hw : w ∈ reversedBlankSpellings)
    (hspace : Byte.space ∈ w) : w = [Byte.space] := by
  revert w
  decide

theorem isPrefixOf_append_space {w : Text} (hw : w ∈ reversedBlankSpellings) (b : UInt8)
    (s r : Text) : w.isPrefixOf (b :: (s ++ Byte.space :: r)) = w.isPrefixOf (b :: s) := by
  by_cases hspace : Byte.space ∈ w
  · rw [space_mem_reversedBlankSpellings hw hspace]
    simp [List.isPrefixOf]
  · exact isPrefixOf_append_stop hspace (b :: s) r

theorem blankExtent?_append_space {b : UInt8} {s : Text}
    (h : blankExtent? reversedBlankSpellings b s = none) (r : Text) :
    blankExtent? reversedBlankSpellings b (s ++ Byte.space :: r) = none := by
  unfold blankExtent? at h ⊢
  split at h
  · rename_i hascii
    rw [if_pos hascii]
  · rename_i hascii
    rw [if_neg hascii]
    rw [Option.map_eq_none_iff, List.find?_eq_none] at h ⊢
    intro w hw
    rw [isPrefixOf_append_space hw]
    exact h w hw

/-- Words in front of a text that is trimmed at the right leave it so. -/
theorem trimRight_append_space {t : Text} (ht : trimRight t = t) (hne : t ≠ []) (r : Text) :
    trimRight (r ++ Byte.space :: t) = r ++ Byte.space :: t := by
  have hlast : (r ++ Byte.space :: t).getLast? = t.getLast? := by
    rw [List.getLast?_append]
    cases t with
    | nil => exact absurd rfl hne
    | cons b t => simp [List.getLast?_cons]
  unfold trimRight at ht ⊢
  rw [hlast]
  split at ht
  · rename_i hblank
    rw [if_pos hblank]
    have hdrop : dropBlanks reversedBlankSpellings t.reverse = t.reverse := by
      rw [← List.reverse_inj, List.reverse_reverse]
      exact ht
    have hrev : (r ++ Byte.space :: t).reverse = t.reverse ++ Byte.space :: r.reverse := by
      simp
    cases hcons : t.reverse with
    | nil => exact absurd (List.reverse_eq_nil_iff.mp hcons) hne
    | cons b s =>
        rw [hcons] at hdrop
        have hnone := blankExtent?_append_space (blankExtent?_of_dropBlanks hdrop) r.reverse
        rw [hrev, hcons, List.cons_append, dropBlanks_eq_self_of_none hnone, ← List.cons_append,
          ← hcons, ← hrev, List.reverse_reverse]
  · rename_i hblank
    rw [if_neg hblank]

/-!
# Trimmed texts
-/

theorem dropBlanks_length_lt {spellings : List Text} {b : UInt8} {s : Text} {n : Nat}
    (h : blankExtent? spellings b s = some n) :
    (dropBlanks spellings (b :: s)).length < (b :: s).length := by
  rw [dropBlanks, h]
  have hlen := length_dropBlanks_le spellings (s.drop n)
  rw [List.length_drop] at hlen
  show (dropBlanks spellings (s.drop n)).length < s.length + 1
  omega

theorem getLast?_ne_carriage {t : Text} (ht : trimRight t = t) :
    t.getLast? ≠ some Byte.carriage := by
  intro hlast
  rcases List.eq_nil_or_concat t with rfl | ⟨s, c, rfl⟩
  · cases hlast
  · rw [List.concat_eq_append, List.getLast?_concat] at hlast
    have hc : c = Byte.carriage := Option.some.inj hlast
    subst hc
    have hextent : blankExtent? reversedBlankSpellings Byte.carriage s.reverse = some 0 := by
      cases s.reverse <;> rfl
    have hlt := dropBlanks_length_lt hextent
    have hlen := congrArg List.length ht
    rw [trimRight, List.concat_eq_append, List.getLast?_concat,
      if_pos (show (some Byte.carriage).any mayEndBlank = true from rfl), List.reverse_append,
      List.length_reverse] at hlen
    simp at hlt hlen
    omega

theorem trimLeft_trim (s : Text) : trimLeft (trim s) = trim s := by
  rcases trimRight_isPrefix (trimLeft s) with ⟨r, hr⟩
  unfold trim
  apply trimLeft_of_append (r := r)
  rw [hr, trimLeft_trimLeft]

theorem trimRight_trim (s : Text) : trimRight (trim s) = trim s :=
  trimRight_trimRight (trimLeft s)

theorem trim_infix (s : Text) : trim s <:+: s :=
  (trimRight_isPrefix (trimLeft s)).isInfix.trans (dropBlanks_suffix blankSpellings s).isInfix

/-!
# White space around a text
-/

theorem blankExtent?_of_mem {c : UInt8} (hc : [c] ∈ blankSpellings) (s : Text) :
    blankExtent? blankSpellings c s = some 0 ∧
    blankExtent? reversedBlankSpellings c s = some 0 := by
  have hcases : c = 0x09 ∨ c = 0x0A ∨ c = 0x0B ∨ c = 0x0C ∨ c = 0x0D ∨ c = 0x20 := by
    simpa [blankSpellings] using hc
  rcases hcases with rfl | rfl | rfl | rfl | rfl | rfl <;> cases s <;> exact ⟨rfl, rfl⟩

theorem mayEndBlank_of_mem {c : UInt8} (hc : [c] ∈ blankSpellings) : mayEndBlank c = true := by
  have hcases : c = 0x09 ∨ c = 0x0A ∨ c = 0x0B ∨ c = 0x0C ∨ c = 0x0D ∨ c = 0x20 := by
    simpa [blankSpellings] using hc
  rcases hcases with rfl | rfl | rfl | rfl | rfl | rfl <;> rfl

theorem dropBlanks_append {spellings : List Text} {x : Text}
    (hx : forall c, c ∈ x -> forall s, blankExtent? spellings c s = some 0) (s : Text) :
    dropBlanks spellings (x ++ s) = dropBlanks spellings s := by
  induction x with
  | nil => rfl
  | cons c x ih =>
      rw [List.cons_append, dropBlanks, hx c List.mem_cons_self]
      dsimp only
      rw [List.drop_zero]
      exact ih fun d hd => hx d (List.mem_cons_of_mem c hd)

theorem dropBlanks_of_head? {spellings : List Text} {s : Text}
    (h : forall c, s.head? = some c -> mayEndBlank c = false) : dropBlanks spellings s = s := by
  cases s with
  | nil => rw [dropBlanks]
  | cons b s =>
      apply dropBlanks_eq_self_of_none
      have hb : ¬ b ≤ 0x20 ∧ ¬ 0x80 ≤ b := by
        simpa [mayEndBlank] using h b rfl
      unfold blankExtent?
      rw [if_pos]
      simp only [Bool.and_eq_true, decide_eq_true_eq]
      exact ⟨UInt8.not_le.mp hb.1, UInt8.not_le.mp hb.2⟩

theorem trimRight_append {m y : Text} (hy : forall c, c ∈ y -> [c] ∈ blankSpellings)
    (hm : forall c, m.getLast? = some c -> mayEndBlank c = false) : trimRight (m ++ y) = m := by
  rcases List.eq_nil_or_concat y with rfl | ⟨z, c, rfl⟩
  · rw [List.append_nil, trimRight, if_neg]
    cases hlast : m.getLast? with
    | none => simp
    | some c => simpa using hm c hlast
  · have hc : (some c).any mayEndBlank = true := mayEndBlank_of_mem (hy c (by simp))
    rw [trimRight, List.concat_eq_append, ← List.append_assoc, List.getLast?_concat, if_pos hc,
      List.append_assoc, List.reverse_append, dropBlanks_append, dropBlanks_of_head?,
      List.reverse_reverse]
    · intro d hd
      rw [List.head?_reverse] at hd
      exact hm d hd
    · intro d hd
      rw [List.mem_reverse] at hd
      exact fun s => (blankExtent?_of_mem (hy d (by simpa using hd)) s).2

theorem trim_append {x m y : Text} (hx : forall c, c ∈ x -> [c] ∈ blankSpellings)
    (hy : forall c, c ∈ y -> [c] ∈ blankSpellings)
    (hhead : forall c, m.head? = some c -> mayEndBlank c = false)
    (hlast : forall c, m.getLast? = some c -> mayEndBlank c = false) :
    trim (x ++ (m ++ y)) = m := by
  unfold trim trimLeft
  rw [dropBlanks_append fun c hc s => (blankExtent?_of_mem (hx c hc) s).1]
  cases m with
  | nil =>
      rw [List.nil_append, ← List.append_nil y,
        dropBlanks_append fun c hc s => (blankExtent?_of_mem (hy c hc) s).1, dropBlanks]
      rfl
  | cons b m =>
      rw [dropBlanks_of_head? (by simpa using hhead)]
      exact trimRight_append hy hlast

end Text

/-!
# Blank texts

A text is blank if it is spelled by white space characters alone.  Trimming takes
a blank text off either end, whatever stands on its other side.
-/

namespace Text

inductive Blank : Text -> Prop where
  | nil : Blank []
  | cons {w y : Text} : w ∈ blankSpellings -> Blank y -> Blank (w ++ y)

theorem Blank.append {x y : Text} (hx : Blank x) (hy : Blank y) : Blank (x ++ y) := by
  induction hx with
  | nil => exact hy
  | cons hw _ ih =>
      rw [List.append_assoc]
      exact Blank.cons hw ih

theorem blank_of_mem {y : Text} (h : forall c, c ∈ y -> [c] ∈ blankSpellings) : Blank y := by
  induction y with
  | nil => exact Blank.nil
  | cons c y ih =>
      rcases List.forall_mem_cons.mp h with ⟨hc, hy⟩
      exact Blank.cons hc (ih hy)

/-- The byte is not inside the spelling of a white space character. -/
def IsStop (c : UInt8) : Prop :=
  forall w, w ∈ blankSpellings -> c ∉ w.tail

instance (c : UInt8) : Decidable (IsStop c) :=
  inferInstanceAs (Decidable (forall w, w ∈ blankSpellings -> c ∉ w.tail))

/-- A spelling starts with a byte that is neither graphic nor inside a spelling. -/
theorem head_of_mem_blankSpellings {w : Text} (hw : w ∈ blankSpellings) {c : UInt8}
    (hc : w.head? = some c) : mayEndBlank c = true ∧ IsStop c := by
  have hall : (blankSpellings.all fun w =>
      w.head?.all fun c => mayEndBlank c && decide (IsStop c)) = true := by
    rfl
  simpa [hc] using List.all_eq_true.mp hall w hw

theorem Blank.head? {y : Text} (h : Blank y) {c : UInt8} (hc : y.head? = some c) :
    mayEndBlank c = true ∧ IsStop c := by
  have hne : forall w, w ∈ blankSpellings -> w ≠ [] := by decide
  cases h with
  | nil => cases hc
  | @cons w y hw _ =>
      apply head_of_mem_blankSpellings hw
      rw [List.head?_append] at hc
      cases w with
      | nil => exact absurd rfl (hne [] hw)
      | cons b w => exact hc

theorem exists_of_blankExtent? {spellings : List Text} (hne : [] ∉ spellings) {b : UInt8}
    {s : Text} {n : Nat} (h : blankExtent? spellings b s = some n) :
    b :: s.take n ∈ spellings ∧ n ≤ s.length := by
  unfold blankExtent? at h
  split at h
  · cases h
  · rcases Option.map_eq_some_iff.mp h with ⟨w, hfind, rfl⟩
    have hw := List.mem_of_find?_eq_some hfind
    have hprefix : w.isPrefixOf (b :: s) = true := by simpa using List.find?_some hfind
    rcases List.isPrefixOf_iff_prefix.mp hprefix with ⟨r, hr⟩
    cases w with
    | nil => exact absurd hw hne
    | cons a w =>
        cases hr
        simpa using hw

/-!
# At the left
-/

theorem blankExtent?_append_stop {c : UInt8} (hc : IsStop c) (b : UInt8) (s r : Text) :
    blankExtent? blankSpellings b (s ++ c :: r) = blankExtent? blankSpellings b s := by
  unfold blankExtent?
  congr 2
  apply List.find?_congr
  intro w hw
  cases w with
  | nil => rfl
  | cons a w =>
      have htail : c ∉ w := hc (a :: w) hw
      simp only [List.isPrefixOf, isPrefixOf_append_stop htail]

theorem trimLeft_append_stop {c : UInt8} (hc : IsStop c) (p r : Text) :
    trimLeft (p ++ c :: r) =
      if trimLeft p = [] then trimLeft (c :: r) else trimLeft p ++ c :: r := by
  unfold trimLeft
  fun_induction dropBlanks blankSpellings p with
  | case1 => rfl
  | case2 b s n hn ih =>
      have hle : n ≤ s.length := (exists_of_blankExtent? (by decide) hn).2
      rw [List.cons_append, dropBlanks, blankExtent?_append_stop hc, hn]
      dsimp only
      rw [List.drop_append_of_le_length hle]
      exact ih
  | case3 b s hnone =>
      rw [List.cons_append, dropBlanks, blankExtent?_append_stop hc, hnone]
      rfl

/-!
# At the right
-/

theorem eq_of_isPrefix {spellings : List Text}
    (hfree : forall v, v ∈ spellings -> forall w, w ∈ spellings -> v.isPrefixOf w = true -> v = w)
    {v w s : Text} (hv : v ∈ spellings) (hw : w ∈ spellings) (hvs : v <+: s) (hws : w <+: s) :
    v = w := by
  rcases List.prefix_or_prefix_of_prefix hvs hws with h | h
  · exact hfree v hv w hw (List.isPrefixOf_iff_prefix.mpr h)
  · exact (hfree w hw v hv (List.isPrefixOf_iff_prefix.mpr h)).symm

theorem dropBlanks_spelling {spellings : List Text} (hne : [] ∉ spellings)
    (hfree : forall v, v ∈ spellings -> forall w, w ∈ spellings -> v.isPrefixOf w = true -> v = w)
    (hblank : forall w, w ∈ spellings -> forall c, w.head? = some c -> mayEndBlank c = true)
    {w : Text} (hw : w ∈ spellings) (s : Text) :
    dropBlanks spellings (w ++ s) = dropBlanks spellings s := by
  cases w with
  | nil => exact absurd hw hne
  | cons b w =>
      have hb := hblank (b :: w) hw b rfl
      have hfind : spellings.find? (fun v => v.isPrefixOf (b :: (w ++ s))) = some (b :: w) := by
        have hself : List.isPrefixOf (b :: w) (b :: (w ++ s)) = true :=
          List.isPrefixOf_iff_prefix.mpr (List.prefix_append (b :: w) s)
        cases hcase : spellings.find? (fun v => v.isPrefixOf (b :: (w ++ s))) with
        | none => exact absurd hself (List.find?_eq_none.mp hcase _ hw)
        | some v =>
            have hv : v.isPrefixOf (b :: (w ++ s)) = true := by simpa using List.find?_some hcase
            rw [eq_of_isPrefix hfree (List.mem_of_find?_eq_some hcase) hw
              (List.isPrefixOf_iff_prefix.mp hv) (List.isPrefixOf_iff_prefix.mp hself)]
      have hextent : blankExtent? spellings b (w ++ s) = some w.length := by
        unfold blankExtent?
        rw [if_neg, hfind]
        · rfl
        · simp only [mayEndBlank, Bool.or_eq_true, decide_eq_true_eq] at hb
          simp only [Bool.and_eq_true, decide_eq_true_eq, not_and]
          intro hlow hhigh
          rcases hb with hb | hb
          · exact absurd hlow (UInt8.not_lt.mpr hb)
          · exact absurd hhigh (UInt8.not_lt.mpr hb)
      rw [List.cons_append, dropBlanks, hextent]
      simp only [List.drop_left]

theorem trimRight_eq (s : Text) :
    trimRight s = (dropBlanks reversedBlankSpellings s.reverse).reverse := by
  unfold trimRight
  split
  · rfl
  · rename_i hlast
    rw [dropBlanks_of_head?, List.reverse_reverse]
    intro c hc
    rw [List.head?_reverse] at hc
    rw [hc] at hlast
    simpa using hlast

theorem free_of_all {spellings : List Text}
    (h : (spellings.all fun v => spellings.all fun w => !v.isPrefixOf w || v == w) = true) :
    forall v, v ∈ spellings -> forall w, w ∈ spellings -> v.isPrefixOf w = true -> v = w := by
  intro v hv w hw hstart
  have hpair := List.all_eq_true.mp (List.all_eq_true.mp h v hv) w hw
  simpa [hstart] using hpair

theorem blankSpellings_free : forall v, v ∈ blankSpellings -> forall w, w ∈ blankSpellings ->
    v.isPrefixOf w = true -> v = w :=
  free_of_all (by rfl)

theorem reversedBlankSpellings_free : forall v, v ∈ reversedBlankSpellings ->
    forall w, w ∈ reversedBlankSpellings -> v.isPrefixOf w = true -> v = w :=
  free_of_all (by rfl)

theorem head_of_mem_reversedBlankSpellings : forall w, w ∈ reversedBlankSpellings ->
    forall c, w.head? = some c -> mayEndBlank c = true := by
  have hall : (reversedBlankSpellings.all fun w => w.head?.all mayEndBlank) = true := by
    rfl
  intro w hw c hc
  simpa [hc] using List.all_eq_true.mp hall w hw

theorem trimRight_append_blank {y : Text} (hy : Blank y) (s : Text) :
    trimRight (s ++ y) = trimRight s := by
  induction hy generalizing s with
  | nil => rw [List.append_nil]
  | @cons w y hw _ ih =>
      have hrev : w.reverse ∈ reversedBlankSpellings := List.mem_map_of_mem hw
      rw [← List.append_assoc, ih, trimRight_eq, trimRight_eq, List.reverse_append,
        dropBlanks_spelling (by decide) reversedBlankSpellings_free
          head_of_mem_reversedBlankSpellings hrev]

theorem exists_blank_trimRight (s : Text) : exists y, Blank y ∧ s = trimRight s ++ y := by
  have hdrop : forall r : Text, exists y, Blank y ∧
      r.reverse = (dropBlanks reversedBlankSpellings r).reverse ++ y := by
    intro r
    fun_induction dropBlanks reversedBlankSpellings r with
    | case1 => exact ⟨[], Blank.nil, rfl⟩
    | case2 b s n hn ih =>
        rcases ih with ⟨y, hy, hs⟩
        have hmem := (exists_of_blankExtent? (by decide) hn).1
        rcases List.mem_map.mp hmem with ⟨w, hw, heq⟩
        refine ⟨y ++ w, hy.append ?_, ?_⟩
        · simpa using Blank.cons hw Blank.nil
        · have hw : w = (b :: s.take n).reverse := by rw [← heq, List.reverse_reverse]
          rw [← List.append_assoc, ← hs, hw, ← List.reverse_append]
          simp
    | case3 b s hnone => exact ⟨[], Blank.nil, by simp⟩
  rcases hdrop s.reverse with ⟨y, hy, hs⟩
  rw [List.reverse_reverse, ← trimRight_eq] at hs
  exact ⟨y, hy, hs⟩

theorem exists_blank_trimLeft (s : Text) : exists y, Blank y ∧ s = y ++ trimLeft s := by
  unfold trimLeft
  fun_induction dropBlanks blankSpellings s with
  | case1 => exact ⟨[], Blank.nil, rfl⟩
  | case2 b s n hn ih =>
      rcases ih with ⟨y, hy, hs⟩
      refine ⟨b :: s.take n ++ y, ?_, ?_⟩
      · exact Blank.cons (exists_of_blankExtent? (by decide) hn).1 hy
      · rw [List.append_assoc, ← hs, List.cons_append, List.take_append_drop]
  | case3 b s hnone => exact ⟨[], Blank.nil, rfl⟩

theorem Blank.trimLeft_eq {y : Text} (h : Blank y) : trimLeft y = [] := by
  induction h with
  | nil =>
      rw [trimLeft, dropBlanks]
  | @cons w y hw _ ih =>
      unfold trimLeft at ih ⊢
      rw [dropBlanks_spelling (by decide) blankSpellings_free
        (fun _ hw _ hc => (head_of_mem_blankSpellings hw hc).1) hw, ih]

theorem trim_append_blank {y : Text} (hy : Blank y) (s : Text) : trim (s ++ y) = trim s := by
  unfold trim
  cases y with
  | nil => rw [List.append_nil]
  | cons c r =>
      rw [trimLeft_append_stop (hy.head? rfl).2]
      split
      · rename_i hs
        rw [hy.trimLeft_eq, hs]
      · exact trimRight_append_blank hy (trimLeft s)

/-!
# Bytes at the end
-/

theorem dropEndWhile_eq (p : UInt8 -> Bool) (s : Text) :
    dropEndWhile p s = (s.reverse.dropWhile p).reverse := by
  unfold dropEndWhile
  split
  · rfl
  · rename_i hlast
    cases hs : s.reverse with
    | nil => simp_all
    | cons b r =>
        have hb : p b = false := by
          have hlast' : s.getLast? = some b := by
            rw [List.getLast?_eq_head?_reverse, hs]
            rfl
          simpa [hlast'] using hlast
        rw [List.dropWhile_cons_of_neg (by simp [hb]), ← hs, List.reverse_reverse]

theorem dropEndWhile_append {p : UInt8 -> Bool} {z : Text} (hz : forall c, c ∈ z -> p c = true)
    (s : Text) : dropEndWhile p (s ++ z) = dropEndWhile p s := by
  rw [dropEndWhile_eq, dropEndWhile_eq, List.reverse_append]
  rw [List.dropWhile_append_of_pos]
  intro c hc
  exact hz c (List.mem_reverse.mp hc)

end Text

end EffectShader
