import EffectShader.Macro.Literal
import EffectShader.Proofs.Token.FirstLine
import Mathlib.Data.List.SplitBy

/-!
# Replacing identifiers

The identifiers of a text are its maximal runs of word bytes.  Replacing some of them
leaves the bytes around them, so the identifiers of the result are those that are left
and those of the replacements.  One substitution after the other is therefore a single
one, and replacing one name in a text is a substitution as well.
-/

namespace EffectShader

namespace Occurrence

structure IsName (name : Text) : Prop where
  start : name.head?.any Byte.isWordStart = true
  word : forall b, b ∈ name -> Byte.isWord b = true

instance (name : Text) : Decidable (IsName name) :=
  decidable_of_iff (name.head?.any Byte.isWordStart = true ∧ name.all Byte.isWord = true)
    ⟨fun h => ⟨h.1, List.all_eq_true.mp h.2⟩, fun h => ⟨h.start, List.all_eq_true.mpr h.word⟩⟩

theorem IsName.exists_cons {name : Text} (h : IsName name) :
    exists b s, name = b :: s ∧ Byte.isWord b = true := by
  cases name with
  | nil => exact absurd h.start (by decide)
  | cons b s => exact ⟨b, s, rfl, h.word b List.mem_cons_self⟩

theorem isName_leadingName {s : Text} (h : leadingName s ≠ []) : IsName (leadingName s) := by
  cases s with
  | nil => exact absurd rfl h
  | cons b s =>
      rw [leadingName] at h ⊢
      split
      · rename_i hb
        refine ⟨hb, List.forall_mem_cons.mpr ⟨?_, fun c hc => List.mem_takeWhile_imp hc⟩⟩
        rw [Byte.isWord, hb, Bool.true_or]
      · rename_i hb
        exact absurd (if_neg hb) h

/-- The name stands in the text with no word byte beside it. -/
def Occurs (name s : Text) : Prop :=
  exists before after, s = before ++ (name ++ after) ∧
    before.getLast?.any Byte.isWord = false ∧ after.head?.any Byte.isWord = false

/-!
# Words
-/

def words : Text -> List Text
  | [] => []
  | b :: s =>
      if Byte.isWord b then (b :: s.takeWhile Byte.isWord) :: words (s.dropWhile Byte.isWord)
      else words s
  termination_by s => s.length
  decreasing_by
  · have := (List.dropWhile_sublist (l := s) Byte.isWord).length_le
    simp only [List.length_cons]
    omega
  · simp

theorem words_nil : words [] = [] := by
  rw [words]

theorem words_of_isWord {b : UInt8} (h : Byte.isWord b = true) (s : Text) :
    words (b :: s) = (b :: s.takeWhile Byte.isWord) :: words (s.dropWhile Byte.isWord) := by
  rw [words, if_pos h]

theorem words_of_not_isWord {b : UInt8} (h : Byte.isWord b = false) (s : Text) :
    words (b :: s) = words s := by
  rw [words, h, if_neg Bool.false_ne_true]

theorem head?_dropWhile (p : UInt8 -> Bool) (s : Text) : (s.dropWhile p).head?.any p = false := by
  have hhead := List.head?_dropWhile_not p s
  cases hs : (s.dropWhile p).head? with
  | none => rfl
  | some c =>
      rw [hs] at hhead
      exact hhead

theorem isWord_of_mem_run {b : UInt8} (hb : Byte.isWord b = true) {s : Text} :
    forall c, c ∈ b :: s.takeWhile Byte.isWord -> Byte.isWord c = true :=
  List.forall_mem_cons.mpr ⟨hb, fun _ hc => List.mem_takeWhile_imp hc⟩

theorem run_append {y : Text} (hy : y.head?.any Byte.isWord = false) (s : Text) :
    (s ++ y).takeWhile Byte.isWord = s.takeWhile Byte.isWord ∧
      (s ++ y).dropWhile Byte.isWord = s.dropWhile Byte.isWord ++ y := by
  apply Directive.takeWhile_append_of_head
  intro c hc
  rwa [hc] at hy

theorem isWord_of_mem_words {s w : Text} (h : w ∈ words s) :
    w ≠ [] ∧ forall b, b ∈ w -> Byte.isWord b = true := by
  fun_induction words s with
  | case1 => cases h
  | case2 b s hb ih =>
      rcases List.mem_cons.mp h with rfl | h
      · exact ⟨List.cons_ne_nil _ _, isWord_of_mem_run hb⟩
      · exact ih h
  | case3 b s hb ih => exact ih h

theorem words_append {y : Text} (hy : y.head?.any Byte.isWord = false) (s : Text) :
    words (s ++ y) = words s ++ words y := by
  fun_induction words s with
  | case1 => rfl
  | case2 b s hb ih =>
      rw [List.cons_append, words_of_isWord hb, (run_append hy s).1, (run_append hy s).2, ih]
      rfl
  | case3 b s hb ih => rw [List.cons_append, words_of_not_isWord (by simpa using hb), ih]

theorem words_word {w : Text} (hne : w ≠ []) (hw : forall b, b ∈ w -> Byte.isWord b = true) :
    words w = [w] := by
  cases w with
  | nil => exact absurd rfl hne
  | cons b s =>
      rcases List.forall_mem_cons.mp hw with ⟨hb, hs⟩
      rw [words_of_isWord hb, List.takeWhile_eq_self_iff.mpr hs, List.dropWhile_eq_nil_iff.mpr hs,
        words_nil]

theorem occurs_skip {b : UInt8} (hb : Byte.isWord b = false) {name : Text} (hname : IsName name)
    (s : Text) : Occurs name (b :: s) ↔ Occurs name s := by
  constructor
  · rintro ⟨before, after, heq, hbefore, hafter⟩
    cases before with
    | nil =>
        rcases hname.exists_cons with ⟨c, t, rfl, hc⟩
        cases heq
        rw [hb] at hc
        cases hc
    | cons c before =>
        cases heq
        refine ⟨before, after, rfl, ?_, hafter⟩
        cases before with
        | nil => rfl
        | cons d before => rwa [List.getLast?_cons_cons] at hbefore
  · rintro ⟨before, after, rfl, hbefore, hafter⟩
    refine ⟨b :: before, after, rfl, ?_, hafter⟩
    cases before with
    | nil => exact hb
    | cons d before => rwa [List.getLast?_cons_cons]

theorem occurs_word {w r name : Text} (hne : w ≠ []) (hw : forall b, b ∈ w -> Byte.isWord b = true)
    (hr : r.head?.any Byte.isWord = false) (hname : IsName name) :
    Occurs name (w ++ r) ↔ name = w ∨ Occurs name r := by
  have hlast {x : Text} (hx : x ≠ []) (hsub : x ⊆ w) : x.getLast?.any Byte.isWord = true := by
    rw [List.getLast?_eq_some_getLast hx]
    exact hw _ (hsub (List.getLast_mem hx))
  constructor
  · rintro ⟨before, after, heq, hbefore, hafter⟩
    rcases List.append_eq_append_iff.mp heq with ⟨c, rfl, hrest⟩ | ⟨c, hcut, hrest⟩
    · by_cases hc : c = []
      · subst hc
        rw [List.append_nil, hlast hne (List.Subset.refl w)] at hbefore
        cases hbefore
      · refine Or.inr ⟨c, after, hrest, ?_, hafter⟩
        rwa [List.getLast?_append_of_ne_nil _ hc] at hbefore
    · by_cases hnil : before = []
      · subst hnil
        left
        have hname' := (run_append hafter name).1
        have hword := (run_append hr w).1
        rw [List.nil_append] at heq
        rw [← heq, hword, List.takeWhile_eq_self_iff.mpr hw,
          List.takeWhile_eq_self_iff.mpr hname.word] at hname'
        exact hname'.symm
      · rw [hlast hnil (hcut ▸ List.subset_append_left before c)] at hbefore
        cases hbefore
  · rintro (rfl | ⟨before, after, rfl, hbefore, hafter⟩)
    · exact ⟨[], r, rfl, rfl, hr⟩
    · refine ⟨w ++ before, after, (List.append_assoc ..).symm, ?_, hafter⟩
      by_cases hnil : before = []
      · subst hnil
        rcases hname.exists_cons with ⟨c, t, rfl, hc⟩
        exact absurd hr (by simp [hc])
      · rwa [List.getLast?_append_of_ne_nil _ hnil]

theorem occurs_iff {name : Text} (hname : IsName name) (s : Text) :
    Occurs name s ↔ name ∈ words s := by
  fun_induction words s with
  | case1 =>
      apply iff_of_false _ List.not_mem_nil
      rintro ⟨before, after, heq, _⟩
      rcases hname.exists_cons with ⟨c, t, rfl, _⟩
      simp at heq
  | case2 b s hb ih =>
      have hsplit : b :: s = (b :: s.takeWhile Byte.isWord) ++ s.dropWhile Byte.isWord := by
        rw [List.cons_append, List.takeWhile_append_dropWhile]
      rw [List.mem_cons, ← ih, hsplit]
      exact occurs_word (List.cons_ne_nil _ _) (isWord_of_mem_run hb)
        (head?_dropWhile Byte.isWord s) hname
  | case3 b s hb ih =>
      rw [← ih]
      exact occurs_skip (by simpa using hb) hname s

/-!
# Substitutions
-/

variable {f g : Text -> Option Text}

theorem substitute_nil : substitute f [] = [] := by
  rw [substitute]

def image (f : Text -> Option Text) (w : Text) : Text :=
  if w.head?.any Byte.isWordStart then (f w).getD w else w

theorem substitute_of_isWord {b : UInt8} (h : Byte.isWord b = true) (s : Text) :
    substitute f (b :: s) =
      image f (b :: s.takeWhile Byte.isWord) ++ substitute f (s.dropWhile Byte.isWord) := by
  rw [substitute, if_pos h]
  rfl

theorem substitute_of_not_isWord {b : UInt8} (h : Byte.isWord b = false) (s : Text) :
    substitute f (b :: s) = b :: substitute f s := by
  rw [substitute, h, if_neg Bool.false_ne_true]

theorem substitute_append {y : Text} (hy : y.head?.any Byte.isWord = false) (s : Text) :
    substitute f (s ++ y) = substitute f s ++ substitute f y := by
  fun_induction words s with
  | case1 => rw [substitute_nil, List.nil_append, List.nil_append]
  | case2 b s hb ih =>
      rw [List.cons_append, substitute_of_isWord hb, (run_append hy s).1, (run_append hy s).2, ih,
        substitute_of_isWord hb, List.append_assoc]
  | case3 b s hb ih =>
      have hb : Byte.isWord b = false := by simpa using hb
      rw [List.cons_append, substitute_of_not_isWord hb, ih, substitute_of_not_isWord hb,
        List.cons_append]

theorem substitute_word {w : Text} (hne : w ≠ []) (hw : forall b, b ∈ w -> Byte.isWord b = true) :
    substitute f w = image f w := by
  cases w with
  | nil => exact absurd rfl hne
  | cons b s =>
      rcases List.forall_mem_cons.mp hw with ⟨hb, hs⟩
      rw [substitute_of_isWord hb, List.takeWhile_eq_self_iff.mpr hs,
        List.dropWhile_eq_nil_iff.mpr hs, substitute_nil, List.append_nil]

theorem head?_substitute {s : Text} (hs : s.head?.any Byte.isWord = false) :
    (substitute f s).head? = s.head? := by
  cases s with
  | nil => rw [substitute_nil]
  | cons b s => rw [substitute_of_not_isWord hs, List.head?_cons, List.head?_cons]

theorem substitute_congr {s : Text} (h : forall w, w ∈ words s -> f w = g w) :
    substitute f s = substitute g s := by
  fun_induction words s with
  | case1 => rw [substitute_nil, substitute_nil]
  | case2 b s hb ih =>
      rcases List.forall_mem_cons.mp h with ⟨hw, hs⟩
      rw [substitute_of_isWord hb, substitute_of_isWord hb, ih hs, image, image, hw]
  | case3 b s hb ih =>
      have hb : Byte.isWord b = false := by simpa using hb
      rw [substitute_of_not_isWord hb, substitute_of_not_isWord hb, ih h]

theorem substitute_eq_self {s : Text} (h : forall w, w ∈ words s -> f w = none) :
    substitute f s = s := by
  fun_induction words s with
  | case1 => rw [substitute_nil]
  | case2 b s hb ih =>
      rcases List.forall_mem_cons.mp h with ⟨hw, hs⟩
      rw [substitute_of_isWord hb, ih hs, image, hw, Option.getD_none, ite_self, List.cons_append,
        List.takeWhile_append_dropWhile]
  | case3 b s hb ih => rw [substitute_of_not_isWord (by simpa using hb), ih h]

theorem words_substitute (f : Text -> Option Text) (s : Text) :
    words (substitute f s) = (words s).flatMap fun w => words (image f w) := by
  fun_induction words s with
  | case1 => rw [substitute_nil, words_nil, List.flatMap_nil]
  | case2 b s hb ih =>
      have hrest : (substitute f (s.dropWhile Byte.isWord)).head?.any Byte.isWord = false := by
        rw [head?_substitute (head?_dropWhile Byte.isWord s)]
        exact head?_dropWhile Byte.isWord s
      rw [substitute_of_isWord hb, words_append hrest, ih, List.flatMap_cons]
  | case3 b s hb ih =>
      have hb : Byte.isWord b = false := by simpa using hb
      rw [substitute_of_not_isWord hb, words_of_not_isWord hb, ih]

theorem occurs_of_substitute {name s : Text} (hname : IsName name)
    (h : Occurs name (substitute f s)) :
    Occurs name s ∧ f name = none ∨
      exists w r, w ∈ words s ∧ f w = some r ∧ Occurs name r := by
  rw [occurs_iff hname, words_substitute, List.mem_flatMap] at h
  rcases h with ⟨w, hw, hmem⟩
  have hkept (hmem : name ∈ words w) : name = w := by
    rcases isWord_of_mem_words hw with ⟨hne, hword⟩
    rwa [words_word hne hword, List.mem_singleton] at hmem
  unfold image at hmem
  split at hmem
  · cases hf : f w with
    | none =>
        rw [hf] at hmem
        have heq := hkept hmem
        subst heq
        exact Or.inl ⟨(occurs_iff hname s).mpr hw, hf⟩
    | some r =>
        rw [hf] at hmem
        exact Or.inr ⟨w, r, hw, hf, (occurs_iff hname r).mpr hmem⟩
  · rename_i hstart
    have heq := hkept hmem
    subst heq
    exact absurd hname.start hstart

/-- What stands for a word after the substitution of `g` and then that of `f`. -/
def chain (f g : Text -> Option Text) (w : Text) : Option Text :=
  ((g w).map (substitute f)).or (f w)

theorem substitute_image {w : Text} (hne : w ≠ [])
    (hw : forall b, b ∈ w -> Byte.isWord b = true) :
    substitute f (image g w) = image (chain f g) w := by
  have hword := substitute_word (f := f) hne hw
  unfold image at hword ⊢
  unfold chain
  split
  · rename_i hstart
    rw [if_pos hstart] at hword
    cases hg : g w with
    | none => rw [Option.getD_none, Option.map_none, Option.none_or, hword]
    | some r => rfl
  · rename_i hstart
    rwa [if_neg hstart] at hword

theorem substitute_substitute (f g : Text -> Option Text) (s : Text) :
    substitute f (substitute g s) = substitute (chain f g) s := by
  fun_induction words s with
  | case1 => rw [substitute_nil, substitute_nil, substitute_nil]
  | case2 b s hb ih =>
      have hrest : (substitute g (s.dropWhile Byte.isWord)).head?.any Byte.isWord = false := by
        rw [head?_substitute (head?_dropWhile Byte.isWord s)]
        exact head?_dropWhile Byte.isWord s
      rw [substitute_of_isWord hb, substitute_append hrest, ih, substitute_of_isWord hb,
        substitute_image (List.cons_ne_nil _ _) (isWord_of_mem_run hb)]
  | case3 b s hb ih =>
      have hb : Byte.isWord b = false := by simpa using hb
      rw [substitute_of_not_isWord hb, substitute_of_not_isWord hb, ih,
        substitute_of_not_isWord hb]

/-!
# Replacing one name
-/

/-- The substitution that replaces one name. -/
def only (name replacement w : Text) : Option Text :=
  if w = name then some replacement else none

section Replace

variable {name replacement : Text}

theorem after?_of_isWord {previous : UInt8} (h : Byte.isWord previous = true) (s : Text) :
    after? name previous s = none := by
  unfold after?
  cases Text.afterPrefix? name s with
  | none => rfl
  | some rest => simp [h]

theorem replaceFrom_skip (u s : Text) (previous : UInt8) :
    replaceFrom name replacement u.length previous (u ++ s) =
      replaceFrom name replacement 0 (u.getLast?.getD previous) s := by
  induction u generalizing previous with
  | nil => rfl
  | cons b u ih =>
      rw [List.length_cons, List.cons_append, replaceFrom, ih]
      cases u with
      | nil => rfl
      | cons c u => rfl

theorem replaceFrom_word {previous : UInt8} (h : Byte.isWord previous = true) {u : Text}
    (hu : forall b, b ∈ u -> Byte.isWord b = true) (s : Text) :
    replaceFrom name replacement 0 previous (u ++ s) =
      u ++ replaceFrom name replacement 0 (u.getLast?.getD previous) s := by
  induction u generalizing previous with
  | nil => rfl
  | cons b u ih =>
      rcases List.forall_mem_cons.mp hu with ⟨hb, hu⟩
      rw [List.cons_append, replaceFrom, after?_of_isWord h, Option.isSome_none,
        if_neg Bool.false_ne_true, ih hb hu]
      cases u with
      | nil => rfl
      | cons c u => rfl

variable (hname : IsName name)

include hname

theorem after?_of_head {s : Text} (h : s.head?.any Byte.isWord = false) (previous : UInt8) :
    after? name previous s = none := by
  rcases hname.exists_cons with ⟨b, t, rfl, hb⟩
  unfold after?
  cases hfound : Text.afterPrefix? (b :: t) s with
  | none => rfl
  | some rest =>
      rw [Text.eq_append_of_afterPrefix? hfound] at h
      rw [show (b :: t ++ rest).head?.any Byte.isWord = Byte.isWord b from rfl, hb] at h
      cases h

theorem after?_of_word {w r : Text} {previous : UInt8} (hprevious : Byte.isWord previous = false)
    (hw : forall b, b ∈ w -> Byte.isWord b = true) (hr : r.head?.any Byte.isWord = false) :
    (after? name previous (w ++ r)).isSome = true ↔ w = name := by
  constructor
  · intro h
    unfold after? at h
    split at h
    · cases h
    · rename_i rest hrest
      split at h
      · cases h
      · rename_i hword
        rw [Bool.or_eq_true, not_or, Bool.not_eq_true, Bool.not_eq_true] at hword
        have hrun := (run_append hword.2 name).1
        rwa [← Text.eq_append_of_afterPrefix? hrest, (run_append hr w).1,
          List.takeWhile_eq_self_iff.mpr hw, List.takeWhile_eq_self_iff.mpr hname.word] at hrun
  · rintro rfl
    unfold after?
    rw [Text.afterPrefix?_append]
    simp [hprevious, hr]

theorem replaceFrom_of_head {s : Text} (hs : s.head?.any Byte.isWord = false)
    (previous previous' : UInt8) :
    replaceFrom name replacement 0 previous s = replaceFrom name replacement 0 previous' s := by
  cases s with
  | nil => rw [replaceFrom, replaceFrom]
  | cons b s =>
      rw [replaceFrom, after?_of_head hname hs, replaceFrom, after?_of_head hname hs]

theorem replaceFrom_eq_substitute {previous : UInt8} (hprevious : Byte.isWord previous = false)
    (s : Text) :
    replaceFrom name replacement 0 previous s = substitute (only name replacement) s := by
  fun_induction words s generalizing previous with
  | case1 => rw [replaceFrom, substitute_nil]
  | case2 b s hb ih =>
      have hw := isWord_of_mem_run hb (s := s)
      have hsplit : b :: s = (b :: s.takeWhile Byte.isWord) ++ s.dropWhile Byte.isWord := by
        rw [List.cons_append, List.takeWhile_append_dropWhile]
      have hhead := head?_dropWhile Byte.isWord s
      have hfound := after?_of_word hname hprevious hw hhead
      rw [← hsplit] at hfound
      have hrest : forall previous, replaceFrom name replacement 0 previous
          (s.dropWhile Byte.isWord) = substitute (only name replacement)
          (s.dropWhile Byte.isWord) :=
        fun previous => (replaceFrom_of_head hname hhead previous Byte.newline).trans (ih rfl)
      rw [substitute_of_isWord hb, replaceFrom, image, only]
      by_cases heq : b :: s.takeWhile Byte.isWord = name
      · have hskip : name.length - 1 = (s.takeWhile Byte.isWord).length := by
          rw [← heq, List.length_cons, Nat.add_sub_cancel]
        have hrun := @replaceFrom_skip name replacement
          (s.takeWhile Byte.isWord) (s.dropWhile Byte.isWord) b
        rw [List.takeWhile_append_dropWhile] at hrun
        rw [if_pos (hfound.mpr heq), if_pos heq, heq, if_pos hname.start, hskip, hrun, hrest]
        rfl
      · have hrun := @replaceFrom_word name replacement _ hb _
          (fun c hc => hw c (List.mem_cons_of_mem b hc)) (s.dropWhile Byte.isWord)
        rw [List.takeWhile_append_dropWhile] at hrun
        rw [if_neg (mt hfound.mp heq), if_neg heq, Option.getD_none, ite_self, hrun, hrest]
        rfl
  | case3 b s hb ih =>
      have hb : Byte.isWord b = false := by simpa using hb
      rw [replaceFrom, after?_of_head hname (s := b :: s) hb, Option.isSome_none,
        if_neg Bool.false_ne_true,
        substitute_of_not_isWord hb, ih hb]

theorem replace_eq_substitute (s : Text) :
    replace s name replacement = substitute (only name replacement) s :=
  replaceFrom_eq_substitute hname (by decide) s

end Replace

end Occurrence

/-!
# Ways of replacing a name

A search finds the name, looks at the bytes beside it and goes on behind what it
replaced; a single pass takes the text apart into words.  Both replace the runs of
word bytes that are the name, and nothing else.
-/

namespace Occurrence

/-!
# Searching

The search copies what it skips.
-/

/-- What a search makes of the text from an offset on, if it goes on behind every occurrence. -/
inductive Searched (s name replacement : Text) : Nat -> Text -> Prop where
  | done {start : Nat} : firstFrom? s name start = none ->
      Searched s name replacement start (s.drop start)
  | found {start i : Nat} {t : Text} : firstFrom? s name start = some i ->
      Searched s name replacement (i + name.length) t ->
      Searched s name replacement start (Text.slice s start i ++ (replacement ++ t))

section Search

variable {s name replacement : Text}

theorem Searched.unique {start : Nat} {t u : Text} (ht : Searched s name replacement start t)
    (hu : Searched s name replacement start u) : t = u := by
  induction ht generalizing u with
  | done hnone =>
      cases hu with
      | done _ => rfl
      | found hsome _ =>
          rw [hnone] at hsome
          cases hsome
  | found hsome _ ih =>
      cases hu with
      | done hnone =>
          rw [hsome] at hnone
          cases hnone
      | found hsome' hu =>
          rw [hsome] at hsome'
          cases hsome'
          rw [ih hu]

theorem replaceFrom_of_first?_eq_none {previous : UInt8} {t : Text}
    (h : first? name previous t = none) : replaceFrom name replacement 0 previous t = t := by
  induction t generalizing previous with
  | nil => rfl
  | cons b t ih =>
      rw [first?] at h
      split at h
      · cases h
      · rename_i hfound
        rw [replaceFrom, if_neg hfound, ih (Option.map_eq_none_iff.mp h)]

theorem exists_of_first? (hne : name ≠ []) {previous : UInt8} {t : Text} {k : Nat}
    (h : first? name previous t = some k) :
    exists x z, t = x ++ (name ++ z) ∧ x.length = k ∧
      replaceFrom name replacement 0 previous t = x ++ (replacement ++
        replaceFrom name replacement 0 (name.getLast?.getD Byte.newline) z) := by
  induction t generalizing previous k with
  | nil =>
      have hmissing : after? name previous [] = none := by
        unfold after?
        cases name with
        | nil => exact absurd rfl hne
        | cons b name => rfl
      rw [first?, hmissing] at h
      cases h
  | cons b t ih =>
      rw [first?] at h
      split at h
      · rename_i hfound
        cases h
        rcases Option.isSome_iff_exists.mp hfound with ⟨z, hz⟩
        have hsplit : b :: t = name ++ z := by
          unfold after? at hz
          split at hz
          · cases hz
          · rename_i rest hrest
            split at hz
            · cases hz
            · cases hz
              exact Text.eq_append_of_afterPrefix? hrest
        refine ⟨[], z, hsplit, rfl, ?_⟩
        rw [replaceFrom, if_pos hfound, List.nil_append]
        cases name with
        | nil => exact absurd rfl hne
        | cons c u =>
            rcases List.cons.inj hsplit with ⟨rfl, htail⟩
            rw [show t = u ++ z from htail, List.length_cons, Nat.add_sub_cancel, replaceFrom_skip]
            cases u with
            | nil => rfl
            | cons d u => rfl
      · rename_i hfound
        rcases Option.map_eq_some_iff.mp h with ⟨n, hn, rfl⟩
        rcases ih hn with ⟨x, z, rfl, rfl, hreplaced⟩
        refine ⟨b :: x, z, rfl, rfl, ?_⟩
        rw [replaceFrom, if_neg hfound, hreplaced, List.cons_append]

/-- Behind the part that is done, the search and the pass over the bytes agree. -/
theorem searched_replaceFrom (hne : name ≠ []) (u t : Text) :
    Searched (u ++ t) name replacement u.length
      (replaceFrom name replacement 0 (u.getLast?.getD Byte.newline) t) := by
  have hfrom : firstFrom? (u ++ t) name u.length =
      (first? name (u.getLast?.getD Byte.newline) t).map (· + u.length) := by
    unfold firstFrom?
    rw [if_neg (by rw [List.length_append]; omega), List.take_left, List.drop_left]
  cases hfirst : first? name (u.getLast?.getD Byte.newline) t with
  | none =>
      rw [hfirst] at hfrom
      have hdone : Searched (u ++ t) name replacement u.length ((u ++ t).drop u.length) :=
        .done hfrom
      rw [List.drop_left] at hdone
      rw [replaceFrom_of_first?_eq_none hfirst]
      exact hdone
  | some k =>
      rcases @exists_of_first? name replacement hne _ _ _ hfirst with
        ⟨x, z, hsplit, rfl, hreplaced⟩
      have hless : z.length < t.length := by
        have hpositive := List.length_pos_iff.mpr hne
        rw [hsplit]
        simp only [List.length_append]
        omega
      have hlast : (u ++ (x ++ name)).getLast? = name.getLast? := by
        rw [← List.append_assoc, List.getLast?_append_of_ne_nil _ hne]
      have hrest := searched_replaceFrom hne (u ++ (x ++ name)) z
      have hslice : Text.slice (u ++ (x ++ (name ++ z))) u.length (x.length + u.length) = x := by
        unfold Text.slice
        rw [List.drop_left, Nat.add_sub_cancel, List.take_left]
      rw [hlast] at hrest
      rw [hfirst] at hfrom
      rw [hreplaced]
      rw [hsplit] at hfrom ⊢
      have hbehind : Searched (u ++ (x ++ (name ++ z))) name replacement
          (x.length + u.length + name.length)
          (replaceFrom name replacement 0 (name.getLast?.getD Byte.newline) z) := by
        simpa [Nat.add_comm, Nat.add_left_comm, Nat.add_assoc] using hrest
      have hfound := Searched.found hfrom hbehind
      rwa [hslice] at hfound
  termination_by t.length

end Search

/-!
# Runs
-/

def runs (s : Text) : List Text :=
  s.splitBy fun a b => Byte.isWord a == Byte.isWord b

section Runs

variable {f : Text -> Option Text} {w : Text}

theorem isWord_of_run (h : w.IsChain fun a b => (Byte.isWord a == Byte.isWord b) = true)
    {b : UInt8} (hb : w.head? = some b) : forall c, c ∈ w -> Byte.isWord c = Byte.isWord b := by
  induction w generalizing b with
  | nil => cases hb
  | cons d w ih =>
      cases hb
      refine List.forall_mem_cons.mpr ⟨rfl, fun c hc => ?_⟩
      cases w with
      | nil => cases hc
      | cons e w =>
          rcases List.isChain_cons_cons.mp h with ⟨hsame, hrest⟩
          rw [ih hrest rfl c hc, eq_of_beq hsame]

theorem substitute_gap (hw : forall b, b ∈ w -> Byte.isWord b = false) (s : Text) :
    substitute f (w ++ s) = w ++ substitute f s := by
  induction w with
  | nil => rfl
  | cons b w ih =>
      rcases List.forall_mem_cons.mp hw with ⟨hb, hw⟩
      rw [List.cons_append, substitute_of_not_isWord hb, ih hw, List.cons_append]

theorem image_gap (hw : forall b, b ∈ w -> Byte.isWord b = false) : image f w = w := by
  unfold image
  cases w with
  | nil => rfl
  | cons b w =>
      have hb := hw b List.mem_cons_self
      rw [Byte.isWord, Bool.or_eq_false_iff] at hb
      rw [if_neg (by rw [List.head?_cons, Option.any_some, hb.1]; exact Bool.false_ne_true)]

theorem substitute_flatten {ws : List Text} (hne : [] ∉ ws)
    (hruns : forall w, w ∈ ws -> w.IsChain fun a b => (Byte.isWord a == Byte.isWord b) = true)
    (hbreak : ws.IsChain fun v w => exists hv hw,
      (Byte.isWord (v.getLast hv) == Byte.isWord (w.head hw)) = false) :
    substitute f ws.flatten = (ws.map (image f)).flatten := by
  induction ws with
  | nil => exact substitute_nil
  | cons w ws ih =>
      rcases List.forall_mem_cons.mp hruns with ⟨hrun, hruns⟩
      have hnext := ih (fun hmem => hne (List.mem_cons_of_mem _ hmem)) hruns hbreak.tail
      have hw : w ≠ [] := fun hnil => hne (hnil ▸ List.mem_cons_self)
      have hsame := isWord_of_run hrun (List.head?_eq_some_head hw)
      rw [List.flatten_cons, List.map_cons, List.flatten_cons, ← hnext]
      cases hword : Byte.isWord (w.head hw) with
      | true =>
          rw [hword] at hsame
          have hhead : ws.flatten.head?.any Byte.isWord = false := by
            cases ws with
            | nil => rfl
            | cons v ws =>
                rcases (List.isChain_cons_cons.mp hbreak).1 with ⟨hw, hv, hdiffer⟩
                rw [hsame _ (List.getLast_mem hw)] at hdiffer
                rw [List.flatten_cons, List.head?_append, List.head?_eq_some_head hv]
                simpa using hdiffer
          rw [substitute_append hhead, substitute_word hw hsame]
      | false =>
          rw [hword] at hsame
          rw [substitute_gap hsame, image_gap hsame]

theorem substitute_eq_runs (f : Text -> Option Text) (s : Text) :
    substitute f s = ((runs s).map (image f)).flatten := by
  have hbreak := List.isChain_getLast_head_splitBy
    (fun a b => Byte.isWord a == Byte.isWord b) s
  have hruns := substitute_flatten (f := f) (List.nil_notMem_splitBy _ s)
    (fun w hw => List.isChain_of_mem_splitBy hw) hbreak
  rwa [List.flatten_splitBy] at hruns

theorem image_only {name : Text} (hname : IsName name) (replacement : Text) :
    image (only name replacement) = fun w => if w = name then replacement else w := by
  funext w
  unfold image only
  by_cases hw : w = name
  · rw [if_pos hw, if_pos hw, hw, if_pos hname.start]
    rfl
  · rw [if_neg hw, if_neg hw]
    exact ite_self w

end Runs

/-- The search ends, and what it makes of the text is what the single pass makes of it: the text
with another text in the place of every maximal run that is the name. -/
theorem replace_runs {name : Text} (hname : IsName name) (s replacement : Text) :
    (forall t, Searched s name replacement 0 t ↔ t = replace s name replacement) ∧
      replace s name replacement = substitute (only name replacement) s ∧
      replace s name replacement =
        ((runs s).map fun w => if w = name then replacement else w).flatten := by
  have hpass : replace s name replacement = substitute (only name replacement) s :=
    replace_eq_substitute hname s
  refine ⟨fun t => ?_, hpass, ?_⟩
  · have hne : name ≠ [] := by
      rcases hname.exists_cons with ⟨b, u, rfl, _⟩
      exact List.cons_ne_nil b u
    have hsearched : Searched s name replacement 0 (replace s name replacement) :=
      searched_replaceFrom hne [] s
    constructor
    · intro ht
      exact ht.unique hsearched
    · rintro rfl
      exact hsearched
  · rw [hpass, substitute_eq_runs, image_only hname]

/-- Neither a longer word nor a number in front of the name is an occurrence, and what was put in is
not looked at again. -/
theorem replace_runs_partial :
    IsName "ab" ∧ replace "aab ab1+1ab ab;ab" "ab" "(ab)" = "aab ab1+1ab (ab);(ab)" ∧
      substitute (only "ab" "(ab)") "aab ab1+1ab ab;ab" = "aab ab1+1ab (ab);(ab)" := by
  have hname : IsName "ab" := by decide
  have hreplaced : replace "aab ab1+1ab ab;ab" "ab" "(ab)" = "aab ab1+1ab (ab);(ab)" := by rfl
  exact ⟨hname, hreplaced, (replace_runs hname _ _).2.1.symm.trans hreplaced⟩

end Occurrence

end EffectShader
