import EffectShader.Macro.Literal
import EffectShader.Proofs.Text.Search
import EffectShader.Proofs.Text.Trim
import EffectShader.Proofs.Token.DirectiveText
import Mathlib.Data.List.DropRight

/-!
# The first line of a directive

A directive that goes on behind its first line is read as that line and more.
What follows a continued line is set off by a space, so a pragma that the first
line gives is the pragma of the whole directive, under the same name.
-/

namespace EffectShader

def Pragma.of? (text : Text) : Option Pragma :=
  (Directive.parse? text).bind Directive.pragma?

theorem Pragma.of?_dropWhile (l : Text) : Pragma.of? (l.dropWhile Byte.isBlank) = Pragma.of? l := by
  unfold of? Directive.parse?
  rw [List.dropWhile_idempotent]

theorem Pragma.exists_hash_of_of? {l : Text} {p : Pragma} (h : Pragma.of? l = some p) :
    exists s, l.dropWhile Byte.isBlank = Byte.hash :: s ∧ Pragma.of? (Byte.hash :: s) = some p := by
  rcases Option.bind_eq_some_iff.mp h with ⟨d, hd, _⟩
  unfold Directive.parse? at hd
  split at hd
  · rename_i s hhash
    have hline : l.dropWhile Byte.isBlank = Byte.hash :: s := hhash
    exact ⟨s, hline, by rw [← hline, of?_dropWhile, h]⟩
  · cases hd

namespace Directive

open Lexer

/-!
# Comments of a text that goes on
-/

theorem withoutComments_eq (s : Text) : withoutComments s = stripComments s := by
  unfold withoutComments
  split
  · rfl
  · rename_i hslash
    exact (stripComments_eq_self (hasComment_of_not_mem (by simpa using hslash))).symm

theorem stripComments_cons {b c : UInt8} (hslash : c ≠ Byte.slash) (hstar : c ≠ Byte.star)
    (s : Text) : stripComments (b :: c :: s) = b :: stripComments (c :: s) := by
  rw [stripComments]
  simp [hslash, hstar]

theorem stripComments_line {b c : UInt8} {s : Text}
    (h : (b == Byte.slash && c == Byte.slash) = true) : stripComments (b :: c :: s) = [] := by
  rw [stripComments, if_pos h]

theorem stripComments_block {b c : UInt8} {s : Text}
    (hline : ¬ (b == Byte.slash && c == Byte.slash) = true)
    (hblock : (b == Byte.slash && c == Byte.star) = true) :
    stripComments (b :: c :: s) =
      (Text.cut? "*/" s).elim [] fun (_, after) => Byte.space :: stripComments after := by
  rw [stripComments, if_neg hline, if_pos hblock]
  split
  · rename_i hcut
    rw [hcut]
    rfl
  · rename_i hcut
    simp only [hcut, Option.elim_some]

theorem seam_commentEnd {z : Text} (hslash : z.head? ≠ some Byte.slash)
    (hstar : z.head? ≠ some Byte.star) (s : Text) : Text.Seam "*/" s z := by
  right
  intro b hb hmem
  have hcases : b = Byte.star ∨ b = Byte.slash := by
    rw [show ("*/" : Text) = [Byte.star, Byte.slash] from rfl] at hmem
    simpa using hmem
  rcases hcases with rfl | rfl
  · exact hstar hb
  · exact hslash hb

theorem exists_stripComments_append {z : Text} (hslash : z.head? ≠ some Byte.slash)
    (hstar : z.head? ≠ some Byte.star) (a : Text) :
    exists w, stripComments (a ++ z) = stripComments a ++ w ∧
      (w = [] ∨ w = stripComments z ∨ Byte.slash ∈ z ∧ w.head? = some Byte.space) := by
  fun_induction stripComments a with
  | case1 => exact ⟨stripComments z, rfl, Or.inr (Or.inl rfl)⟩
  | case2 b =>
      cases z with
      | nil => exact ⟨[], by simp [stripComments], Or.inl rfl⟩
      | cons c z =>
          refine ⟨stripComments (c :: z), ?_, Or.inr (Or.inl rfl)⟩
          exact stripComments_cons (by simpa using hslash) (by simpa using hstar) z
  | case3 b c s hline => exact ⟨[], stripComments_line hline, Or.inl rfl⟩
  | case4 b c s hline hblock hcut =>
      rw [List.cons_append, List.cons_append, stripComments_block hline hblock]
      cases hfound : Text.cut? "*/" (s ++ z) with
      | none => exact ⟨[], rfl, Or.inl rfl⟩
      | some parts =>
          refine ⟨_, rfl, Or.inr (Or.inr ⟨?_, rfl⟩)⟩
          rcases parts with ⟨before, after⟩
          -- the end of the comment is not in `s`, so its slash is in `z`
          have hseam := seam_commentEnd hslash hstar s
          rcases hseam.exists_of_cut? (by decide) hcut hfound with ⟨w, rfl⟩
          exact List.mem_append_right w (List.mem_append_left after (by decide))
  | case5 b c s hline hblock before after hcut hlen ih =>
      have hfound : Text.cut? "*/" (s ++ z) = some (before, after ++ z) := by
        rw [Text.eq_append_of_cut? hcut, List.append_assoc, List.append_assoc]
        exact Text.cut?_append_of_cut? (by decide) hcut (after ++ z)
      rcases ih with ⟨w, hw, hcases⟩
      refine ⟨w, ?_, hcases⟩
      rw [List.cons_append, List.cons_append, stripComments_block hline hblock, hfound]
      exact congrArg (Byte.space :: ·) hw
  | case6 b c s hline hblock ih =>
      rcases ih with ⟨w, hw, hcases⟩
      refine ⟨w, ?_, hcases⟩
      rw [List.cons_append, List.cons_append, stripComments, if_neg hline, if_neg hblock]
      exact congrArg (b :: ·) hw

theorem stripComments_append_bare {z : Text} (hslash : Byte.slash ∉ z)
    (hstar : z.head? ≠ some Byte.star) (a : Text) :
    stripComments (a ++ z) = stripComments a ++ z ∨ stripComments (a ++ z) = stripComments a := by
  have hhead : z.head? ≠ some Byte.slash := fun hhead => hslash (List.mem_of_head? hhead)
  rcases exists_stripComments_append hhead hstar a with ⟨w, hw, rfl | rfl | ⟨hmem, _⟩⟩
  · right
    rw [hw, List.append_nil]
  · left
    rw [hw, stripComments_eq_self (hasComment_of_not_mem hslash)]
  · exact absurd hmem hslash

/-!
# Joining the first line
-/

theorem joinContinuations_eq (s : Text) :
    joinContinuations s = Text.replaceAll "\\\n" " " (Text.replaceAll "\\\r\n" " " s) := by
  unfold joinContinuations
  split
  · rfl
  · rename_i hslash
    have hslash : Byte.backslash ∉ s := by simpa using hslash
    unfold Text.replaceAll
    rw [replaceFrom_eq_self " " (c := Byte.backslash) (by decide) hslash,
      replaceFrom_eq_self " " (c := Byte.backslash) (by decide) hslash]

theorem replaceFrom_append_stop (b c : UInt8) (old new : Text) {a : Text}
    (hold : Byte.newline ∈ old) (hc : c ∉ old) (ha : Byte.newline ∉ a) (s : Text) :
    Text.replaceFrom (b :: old) new 0 (a ++ c :: s) =
      a ++ Text.replaceFrom (b :: old) new 0 (c :: s) := by
  induction a with
  | nil => rfl
  | cons d a ih =>
      have hnot : old.isPrefixOf a = false := by
        rw [Bool.eq_false_iff]
        intro hprefix
        exact ha (List.mem_cons_of_mem d ((List.isPrefixOf_iff_prefix.mp hprefix).subset hold))
      rw [List.cons_append, replaceFrom_of_isPrefixOf_eq_false, ih, List.cons_append]
      · exact fun hmem => ha (List.mem_cons_of_mem d hmem)
      · rw [List.isPrefixOf, Text.isPrefixOf_append_stop hc, hnot, Bool.and_false]

/-- How a line ends that the next one continues. -/
def marks : List Text :=
  [[Byte.backslash], [Byte.backslash, Byte.carriage]]

theorem head?_of_mem_marks {z : Text} (hz : z ∈ marks) :
    z.head? = some Byte.backslash ∧ Byte.slash ∉ z := by
  revert z
  decide

theorem endsOpen_iff {l : Text} : endsOpen l = true ↔ exists a z, z ∈ marks ∧ l = a ++ z := by
  constructor
  · intro h
    fun_induction endsOpen l with
    | case1 => cases h
    | case2 b => exact ⟨[], [b], by simp [marks, beq_iff_eq.mp h], rfl⟩
    | case3 b c =>
        simp only [Bool.or_eq_true, Bool.and_eq_true, beq_iff_eq] at h
        rcases h with rfl | ⟨rfl, rfl⟩
        · exact ⟨[b], [Byte.backslash], by simp [marks], rfl⟩
        · exact ⟨[], [Byte.backslash, Byte.carriage], by simp [marks], rfl⟩
    | case4 b s hone htwo ih =>
        rcases ih h with ⟨a, z, hz, rfl⟩
        exact ⟨b :: a, z, hz, rfl⟩
  · rintro ⟨a, z, hz, rfl⟩
    induction a with
    | nil =>
        revert z
        decide
    | cons b a ih =>
        cases hopen : endsOpen (b :: (a ++ z)) with
        | true => exact hopen
        | false =>
            rw [endsOpen_of_cons hopen] at ih
            cases ih

theorem joinContinuations_line {a z : Text} (hz : z ∈ marks) (ha : Byte.newline ∉ a) (s : Text) :
    joinContinuations (a ++ z ++ Byte.newline :: s) = a ++ Byte.space :: joinContinuations s := by
  rw [joinContinuations_eq, joinContinuations_eq, List.append_assoc]
  unfold Text.replaceAll
  have hcases : z = [Byte.backslash] ∨ z = [Byte.backslash, Byte.carriage] := by
    simpa [marks] using hz
  rcases hcases with rfl | rfl
  · have hreturn : Text.replaceFrom "\\\r\n" " " 0 (a ++ Byte.backslash :: Byte.newline :: s) =
        a ++ Byte.backslash :: Byte.newline :: Text.replaceFrom "\\\r\n" " " 0 s := by
      have hstop := replaceFrom_append_stop Byte.backslash Byte.backslash
        [Byte.carriage, Byte.newline] " " (by decide) (by decide) ha (Byte.newline :: s)
      exact hstop
    show Text.replaceFrom "\\\n" " " 0
      (Text.replaceFrom "\\\r\n" " " 0 (a ++ Byte.backslash :: Byte.newline :: s)) = _
    rw [hreturn]
    exact replaceFrom_append_stop Byte.backslash Byte.backslash [Byte.newline] " " (by decide)
      (by decide) ha _
  · have hreturn : Text.replaceFrom "\\\r\n" " " 0
        (a ++ Byte.backslash :: Byte.carriage :: Byte.newline :: s) =
        a ++ Byte.space :: Text.replaceFrom "\\\r\n" " " 0 s := by
      have hstop := replaceFrom_append_stop Byte.backslash Byte.backslash
        [Byte.carriage, Byte.newline] " " (by decide) (by decide) ha
        (Byte.carriage :: Byte.newline :: s)
      exact hstop
    show Text.replaceFrom "\\\n" " " 0 (Text.replaceFrom "\\\r\n" " " 0
      (a ++ Byte.backslash :: Byte.carriage :: Byte.newline :: s)) = _
    rw [hreturn]
    exact replaceFrom_append_stop Byte.backslash Byte.space [Byte.newline] " " (by decide)
      (by decide) ha _

/-!
# The words at the start
-/

/-- The text is empty or starts with a space or a backslash. -/
def Ends (z : Text) : Prop :=
  forall c, z.head? = some c -> c = Byte.space ∨ c = Byte.backslash

theorem takeWhile_append_of_head {p : UInt8 -> Bool} {y : Text}
    (hy : forall c, y.head? = some c -> p c = false) (s : Text) :
    (s ++ y).takeWhile p = s.takeWhile p ∧ (s ++ y).dropWhile p = s.dropWhile p ++ y := by
  induction s with
  | nil =>
      cases y with
      | nil => exact ⟨rfl, rfl⟩
      | cons c y => simp [hy c rfl]
  | cons b s ih =>
      cases hb : p b with
      | true => simp [hb, ih]
      | false => simp [hb]

section Lead

variable {p : UInt8 -> Bool} (hp : forall c, p c = true -> Text.mayEndBlank c = false)

include hp

theorem takeWhile_trim (s : Text) :
    (Text.trim s).takeWhile p = (Text.trimLeft s).takeWhile p ∧
      Text.trim ((Text.trim s).dropWhile p) = Text.trim ((Text.trimLeft s).dropWhile p) := by
  rcases Text.exists_blank_trimRight (Text.trimLeft s) with ⟨y, hy, hs⟩
  have hhead : forall c, y.head? = some c -> p c = false := by
    intro c hc
    have hblank := (hy.head? hc).1
    rw [Bool.eq_false_iff]
    intro hpc
    rw [hp c hpc] at hblank
    cases hblank
  rcases takeWhile_append_of_head hhead (Text.trim s) with ⟨htake, hdrop⟩
  rw [show Text.trim s ++ y = Text.trimLeft s from hs.symm] at htake hdrop
  rw [htake, hdrop, Text.trim_append_blank hy]
  exact ⟨rfl, rfl⟩

/-- A word at the start of a text that may go on is there however it goes on. -/
theorem lead_append (hstop : p Byte.backslash = false) {z w : Text} (hz : Ends z) (hw : Ends w)
    (hzp : (Text.trimLeft z).takeWhile p = []) {s : Text}
    (h : (Text.trimLeft (s ++ z)).takeWhile p ≠ []) :
    exists q, (Text.trimLeft (s ++ z)).dropWhile p = q ++ z ∧
      (Text.trimLeft (s ++ w)).dropWhile p = q ++ w ∧
      (Text.trimLeft (s ++ w)).takeWhile p = (Text.trimLeft (s ++ z)).takeWhile p := by
  have hends {y : Text} (hy : Ends y) : forall c, y.head? = some c -> p c = false := by
    intro c hc
    rcases hy c hc with rfl | rfl
    · rw [Bool.eq_false_iff]
      intro hspace
      exact absurd (hp Byte.space hspace) (by decide)
    · exact hstop
  have hleft {y : Text} (hy : Ends y) (hs : Text.trimLeft s ≠ []) :
      Text.trimLeft (s ++ y) = Text.trimLeft s ++ y := by
    cases y with
    | nil => rw [List.append_nil, List.append_nil]
    | cons c y =>
        have hc : Text.IsStop c := by
          rcases hy c rfl with rfl | rfl <;> decide
        rw [Text.trimLeft_append_stop hc, if_neg hs]
  have hs : Text.trimLeft s ≠ [] := by
    intro hnil
    apply h
    cases z with
    | nil =>
        rw [List.append_nil, hnil]
        rfl
    | cons c z =>
        have hc : Text.IsStop c := by
          rcases hz c rfl with rfl | rfl <;> decide
        rw [Text.trimLeft_append_stop hc, if_pos hnil]
        exact hzp
  rcases takeWhile_append_of_head (hends hz) (Text.trimLeft s) with ⟨htake, hdrop⟩
  rcases takeWhile_append_of_head (hends hw) (Text.trimLeft s) with ⟨htake', hdrop'⟩
  rw [hleft hz hs, hleft hw hs]
  exact ⟨_, hdrop, hdrop', htake'.trans htake.symm⟩

end Lead

/-!
# Pragmas
-/

/-- What is read of a directive behind its hash sign. -/
def bare (s : Text) : Text :=
  stripComments (joinContinuations s)

def ofBare (s : Text) : Directive :=
  ⟨(Text.trim s).takeWhile Byte.isWord, Text.trim ((Text.trim s).dropWhile Byte.isWord)⟩

theorem parse?_hash (s : Text) : parse? (Byte.hash :: s) = some (ofBare (bare s)) := by
  unfold bare
  rw [← withoutComments_eq]
  rfl

theorem graphic_of_isWord {c : UInt8} (h : Byte.isWord c = true) : Text.mayEndBlank c = false :=
  of_isWord (P := fun c => Text.mayEndBlank c = false) h (by decide)

theorem graphic_of_isPragmaByte {c : UInt8} (h : isPragmaByte c = true) :
    Text.mayEndBlank c = false := by
  unfold isPragmaByte at h
  rcases Bool.or_eq_true_iff.mp h with h | h
  · exact graphic_of_isWord h
  · rw [beq_iff_eq.mp h]
    rfl

def afterName (s : Text) : Text :=
  (Text.trimLeft (bare s)).dropWhile Byte.isWord

theorem pragma?_eq_some_iff {d : Directive} {p : Pragma} :
    d.pragma? = some p ↔ d.name = "pragma" ∧ p.name = d.body.takeWhile isPragmaByte ∧ p.name ≠ [] ∧
      p.args = Text.trim (d.body.dropWhile isPragmaByte) := by
  unfold pragma?
  by_cases hname : d.name = "pragma"
  · cases hword : d.body.takeWhile isPragmaByte with
    | nil => simp_all
    | cons b s =>
        simp only [hname, beq_self_eq_true, if_true, List.isEmpty_cons, Bool.false_eq_true,
          if_false, Option.some.injEq, true_and]
        constructor
        · rintro rfl
          exact ⟨rfl, List.cons_ne_nil b s, rfl⟩
        · rintro ⟨hp, _, hargs⟩
          rcases p with ⟨name, args⟩
          rw [← show name = b :: s from hp, ← show args = _ from hargs]
  · simp [hname]

theorem of?_hash_eq_some_iff {s : Text} {p : Pragma} :
    Pragma.of? (Byte.hash :: s) = some p ↔
      (Text.trimLeft (bare s)).takeWhile Byte.isWord = "pragma" ∧
      p.name = (Text.trimLeft (afterName s)).takeWhile isPragmaByte ∧ p.name ≠ [] ∧
      p.args = Text.trim ((Text.trimLeft (afterName s)).dropWhile isPragmaByte) := by
  rcases takeWhile_trim (fun c => graphic_of_isWord) (bare s) with ⟨hname, hbody⟩
  rcases takeWhile_trim (fun c => graphic_of_isPragmaByte) (afterName s) with ⟨hword, hargs⟩
  have hread : ofBare (bare s) =
      ⟨(Text.trimLeft (bare s)).takeWhile Byte.isWord, Text.trim (afterName s)⟩ := by
    rw [ofBare, hname, hbody]
    rfl
  unfold Pragma.of?
  rw [parse?_hash, hread, Option.bind_some, pragma?_eq_some_iff]
  dsimp only
  rw [hword, hargs]

theorem exists_bare {x : Text} (hx : Byte.newline ∉ x) (hopen : endsOpen x = true) (more : Text) :
    exists s z w, bare x = s ++ z ∧ bare (x ++ Byte.newline :: more) = s ++ w ∧ Ends z ∧ Ends w ∧
      forall p : UInt8 -> Bool, p Byte.backslash = false -> (Text.trimLeft z).takeWhile p = [] := by
  rcases endsOpen_iff.mp hopen with ⟨a, z, hz, rfl⟩
  have ha : Byte.newline ∉ a := fun hmem => hx (List.mem_append_left z hmem)
  have hmark := head?_of_mem_marks hz
  have hfirst : exists y, bare (a ++ z) = stripComments a ++ y ∧
      forall c, y.head? = some c -> c = Byte.backslash := by
    unfold bare
    rw [joinContinuations_eq_self hx]
    rcases stripComments_append_bare hmark.2 (by rw [hmark.1]; decide) a with h | h
    · refine ⟨z, h, ?_⟩
      intro c hc
      rw [hmark.1] at hc
      exact (Option.some.inj hc).symm
    · exact ⟨[], by rw [h, List.append_nil], by simp⟩
  rcases hfirst with ⟨y, hy, hhead⟩
  have hrest : exists w, bare (a ++ z ++ Byte.newline :: more) = stripComments a ++ w ∧ Ends w := by
    unfold bare
    rw [joinContinuations_line hz ha]
    rcases exists_stripComments_append (z := Byte.space :: joinContinuations more)
      (fun h => absurd (Option.some.inj h) (by decide))
      (fun h => absurd (Option.some.inj h) (by decide)) a with ⟨w, hw, hcases⟩
    refine ⟨w, hw, ?_⟩
    intro c hc
    rcases hcases with rfl | rfl | ⟨_, hspace⟩
    · cases hc
    · rw [head?_stripComments (by decide)] at hc
      exact Or.inl (Option.some.inj hc).symm
    · rw [hspace] at hc
      exact Or.inl (Option.some.inj hc).symm
  rcases hrest with ⟨w, hw, hends⟩
  refine ⟨_, y, w, hy, hw, fun c hc => Or.inr (hhead c hc), hends, ?_⟩
  intro p hp
  have htrim : Text.trimLeft y = y := by
    apply Text.dropBlanks_of_head?
    intro c hc
    rw [hhead c hc]
    rfl
  rw [htrim]
  cases y with
  | nil => rfl
  | cons c y => simp [hhead c rfl, hp]

structure SameStart (s t : Text) : Prop where
  name : Occurrence.leadingName t = Occurrence.leadingName s
  paren : (t.drop (Occurrence.leadingName t).length).head? = some Byte.openParen ↔
    (s.drop (Occurrence.leadingName s).length).head? = some Byte.openParen

theorem leadingName_eq {s : Text} (h : s.head?.any Byte.isWordStart = true) :
    Occurrence.leadingName s = s.takeWhile Byte.isWord := by
  cases s with
  | nil => rfl
  | cons b s =>
      have hb : Byte.isWordStart b = true := by simpa using h
      have hword : Byte.isWord b = true := by simp [Byte.isWord, hb]
      rw [Occurrence.leadingName, if_pos hb, List.takeWhile_cons_of_pos hword]

theorem isWordStart_of_leadingName {s : Text} (h : Occurrence.leadingName s ≠ []) :
    s.head?.any Byte.isWordStart = true := by
  cases s with
  | nil => exact absurd rfl h
  | cons b s =>
      rw [Occurrence.leadingName] at h
      split at h
      · assumption
      · exact absurd rfl h

theorem drop_takeWhile (p : UInt8 -> Bool) (s : Text) :
    s.drop (s.takeWhile p).length = s.dropWhile p := by
  have hsplit : s.takeWhile p ++ s.dropWhile p = s := List.takeWhile_append_dropWhile
  have hdrop : (s.takeWhile p ++ s.dropWhile p).drop (s.takeWhile p).length = s.dropWhile p :=
    List.drop_left
  rwa [hsplit] at hdrop

theorem paren_trim (s : Text) :
    ((Text.trim s).dropWhile Byte.isWord).head? = some Byte.openParen ↔
      ((Text.trimLeft s).dropWhile Byte.isWord).head? = some Byte.openParen := by
  rcases Text.exists_blank_trimRight (Text.trimLeft s) with ⟨y, hy, hs⟩
  have hhead : forall c, y.head? = some c -> Byte.isWord c = false := by
    intro c hc
    have hblank := (hy.head? hc).1
    rw [Bool.eq_false_iff]
    intro hword
    rw [graphic_of_isWord hword] at hblank
    cases hblank
  have hdrop := (takeWhile_append_of_head hhead (Text.trim s)).2
  rw [show Text.trim s ++ y = Text.trimLeft s from hs.symm] at hdrop
  rw [hdrop]
  cases (Text.trim s).dropWhile Byte.isWord with
  | nil =>
      simp only [List.head?_nil, List.nil_append, reduceCtorEq, false_iff]
      intro hparen
      exact absurd (hy.head? hparen).1 (by decide)
  | cons b r => rfl

theorem paren_append {q z : Text} (hz : Ends z) :
    (q ++ z).head? = some Byte.openParen ↔ q.head? = some Byte.openParen := by
  cases q with
  | nil =>
      simp only [List.nil_append, List.head?_nil, reduceCtorEq, iff_false]
      intro hparen
      rcases hz _ hparen with heq | heq <;> exact absurd heq (by decide)
  | cons b q => rfl

theorem sameStart_append {z w : Text} (hz : Ends z) (hw : Ends w)
    (hzp : (Text.trimLeft z).takeWhile Byte.isWord = []) {s : Text}
    (h : Occurrence.leadingName (Text.trim (s ++ z)) ≠ []) :
    SameStart (Text.trim (s ++ z)) (Text.trim (s ++ w)) := by
  have hgraphic : forall c, Byte.isWord c = true -> Text.mayEndBlank c = false :=
    fun c => graphic_of_isWord
  have hstart := isWordStart_of_leadingName h
  rw [leadingName_eq hstart, (takeWhile_trim hgraphic _).1] at h
  rcases lead_append hgraphic (by decide) hz hw hzp h with ⟨q, hdrop, hdrop', htake⟩
  have hword : (Text.trim (s ++ w)).takeWhile Byte.isWord =
      (Text.trim (s ++ z)).takeWhile Byte.isWord := by
    rw [(takeWhile_trim hgraphic _).1, (takeWhile_trim hgraphic _).1, htake]
  have hstart' : (Text.trim (s ++ w)).head?.any Byte.isWordStart = true := by
    rw [← (takeWhile_trim hgraphic _).1] at h
    cases hl : Text.trim (s ++ z) with
    | nil =>
        rw [hl] at hstart
        cases hstart
    | cons b l =>
        cases hr : Text.trim (s ++ w) with
        | nil =>
            rw [← hword, hr] at h
            exact absurd rfl h
        | cons c r =>
            rw [hl] at hstart
            rw [hl, hr] at hword
            have hb : Byte.isWord b = true := by
              have hb : Byte.isWordStart b = true := by simpa using hstart
              simp [Byte.isWord, hb]
            rw [List.takeWhile_cons_of_pos hb, List.takeWhile_cons] at hword
            split at hword
            · rw [(List.cons.inj hword).1]
              exact hstart
            · cases hword
  constructor
  · rw [leadingName_eq hstart', leadingName_eq hstart, hword]
  · rw [leadingName_eq hstart', leadingName_eq hstart, drop_takeWhile, drop_takeWhile, paren_trim,
      paren_trim, hdrop, hdrop', paren_append hz, paren_append hw]

theorem of?_goesOn {x : Text} (hx : Byte.newline ∉ x) (hopen : endsOpen x = true) (more : Text)
    {p : Pragma} (h : Pragma.of? (Byte.hash :: x) = some p) :
    exists p', Pragma.of? (Byte.hash :: (x ++ Byte.newline :: more)) = some p' ∧ p'.name = p.name ∧
      (Occurrence.leadingName p.args ≠ [] -> SameStart p.args p'.args) := by
  rcases exists_bare hx hopen more with ⟨s, z, w, hs, hs', hz, hw, hlead⟩
  rcases of?_hash_eq_some_iff.mp h with ⟨hpragma, hname, hne, hargs⟩
  unfold afterName at hname hargs
  rw [hs] at hpragma hname hargs
  rcases lead_append (fun c => graphic_of_isWord) (by decide) hz hw (hlead _ (by decide))
    (by rw [hpragma]; decide) with ⟨q, hq, hq', htake⟩
  rw [hq] at hname hargs
  rcases lead_append (fun c => graphic_of_isPragmaByte) (by decide) hz hw (hlead _ (by decide))
    (by rw [← hname]; exact hne) with ⟨r, hr, hr', htake'⟩
  rw [hr] at hargs
  refine ⟨⟨p.name, Text.trim (r ++ w)⟩, ?_, rfl, ?_⟩
  · refine of?_hash_eq_some_iff.mpr ⟨?_, ?_, hne, ?_⟩
    · rw [hs', htake, hpragma]
    · unfold afterName
      rw [hs', hq', htake', ← hname]
    · unfold afterName
      rw [hs', hq', hr']
  · intro hlead'
    rw [hargs] at hlead' ⊢
    exact sameStart_append hz hw (hlead _ (by decide)) hlead'

end Directive

end EffectShader
