import EffectShader.Macro.Function
import EffectShader.Proofs.Macro.KeptLines
import EffectShader.Proofs.Macro.Substitution

/-!
# How definitions are spelled

A directive is read across white space and block comments.  The line that starts the
definition of a function macro is a hash sign, the words `pragma` and `define`, a name and
an opening parenthesis right behind it, with such fillers between the parts.
-/

namespace EffectShader

namespace Directive

inductive Filler : Text -> Prop where
  | nil : Filler []
  | blank {w y : Text} : w ∈ Text.blankSpellings -> Filler y -> Filler (w ++ y)
  | comment {c y : Text} : ¬ Text.includes c "*/" = true -> Filler y ->
      Filler ("/*" ++ (c ++ ("*/" ++ y)))

theorem Filler.getLast? {x : Text} (h : Filler x) {b : UInt8} (hb : x.getLast? = some b) :
    b = Byte.slash ∨ exists w, w ∈ Text.blankSpellings ∧ w.getLast? = some b := by
  induction h with
  | nil => cases hb
  | @blank w y hw _ ih =>
      by_cases hy : y = []
      · subst hy
        rw [List.append_nil] at hb
        exact Or.inr ⟨w, hw, hb⟩
      · rw [List.getLast?_append_of_ne_nil _ hy] at hb
        exact ih hb
  | @comment c y _ _ ih =>
      by_cases hy : y = []
      · subst hy
        rw [List.append_nil, ← List.append_assoc,
          List.getLast?_append_of_ne_nil _ (by decide)] at hb
        exact Or.inl (Option.some.inj hb).symm
      · rw [← List.append_assoc, ← List.append_assoc, List.getLast?_append_of_ne_nil _ hy] at hb
        exact ih hb

/-!
# Texts without their comments
-/

/-- A byte that is left stands at the start of the text, or is the space for a comment. -/
theorem stripComments_eq_cons {s z : Text} {b : UInt8} (h : stripComments s = b :: z) :
    (exists t, s = b :: t ∧ stripComments t = z) ∨
      b = Byte.space ∧ exists c t, s = "/*" ++ (c ++ ("*/" ++ t)) ∧
        ¬ Text.includes c "*/" = true ∧ stripComments t = z := by
  fun_cases stripComments s with
  | case1 =>
      rw [stripComments] at h
      cases h
  | case2 a =>
      rw [stripComments] at h
      cases h
      exact Or.inl ⟨[], rfl, by rw [stripComments]⟩
  | case3 a d s hline =>
      rw [stripComments_line hline] at h
      cases h
  | case4 a d s hline hblock hcut =>
      rw [stripComments_block hline hblock, hcut] at h
      cases h
  | case5 a d s hline hblock before after hcut _ =>
      rw [stripComments_block hline hblock, hcut] at h
      cases h
      rw [Bool.and_eq_true, beq_iff_eq, beq_iff_eq] at hblock
      rcases hblock with ⟨rfl, rfl⟩
      refine Or.inr ⟨rfl, before, after, ?_, Text.not_includes_of_cut? (by decide) hcut, rfl⟩
      rw [Text.eq_append_of_cut? hcut]
      rfl
  | case6 a d s hline hblock =>
      rw [stripComments, if_neg hline, if_neg hblock] at h
      cases h
      exact Or.inl ⟨d :: s, rfl, rfl⟩

/-- A text without spaces that is left at the start stood there. -/
theorem exists_of_stripComments_append {s u z : Text} (hu : Byte.space ∉ u)
    (h : stripComments s = u ++ z) : exists t, s = u ++ t ∧ stripComments t = z := by
  induction u generalizing s with
  | nil => exact ⟨s, rfl, h⟩
  | cons b u ih =>
      rcases not_or.mp (mt List.mem_cons.mpr hu) with ⟨hb, hu⟩
      rcases stripComments_eq_cons h with ⟨t, rfl, ht⟩ | ⟨hspace, _⟩
      · rcases ih hu ht with ⟨t', rfl, ht'⟩
        exact ⟨t', rfl, ht'⟩
      · exact absurd hspace.symm hb

/-- White space that is left at the start comes from a filler. -/
theorem exists_filler_of_blank {s y z : Text} (hy : Text.Blank y)
    (h : stripComments s = y ++ z) :
    exists x t, s = x ++ t ∧ Filler x ∧ stripComments t = z := by
  induction hy generalizing s with
  | nil => exact ⟨[], s, rfl, Filler.nil, h⟩
  | @cons w y hw _ ih =>
      rw [List.append_assoc] at h
      by_cases hspace : Byte.space ∈ w
      · have hspaces : forall w, w ∈ Text.blankSpellings -> Byte.space ∈ w -> w = [Byte.space] := by
          decide
        obtain rfl := hspaces w hw hspace
        rcases stripComments_eq_cons h with ⟨t, rfl, ht⟩ | ⟨_, c, t, rfl, hc, ht⟩
        · rcases ih ht with ⟨x, t', rfl, hx, ht'⟩
          exact ⟨[Byte.space] ++ x, t', rfl, Filler.blank hw hx, ht'⟩
        · rcases ih ht with ⟨x, t', rfl, hx, ht'⟩
          exact ⟨"/*" ++ (c ++ ("*/" ++ x)), t', by simp only [List.append_assoc],
            Filler.comment hc hx, ht'⟩
      · rcases exists_of_stripComments_append hspace h with ⟨t, rfl, ht⟩
        rcases ih ht with ⟨x, t', rfl, hx, ht'⟩
        exact ⟨w ++ x, t', (List.append_assoc ..).symm, Filler.blank hw hx, ht'⟩

theorem exists_word {p : UInt8 -> Bool} (hp : forall c, p c = true -> Text.mayEndBlank c = false)
    {s : Text} {w z : Text} (hw : (Text.trimLeft (stripComments s)).takeWhile p = w)
    (hz : (Text.trimLeft (stripComments s)).dropWhile p = z) :
    exists x t, s = x ++ (w ++ t) ∧ Filler x ∧ stripComments t = z := by
  rcases Text.exists_blank_trimLeft (stripComments s) with ⟨y, hy, hs⟩
  rcases exists_filler_of_blank hy hs with ⟨x, t, rfl, hx, ht⟩
  have hsplit : stripComments t = w ++ z := by
    rw [ht, ← hw, ← hz, List.takeWhile_append_dropWhile]
  have hspace : Byte.space ∉ w := by
    rw [← hw]
    exact fun hmem => absurd (hp _ (List.mem_takeWhile_imp hmem)) (by decide)
  rcases exists_of_stripComments_append hspace hsplit with ⟨u, rfl, hu⟩
  exact ⟨x, u, rfl, hx, hu⟩

end Directive

/-!
# Definitions of function macros
-/

/-- The parts of a line that starts the definition of a function macro. -/
structure Spelling where
  /-- The blanks in front of the hash sign. -/
  indent : Text
  /-- The fillers in front of the words `pragma` and `define` and of the name. -/
  first : Text
  second : Text
  third : Text
  name : Text
  /-- What stands behind the opening parenthesis. -/
  rest : Text

namespace Spelling

open Directive

/-- What stands in front of the word `define`. -/
def lead (p : Spelling) : Text :=
  p.indent ++ ("#" ++ (p.first ++ ("pragma" ++ p.second)))

def signature (p : Spelling) : Text :=
  p.name ++ Byte.openParen :: p.rest

def text (p : Spelling) : Text :=
  p.lead ++ ("define" ++ (p.third ++ p.signature))

structure Spells (p : Spelling) (l : Text) : Prop where
  text : l = p.text
  indent : forall b, b ∈ p.indent -> Byte.isBlank b = true
  first : Filler p.first
  second : Filler p.second
  third : Filler p.third
  isName : Occurrence.IsName p.name
  args : exists args, defineArgs? l = some args ∧ Occurrence.leadingName args = p.name

end Spelling

namespace FunctionMacro

open Directive

theorem exists_args_of_isDefinition {l : Text} (h : isDefinition l = true) :
    exists args more, defineArgs? l = some args ∧
      Occurrence.IsName (Occurrence.leadingName args) ∧
      args = Occurrence.leadingName args ++ Byte.openParen :: more := by
  unfold isDefinition at h
  cases hargs : defineArgs? l with
  | none =>
      rw [hargs] at h
      cases h
  | some args =>
      rw [hargs] at h
      simp only [Option.any_some, Bool.and_eq_true, Bool.not_eq_true', List.isEmpty_eq_false_iff,
        beq_iff_eq] at h
      rcases List.head?_eq_some_iff.mp h.2 with ⟨more, hmore⟩
      refine ⟨args, more, rfl, Occurrence.isName_leadingName h.1, ?_⟩
      have hsplit := List.prefix_iff_eq_append.mp (Occurrence.leadingName_isPrefix args)
      rw [hmore] at hsplit
      exact hsplit.symm

theorem exists_spelling {l : Text} (hl : Byte.newline ∉ l) (h : isDefinition l = true) :
    exists p : Spelling, p.Spells l := by
  rcases exists_args_of_isDefinition h with ⟨args, more, hargs, hname, hmore⟩
  have hstop := Occurrence.run_append (y := Byte.openParen :: more) rfl
    (Occurrence.leadingName args)
  have hdefine := hargs
  unfold defineArgs? at hdefine
  rw [← Pragma.of?] at hdefine
  rcases Option.bind_eq_some_iff.mp hdefine with ⟨p, hp, hp'⟩
  split at hp'
  · rename_i hpname
    cases hp'
    rw [beq_iff_eq] at hpname
    rcases Pragma.exists_hash_of_of? hp with ⟨s, hhash, hof⟩
    have hindent : l = l.takeWhile Byte.isBlank ++ Byte.hash :: s := by
      rw [← hhash, List.takeWhile_append_dropWhile]
    have hs : Byte.newline ∉ s := by
      rw [hindent] at hl
      exact fun hmem => hl (List.mem_append_right _ (List.mem_cons_of_mem _ hmem))
    have hbare : bare s = stripComments s := by
      rw [bare, joinContinuations_eq_self hs]
    rcases of?_hash_eq_some_iff.mp hof with ⟨hpragma, hword, _, htrim⟩
    unfold afterName at hword htrim
    rw [hbare] at hpragma hword htrim
    rw [hpname] at hword
    rcases exists_word (fun c => graphic_of_isWord) hpragma rfl with ⟨first, t, rfl, hfirst, ht⟩
    rw [← ht] at hword htrim
    rcases exists_word (fun c => graphic_of_isPragmaByte) hword.symm rfl with
      ⟨second, u, rfl, hsecond, hu⟩
    rw [← hu] at htrim
    have hlead : (Text.trimLeft (stripComments u)).takeWhile Byte.isWord =
        Occurrence.leadingName p.args := by
      rw [← (takeWhile_trim (fun c => graphic_of_isWord) _).1, ← htrim,
        congrArg (List.takeWhile Byte.isWord) hmore, hstop.1,
        List.takeWhile_eq_self_iff.mpr hname.word]
    have hparen : ((Text.trimLeft (stripComments u)).dropWhile Byte.isWord).head? =
        some Byte.openParen := by
      rw [← paren_trim, ← htrim, congrArg (List.dropWhile Byte.isWord) hmore, hstop.2,
        List.dropWhile_eq_nil_iff.mpr hname.word]
      rfl
    rcases exists_word (fun c => graphic_of_isWord) hlead rfl with ⟨third, v, rfl, hthird, hv⟩
    rcases List.head?_eq_some_iff.mp hparen with ⟨z, hz⟩
    rcases exists_of_stripComments_append (u := [Byte.openParen]) (by decide) (hv.trans hz) with
      ⟨rest, rfl, _⟩
    refine ⟨⟨l.takeWhile Byte.isBlank, first, second, third, _, rest⟩, ?_,
      fun b hb => List.mem_takeWhile_imp hb, hfirst, hsecond, hthird, hname, p.args, hargs, rfl⟩
    simp only [Spelling.text, Spelling.lead, Spelling.signature, List.append_assoc]
    exact hindent
  · cases hp'

end FunctionMacro

end EffectShader
