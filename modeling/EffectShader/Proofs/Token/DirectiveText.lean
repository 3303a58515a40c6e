import EffectShader.Proofs.Text.Lines
import EffectShader.Proofs.Text.Trim
import EffectShader.Proofs.Token.Pieces
import EffectShader.Token.Directive

/-!
# The text of a directive

A directive is one line, except that a newline behind a backslash, or behind a
backslash and a carriage return, does not end it.
-/

namespace EffectShader

namespace Lexer

inductive Continued : Text -> Prop where
  | nil : Continued []
  | newline {s : Text} : Continued s -> Continued (Byte.backslash :: Byte.newline :: s)
  | returnNewline {s : Text} :
      Continued s -> Continued (Byte.backslash :: Byte.carriage :: Byte.newline :: s)
  | byte {b : UInt8} {s : Text} : b ≠ Byte.newline -> Continued s -> Continued (b :: s)

def endsOpen : Text -> Bool
  | [] => false
  | [b] => b == Byte.backslash
  | [b, c] => c == Byte.backslash || (b == Byte.backslash && c == Byte.carriage)
  | _ :: s => endsOpen s

theorem Continued.head?_ne {s : Text} (h : Continued s) : s.head? ≠ some Byte.newline := by
  cases h with
  | nil => simp
  | newline _ => exact (by decide : some Byte.backslash ≠ some Byte.newline)
  | returnNewline _ => exact (by decide : some Byte.backslash ≠ some Byte.newline)
  | byte hb _ => simpa using hb

theorem endsOpen_of_cons {b : UInt8} {s : Text} (h : endsOpen (b :: s) = false) :
    endsOpen s = false := by
  match s with
  | [] => rfl
  | [c] =>
      simp only [endsOpen, Bool.or_eq_false_iff] at h
      exact h.1
  | c :: d :: s => exact h

theorem endsOpen_cons {b : UInt8} {s : Text} (hb : b ≠ Byte.backslash) :
    endsOpen (b :: s) = endsOpen s := by
  match s with
  | [] => simp [endsOpen, hb]
  | [c] => simp [endsOpen, hb]
  | c :: d :: s => rfl

theorem endsOpen_backslash_cons {c : UInt8} {s : Text} (hs : s ≠ []) :
    endsOpen (Byte.backslash :: c :: s) = endsOpen (c :: s) := by
  cases s with
  | nil => exact absurd rfl hs
  | cons d s => rfl

theorem endsOpen_eq_false {s : Text} (hslash : s.getLast? ≠ some Byte.backslash)
    (hcarriage : s.getLast? ≠ some Byte.carriage) : endsOpen s = false := by
  fun_induction endsOpen s with
  | case1 => rfl
  | case2 b => simpa using hslash
  | case3 b c =>
      have hb : c ≠ Byte.backslash := by simpa using hslash
      have hc : c ≠ Byte.carriage := by simpa using hcarriage
      simp [hb, hc]
  | case4 b s hone htwo ih =>
      cases s with
      | nil => exact absurd rfl hone
      | cons c s =>
          rw [List.getLast?_cons_cons] at hslash hcarriage
          exact ih hslash hcarriage

theorem continued_of_not_mem {s : Text} (h : Byte.newline ∉ s) : Continued s := by
  induction s with
  | nil => exact Continued.nil
  | cons b s ih =>
      rcases not_or.mp (mt List.mem_cons.mpr h) with ⟨hb, hs⟩
      exact Continued.byte (Ne.symm hb) (ih hs)

theorem Continued.take_two_ne {s : Text} (h : Continued s) :
    s.take 2 ≠ [Byte.carriage, Byte.newline] := by
  intro htake
  match s, h with
  | [], _ => simp at htake
  | [c], _ => simp at htake
  | c :: d :: s, h =>
      simp only [List.take_succ_cons, List.take_zero, List.cons.injEq, and_true] at htake
      rcases htake with ⟨rfl, rfl⟩
      cases h with
      | byte _ htail => exact htail.head?_ne rfl

theorem exists_continued_of_directiveExtent (s : Text) :
    exists w r, s = w ++ r ∧ directiveExtent s = w.length ∧ Continued w ∧
      (r = [] ∨ r.head? = some Byte.newline) := by
  fun_induction directiveExtent s with
  | case1 s ih =>
      rcases ih with ⟨w, r, hs, hlen, hw, hr⟩
      exact ⟨Byte.backslash :: Byte.newline :: w, r, by rw [hs]; rfl, by
        rw [hlen]; simp only [List.length_cons]; omega, Continued.newline hw, hr⟩
  | case2 s ih =>
      rcases ih with ⟨w, r, hs, hlen, hw, hr⟩
      exact ⟨Byte.backslash :: Byte.carriage :: Byte.newline :: w, r, by rw [hs]; rfl, by
        rw [hlen]; simp only [List.length_cons]; omega, Continued.returnNewline hw, hr⟩
  | case3 b s _ _ hb =>
      have hb : b = Byte.newline := by simpa using hb
      exact ⟨[], b :: s, rfl, rfl, Continued.nil, Or.inr (by rw [hb]; rfl)⟩
  | case4 b s _ _ hb ih =>
      have hb : b ≠ Byte.newline := by simpa using hb
      rcases ih with ⟨w, r, hs, hlen, hw, hr⟩
      exact ⟨b :: w, r, by rw [hs]; rfl, by
        rw [hlen]; simp only [List.length_cons]; omega, Continued.byte hb hw, hr⟩
  | case5 => exact ⟨[], [], rfl, rfl, Continued.nil, Or.inl rfl⟩

theorem continued_of_directiveExtent {w r : Text} (h : directiveExtent (w ++ r) = w.length) :
    Continued w ∧ (r = [] ∨ r.head? = some Byte.newline) := by
  rcases exists_continued_of_directiveExtent (w ++ r) with ⟨v, u, hsplit, hlen, hv, hu⟩
  rcases List.append_inj hsplit (by rw [← h, hlen]) with ⟨hw, hr⟩
  rw [hw, hr]
  exact ⟨hv, hu⟩

theorem directive_of_extent? {fresh : Bool} {b : UInt8} {w r : Text}
    (h : extent? fresh b (w ++ r) = some (.directive, w.length)) :
    b = Byte.hash ∧ fresh = true ∧ Continued w ∧ (r = [] ∨ r.head? = some Byte.newline) := by
  have hform := form_of_extent? h
  have hspec := form_spec fresh b (w ++ r).head?
  rw [hform] at hspec
  rw [extent?_eq, hform] at h
  have hextent : directiveExtent (w ++ r) = w.length := congrArg Prod.snd (Option.some.inj h)
  exact ⟨hspec.1, hspec.2, continued_of_directiveExtent hextent⟩

theorem directiveExtent_byte {b : UInt8} {s : Text} (hb : b ≠ Byte.newline)
    (hnl : b = Byte.backslash -> s.head? ≠ some Byte.newline)
    (hcr : b = Byte.backslash -> s.take 2 ≠ [Byte.carriage, Byte.newline]) :
    directiveExtent (b :: s) = 1 + directiveExtent s := by
  rw [directiveExtent]
  · simp [hb]
  · intro t hbs hs
    exact hnl hbs (by rw [hs]; rfl)
  · intro t hbs hs
    exact hcr hbs (by rw [hs]; rfl)

theorem directiveExtent_of_continued {w r : Text} (hw : Continued w)
    (hr : r = [] ∨ r.head? = some Byte.newline ∧ endsOpen w = false) :
    directiveExtent (w ++ r) = w.length := by
  induction hw with
  | nil =>
      rcases hr with rfl | ⟨hr, _⟩
      · rfl
      · cases r with
        | nil => rfl
        | cons c r =>
            have hc : c = Byte.newline := by simpa using hr
            subst hc
            rfl
  | @newline s _ ih =>
      show 2 + directiveExtent (s ++ r) = s.length + 2
      rw [ih (hr.imp_right fun h => ⟨h.1, endsOpen_of_cons (endsOpen_of_cons h.2)⟩)]
      omega
  | @returnNewline s _ ih =>
      show 3 + directiveExtent (s ++ r) = s.length + 3
      rw [ih (hr.imp_right fun h =>
        ⟨h.1, endsOpen_of_cons (endsOpen_of_cons (endsOpen_of_cons h.2))⟩)]
      omega
  | @byte b s hb hs ih =>
      rw [List.cons_append, directiveExtent_byte hb]
      · rw [ih (hr.imp_right fun h => ⟨h.1, endsOpen_of_cons h.2⟩), List.length_cons]
        omega
      · intro hslash hhead
        subst hslash
        cases s with
        | nil => rcases hr with rfl | ⟨_, hopen⟩ <;> simp_all [endsOpen]
        | cons c s => exact hs.head?_ne (by simpa using hhead)
      · intro hslash htake
        subst hslash
        match s, hs with
        | [], _ =>
            rcases hr with rfl | ⟨hhead, _⟩
            · simp at htake
            · cases r with
              | nil => simp at hhead
              | cons c r =>
                  have hc : c = Byte.newline := by simpa using hhead
                  have hc' : c = Byte.carriage := by
                    simp only [List.nil_append, List.take_succ_cons, List.cons.injEq] at htake
                    exact htake.1
                  rw [hc] at hc'
                  exact absurd hc' (by decide)
        | [c], _ =>
            cases r with
            | nil => simp at htake
            | cons d r =>
                have hc : c = Byte.carriage := by
                  simp only [List.cons_append, List.take_succ_cons, List.cons.injEq] at htake
                  exact htake.1
                rcases hr with hr | ⟨_, hopen⟩
                · cases hr
                · subst hc
                  exact absurd hopen (by decide)
        | c :: d :: s, hs => exact hs.take_two_ne (by simpa using htake)

theorem endsOpen_of_directiveExtent {w r : Text} (h : directiveExtent (w ++ r) = w.length)
    (hr : r.head? = some Byte.newline) : endsOpen w = false := by
  cases r with
  | nil => cases hr
  | cons c r =>
      have hc : c = Byte.newline := by simpa using hr
      subst hc
      have hw := (continued_of_directiveExtent h).1
      clear hr
      induction hw with
      | nil => rfl
      | @newline s _ ih =>
          have hext : 2 + directiveExtent (s ++ Byte.newline :: r) = s.length + 2 := h
          have hs := ih (by omega)
          cases s with
          | nil => decide
          | cons c s =>
              rw [endsOpen_backslash_cons (by simp), endsOpen_cons (by decide)]
              exact hs
      | @returnNewline s _ ih =>
          have hext : 3 + directiveExtent (s ++ Byte.newline :: r) = s.length + 3 := h
          have hs := ih (by omega)
          rw [endsOpen_backslash_cons (by simp), endsOpen_cons (by decide),
            endsOpen_cons (by decide)]
          exact hs
      | @byte b s hb hs ih =>
          match s, hs, ih with
          | [], _, _ =>
              by_cases hslash : b = Byte.backslash
              · subst hslash
                have hext : 2 + directiveExtent r = 1 := h
                omega
              · simp [endsOpen, hslash]
          | [c], _, _ =>
              by_cases hc : c = Byte.backslash
              · subst hc
                have hstep : directiveExtent (b :: Byte.backslash :: Byte.newline :: r) =
                    1 + directiveExtent (Byte.backslash :: Byte.newline :: r) :=
                  directiveExtent_byte hb
                    (fun _ => (by decide : some Byte.backslash ≠ some Byte.newline))
                    (fun _ => (by decide : [Byte.backslash, Byte.newline] ≠ _))
                have hext : 1 + (2 + directiveExtent r) = 2 := hstep.symm.trans h
                omega
              · by_cases hslash : b = Byte.backslash ∧ c = Byte.carriage
                · rcases hslash with ⟨rfl, rfl⟩
                  have hext : 3 + directiveExtent r = 2 := h
                  omega
                · simpa [endsOpen, hc] using hslash
          | c :: d :: s, hs, ih =>
              show endsOpen (c :: d :: s) = false
              apply ih
              have hstep : directiveExtent (b :: (c :: d :: s ++ Byte.newline :: r)) =
                  1 + directiveExtent (c :: d :: s ++ Byte.newline :: r) :=
                directiveExtent_byte hb (fun _ => hs.head?_ne)
                  (fun _ => by simpa using hs.take_two_ne)
              have hext := hstep.symm.trans h
              simp only [List.length_cons] at hext ⊢
              omega

end Lexer

/-!
# Reading directives again

The body of a directive is a single line without comments and without white
space at its ends.  A directive written from such a body reads back to it.
-/

namespace Directive

open Lexer

/-!
# Joining continued lines
-/

inductive Escaped : Text -> Prop where
  | nil : Escaped []
  | newline {s : Text} : Escaped s -> Escaped (Byte.backslash :: Byte.newline :: s)
  | byte {b : UInt8} {s : Text} : b ≠ Byte.newline -> Escaped s -> Escaped (b :: s)

theorem Escaped.head?_ne {s : Text} (h : Escaped s) : s.head? ≠ some Byte.newline := by
  cases h with
  | nil => simp
  | newline _ => exact (by decide : some Byte.backslash ≠ some Byte.newline)
  | byte hb _ => simpa using hb

theorem replaceFrom_of_isPrefixOf_eq_false {old new : Text} {b : UInt8} {s : Text}
    (h : old.isPrefixOf (b :: s) = false) :
    Text.replaceFrom old new 0 (b :: s) = b :: Text.replaceFrom old new 0 s := by
  rw [Text.replaceFrom, h]
  rfl

theorem escaped_replaceAll_return {s : Text} (h : Continued s) :
    Escaped (Text.replaceAll "\\\r\n" " " s) := by
  unfold Text.replaceAll
  induction h with
  | nil => exact Escaped.nil
  | @newline s _ ih =>
      rw [replaceFrom_of_isPrefixOf_eq_false rfl, replaceFrom_of_isPrefixOf_eq_false rfl]
      exact Escaped.newline ih
  | @returnNewline s _ ih => exact Escaped.byte (by decide) ih
  | @byte b s hb hs ih =>
      rw [replaceFrom_of_isPrefixOf_eq_false]
      · exact Escaped.byte hb ih
      · rw [Bool.eq_false_iff]
        intro hprefix
        rcases List.isPrefixOf_iff_prefix.mp hprefix with ⟨r, hr⟩
        cases hr
        exact hs.take_two_ne rfl

theorem newline_not_mem_replaceAll {s : Text} (h : Escaped s) :
    Byte.newline ∉ Text.replaceAll "\\\n" " " s := by
  unfold Text.replaceAll
  induction h with
  | nil => simp [Text.replaceFrom]
  | @newline s _ ih =>
      show Byte.newline ∉ Byte.space :: Text.replaceFrom "\\\n" " " 0 s
      exact List.not_mem_cons_of_ne_of_not_mem (by decide) ih
  | @byte b s hb hs ih =>
      rw [replaceFrom_of_isPrefixOf_eq_false]
      · exact List.not_mem_cons_of_ne_of_not_mem (Ne.symm hb) ih
      · rw [Bool.eq_false_iff]
        intro hprefix
        rcases List.isPrefixOf_iff_prefix.mp hprefix with ⟨r, hr⟩
        cases hr
        exact hs.head?_ne rfl

theorem newline_not_mem_of_continued {s : Text} (h : Continued s)
    (hslash : Byte.backslash ∉ s) : Byte.newline ∉ s := by
  induction h with
  | nil => simp
  | newline _ _ => simp at hslash
  | returnNewline _ _ => simp at hslash
  | byte hb _ ih =>
      rcases not_or.mp (mt List.mem_cons.mpr hslash) with ⟨_, hslash⟩
      exact List.not_mem_cons_of_ne_of_not_mem (Ne.symm hb) (ih hslash)

theorem newline_not_mem_joinContinuations {s : Text} (h : Continued s) :
    Byte.newline ∉ joinContinuations s := by
  unfold joinContinuations
  split
  · exact newline_not_mem_replaceAll (escaped_replaceAll_return h)
  · rename_i hslash
    exact newline_not_mem_of_continued h (by simpa using hslash)

theorem replaceFrom_eq_self {c : UInt8} {old : Text} (new : Text) {s : Text} (hold : c ∈ old)
    (hs : c ∉ s) : Text.replaceFrom old new 0 s = s := by
  induction s with
  | nil => rfl
  | cons b s ih =>
      have hprefix : old.isPrefixOf (b :: s) = false := by
        rw [Bool.eq_false_iff]
        intro hprefix
        exact hs ((List.isPrefixOf_iff_prefix.mp hprefix).subset hold)
      rw [replaceFrom_of_isPrefixOf_eq_false hprefix, ih (fun h => hs (List.mem_cons_of_mem b h))]

theorem joinContinuations_eq_self {s : Text} (h : Byte.newline ∉ s) :
    joinContinuations s = s := by
  unfold joinContinuations Text.replaceAll
  rw [replaceFrom_eq_self " " (c := Byte.newline) (by decide) h,
    replaceFrom_eq_self " " (c := Byte.newline) (by decide) h, ite_self]

/-!
# Removing comments
-/

def hasComment : Text -> Bool
  | b :: c :: s =>
      (b == Byte.slash && (c == Byte.slash || c == Byte.star)) || hasComment (c :: s)
  | _ => false

theorem hasComment_of_suffix {s t : Text} (hs : s <:+ t) (ht : hasComment t = false) :
    hasComment s = false := by
  rcases hs with ⟨r, rfl⟩
  induction r with
  | nil => exact ht
  | cons b r ih =>
      apply ih
      cases hrest : r ++ s with
      | nil => rfl
      | cons c u =>
          rw [List.cons_append, hrest, hasComment, Bool.or_eq_false_iff] at ht
          exact ht.2

theorem hasComment_of_isPrefix {s t : Text} (hs : s <+: t) (ht : hasComment t = false) :
    hasComment s = false := by
  rcases hs with ⟨r, rfl⟩
  induction s with
  | nil => rfl
  | cons b s ih =>
      cases s with
      | nil => rfl
      | cons c s =>
          simp only [List.cons_append, hasComment, Bool.or_eq_false_iff] at ht ⊢
          exact ⟨ht.1, ih ht.2⟩

theorem head?_stripComments {c : UInt8} {s : Text} (hc : c ≠ Byte.slash) :
    (stripComments (c :: s)).head? = some c := by
  cases s with
  | nil => rw [stripComments]; rfl
  | cons d s =>
      rw [stripComments]
      simp [hc]

theorem hasComment_stripComments (s : Text) : hasComment (stripComments s) = false := by
  fun_induction stripComments s with
  | case1 => rfl
  | case2 b => rfl
  | case3 b c s hline => rfl
  | case4 b c s hline hblock hcut => rfl
  | case5 b c s hline hblock before after hcut hlen ih =>
      cases hrest : stripComments after with
      | nil => rfl
      | cons d u =>
          rw [hrest] at ih
          rw [hasComment, ih]
          rfl
  | case6 b c s hline hblock ih =>
      cases hrest : stripComments (c :: s) with
      | nil => rfl
      | cons d u =>
          rw [hrest] at ih
          rw [hasComment, ih, Bool.or_false, Bool.eq_false_iff]
          intro hstart
          simp only [Bool.and_eq_true, Bool.or_eq_true, beq_iff_eq] at hstart hline hblock
          rcases hstart with ⟨hb, hd⟩
          have hcslash : c ≠ Byte.slash := fun hc => hline ⟨hb, hc⟩
          have hhead := head?_stripComments (s := s) hcslash
          rw [hrest] at hhead
          have hdc : d = c := by simpa using hhead
          rcases hd with hd | hd
          · exact hcslash (hdc ▸ hd)
          · exact hblock ⟨hb, hdc ▸ hd⟩

theorem mem_stripComments {b : UInt8} {s : Text} (h : b ∈ stripComments s) :
    b ∈ s ∨ b = Byte.space := by
  fun_induction stripComments s with
  | case1 => simp at h
  | case2 c => exact Or.inl h
  | case3 c d s hline => simp at h
  | case4 c d s hline hblock hcut => simp at h
  | case5 c d s hline hblock before after hcut hlen ih =>
      rcases List.mem_cons.mp h with rfl | h
      · exact Or.inr rfl
      · apply (ih h).imp_left
        intro hafter
        rw [Text.eq_append_of_cut? hcut]
        simp [hafter]
  | case6 c d s hline hblock ih =>
      rcases List.mem_cons.mp h with rfl | h
      · exact Or.inl List.mem_cons_self
      · exact (ih h).imp_left (List.mem_cons_of_mem c)

theorem stripComments_eq_self {s : Text} (h : hasComment s = false) : stripComments s = s := by
  fun_induction stripComments s with
  | case1 => rfl
  | case2 c => rfl
  | case3 b c s hline =>
      simp only [Bool.and_eq_true, beq_iff_eq] at hline
      simp [hasComment, hline.1, hline.2] at h
  | case4 b c s hline hblock hcut =>
      simp only [Bool.and_eq_true, beq_iff_eq] at hblock
      simp [hasComment, hblock.1, hblock.2] at h
  | case5 b c s hline hblock before after hcut hlen ih =>
      simp only [Bool.and_eq_true, beq_iff_eq] at hblock
      simp [hasComment, hblock.1, hblock.2] at h
  | case6 b c s hline hblock ih =>
      rw [hasComment, Bool.or_eq_false_iff] at h
      rw [ih h.2]

theorem hasComment_of_not_mem {s : Text} (h : Byte.slash ∉ s) : hasComment s = false := by
  fun_induction hasComment s with
  | case1 b c s ih =>
      rcases not_or.mp (mt List.mem_cons.mpr h) with ⟨hb, h⟩
      simp [ih h, Ne.symm hb]
  | case2 s hs => rfl

theorem hasComment_withoutComments (s : Text) : hasComment (withoutComments s) = false := by
  unfold withoutComments
  split
  · exact hasComment_stripComments s
  · rename_i hslash
    exact hasComment_of_not_mem (by simpa using hslash)

theorem withoutComments_eq_self {s : Text} (h : hasComment s = false) :
    withoutComments s = s := by
  unfold withoutComments
  rw [stripComments_eq_self h, ite_self]

theorem newline_not_mem_withoutComments {s : Text} (h : Byte.newline ∉ s) :
    Byte.newline ∉ withoutComments s := by
  unfold withoutComments
  split
  · intro hmem
    rcases mem_stripComments hmem with hmem | hmem
    · exact h hmem
    · exact absurd hmem (by decide)
  · exact h

theorem hasComment_cons {b : UInt8} {s : Text} (hb : b ≠ Byte.slash) :
    hasComment (b :: s) = hasComment s := by
  cases s with
  | nil => rfl
  | cons c s => simp [hasComment, hb]

/-!
# Bodies
-/

structure IsBody (t : Text) : Prop where
  single : Byte.newline ∉ t
  bare : hasComment t = false
  left : Text.trimLeft t = t
  right : Text.trimRight t = t

theorem isBody_trim {s t : Text} (hline : Byte.newline ∉ s) (hbare : hasComment s = false)
    (ht : t <:+: s) : IsBody (Text.trim t) := by
  have hpart : Text.trim t <:+: s := (Text.trim_infix t).trans ht
  rcases hpart with ⟨x, y, rfl⟩
  constructor
  · intro hmem
    exact hline (List.mem_append_left y (List.mem_append_right x hmem))
  · apply hasComment_of_suffix (List.suffix_append x _)
    exact hasComment_of_isPrefix (List.prefix_append _ y) hbare
  · exact Text.trimLeft_trim t
  · exact Text.trimRight_trim t

theorem isBody_of_parse? {w : Text} {d : Directive} (hw : Continued w)
    (h : parse? (Byte.hash :: w) = some d) : IsBody d.body := by
  have hparse : some (Directive.mk
      ((Text.trim (withoutComments (joinContinuations w))).takeWhile Byte.isWord)
      (Text.trim ((Text.trim (withoutComments (joinContinuations w))).dropWhile Byte.isWord))) =
      some d := h
  cases hparse
  apply isBody_trim (s := withoutComments (joinContinuations w))
  · exact newline_not_mem_withoutComments (newline_not_mem_joinContinuations hw)
  · exact hasComment_withoutComments _
  · exact (List.dropWhile_suffix _).isInfix.trans (Text.trim_infix _)

theorem of_isWord {P : UInt8 -> Prop} [DecidablePred P] {b : UInt8} (hb : Byte.isWord b = true)
    (h : ((List.range 256).filter fun n => Byte.isWord (UInt8.ofNat n)).all
      (fun n => decide (P (UInt8.ofNat n))) = true) : P b := by
  have hmem : b.toNat ∈ (List.range 256).filter fun n => Byte.isWord (UInt8.ofNat n) := by
    rw [List.mem_filter, UInt8.ofNat_toNat]
    exact ⟨List.mem_range.mpr b.toNat_lt, hb⟩
  have hall := of_decide_eq_true (List.all_eq_true.mp h _ hmem)
  rw [UInt8.ofNat_toNat] at hall
  exact hall

theorem hasComment_append {w : Text} (hw : Byte.slash ∉ w) (s : Text) :
    hasComment (w ++ s) = hasComment s := by
  induction w with
  | nil => rfl
  | cons b w ih =>
      simp only [List.mem_cons, not_or] at hw
      rw [List.cons_append, hasComment_cons (Ne.symm hw.1), ih hw.2]

theorem parse?_named {w t : Text} (hne : w ≠ []) (hw : forall b, b ∈ w -> Byte.isWord b = true)
    (ht : IsBody t) (htne : t ≠ []) :
    parse? (Byte.hash :: (w ++ Byte.space :: t)) = some ⟨w, t⟩ := by
  have hbytes : forall b, b ∈ w -> (b ≠ Byte.newline ∧ b ≠ Byte.slash) ∧
      Text.mayEndBlank b = false := by
    intro b hb
    exact of_isWord (P := fun b => (b ≠ Byte.newline ∧ b ≠ Byte.slash) ∧
      Text.mayEndBlank b = false) (hw b hb) (by decide)
  have hline : Byte.newline ∉ w ++ Byte.space :: t := by
    simp only [List.mem_append, List.mem_cons, not_or]
    exact ⟨fun hmem => (hbytes _ hmem).1.1 rfl, by decide, ht.single⟩
  have hbare : hasComment (w ++ Byte.space :: t) = false := by
    rw [hasComment_append (fun hmem => (hbytes _ hmem).1.2 rfl), hasComment_cons (by decide)]
    exact ht.bare
  have htrim : Text.trim (w ++ Byte.space :: t) = w ++ Byte.space :: t := by
    have hleft : Text.trimLeft (w ++ Byte.space :: t) = w ++ Byte.space :: t := by
      apply Text.dropBlanks_of_head?
      intro c hc
      cases w with
      | nil => exact absurd rfl hne
      | cons b w =>
          cases hc
          exact (hbytes _ List.mem_cons_self).2
    rw [Text.trim, hleft]
    exact Text.trimRight_append_space ht.right htne w
  have hbody : Text.trim (Byte.space :: t) = t := by
    rw [Text.trim, Text.trimLeft_space, ht.left, ht.right]
  have htake : (w ++ Byte.space :: t).takeWhile Byte.isWord = w := by
    rw [List.takeWhile_append_of_pos hw]
    exact List.append_nil w
  have hdrop : (w ++ Byte.space :: t).dropWhile Byte.isWord = Byte.space :: t := by
    rw [List.dropWhile_append_of_pos hw]
    rfl
  show some (Directive.mk
      ((Text.trim (withoutComments (joinContinuations (w ++ Byte.space :: t)))).takeWhile
        Byte.isWord)
      (Text.trim ((Text.trim (withoutComments (joinContinuations
        (w ++ Byte.space :: t)))).dropWhile Byte.isWord))) = _
  rw [joinContinuations_eq_self hline, withoutComments_eq_self hbare, htrim, htake, hdrop, hbody]

theorem parse?_if {t : Text} (ht : IsBody t) (hne : t ≠ []) :
    parse? ("#if " ++ t) = some ⟨"if", t⟩ :=
  parse?_named (w := "if") (by decide) (List.all_eq_true.mp (by decide)) ht hne

theorem parse?_else : parse? "#else" = some ⟨"else", []⟩ := by
  have htrim : Text.trim ("else" : Text) = "else" := by
    have hleft : Text.trimLeft ("else" : Text) = "else" := Text.dropBlanks_eq_self_of_none rfl
    rw [Text.trim, hleft]
    rfl
  have hempty : Text.trim [] = [] := by
    rw [Text.trim, Text.trimLeft, Text.dropBlanks]
    rfl
  show some (Directive.mk ((Text.trim ("else" : Text)).takeWhile Byte.isWord)
      (Text.trim ((Text.trim ("else" : Text)).dropWhile Byte.isWord))) = _
  rw [htrim]
  show some (Directive.mk "else" (Text.trim [])) = _
  rw [hempty]

end Directive

end EffectShader
