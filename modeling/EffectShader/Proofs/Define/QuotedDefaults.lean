import EffectShader.Proofs.Condition.Spacing
import EffectShader.Proofs.Define.Lines
import EffectShader.Proofs.Define.Sets
import EffectShader.Proofs.Fold.Runs
import EffectShader.Proofs.Yaml.Quoted

/-!
# Defaults in quotes

The metadata of a define give its default as a quoted text.  The text passes through the
scanner, loses its comments, is cut out at its closing parenthesis and is read as a value.
A text with balanced parentheses survives if and only if it has no comment in it: comments
are removed from a directive wherever they stand.
-/

namespace EffectShader

/-!
# Cutting and trimming
-/

namespace Text

theorem cut?_append_cons {c : UInt8} {x : Text} (hx : c ∉ x) (s : Text) :
    cut? [c] (x ++ c :: s) = some (x, s) := by
  induction x with
  | nil => simp [cut?, afterPrefix?]
  | cons b x ih =>
      simp only [List.mem_cons, not_or] at hx
      simp [cut?, afterPrefix?, beq_false_of_ne hx.1, ih hx.2]

theorem Blank.mayEndBlank {y : Text} (h : Blank y) {c : UInt8} (hc : c ∈ y) :
    mayEndBlank c = true := by
  have hbytes : forall w, w ∈ blankSpellings -> forall c, c ∈ w -> Text.mayEndBlank c = true := by
    decide +kernel
  induction h with
  | nil => cases hc
  | cons hw _ ih =>
      rcases List.mem_append.mp hc with hc | hc
      · exact hbytes _ hw c hc
      · exact ih hc

theorem trimRight_concat {c : UInt8} (hc : mayEndBlank c = false) (s : Text) :
    trimRight (s ++ [c]) = s ++ [c] := by
  rw [trimRight, List.getLast?_concat, Option.any_some, hc]
  rfl

theorem trimRight_of_append {a t : Text} (h : trimRight (a ++ t) = a ++ t) : trimRight t = t := by
  rw [trimRight_eq, List.reverse_append] at h
  rw [trimRight_eq]
  cases ht : t.reverse with
  | nil =>
      rw [dropBlanks, List.reverse_nil, ← List.reverse_eq_nil_iff.mp ht]
  | cons b r =>
      rw [ht] at h
      have hself : dropBlanks reversedBlankSpellings (b :: (r ++ a.reverse)) =
          b :: (r ++ a.reverse) := by
        have hreverse := congrArg List.reverse h
        rwa [List.reverse_reverse, List.reverse_append, ht] at hreverse
      rw [dropBlanks_eq_self_of_none (blankExtent?_of_append (blankExtent?_of_dropBlanks hself)),
        ← ht, List.reverse_reverse]

/-- Trimming the end stops at the last byte that is not blank. -/
theorem exists_trimRight_cons {c : UInt8} (hc : mayEndBlank c = false) (a b : Text) :
    exists z, trimRight (a ++ c :: b) = a ++ c :: z ∧ z <+: b := by
  rcases exists_blank_trimRight (a ++ c :: b) with ⟨y, hy, hsplit⟩
  generalize trimRight (a ++ c :: b) = t at hsplit
  rcases List.append_eq_append_iff.mp hsplit with ⟨w, ht, hb⟩ | ⟨w, ha, hcy⟩
  · cases w with
    | nil =>
        have hmem : c ∈ y := by
          rw [← List.nil_append y, ← hb]
          exact List.mem_cons_self
        rw [hy.mayEndBlank hmem] at hc
        cases hc
    | cons d w =>
        rcases List.cons.inj hb with ⟨rfl, rfl⟩
        exact ⟨w, ht, List.prefix_append w y⟩
  · have hmem : c ∈ y := by
      rw [hcy]
      exact List.mem_append_right w List.mem_cons_self
    rw [hy.mayEndBlank hmem] at hc
    cases hc

end Text

/-!
# Comments
-/

namespace Directive

open Lexer (stripComments_append)

theorem length_stripComments_le (s : Text) : (stripComments s).length ≤ s.length := by
  fun_induction stripComments s with
  | case1 => exact Nat.le_refl _
  | case2 b => exact Nat.le_refl _
  | case3 b c s hline => exact Nat.zero_le _
  | case4 b c s hline hblock hcut => exact Nat.zero_le _
  | case5 b c s hline hblock before after hcut hlen ih =>
      simp only [List.length_cons]
      omega
  | case6 b c s hline hblock ih =>
      rw [List.length_cons, List.length_cons (a := b)]
      omega

theorem length_stripComments_lt {s : Text} (h : hasComment s = true) :
    (stripComments s).length < s.length := by
  fun_induction stripComments s with
  | case1 => cases h
  | case2 b => cases h
  | case3 b c s hline => exact Nat.zero_lt_succ _
  | case4 b c s hline hblock hcut => exact Nat.zero_lt_succ _
  | case5 b c s hline hblock before after hcut hlen ih =>
      have hle := length_stripComments_le after
      simp only [List.length_cons]
      omega
  | case6 b c s hline hblock ih =>
      have hrest : hasComment (c :: s) = true := by
        simp only [Bool.and_eq_true, beq_iff_eq] at hline hblock
        simp only [hasComment, Bool.or_eq_true, Bool.and_eq_true, beq_iff_eq] at h
        rcases h with ⟨hb, hc | hc⟩ | h
        · exact absurd ⟨hb, hc⟩ hline
        · exact absurd ⟨hb, hc⟩ hblock
        · exact h
      have hlt := ih hrest
      rw [List.length_cons, List.length_cons (a := b)]
      omega

theorem hasComment_iff {s : Text} :
    hasComment s = true ↔ ("//" : Text) <:+: s ∨ ("/*" : Text) <:+: s := by
  rw [show ("//" : Text) = [Byte.slash, Byte.slash] from rfl,
    show ("/*" : Text) = [Byte.slash, Byte.star] from rfl]
  fun_induction hasComment s with
  | case1 b c s ih =>
      have hstep (d : UInt8) : [Byte.slash, d] <:+: b :: c :: s ↔
          (b = Byte.slash ∧ c = d) ∨ [Byte.slash, d] <:+: c :: s := by
        rw [List.infix_cons_iff, List.cons_prefix_cons, List.cons_prefix_cons, eq_comm (a := b),
          eq_comm (a := c)]
        simp only [List.nil_prefix, and_true]
      rw [hstep, hstep, Bool.or_eq_true, ih, Bool.and_eq_true, Bool.or_eq_true, beq_iff_eq,
        beq_iff_eq, beq_iff_eq]
      tauto
  | case2 s hs =>
      refine iff_of_false Bool.false_ne_true ?_
      rcases s with _ | ⟨b, _ | ⟨c, s⟩⟩
      · decide
      · simp [List.infix_cons_iff]
      · exact absurd rfl (hs b c s)

theorem hasComment_append_left {v z : Text} (hz : hasComment z = false)
    (hslash : z.head? ≠ some Byte.slash) (hstar : z.head? ≠ some Byte.star) :
    hasComment (v ++ z) = hasComment v := by
  fun_induction hasComment v with
  | case1 b c s ih =>
      rw [List.cons_append, List.cons_append, hasComment, ← ih]
      rfl
  | case2 s hs =>
      rcases s with _ | ⟨b, _ | ⟨c, s⟩⟩
      · exact hz
      · cases z with
        | nil => rfl
        | cons c z =>
            have hmarks : c ≠ Byte.slash ∧ c ≠ Byte.star := by simpa using And.intro hslash hstar
            simp [hasComment, hmarks, hz]
      · exact absurd rfl (hs b c s)

/-!
# Reading a line with a comment
-/

theorem parse?_stripped {w t : Text} (hne : w ≠ []) (hw : forall b, b ∈ w -> Byte.isWord b = true)
    (hline : Byte.newline ∉ t) {c : UInt8} (hc : Text.mayEndBlank c = false)
    (hhead : (stripComments t).head? = some c) :
    parse? (Byte.hash :: (w ++ Byte.space :: t)) = some ⟨w, Text.trimRight (stripComments t)⟩ := by
  have hbytes : forall b, b ∈ w -> (b ≠ Byte.newline ∧ b ≠ Byte.slash) ∧
      Text.mayEndBlank b = false := by
    intro b hb
    exact of_isWord (P := fun b => (b ≠ Byte.newline ∧ b ≠ Byte.slash) ∧
      Text.mayEndBlank b = false) (hw b hb) (by decide)
  obtain ⟨r, hr⟩ : exists r, stripComments t = c :: r := by
    cases hstrip : stripComments t with
    | nil =>
        rw [hstrip] at hhead
        cases hhead
    | cons d r =>
        rw [hstrip] at hhead
        cases hhead
        exact ⟨r, rfl⟩
  rcases Text.exists_trimRight_cons hc [] r with ⟨z, hz, _⟩
  rw [List.nil_append, List.nil_append] at hz
  have hjoined : joinContinuations (w ++ Byte.space :: t) = w ++ Byte.space :: t := by
    apply joinContinuations_eq_self
    simp only [List.mem_append, List.mem_cons, not_or]
    exact ⟨fun hmem => (hbytes _ hmem).1.1 rfl, by decide, hline⟩
  have hbare : bare (w ++ Byte.space :: t) = w ++ Byte.space :: c :: r := by
    have hslash : Byte.slash ∉ w ++ [Byte.space] := by
      simp only [List.mem_append, List.mem_singleton, not_or]
      exact ⟨fun hmem => (hbytes _ hmem).1.2 rfl, by decide⟩
    have hstrip := stripComments_append hslash t
    rw [List.append_assoc, hr, List.append_assoc] at hstrip
    rw [bare, hjoined]
    exact hstrip
  have htrim : Text.trim (w ++ Byte.space :: c :: r) = w ++ Byte.space :: c :: z := by
    have hleft : Text.trimLeft (w ++ Byte.space :: c :: r) = w ++ Byte.space :: c :: r := by
      apply Text.dropBlanks_of_head?
      intro d hd
      cases w with
      | nil => exact absurd rfl hne
      | cons b w =>
          cases hd
          exact (hbytes _ List.mem_cons_self).2
    rcases Text.exists_blank_trimRight (c :: r) with ⟨y, hy, hsplit⟩
    have hstable : Text.trimRight (c :: z) = c :: z := by rw [← hz, Text.trimRight_trimRight]
    rw [Text.trim, hleft, hsplit, hz, ← List.cons_append, ← List.append_assoc,
      Text.trimRight_append_blank hy,
      Text.trimRight_append_space hstable (List.cons_ne_nil c z)]
  have htake : (w ++ Byte.space :: c :: z).takeWhile Byte.isWord = w := by
    rw [List.takeWhile_append_of_pos hw]
    exact List.append_nil w
  have hdrop : (w ++ Byte.space :: c :: z).dropWhile Byte.isWord = Byte.space :: c :: z := by
    rw [List.dropWhile_append_of_pos hw]
    rfl
  have hbody : Text.trim (Byte.space :: c :: z) = c :: z := by
    have hstart : Text.trimLeft (c :: z) = c :: z := by
      apply Text.dropBlanks_of_head?
      intro d hd
      cases hd
      exact hc
    rw [Text.trim, Text.trimLeft_space, hstart, ← hz, Text.trimRight_trimRight]
  rw [parse?_hash, hbare, ofBare, htrim, htake, hdrop, hbody, hr, hz]

end Directive

/-!
# Labels
-/

namespace Metadata

open Yaml (IsQuotable value?_quoted value?_open)

structure IsBalanced (v : Text) : Prop where
  nested : forall p, p ∈ v.inits -> p.count Byte.closeParen ≤ p.count Byte.openParen
  closed : v.count Byte.openParen = v.count Byte.closeParen

/-- A text whose parentheses never reach the depth zero is passed. -/
theorem closeParen?_append {v : Text} {depth : Nat}
    (h : forall p, p <+: v -> p.count Byte.closeParen < p.count Byte.openParen + depth) (r : Text) :
    closeParen? depth (v ++ r) =
      (closeParen? (depth + v.count Byte.openParen - v.count Byte.closeParen) r).map
        fun (inside, rest) => (v ++ inside, rest) := by
  induction v generalizing depth with
  | nil => simp
  | cons b v ih =>
      have hcons {next : Nat}
          (hnext : next + v.count Byte.openParen - v.count Byte.closeParen =
            depth + (b :: v).count Byte.openParen - (b :: v).count Byte.closeParen)
          (hbelow : forall p, p <+: v ->
            p.count Byte.closeParen < p.count Byte.openParen + next) :
          ((closeParen? next (v ++ r)).map fun (inside, rest) => (b :: inside, rest)) =
            (closeParen? (depth + (b :: v).count Byte.openParen -
              (b :: v).count Byte.closeParen) r).map fun (inside, rest) =>
                (b :: v ++ inside, rest) := by
        rw [ih hbelow, hnext, Option.map_map]
        rfl
      have hrest (p : Text) (hp : p <+: v) := h (b :: p) (List.cons_prefix_cons.mpr ⟨rfl, hp⟩)
      rw [List.cons_append, closeParen?]
      by_cases hopen : b = Byte.openParen
      · subst hopen
        have hcount (p : Text) :
            (Byte.openParen :: p).count Byte.openParen = p.count Byte.openParen + 1 ∧
              (Byte.openParen :: p).count Byte.closeParen = p.count Byte.closeParen :=
          ⟨List.count_cons_self, List.count_cons_of_ne (by decide)⟩
        rw [if_pos (beq_self_eq_true _)]
        refine hcons (by have := hcount v; omega) fun p hp => ?_
        have hlt := hrest p hp
        have := hcount p
        omega
      · rw [if_neg (by simpa using hopen)]
        by_cases hclose : b = Byte.closeParen
        · subst hclose
          have hcount (p : Text) :
              (Byte.closeParen :: p).count Byte.openParen = p.count Byte.openParen ∧
                (Byte.closeParen :: p).count Byte.closeParen = p.count Byte.closeParen + 1 :=
            ⟨List.count_cons_of_ne (by decide), List.count_cons_self⟩
          have hdepth : 1 < 0 + depth := hrest [] List.nil_prefix
          rw [Nat.zero_add] at hdepth
          rw [if_pos (beq_self_eq_true _), if_neg (Nat.not_le.mpr hdepth)]
          refine hcons (by have := hcount v; omega) fun p hp => ?_
          have hlt := hrest p hp
          have := hcount p
          omega
        · rw [if_neg (by simpa using hclose)]
          refine hcons (by simp [hopen, hclose]) fun p hp => ?_
          simpa [hopen, hclose] using hrest p hp

theorem eq_append_of_closeParen? {depth : Nat} {s inside rest : Text}
    (h : closeParen? depth s = some (inside, rest)) : s = inside ++ Byte.closeParen :: rest := by
  fun_induction closeParen? depth s generalizing inside with
  | case1 => cases h
  | case2 depth b s hopen ih =>
      rcases Option.map_eq_some_iff.mp h with ⟨⟨i, q⟩, hclose, heq⟩
      cases heq
      rw [ih hclose, List.cons_append]
  | case3 depth b s hopen hclose hdepth =>
      cases h
      rw [beq_iff_eq.mp hclose, List.nil_append]
  | case4 depth b s hopen hclose hdepth ih =>
      rcases Option.map_eq_some_iff.mp h with ⟨⟨i, q⟩, hclose, heq⟩
      cases heq
      rw [ih hclose, List.cons_append]
  | case5 depth b s hopen hclose ih =>
      rcases Option.map_eq_some_iff.mp h with ⟨⟨i, q⟩, hclose, heq⟩
      cases heq
      rw [ih hclose, List.cons_append]

theorem closeParen?_quote (depth : Nat) (s : Text) :
    closeParen? depth (Byte.quote :: s) =
      (closeParen? depth s).map fun (inside, rest) => (Byte.quote :: inside, rest) := rfl

theorem parseLabels_default {s : Text} (htrim : Text.trimRight ("default(" ++ s) = "default(" ++ s)
    (fuel : Nat) :
    parseLabels (fuel + 1) ("default(" ++ s) =
      match closeParen? 1 s with
      | none => .error ("unterminated label '" ++ ("default" : Text) ++ "'")
      | some (inside, rest) =>
          match Yaml.value? inside with
          | none => .error ("label " ++ ("default" : Text) ++ ": yaml: malformed value")
          | some value =>
              match parseLabels fuel rest with
              | .error e => .error e
              | .ok labels => .ok (⟨"default", value⟩ :: labels) := by
  have htrimmed : Text.trim ("default(" ++ s) = "default(" ++ s := by
    have hleft : Text.trimLeft ("default(" ++ s) = "default(" ++ s :=
      Text.dropBlanks_eq_self_of_none rfl
    rw [Text.trim, hleft, htrim]
  have hcut : Text.cut? [Byte.openParen] ("default(" ++ s) = some (("default" : Text), s) :=
    Text.cut?_append_cons (x := "default") (by decide) s
  have hkey : Text.trim ("default" : Text) = "default" := by
    decide +kernel
  rw [parseLabels]
  simp only [htrimmed, hcut, hkey]
  rfl

theorem parseLabels_nil (fuel : Nat) : parseLabels fuel [] = .ok [] := by
  have htrim : Text.trim [] = [] := by
    rw [Text.trim, Text.trimLeft, Text.dropBlanks]
    rfl
  cases fuel with
  | zero => rfl
  | succ fuel =>
      rw [parseLabels, htrim]
      rfl

/-- A quoted text that may have lost its end gives a label only if it has kept it. -/
theorem parseLabels_quoted {u s : Text} (hu : forall b, b ∈ u -> IsQuotable b)
    (hs : s <+: u ++ [Byte.quote, Byte.closeParen])
    (htrim : Text.trimRight ("default(" ++ Byte.quote :: s) = "default(" ++ Byte.quote :: s)
    (fuel : Nat) {labels : List Label}
    (h : parseLabels (fuel + 1) ("default(" ++ Byte.quote :: s) = .ok labels) :
    s = u ++ [Byte.quote, Byte.closeParen] ∧ labels = [⟨"default", .text u⟩] := by
  rw [parseLabels_default htrim, closeParen?_quote] at h
  cases hclose : closeParen? 1 s with
  | none =>
      rw [hclose] at h
      cases h
  | some parts =>
      rcases parts with ⟨i, rest⟩
      have hsplit := eq_append_of_closeParen? hclose
      have hprefix : i ++ [Byte.closeParen] <+: (u ++ [Byte.quote]) ++ [Byte.closeParen] := by
        rw [List.append_assoc]
        exact List.IsPrefix.trans ⟨rest, by rw [hsplit, List.append_assoc]; rfl⟩ hs
      rw [hclose] at h
      simp only [Option.map_some] at h
      rcases List.prefix_concat_iff.mp hprefix with heq | hinner
      · -- The closing parenthesis is the last byte.
        obtain rfl : i = u ++ [Byte.quote] := List.append_inj_left' heq rfl
        obtain rfl : rest = [] := by
          have hle := hs.length_le
          rw [hsplit] at hle
          simp only [List.length_append, List.length_cons, List.length_nil] at hle
          exact List.length_eq_zero_iff.mp (by omega)
        rw [value?_quoted hu, parseLabels_nil] at h
        refine ⟨by rw [hsplit, List.append_assoc]; rfl, ?_⟩
        cases h
        rfl
      · -- The label ends inside of the quotes.
        have hi : forall b, b ∈ i -> IsQuotable b := by
          intro b hb
          apply hu
          rcases List.prefix_concat_iff.mp hinner with heq | hinner
          · exact absurd (List.append_inj_right' heq rfl) (by decide)
          · exact hinner.subset (List.mem_append_left _ hb)
        rw [value?_open hi] at h
        cases h

theorem parseLabels_balanced {v : Text} (hv : forall b, b ∈ v -> IsQuotable b)
    (hparens : IsBalanced v) (fuel : Nat) :
    parseLabels (fuel + 1) ("default(" ++ Byte.quote :: (v ++ [Byte.quote, Byte.closeParen])) =
      .ok [⟨"default", .text v⟩] := by
  have htrim : Text.trimRight ("default(" ++ Byte.quote :: (v ++ [Byte.quote, Byte.closeParen])) =
      "default(" ++ Byte.quote :: (v ++ [Byte.quote, Byte.closeParen]) := by
    have hlast := Text.trimRight_concat (c := Byte.closeParen) (by decide)
      ("default(" ++ Byte.quote :: (v ++ [Byte.quote]))
    simpa only [List.append_assoc, List.cons_append, List.nil_append] using hlast
  have hclose : closeParen? 1 (v ++ [Byte.quote, Byte.closeParen]) =
      some (v ++ [Byte.quote], []) := by
    rw [closeParen?_append, hparens.closed, Nat.add_sub_cancel]
    · rfl
    · intro p hp
      have := hparens.nested p ((List.mem_inits p v).mpr hp)
      omega
  rw [parseLabels_default htrim, closeParen?_quote, hclose]
  simp only [Option.map_some, value?_quoted hv, parseLabels_nil]

end Metadata

/-!
# The pragma
-/

theorem DefineSet.get?_modify (s : DefineSet) (name : Text) (f : Define -> Define) :
    (s.modify name f).get? name = (s.get? name).map f := by
  unfold modify get?
  cases hplace : s.index.get? name with
  | none => rw [hplace]; rfl
  | some i => simp [hplace]

namespace Extractor

open Directive (isPragmaByte graphic_of_isWord)
open Metadata (IsBalanced parseLabels)
open Yaml (IsQuotable)

section Pragma

variable {name : Text} (hname : name ≠ []) (hword : forall b, b ∈ name -> Byte.isWord b = true)

include hname hword

theorem trimLeft_name (r : Text) : Text.trimLeft (name ++ r) = name ++ r := by
  apply Text.dropBlanks_of_head?
  intro c hc
  cases name with
  | nil => exact absurd rfl hname
  | cons b name =>
      cases hc
      exact graphic_of_isWord (hword c List.mem_cons_self)

theorem pragma?_meta {r : Text}
    (htrim : Text.trimRight ("define-meta " ++ (name ++ r)) = "define-meta " ++ (name ++ r)) :
    Directive.pragma? ⟨"pragma", "define-meta " ++ (name ++ r)⟩ =
      some ⟨"define-meta", name ++ r⟩ := by
  have hstable : Text.trimRight (name ++ r) = name ++ r := Text.trimRight_of_append htrim
  have htake : ("define-meta " ++ (name ++ r) : Text).takeWhile isPragmaByte = "define-meta" := rfl
  have hdrop : Text.trim (("define-meta " ++ (name ++ r) : Text).dropWhile isPragmaByte) =
      name ++ r := by
    change Text.trim (Byte.space :: (name ++ r)) = _
    rw [Text.trim, Text.trimLeft_space, trimLeft_name hname hword, hstable]
  exact Directive.pragma?_eq_some_iff.mpr
    ⟨rfl, htake.symm, (by decide : ("define-meta" : Text) ≠ []), hdrop.symm⟩

theorem directive_meta {r : Text}
    (htrim : Text.trimRight ("define-meta " ++ (name ++ r)) = "define-meta " ++ (name ++ r))
    (st : State) (line : Nat) :
    directive st ⟨"pragma", "define-meta " ++ (name ++ r)⟩ line =
      defineMeta st (name ++ r) line := by
  change (Directive.pragma? ⟨"pragma", "define-meta " ++ (name ++ r)⟩).elim (st, none)
    (fun p => pragma st p line) = _
  rw [pragma?_meta hname hword htrim]
  rfl

variable {r : Text}
  (htrim : Text.trimRight (name ++ Byte.space :: r) = name ++ Byte.space :: r) (st : State)
  (line : Nat)

include htrim

theorem cut_name :
    (Text.cut? " " (Text.trim (name ++ Byte.space :: r))).getD
      (Text.trim (name ++ Byte.space :: r), []) = (name, r) := by
  have hcut : Text.cut? " " (name ++ Byte.space :: r) = some (name, r) :=
    Text.cut?_append_cons (fun hmem => absurd (hword _ hmem) (by decide)) r
  rw [Text.trim, trimLeft_name hname hword, htrim, hcut, Option.getD_some]

theorem defineMeta_error {e : Text} (h : parseLabels (r.length + 1) r = .error e) :
    defineMeta st (name ++ Byte.space :: r) line =
      failed st line ("define-meta " ++ name ++ ": " ++ e) := by
  have hempty : name.isEmpty = false := by simpa using hname
  simp only [defineMeta, cut_name hname hword htrim, hempty, Bool.false_eq_true, if_false, h]

theorem defineMeta_default (hdefines : st.defines.Consistent) {value : Data}
    (h : parseLabels (r.length + 1) r = .ok [⟨"default", value⟩]) :
    exists defines d, defineMeta st (name ++ Byte.space :: r) line = ({ st with defines }, none) ∧
      defines.get? name = some d ∧ d.default = value := by
  have hempty : name.isEmpty = false := by simpa using hname
  have happly (d : Define) : Metadata.applyLabels d false [⟨"default", value⟩] =
      ({ d with default := value, explicit := true }, none) := rfl
  simp only [defineMeta, cut_name hname hword htrim, hempty, Bool.false_eq_true, if_false, h,
    happly]
  refine ⟨_, { (st.defines.get? name).getD
    { Define.new name with defines := some (Gating.chain st.stack) } with
      default := value, explicit := true }, rfl, ?_, rfl⟩
  cases hget : st.defines.get? name with
  | some d =>
      rw [Option.isSome_some, if_pos rfl, DefineSet.get?_modify, hget]
      rfl
  | none =>
      have hadd (d : Define) (hd : d.name = name) : (st.defines.add d).get? name = some d := by
        rw [hdefines.get?_add, if_pos hd, hget]
        rfl
      rw [Option.isSome_none, if_neg Bool.false_ne_true, DefineSet.get?_modify, Option.getD_none,
        hadd _ rfl]
      rfl

end Pragma

/-!
# The line
-/

def metaLine (name v : Text) : Text :=
  "#pragma define-meta " ++ name ++ " default(" ++ [Byte.quote] ++ v ++ [Byte.quote] ++ ")"

theorem walk_cons_of_error {last : Nat} {st st' : State} {t : Token} {e : Diagnostic}
    (ts : List Token) (ht : t.isDirective = true)
    (h : directive st (Preprocess.directive t.lexeme) t.line = (st', some e)) :
    walk last st (t :: ts) = (st'.defines, .error e) := by
  have hparse : (Directive.parse? t.text).getD ⟨[], []⟩ = Preprocess.directive t.lexeme := rfl
  rw [walk, if_pos ht, hparse, h]

/-- A line with nothing on it but a directive is a directive and the end of the source. -/
theorem extractDefines_line {l : Text} {d : Directive} (h : Fold.SpellsDirective l d)
    (defines : DefineSet) :
    exists ts, tokenize l = .ok ts ∧
      (forall st e, directive ⟨defines, Extraction.empty, [], []⟩ d 1 = (st, some e) ->
        extractDefines ts defines = (st.defines, .error e)) ∧
      (forall st, directive ⟨defines, Extraction.empty, [], []⟩ d 1 = (st, none) -> st.stack = [] ->
        exists x, extractDefines ts defines = (st.defines, .ok x)) := by
  have hlexes : Lexer.Lexes true l [⟨.directive, l⟩] := by
    have hcuts := (h.cuts [] (Or.inl rfl)).lexes (Lexer.Lexes.nil false)
    simpa using hcuts
  have hparse : (Directive.parse? l).getD ⟨[], []⟩ = d := by rw [h.parse, Option.getD_some]
  refine ⟨_, Lexer.tokenize_eq_ok_iff.mpr ⟨_, hlexes, rfl⟩, ?_, ?_⟩
  · intro st e hstep
    change walk _ _ (⟨.directive, l, Position.start⟩ :: _) = _
    exact walk_cons_of_error _ rfl (by rw [← hstep, ← hparse]; rfl)
  · intro st hstep hstack
    change exists x, walk _ _ (⟨.directive, l, Position.start⟩ :: _) = _
    rw [walk_cons_of_step _ rfl (by rw [← hstep, ← hparse]; rfl)]
    change exists x, walk _ (st.record _) [Token.endAt _] = _
    rw [walk_cons_of_not_directive _ rfl, walk]
    change exists x, (if st.stack.isEmpty then _ else _) = _
    rw [hstack]
    exact ⟨_, rfl⟩

theorem exists_spellsDirective_meta {name v : Text}
    (hword : forall b, b ∈ name -> Byte.isWord b = true) (hv : forall b, b ∈ v -> IsQuotable b) :
    exists u s, (forall b, b ∈ u -> IsQuotable b) ∧ s <+: u ++ [Byte.quote, Byte.closeParen] ∧
      (Directive.hasComment v = true -> u.length < v.length) ∧
      (Directive.hasComment v = false ->
        u = v ∧ s = u ++ [Byte.quote, Byte.closeParen]) ∧
      Text.trimRight ("define-meta " ++ (name ++ Byte.space :: ("default(" ++ Byte.quote :: s))) =
        "define-meta " ++ (name ++ Byte.space :: ("default(" ++ Byte.quote :: s)) ∧
      Fold.SpellsDirective (metaLine name v)
        ⟨"pragma", "define-meta " ++ (name ++ Byte.space :: ("default(" ++ Byte.quote :: s))⟩ := by
  let before : Text := "define-meta " ++ (name ++ Byte.space :: "default(")
  let rest : Text := v ++ [Byte.quote, Byte.closeParen]
  have hbody (s : Text) : before ++ Byte.quote :: s =
      "define-meta " ++ (name ++ Byte.space :: ("default(" ++ Byte.quote :: s)) := by
    simp [before]
  have hmeta : metaLine name v = Byte.hash :: ("pragma " ++ (before ++ Byte.quote :: rest)) := by
    simp only [metaLine, before, rest, List.append_assoc]
    rfl
  have hbytes : forall b, b ∈ name -> b ≠ Byte.slash ∧ b ≠ Byte.newline := fun b hb =>
    Directive.of_isWord (P := fun b => b ≠ Byte.slash ∧ b ≠ Byte.newline) (hword b hb) (by decide)
  have hline : Byte.newline ∉ before ++ Byte.quote :: rest := by
    simp only [before, rest, List.mem_append, List.mem_cons, not_or]
    exact ⟨⟨by decide, fun hmem => (hbytes _ hmem).2 rfl, by decide, by decide⟩, by decide,
      fun hmem => absurd (hv _ hmem) (by decide), by decide, by decide, List.not_mem_nil⟩
  -- The comments of the line are those of its quoted part.
  have hstrip : Directive.stripComments (before ++ Byte.quote :: rest) =
      before ++ Byte.quote :: Directive.stripComments rest := by
    have hslash : Byte.slash ∉ before ++ [Byte.quote] := by
      simp only [before, List.mem_append, List.mem_cons, not_or]
      exact ⟨⟨by decide, fun hmem => (hbytes _ hmem).1 rfl, by decide, by decide⟩, by decide,
        List.not_mem_nil⟩
    simpa using Lexer.stripComments_append hslash rest
  rcases Text.exists_trimRight_cons (c := Byte.quote) rfl before (Directive.stripComments rest) with
    ⟨s, hs, hprefix⟩
  have hspells : Fold.SpellsDirective (metaLine name v) ⟨"pragma", before ++ Byte.quote :: s⟩ := by
    have hparse := Directive.parse?_stripped (w := "pragma") (t := before ++ Byte.quote :: rest)
      (by decide) (List.all_eq_true.mp (by decide)) hline (c := Byte.of 'd') (by decide)
      (by rw [hstrip]; rfl)
    rw [hstrip, hs] at hparse
    rw [hmeta]
    refine Fold.spellsDirective (v := "pragma " ++ (before ++ Byte.quote :: rest)) ?_ ?_ hparse
    · exact fun hmem => (List.mem_append.mp hmem).elim (by decide) hline
    · have hend : ("pragma " ++ (before ++ Byte.quote :: rest) : Text) =
          ("pragma " ++ (before ++ Byte.quote :: (v ++ [Byte.quote]))) ++ [Byte.closeParen] := by
        simp [rest]
      apply Lexer.endsOpen_eq_false <;> rw [hend, List.getLast?_concat] <;> decide
  refine ⟨Directive.stripComments v, s, ?_, ?_, Directive.length_stripComments_lt, ?_, ?_, ?_⟩
  · intro b hb
    rcases Directive.mem_stripComments hb with hb | rfl
    · exact hv b hb
    · decide
  · apply hprefix.trans
    rcases Directive.stripComments_append_bare (z := [Byte.quote, Byte.closeParen]) (by decide)
      (by decide) v with hrest | hrest
    · rw [hrest]
    · rw [hrest]
      exact List.prefix_append _ _
  · intro hbare
    have hrest : Directive.stripComments rest = rest := by
      apply Directive.stripComments_eq_self
      rw [Directive.hasComment_append_left (by decide) (by decide) (by decide), hbare]
    have hlast := Text.trimRight_concat (c := Byte.closeParen) (by decide)
      (before ++ Byte.quote :: (v ++ [Byte.quote]))
    have hwhole : before ++ Byte.quote :: rest = before ++ Byte.quote :: s := by
      rw [← hs, hrest]
      simpa [rest] using hlast.symm
    rw [Directive.stripComments_eq_self hbare]
    exact ⟨rfl, (List.cons.inj (List.append_cancel_left hwhole)).2.symm⟩
  · rw [← hbody, ← hs, Text.trimRight_trimRight]
  · rw [← hbody]
    exact hspells

/-- A default in quotes is set as it is written if and only if it has no comment in it. -/
theorem quotedDefault_iff {name v : Text} {defines : DefineSet} (hname : name ≠ [])
    (hword : forall b, b ∈ name -> Byte.isWord b = true) (hv : forall b, b ∈ v -> IsQuotable b)
    (hparens : IsBalanced v) (hdefines : defines.Consistent) :
    exists ts, tokenize (metaLine name v) = .ok ts ∧
      ((exists x d, (extractDefines ts defines).2 = .ok x ∧
          (extractDefines ts defines).1.get? name = some d ∧ d.default = .text v) ↔
        ¬ (("//" : Text) <:+: v ∨ ("/*" : Text) <:+: v)) := by
  rcases exists_spellsDirective_meta hword hv with
    ⟨u, s, hu, hs, hshort, hself, htrim, hspells⟩
  rcases extractDefines_line hspells defines with ⟨ts, htokens, hfails, hreads⟩
  refine ⟨ts, htokens, ?_⟩
  rw [← Directive.hasComment_iff, Bool.not_eq_true]
  have hargs := Text.trimRight_of_append htrim
  have hlabel := Text.trimRight_of_append (a := name ++ [Byte.space])
    (t := "default(" ++ Byte.quote :: s) (by simpa using hargs)
  cases hlabels : parseLabels (("default(" ++ Byte.quote :: s : Text).length + 1)
      ("default(" ++ Byte.quote :: s) with
  | error e =>
      have hresult := hfails _ _ ((directive_meta hname hword htrim _ 1).trans
        (defineMeta_error hname hword hargs _ 1 hlabels))
      rw [hresult]
      constructor
      · rintro ⟨x, d, hx, _⟩
        cases hx
      · intro hbare
        rcases hself hbare with ⟨rfl, rfl⟩
        rw [Metadata.parseLabels_balanced hu hparens] at hlabels
        cases hlabels
  | ok labels =>
      rcases Metadata.parseLabels_quoted hu hs hlabel _ hlabels with ⟨rfl, rfl⟩
      rcases defineMeta_default hname hword hargs ⟨defines, Extraction.empty, [], []⟩ 1 hdefines
        hlabels with ⟨defines', d, hmeta, hget, hdefault⟩
      rcases hreads _ ((directive_meta hname hword htrim _ 1).trans hmeta) rfl with ⟨x, hresult⟩
      rw [hresult]
      constructor
      · rintro ⟨x', d', _, hget', hdefault'⟩
        obtain rfl : d = d' := Option.some.inj (hget.symm.trans hget')
        obtain rfl : u = v := Data.text.inj (hdefault.symm.trans hdefault')
        rw [Bool.eq_false_iff]
        exact fun hcomment => Nat.lt_irrefl _ (hshort hcomment)
      · intro hbare
        refine ⟨x, d, rfl, hget, ?_⟩
        rw [hdefault, (hself hbare).1]

/-- A default with parentheses, an apostrophe and a single slash. -/
theorem quotedDefault_iff_apart :
    exists ts x d, tokenize "#pragma define-meta A default(\"f(x) / 'y\")" = .ok ts ∧
      (extractDefines ts DefineSet.empty).2 = .ok x ∧
      (extractDefines ts DefineSet.empty).1.get? "A" = some d ∧
      d.default = .text "f(x) / 'y" := by
  have hparens : IsBalanced "f(x) / 'y" := ⟨by decide, by decide⟩
  have hname : ("A" : Text) ≠ [] := by decide
  rcases quotedDefault_iff hname (List.all_eq_true.mp (by decide)) (by decide +kernel) hparens
    DefineSet.consistent_empty with ⟨ts, htokens, hiff⟩
  rcases hiff.mpr (by decide) with ⟨x, d, hx, hget, hdefault⟩
  exact ⟨ts, x, d, htokens, hx, hget, hdefault⟩

/-- Two slashes between the quotes cut the line. -/
theorem comment_in_quotes_lost :
    exists ts e, tokenize "#pragma define-meta A default(\"a//b\")" = .ok ts ∧
      (extractDefines ts DefineSet.empty).2 = .error e := by
  have hrun :
      ((tokenize "#pragma define-meta A default(\"a//b\")").toOption.any fun ts =>
        (extractDefines ts DefineSet.empty).2.toOption.isNone) = true := by
    decide +kernel
  simp only [Option.any_eq_true, toOption_eq_some_iff] at hrun
  rcases hrun with ⟨ts, htokens, hnone⟩
  cases hx : (extractDefines ts DefineSet.empty).2 with
  | error e => exact ⟨ts, e, htokens, hx⟩
  | ok x =>
      rw [hx] at hnone
      cases hnone

end Extractor

end EffectShader
