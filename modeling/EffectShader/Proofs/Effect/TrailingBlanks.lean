import EffectShader.Effect.Cleanup
import EffectShader.Proofs.Token.FirstLine
import EffectShader.Proofs.Token.LineByLine

/-!
# Blanks at the end of a line

A line without the blanks at its end has the same tokens, except that comments and
directives may be shorter; a directive is still read the same.  Only behind a
backslash the blanks count: without them the directive goes on.
-/

namespace EffectShader

inductive Content where
  | text (kind : TokenKind) (text : Text)
  | directive (d : Option Directive)
  deriving DecidableEq

def Lexeme.content (x : Lexeme) : Content :=
  if x.kind = .directive then .directive (Directive.parse? x.text) else .text x.kind x.text

def Lexeme.isComment (x : Lexeme) : Bool :=
  x.kind == .lineComment || x.kind == .blockComment

def contents (xs : List Lexeme) : List Content :=
  (xs.filter fun x => !x.isComment).map Lexeme.content

theorem contents_append (xs ys : List Lexeme) :
    contents (xs ++ ys) = contents xs ++ contents ys := by
  unfold contents
  rw [List.filter_append, List.map_append]

theorem contents_cons (x : Lexeme) (xs : List Lexeme) :
    contents (x :: xs) = (if x.isComment then [] else [x.content]) ++ contents xs := by
  unfold contents
  cases hx : x.isComment <;> simp [hx]

namespace Effect

open Lexer Directive

def Trailing (z : Text) : Prop :=
  forall c, c ∈ z -> isTrailing c = true

theorem Trailing.of_isTrailing {P : UInt8 -> Prop} {z : Text} (hz : Trailing z)
    (h : P Byte.space ∧ P Byte.tab ∧ P Byte.carriage) : forall c, c ∈ z -> P c := by
  intro c hc
  have hcases := hz c hc
  simp only [isTrailing, Bool.or_eq_true, beq_iff_eq] at hcases
  rcases hcases with (rfl | rfl) | rfl
  · exact h.1
  · exact h.2.1
  · exact h.2.2

theorem Trailing.not_mem {z : Text} (hz : Trailing z) {b : UInt8} (hb : isTrailing b = false) :
    b ∉ z := by
  intro hmem
  rw [hz b hmem] at hb
  cases hb

theorem Trailing.blank {z : Text} (hz : Trailing z) : Text.Blank z :=
  Text.blank_of_mem (hz.of_isTrailing (by decide))

theorem exists_trailing (s : Text) :
    exists z, Trailing z ∧ s = Text.dropEndWhile isTrailing s ++ z := by
  refine ⟨(s.reverse.takeWhile isTrailing).reverse, ?_, ?_⟩
  · intro c hc
    exact List.mem_takeWhile_imp (List.mem_reverse.mp hc)
  · rw [Text.dropEndWhile_eq, ← List.reverse_append, List.takeWhile_append_dropWhile,
      List.reverse_reverse]

def endsInBackslash (s : Text) : Bool :=
  (Text.dropEndWhile isTrailing s).getLast? == some Byte.backslash

theorem endsInBackslash_iff {s : Text} :
    endsInBackslash s = true ↔ exists a z, Trailing z ∧ s = a ++ Byte.backslash :: z := by
  unfold endsInBackslash
  rw [beq_iff_eq]
  constructor
  · intro h
    rcases exists_trailing s with ⟨z, hz, hs⟩
    rcases List.getLast?_eq_some_iff.mp h with ⟨a, ha⟩
    refine ⟨a, z, hz, ?_⟩
    rw [ha, List.append_assoc] at hs
    exact hs
  · rintro ⟨a, z, hz, rfl⟩
    have hsplit : a ++ Byte.backslash :: z = (a ++ [Byte.backslash]) ++ z := by simp
    rw [hsplit, Text.dropEndWhile_append hz, Text.dropEndWhile_eq]
    simp [show isTrailing Byte.backslash = false from rfl]

theorem endsInBackslash_append {s : Text} (h : endsInBackslash s = true) (x : Text) :
    endsInBackslash (x ++ s) = true := by
  rcases endsInBackslash_iff.mp h with ⟨a, z, hz, rfl⟩
  exact endsInBackslash_iff.mpr ⟨x ++ a, z, hz, by rw [List.append_assoc]⟩

/-- What stands in front of a byte that is not blank does not count. -/
theorem endsInBackslash_append_cons {b : UInt8} (hb : isTrailing b = false) (x s : Text) :
    endsInBackslash (x ++ b :: s) = endsInBackslash (b :: s) := by
  cases h : endsInBackslash (b :: s) with
  | true => exact endsInBackslash_append h x
  | false =>
      rw [Bool.eq_false_iff] at h ⊢
      intro htrue
      apply h
      rcases endsInBackslash_iff.mp htrue with ⟨a, z, hz, heq⟩
      rcases List.append_eq_append_iff.mp heq with ⟨w, _, hw⟩ | ⟨c, _, hc⟩
      · exact endsInBackslash_iff.mpr ⟨w, z, hz, hw⟩
      · cases c with
        | nil => exact endsInBackslash_iff.mpr ⟨[], z, hz, hc.symm⟩
        | cons d c =>
            have hmem : b ∈ z := by
              rw [(List.cons.inj hc).2]
              exact List.mem_append_right c List.mem_cons_self
            exact absurd hmem (hz.not_mem hb)

theorem endsInBackslash_append_trailing {z : Text} (hz : Trailing z) (s : Text) :
    endsInBackslash (s ++ z) = endsInBackslash s := by
  unfold endsInBackslash
  rw [Text.dropEndWhile_append hz]

theorem endsInBackslash_of_endsOpen {l : Text} (h : endsOpen l = true) :
    endsInBackslash l = true := by
  rcases endsOpen_iff.mp h with ⟨a, w, hw, rfl⟩
  have hcases : w = [Byte.backslash] ∨ w = [Byte.backslash, Byte.carriage] := by
    simpa [marks] using hw
  apply endsInBackslash_iff.mpr
  rcases hcases with rfl | rfl
  · exact ⟨a, [], by simp [Trailing], rfl⟩
  · exact ⟨a, [Byte.carriage], by simp [Trailing, isTrailing], rfl⟩

theorem endsOpen_eq_false {x l z : Text} (hz : Trailing z)
    (h : endsInBackslash (x ++ (l ++ z)) = false) : endsOpen l = false := by
  rw [Bool.eq_false_iff]
  intro hopen
  have hlast := endsInBackslash_append (endsInBackslash_of_endsOpen hopen) x
  rw [← endsInBackslash_append_trailing hz, List.append_assoc, h] at hlast
  cases hlast

theorem Trailing.eq_nil_of_append {l z a : Text} {b : UInt8} (hz : Trailing z)
    (hb : isTrailing b = false) (h : l ++ z = a ++ [b]) : z = [] := by
  rcases List.eq_nil_or_concat z with rfl | ⟨z, c, rfl⟩
  · rfl
  · rw [List.concat_eq_append, ← List.append_assoc] at h
    have hc : c = b := by simpa using (List.append_inj' h rfl).2
    have htrailing : isTrailing c = true := hz c (by simp)
    rw [hc, hb] at htrailing
    cases htrailing

theorem exists_marks {l z : Text} (hz : Trailing z) (h : endsOpen (l ++ z) = true) :
    exists a w w', w ∈ marks ∧ w' ∈ marks ∧ l ++ z = a ++ w ∧ l = a ++ w' := by
  rcases endsOpen_iff.mp h with ⟨a, w, hw, hl⟩
  have hcases : w = [Byte.backslash] ∨ w = [Byte.backslash, Byte.carriage] := by
    simpa [marks] using hw
  rcases List.eq_nil_or_concat z with rfl | ⟨y, c, rfl⟩
  · exact ⟨a, w, w, hw, hw, hl, by rw [← hl, List.append_nil]⟩
  · rcases hcases with rfl | rfl
    · have hnil := hz.eq_nil_of_append (by rfl) hl
      simp at hnil
    · have hy : Trailing y := fun c hc => hz c (by simp [hc])
      have hsplit : l ++ y ++ [c] = a ++ [Byte.backslash] ++ [Byte.carriage] := by
        simpa using hl
      have hinit := (List.append_inj' hsplit rfl).1
      have hnil := hy.eq_nil_of_append (by rfl) hinit
      subst hnil
      rw [List.append_nil] at hinit
      exact ⟨a, _, [Byte.backslash], hw, by simp [marks], hl, hinit⟩

/-!
# Directives
-/

theorem ofBare_append {z : Text} (hz : Trailing z) (s : Text) :
    ofBare (stripComments (s ++ z)) = ofBare (stripComments s) := by
  have htrim : Text.trim (stripComments (s ++ z)) = Text.trim (stripComments s) := by
    have hstar : z.head? ≠ some Byte.star :=
      fun h => hz.not_mem (by rfl) (List.mem_of_head? h)
    rcases stripComments_append_bare (hz.not_mem (by rfl)) hstar s with h | h
    · rw [h, Text.trim_append_blank hz.blank]
    · rw [h]
  unfold ofBare
  rw [htrim]

theorem parse?_cons_blank {b : UInt8} (hb : Byte.isBlank b = true) (s : Text) :
    parse? (b :: s) = parse? s := by
  unfold parse?
  rw [List.dropWhile_cons_of_pos hb]

theorem parse?_eq_none {s : Text} (h : (s.dropWhile Byte.isBlank).head? ≠ some Byte.hash) :
    parse? s = none := by
  unfold parse?
  split
  · rename_i hhash
    rw [hhash] at h
    exact absurd rfl h
  · rfl

theorem parse?_append_trailing {l z : Text} (hl : Byte.newline ∉ l) (hz : Trailing z) :
    parse? (l ++ z) = parse? l := by
  induction l with
  | nil =>
      rw [List.nil_append, parse?_eq_none (s := []) (by simp), parse?_eq_none]
      intro hhash
      have hmem := (List.dropWhile_suffix Byte.isBlank).subset (List.mem_of_head? hhash)
      exact hz.not_mem (by rfl) hmem
  | cons b l ih =>
      have hl' : Byte.newline ∉ l := fun hmem => hl (List.mem_cons_of_mem b hmem)
      cases hb : Byte.isBlank b with
      | true => rw [List.cons_append, parse?_cons_blank hb, parse?_cons_blank hb, ih hl']
      | false =>
          by_cases hhash : b = Byte.hash
          · subst hhash
            have hz' : Byte.newline ∉ l ++ z := by
              rw [List.mem_append, not_or]
              exact ⟨hl', hz.not_mem (by rfl)⟩
            rw [List.cons_append, parse?_hash, parse?_hash, bare, bare,
              joinContinuations_eq_self hl', joinContinuations_eq_self hz', ofBare_append hz]
          · rw [parse?_eq_none, parse?_eq_none]
            · simpa [hb] using hhash
            · simpa [hb] using hhash

def Joins (u p : Text) : Prop :=
  forall s, joinContinuations (u ++ Byte.newline :: s) = p ++ joinContinuations s

theorem joins_line {a w : Text} (hw : w ∈ marks) (ha : Byte.newline ∉ a) :
    Joins (a ++ w) (a ++ [Byte.space]) := by
  intro s
  rw [joinContinuations_line hw ha]
  simp

theorem Joins.append {u p l q : Text} (hu : Joins u p) (hl : Joins l q) :
    Joins (u ++ Byte.newline :: l) (p ++ q) := by
  intro s
  rw [List.append_assoc, List.cons_append, hu, hl, List.append_assoc]

theorem exists_joins {l z : Text} (hl : Byte.newline ∉ l) (hz : Trailing z)
    (h : endsOpen (l ++ z) = true) :
    endsOpen l = true ∧ exists p, Joins (l ++ z) p ∧ Joins l p := by
  rcases exists_marks hz h with ⟨a, w, w', hw, hw', hlz, rfl⟩
  have ha : Byte.newline ∉ a := fun hmem => hl (List.mem_append_left w' hmem)
  refine ⟨endsOpen_iff.mpr ⟨a, w', hw', rfl⟩, a ++ [Byte.space], ?_, joins_line hw' ha⟩
  rw [hlz]
  exact joins_line hw ha

theorem parse?_joins {u u' p l z : Text} (hu : Joins u p) (hu' : Joins u' p) (hl : Byte.newline ∉ l)
    (hz : Trailing z) :
    parse? (Byte.hash :: (u ++ Byte.newline :: (l ++ z))) =
      parse? (Byte.hash :: (u' ++ Byte.newline :: l)) := by
  have hz' : Byte.newline ∉ l ++ z := by
    rw [List.mem_append, not_or]
    exact ⟨hl, hz.not_mem (by rfl)⟩
  rw [parse?_hash, parse?_hash, bare, bare, hu, hu', joinContinuations_eq_self hl,
    joinContinuations_eq_self hz', ← List.append_assoc, ofBare_append hz]

/-!
# What a line is read as
-/

inductive Alike : Opening -> Opening -> Prop where
  | outside : Alike .outside .outside
  | comment {a a' : Nat} {t t' : Text} : Alike (.comment a t) (.comment a' t')
  | directive {a a' : Nat} {u u' p : Text} (hu : Joins u p) (hu' : Joins u' p)
      (hopen : endsInBackslash u = true) :
      Alike (.directive a (Byte.hash :: u)) (.directive a' (Byte.hash :: u'))

structure ReadAlike (r r' : List Lexeme × Opening) : Prop where
  contents : contents r'.1 = contents r.1
  opening : Alike r.2 r'.2

def Closed (xs : List Lexeme) : Prop :=
  forall x, x ∈ xs -> x.kind = .directive -> endsInBackslash x.text = false

theorem contents_emit (x : Lexeme) (xs : List Lexeme) :
    contents (emit x xs) =
      (if x.kind == .whitespace || x.isComment then [] else [x.content]) ++ contents xs := by
  unfold emit
  by_cases hspace : x.kind = .whitespace
  · simp [hspace]
  · simp [hspace, contents_cons]

theorem mem_emit {x y : Lexeme} {xs : List Lexeme} (h : y ∈ xs) : y ∈ emit x xs := by
  unfold emit
  split
  · exact h
  · exact List.mem_cons_of_mem x h

theorem ReadAlike.emit {r r' : List Lexeme × Opening} (h : ReadAlike r r') {x x' : Lexeme}
    (hkind : x'.kind = x.kind) (htext : x.isComment = true ∨ x'.text = x.text) :
    ReadAlike (emit x r.1, r.2) (emit x' r'.1, r'.2) := by
  refine ⟨?_, h.opening⟩
  rw [contents_emit, contents_emit, h.contents]
  unfold Lexeme.isComment Lexeme.content at *
  rcases htext with hcomment | htext
  · simp [hkind, hcomment]
  · simp [hkind, htext]

theorem scanLine_trailing {z : Text} (hz : Trailing z) (n : Nat) (fresh : Bool) :
    scanLine n fresh z = ([], .outside) := by
  induction z with
  | nil => rw [scanLine]
  | cons c z ih =>
      have hsep : isSeparator c = true :=
        hz.of_isTrailing (P := fun c => isSeparator c = true) (by decide) c List.mem_cons_self
      rw [scanLine_separator hsep (hz.not_mem (by rfl))]
      exact ih fun c hc => hz c (List.mem_cons_of_mem _ hc)

theorem cut?_append_trailing {z : Text} (hz : Trailing z) (l : Text) :
    Text.cut? "*/" (l ++ z) =
      (Text.cut? "*/" l).map fun (before, after) => (before, after ++ z) := by
  cases hcut : Text.cut? "*/" l with
  | some parts =>
      rcases parts with ⟨before, after⟩
      rw [Text.eq_append_of_cut? hcut, List.append_assoc, List.append_assoc]
      exact Text.cut?_append_of_cut? (by decide) hcut (after ++ z)
  | none =>
      rw [Option.map_none, Option.eq_none_iff_forall_ne_some]
      rintro ⟨before, after⟩ hfound
      have hhead (b : UInt8) (hb : isTrailing b = false) : z.head? ≠ some b :=
        fun h => hz.not_mem hb (List.mem_of_head? h)
      have hseam := seam_commentEnd (hhead _ (by rfl)) (hhead _ (by rfl)) l
      rcases hseam.exists_of_cut? (by decide) hcut hfound with ⟨w, rfl⟩
      exact hz.not_mem (b := Byte.star) (by rfl)
        (List.mem_append_right w (List.mem_append_left after (by decide)))

section Scan

variable {z : Text} (hz : Trailing z) (n m : Nat)

include hz

theorem form_append_trailing (fresh : Bool) (b : UInt8) (l : Text) :
    form fresh b (l ++ z).head? = form fresh b l.head? := by
  cases z with
  | nil => rw [List.append_nil]
  | cons c z =>
      have hc : isBarrier c = true ∧ c ≠ Byte.slash :=
        hz.of_isTrailing (P := fun c => isBarrier c = true ∧ c ≠ Byte.slash) (by decide) c
          List.mem_cons_self
      exact form_barrier hc.1 hc.2 fresh b l z

theorem plainExtent_append_trailing (b : UInt8) (l : Text) :
    plainExtent b (l ++ z) = plainExtent b l := by
  cases z with
  | nil => rw [List.append_nil]
  | cons c z =>
      have hc : isBarrier c = true :=
        hz.of_isTrailing (P := fun c => isBarrier c = true) (by decide) c List.mem_cons_self
      exact plainExtent_barrier hc b l z

theorem readAlike_directive {fresh : Bool} {b : UInt8} {l : Text} (hl : Byte.newline ∉ l)
    (hform : form fresh b l.head? = .directive)
    (hclosed : Closed (scanLine n fresh (b :: (l ++ z))).1) :
    ReadAlike (scanLine n fresh (b :: (l ++ z))) (scanLine m fresh (b :: l)) := by
  have hb : b = Byte.hash := by
    have hspec := form_spec fresh b l.head?
    rw [hform] at hspec
    exact hspec.1
  subst hb
  have hform' : form fresh Byte.hash (l ++ z).head? = .directive := by
    rw [form_append_trailing hz, hform]
  rw [scanLine_directive hform' n] at hclosed ⊢
  rw [scanLine_directive hform m]
  cases hopen : endsOpen (l ++ z) with
  | true =>
      rcases exists_joins hl hz hopen with ⟨hopen', p, hp, hp'⟩
      rw [hopen']
      exact ⟨rfl, .directive hp hp' (endsInBackslash_of_endsOpen hopen)⟩
  | false =>
      rw [hopen] at hclosed
      have hopen' : endsOpen l = false :=
        endsOpen_eq_false hz (x := [Byte.hash]) (hclosed _ List.mem_cons_self rfl)
      rw [hopen']
      refine ⟨?_, .outside⟩
      have hparse := parse?_append_trailing (l := Byte.hash :: l) (z := z)
        (by simpa [show Byte.newline ≠ Byte.hash by decide] using hl) hz
      simp [contents, Lexeme.isComment, Lexeme.content, ← hparse]

theorem readAlike_scanLine {l : Text} (hl : Byte.newline ∉ l) (fresh : Bool)
    (hclosed : Closed (scanLine n fresh (l ++ z)).1) :
    ReadAlike (scanLine n fresh (l ++ z)) (scanLine m fresh l) := by
  induction hn : l.length using Nat.strong_induction_on generalizing l fresh with
  | _ k ih =>
      subst hn
      cases l with
      | nil =>
          rw [List.nil_append, scanLine_trailing hz, scanLine]
          exact ⟨rfl, .outside⟩
      | cons b l =>
          have hl' : Byte.newline ∉ l := fun hmem => hl (List.mem_cons_of_mem b hmem)
          have hlz : Byte.newline ∉ b :: (l ++ z) := by
            rw [← List.cons_append, List.mem_append, not_or]
            exact ⟨hl, hz.not_mem (by rfl)⟩
          have hform := form_append_trailing hz fresh b l
          have hspec := form_spec fresh b l.head?
          rw [List.cons_append] at hclosed ⊢
          cases hkind : form fresh b l.head? with
          | space =>
              simp only [hkind] at hspec
              rw [scanLine_separator hspec hlz] at hclosed ⊢
              rw [scanLine_separator hspec hl]
              exact ih l.length (Nat.lt_succ_self _) hl' fresh hclosed rfl
          | directive => exact readAlike_directive hz n m hl' hkind hclosed
          | lineComment =>
              have hkind' : form fresh b (l ++ z).head? = .lineComment := by rw [hform, hkind]
              rw [scanLine_lineComment (fun hmem => hlz (List.mem_cons_of_mem b hmem)) hkind',
                scanLine_lineComment hl' hkind]
              exact ⟨rfl, .outside⟩
          | blockComment =>
              simp only [hkind] at hspec
              rcases hspec with ⟨rfl, hstar⟩
              rcases List.head?_eq_some_iff.mp hstar with ⟨l, rfl⟩
              rw [List.cons_append, scanLine_blockComment, cut?_append_trailing hz] at hclosed ⊢
              rw [scanLine_blockComment]
              cases hcut : Text.cut? "*/" l with
              | none => exact ⟨rfl, .comment⟩
              | some parts =>
                  rcases parts with ⟨before, after⟩
                  rw [hcut, Option.map_some] at hclosed
                  dsimp only at hclosed
                  have hsplit := Text.eq_append_of_cut? hcut
                  subst hsplit
                  refine ReadAlike.emit ?_ rfl (Or.inl rfl)
                  refine ih after.length ?_ ?_ _ (fun x hx => hclosed x (mem_emit hx)) rfl
                  · simp only [List.length_cons, List.length_append]
                    omega
                  · simp_all
          | plain =>
              have hkind' : form fresh b (l ++ z).head? = .plain := by rw [hform, hkind]
              have hle := plainExtent_le b l
              rw [scanLine_plain hkind', plainExtent_append_trailing hz] at hclosed ⊢
              rw [scanLine_plain hkind]
              rcases hextent : plainExtent b l with ⟨kind, k⟩
              rw [hextent] at hclosed hle
              dsimp only at hclosed hle ⊢
              rw [List.take_append_of_le_length hle, List.drop_append_of_le_length hle] at hclosed ⊢
              refine ReadAlike.emit ?_ rfl (Or.inr rfl)
              refine ih (l.drop k).length ?_ ?_ _ (fun x hx => hclosed x (mem_emit hx)) rfl
              · simp only [List.length_drop, List.length_cons]
                omega
              · exact fun hmem => hl' (List.mem_of_mem_drop hmem)

theorem Alike.read {o o' : Opening} (h : Alike o o') {l : Text} (hl : Byte.newline ∉ l)
    (hclosed : Closed (o.read n (l ++ z)).1) : ReadAlike (o.read n (l ++ z)) (o'.read m l) := by
  cases h with
  | outside => exact readAlike_scanLine hz n m hl true hclosed
  | @comment a a' t t' =>
      rw [Opening.read, cut?_append_trailing hz] at hclosed ⊢
      rw [Opening.read]
      cases hcut : Text.cut? "*/" l with
      | none => exact ⟨rfl, .comment⟩
      | some parts =>
          rcases parts with ⟨before, after⟩
          rw [hcut, Option.map_some] at hclosed
          have hafter : Byte.newline ∉ after := by
            intro hmem
            apply hl
            rw [Text.eq_append_of_cut? hcut]
            exact List.mem_append_right _ (List.mem_append_right _ hmem)
          have hrest := readAlike_scanLine hz n m hafter true
            fun x hx => hclosed x (List.mem_cons_of_mem _ hx)
          refine ⟨?_, hrest.opening⟩
          rw [Option.map_some, contents_cons, contents_cons, hrest.contents]
          rfl
  | @directive a a' u u' p hu hu' hopen =>
      rw [Opening.read] at hclosed ⊢
      rw [Opening.read]
      cases hopenLine : endsOpen (l ++ z) with
      | true =>
          rcases exists_joins hl hz hopenLine with ⟨hopenLine', q, hq, hq'⟩
          rw [hopenLine']
          refine ⟨rfl, Alike.directive (hu.append hq) (hu'.append hq') ?_⟩
          have hend := endsInBackslash_append (endsInBackslash_of_endsOpen hopenLine)
            (u ++ [Byte.newline])
          rwa [List.append_assoc, List.singleton_append] at hend
      | false =>
          rw [hopenLine] at hclosed
          have hend := hclosed _ List.mem_cons_self rfl
          have hopenLine' : endsOpen l = false := by
            apply endsOpen_eq_false hz (x := Byte.hash :: u ++ [Byte.newline])
            rw [List.append_assoc, List.singleton_append]
            exact hend
          rw [hopenLine']
          refine ⟨?_, .outside⟩
          have hparse := parse?_joins hu hu' hl hz
          simp [contents, Lexeme.isComment, Lexeme.content, hparse]

end Scan

end Effect

end EffectShader
