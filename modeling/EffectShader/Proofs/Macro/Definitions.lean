import EffectShader.Proofs.Macro.CallSites
import EffectShader.Proofs.Macro.PragmaLines
import EffectShader.Proofs.Macro.Spelling
import EffectShader.Proofs.Text.Search

/-!
# Where definitions stand and how they are read

A definition is found on its first line, which is read as a directive without its comments.  The
name, the parameters and the body are then read from the bytes of all its lines: behind the
first word `define`, and up to the first closing parenthesis.  Where a definition stands does not
depend on the second reading.  The two agree if no comment in front of the word `define` holds
the word and only blanks stand between it and the name.
-/

namespace EffectShader

namespace FunctionMacro

/-!
# The lines of definitions
-/

def definitionLines : List Text -> List (Text × List Text)
  | [] => []
  | l :: ls =>
      if isDefinition l then
        (l, ls.take (continuations l ls)) :: definitionLines (ls.drop (continuations l ls))
      else definitionLines ls
  termination_by ls => ls.length
  decreasing_by all_goals (simp only [List.length_drop, List.length_cons]; omega)

theorem definitionLines_of_isDefinition {l : Text} (h : isDefinition l = true) (ls : List Text) :
    definitionLines (l :: ls) = (l, ls.take (continuations l ls)) ::
      definitionLines (ls.drop (continuations l ls)) := by
  rw [definitionLines, if_pos h]

theorem definitionLines_of_plain {l : Text} (h : isDefinition l = false) (ls : List Text) :
    definitionLines (l :: ls) = definitionLines ls := by
  rw [definitionLines, h]
  rfl

theorem mem_of_mem_definitionLines {l : Text} {cs ls : List Text}
    (h : (l, cs) ∈ definitionLines ls) : l ∈ ls ∧ isDefinition l = true := by
  fun_induction definitionLines ls with
  | case1 => cases h
  | case2 text rest hdef ih =>
      rcases List.mem_cons.mp h with heq | h
      · cases heq
        exact ⟨List.mem_cons_self, hdef⟩
      · rcases ih h with ⟨hl, hdef⟩
        exact ⟨List.mem_cons_of_mem text (List.mem_of_mem_drop hl), hdef⟩
  | case3 text rest hplain ih =>
      rcases ih h with ⟨hl, hdef⟩
      exact ⟨List.mem_cons_of_mem text hl, hdef⟩

structure IsReadAt (m : FunctionMacro) (before : List Text) (l : Text) (cs after : List Text) :
    Prop where
  first : isDefinition l = true
  line : m.line = before.length + 1
  start : m.start = (Text.ended before).length
  stop : m.stop = m.start + (Text.unlines (l :: cs)).length
  text : ofDefinition (Text.unlines (l :: cs)) m.line m.start = .ok m

theorem isReadAt_of_ofDefinition {before cs : List Text} {l : Text} {m : FunctionMacro}
    (hdef : isDefinition l = true)
    (h : ofDefinition (Text.unlines (l :: cs)) (before.length + 1) (Text.ended before).length =
      .ok m) (after : List Text) : m.IsReadAt before l cs after := by
  have hline := line_of_ofDefinition.1 m h
  have hplaced := isPlaced_of_ofDefinition h
  rw [← hline, ← hplaced.start] at h
  exact ⟨hdef, hline, hplaced.start, by rw [hplaced.stop, hplaced.start], h⟩

theorem exists_isReadAt {n offset : Nat} {ls : List Text} :
    forall ms, definitionsFrom n offset ls = .ok ms -> forall before, n = before.length + 1 ->
      offset = (Text.ended before).length -> forall m, m ∈ ms ->
        exists xs l cs ys, before ++ ls = xs ++ l :: (cs ++ ys) ∧ (l, cs) ∈ definitionLines ls ∧
          m.IsReadAt xs l cs ys := by
  fun_induction definitionsFrom n offset ls with
  | case1 =>
      intro ms h
      cases h
      exact fun _ _ _ => List.forall_mem_nil _
  | case2 =>
      intro ms h
      cases h
  | case3 =>
      intro ms h
      cases h
  | case4 n offset l ls hdef c definition m hm more hmore ih =>
      rintro ms h before rfl rfl
      cases h
      rw [definitionLines_of_isDefinition hdef, List.forall_mem_cons]
      constructor
      · refine ⟨before, l, ls.take c, ls.drop c, ?_, List.mem_cons_self,
          isReadAt_of_ofDefinition hdef hm _⟩
        rw [List.take_append_drop]
      · intro m' hm'
        have hlines : before ++ l :: ls = (before ++ l :: ls.take c) ++ ls.drop c := by
          rw [List.append_assoc, List.cons_append, List.take_append_drop]
        have hlength : before.length + 1 + 1 + c = (before ++ l :: ls.take c).length + 1 := by
          rw [List.length_append, List.length_cons,
            List.length_take_of_le (continuations_le l ls)]
          omega
        have hended : (Text.ended before).length + definition.length + 1 =
            (Text.ended (before ++ l :: ls.take c)).length := by
          rw [Text.ended_append, Text.ended_eq, List.length_append, List.length_append]
          rfl
        rcases ih more hmore _ hlength hended m' hm' with ⟨xs, l', cs, ys, heq, hmem, hread⟩
        exact ⟨xs, l', cs, ys, hlines.trans heq, List.mem_cons_of_mem _ hmem, hread⟩
  | case5 n offset l ls hdef ih =>
      rintro ms h before rfl rfl m hm
      have hended : (Text.ended before).length + l.length + 1 =
          (Text.ended (before ++ [l])).length := by
        simp [Text.ended, Nat.add_assoc]
      rcases ih ms h (before ++ [l]) (by simp) hended m hm with ⟨xs, l', cs, ys, heq, hmem, hread⟩
      rw [definitionLines_of_plain (by simpa using hdef)]
      rw [List.append_assoc, List.singleton_append] at heq
      exact ⟨xs, l', cs, ys, heq, hmem, hread⟩

theorem pairwise_of_definitionsFrom {n offset : Nat} {ls : List Text} :
    forall ms, definitionsFrom n offset ls = .ok ms ->
      ms.Pairwise fun m m' => m.stop < m'.start := by
  fun_induction definitionsFrom n offset ls with
  | case1 =>
      intro ms h
      cases h
      exact List.Pairwise.nil
  | case2 =>
      intro ms h
      cases h
  | case3 =>
      intro ms h
      cases h
  | case4 n offset l ls hdef c definition m hm more hmore ih =>
      intro ms h
      cases h
      refine List.Pairwise.cons (fun m' hm' => ?_) (ih more hmore)
      rw [(isPlaced_of_ofDefinition hm).stop]
      exact start_le_of_definitionsFrom more hmore m' hm'
  | case5 n offset l ls hdef ih => exact ih

/-!
# The place of a definition
-/

def firstLine (code : Text) (m : FunctionMacro) : Text :=
  (code.drop m.start).takeWhile (· != Byte.newline)

structure IsWhole (code : Text) (m : FunctionMacro) : Prop where
  start : EndsLine (code.take m.start)
  stop : StartsBehindLine (code.drop m.stop)
  nonempty : m.start < m.stop
  inside : m.stop ≤ code.length
  line : m.line = Text.newlines (code.take m.start) + 1
  first : isDefinition (m.firstLine code) = true

theorem takeWhile_firstLine {l y : Text} (hl : Byte.newline ∉ l) (hy : StartsBehindLine y) :
    (l ++ y).takeWhile (· != Byte.newline) = l := by
  have hstop : y.takeWhile (· != Byte.newline) = [] := by
    rcases hy with rfl | ⟨w, rfl⟩
    · rfl
    · rfl
  rw [List.takeWhile_append_of_pos, hstop, List.append_nil]
  intro b hb
  exact bne_iff_ne.mpr fun h => hl (h ▸ hb)

theorem newlines_ended {ls : List Text} (h : forall l, l ∈ ls -> Byte.newline ∉ l) :
    Text.newlines (Text.ended ls) = ls.length := by
  cases ls with
  | nil => rfl
  | cons l ls =>
      rw [Text.ended_eq, Text.newlines_append]
      exact Text.newlines_unlines (List.cons_ne_nil l ls) h

section Place

variable {code l : Text} {before cs after : List Text} {m : FunctionMacro}

theorem IsReadAt.code_eq (hlines : code.lines = before ++ l :: (cs ++ after)) :
    code = Text.ended before ++
      (Text.unlines (l :: cs) ++ after.flatMap (Byte.newline :: ·)) := by
  rw [← Text.unlines_lines code, hlines, Text.unlines_append_cons, Text.unlines_cons_eq,
    List.flatMap_append, List.append_assoc]

theorem IsReadAt.take_start (h : m.IsReadAt before l cs after)
    (hlines : code.lines = before ++ l :: (cs ++ after)) :
    code.take m.start = Text.ended before := by
  rw [IsReadAt.code_eq hlines, h.start, List.take_left]

theorem IsReadAt.drop_start (h : m.IsReadAt before l cs after)
    (hlines : code.lines = before ++ l :: (cs ++ after)) :
    code.drop m.start = Text.unlines (l :: cs) ++ after.flatMap (Byte.newline :: ·) := by
  rw [IsReadAt.code_eq hlines, h.start, List.drop_left]

theorem IsReadAt.slice (h : m.IsReadAt before l cs after)
    (hlines : code.lines = before ++ l :: (cs ++ after)) :
    code.slice m.start m.stop = Text.unlines (l :: cs) := by
  rw [Text.slice, h.drop_start hlines, h.stop, Nat.add_sub_cancel_left, List.take_left]

theorem IsReadAt.drop_stop (h : m.IsReadAt before l cs after)
    (hlines : code.lines = before ++ l :: (cs ++ after)) :
    code.drop m.stop = after.flatMap (Byte.newline :: ·) := by
  rw [h.stop, ← List.drop_drop, h.drop_start hlines, List.drop_left]

theorem IsReadAt.firstLine (h : m.IsReadAt before l cs after)
    (hlines : code.lines = before ++ l :: (cs ++ after)) : m.firstLine code = l := by
  have hl : Byte.newline ∉ l :=
    Text.not_mem_of_mem_lines (s := code) (by rw [hlines]; simp)
  rw [FunctionMacro.firstLine, h.drop_start hlines, Text.unlines_cons_eq, List.append_assoc,
    ← List.flatMap_append, takeWhile_firstLine hl (startsBehindLine_flatMap _)]

theorem isDefinition_ne_nil (h : isDefinition l = true) : l ≠ [] := by
  rintro rfl
  cases h

theorem IsReadAt.isWhole (h : m.IsReadAt before l cs after)
    (hlines : code.lines = before ++ l :: (cs ++ after)) : m.IsWhole code := by
  have hbefore : forall k, k ∈ before -> Byte.newline ∉ k := fun k hk =>
    Text.not_mem_of_mem_lines (s := code) (by rw [hlines]; exact List.mem_append_left _ hk)
  constructor
  · rw [h.take_start hlines]
    exact endsLine_ended before
  · rw [h.drop_stop hlines]
    exact startsBehindLine_flatMap after
  · have hpos := List.length_pos_of_ne_nil (isDefinition_ne_nil h.first)
    rw [h.stop, Text.unlines_cons_eq, List.length_append]
    omega
  · rw [h.stop, h.start, IsReadAt.code_eq hlines]
    simp only [List.length_append]
    omega
  · rw [h.take_start hlines, newlines_ended hbefore, h.line]
  · rw [h.firstLine hlines]
    exact h.first

end Place

/-!
# The two readings
-/

/-- What a definition is read from: what stands behind its first word `define` and blanks. -/
def signature (text : Text) : Text :=
  ((Text.cut? "define" text).elim [] (·.2)).dropWhile Byte.isBlank

/-- The slice that the parameters are read from lies in the text: the first closing parenthesis does
not stand in front of the byte behind the one that follows the name. -/
def InRange (text : Text) : Prop :=
  forall before after, Text.cut? [Byte.closeParen] (signature text) = some (before, after) ->
    (Occurrence.leadingName (signature text)).length + 1 ≤ before.length

/-- The name is that of the pragma, and the parameters and the body are those that stand behind
it. -/
structure IsConsistent (code : Text) (m : FunctionMacro) : Prop where
  name : m.name ≠ []
  args : exists args, defineArgs? (m.firstLine code) = some args ∧
    Occurrence.leadingName args = m.name
  parts : exists lead blanks list tail : Text,
    code.slice m.start m.stop = lead ++ ("define" ++ (blanks ++ (m.name ++
      Byte.openParen :: (list ++ Byte.closeParen :: tail)))) ∧
    ¬ Text.includes lead "define" = true ∧ (forall b, b ∈ blanks -> Byte.isBlank b = true) ∧
    Byte.newline ∉ list ∧ Byte.closeParen ∉ list ∧
    m.params = parameters list ∧ m.body = dropContinuations (Text.trim tail)

end FunctionMacro

namespace Spelling

open Directive FunctionMacro

/-- No comment in front of the word `define` holds the word, and only blanks stand between it and
the name. -/
structure IsPlain (p : Spelling) : Prop where
  first : ¬ Text.includes p.first "define" = true
  second : ¬ Text.includes p.second "define" = true
  third : forall b, b ∈ p.third -> Byte.isBlank b = true

theorem not_mem_of_getLast?_filler {x : Text} (h : Filler x) {b : UInt8}
    (hb : x.getLast? = some b) : b ∉ Text.ofString "define" := by
  rcases h.getLast? hb with rfl | ⟨w, hw, hlast⟩
  · decide
  · have hblank : forall w, w ∈ Text.blankSpellings ->
        w.getLast?.any (Text.ofString "define").contains = false := by
      decide
    have hb := hblank w hw
    rw [hlast, Option.any_some] at hb
    simpa using hb

theorem seam_of_getLast? {x : Text} {b : UInt8} (hx : x.getLast? = some b)
    (hb : b ∉ Text.ofString "define") (y : Text) : Text.Seam "define" x y :=
  Or.inl fun _ hc => Option.some.inj (hx.symm.trans hc) ▸ hb

theorem seam_filler {x : Text} (h : Filler x) (y : Text) : Text.Seam "define" x y :=
  Or.inl fun _ => not_mem_of_getLast?_filler h

variable {p : Spelling} {l : Text}

theorem not_includes_lead (h : p.Spells l) (hplain : p.IsPlain) :
    ¬ Text.includes p.lead "define" = true := by
  have hne : Text.ofString "define" ≠ [] := by
    decide
  have hindent : ¬ Text.includes p.indent "define" = true := by
    intro hdefine
    rcases (Text.includes_iff hne).mp hdefine with ⟨u, v, huv⟩
    have hmem : Byte.of 'd' ∈ p.indent := by
      rw [huv]
      exact List.mem_append_right u (List.mem_append_left v (by decide))
    exact absurd (h.indent _ hmem) (by decide)
  have hpragma : ¬ Text.includes ("pragma" ++ p.second) "define" = true :=
    (seam_of_getLast? rfl (by decide) _).not_includes hne (by decide) hplain.second
  have hfirst : ¬ Text.includes (p.first ++ ("pragma" ++ p.second)) "define" = true :=
    (seam_filler h.first _).not_includes hne hplain.first hpragma
  have hhash : ¬ Text.includes ("#" ++ (p.first ++ ("pragma" ++ p.second))) "define" = true :=
    (seam_of_getLast? rfl (by decide) _).not_includes hne (by decide) hfirst
  refine Text.Seam.not_includes hne (Or.inr ?_) hindent hhash
  intro b hb
  cases hb
  decide

theorem seam_lead (h : p.Spells l) (y : Text) : Text.Seam "define" p.lead y := by
  have hlead : p.lead = p.indent ++ ("#" ++ (p.first ++ "pragma")) ++ p.second := by
    simp only [lead, List.append_assoc]
  by_cases hsecond : p.second = []
  · rw [hlead, hsecond, List.append_nil, ← List.append_assoc, ← List.append_assoc]
    exact seam_of_getLast? (List.getLast?_append_of_ne_nil _ (by decide)) (by decide) y
  · rw [hlead]
    refine Or.inl fun b hb => ?_
    rw [List.getLast?_append_of_ne_nil _ hsecond] at hb
    exact not_mem_of_getLast?_filler h.second hb

theorem signature_append (h : p.Spells l) (hplain : p.IsPlain) (more : Text) :
    FunctionMacro.signature (l ++ more) = p.name ++ Byte.openParen :: (p.rest ++ more) := by
  have hsplit : l ++ more =
      p.lead ++ ("define" ++ (p.third ++ (p.name ++ Byte.openParen :: (p.rest ++ more)))) := by
    rw [h.text]
    simp [text, Spelling.signature]
  have hcut := Text.cut?_append_of_seam (by decide) (not_includes_lead h hplain) (seam_lead h _)
    (y := p.third ++ (p.name ++ Byte.openParen :: (p.rest ++ more)))
  rcases h.isName.exists_cons with ⟨b, name, hname, hb⟩
  have hblank : ¬ Byte.isBlank b = true := by
    intro h
    rw [not_isWord_of_isBlank h] at hb
    cases hb
  have hstop : (p.name ++ Byte.openParen :: (p.rest ++ more)).dropWhile Byte.isBlank =
      p.name ++ Byte.openParen :: (p.rest ++ more) := by
    rw [hname, List.cons_append, List.dropWhile_cons_of_neg hblank]
  rw [FunctionMacro.signature, hsplit, hcut]
  exact (List.dropWhile_append_of_pos hplain.third).trans hstop

theorem leadingName_signature (h : p.Spells l) (r : Text) :
    Occurrence.leadingName (p.name ++ Byte.openParen :: r) = p.name := by
  have hstart : (p.name ++ Byte.openParen :: r).head?.any Byte.isWordStart = true := by
    rcases h.isName.exists_cons with ⟨b, name, hname, _⟩
    have hhead := h.isName.start
    rw [hname] at hhead ⊢
    exact hhead
  rw [leadingName_eq hstart, (Occurrence.run_append rfl p.name).1,
    List.takeWhile_eq_self_iff.mpr h.isName.word]

theorem closeParen_not_mem (h : p.Spells l) : Byte.closeParen ∉ p.name ++ [Byte.openParen] := by
  intro hmem
  rcases List.mem_append.mp hmem with hmem | hmem
  · exact absurd (h.isName.word _ hmem) (by decide)
  · exact absurd hmem (by decide)

theorem exists_list_of_cut? (h : p.Spells l) {r before after : Text}
    (hcut : Text.cut? [Byte.closeParen] (p.name ++ Byte.openParen :: r) = some (before, after)) :
    exists list, before = p.name ++ Byte.openParen :: list ∧ Byte.closeParen ∉ list ∧
      r = list ++ Byte.closeParen :: after := by
  rw [List.append_cons] at hcut
  rcases Text.exists_of_cut?_byte (closeParen_not_mem h) hcut with ⟨list, rfl, hlist, hr⟩
  exact ⟨list, by rw [List.append_assoc]; rfl, hlist, hr⟩

theorem includes_define (h : p.Spells l) (more : Text) :
    Text.includes (l ++ more) "define" = true := by
  refine (Text.includes_iff (by decide)).mpr ⟨p.lead, p.third ++ (p.signature ++ more), ?_⟩
  rw [h.text]
  simp only [text, List.append_assoc]

theorem inRange (h : p.Spells l) (hplain : p.IsPlain) (more : Text) : InRange (l ++ more) := by
  intro before after hcut
  rw [signature_append h hplain] at hcut ⊢
  rcases exists_list_of_cut? h hcut with ⟨list, rfl, _, _⟩
  rw [leadingName_signature h, List.length_append, List.length_cons]
  omega

/-- The second reading finds the name that is spelled, and what stands behind it. -/
theorem exists_parts (h : p.Spells l) (hplain : p.IsPlain) {more : Text} {line start : Nat}
    {m : FunctionMacro} (hm : ofDefinition (l ++ more) line start = .ok m) :
    m.name = p.name ∧ exists list tail : Text,
      p.rest ++ more = list ++ Byte.closeParen :: tail ∧
      Byte.newline ∉ list ∧ Byte.closeParen ∉ list ∧
      m.params = parameters list ∧ m.body = dropContinuations (Text.trim tail) := by
  have hsignature := signature_append h hplain more
  unfold ofDefinition at hm
  rw [FunctionMacro.signature] at hsignature
  rw [hsignature] at hm
  dsimp only at hm
  rw [leadingName_signature h] at hm
  split at hm
  · cases hm
  · rename_i before after hcut
    rcases exists_list_of_cut? h hcut with ⟨list, rfl, hlist, hrest⟩
    have hdrop : (p.name ++ Byte.openParen :: list).drop (p.name.length + 1) = list := by
      rw [List.drop_length_add_append]
      rfl
    rw [hdrop] at hm
    split at hm
    · cases hm
    · rename_i hline
      cases hm
      exact ⟨rfl, list, after, hrest, fun hmem => hline (List.contains_iff_mem.mpr hmem), hlist,
        rfl, rfl⟩

end Spelling

namespace FunctionMacro

def IsPlain (code : Text) : Prop :=
  forall l cs, (l, cs) ∈ definitionLines code.lines -> exists p : Spelling, p.Spells l ∧ p.IsPlain

theorem isConsistent_of_isReadAt {code l : Text} {before cs after : List Text} {m : FunctionMacro}
    (h : m.IsReadAt before l cs after) (hlines : code.lines = before ++ l :: (cs ++ after))
    {p : Spelling} (hp : p.Spells l) (hplain : p.IsPlain) : m.IsConsistent code := by
  have htext := h.text
  rw [Text.unlines_cons_eq] at htext
  rcases Spelling.exists_parts hp hplain htext with
    ⟨hname, list, tail, hrest, hline, hlist, hparams, hbody⟩
  constructor
  · rcases hp.isName.exists_cons with ⟨b, name, hcons, _⟩
    rw [hname, hcons]
    exact List.cons_ne_nil b name
  · rw [h.firstLine hlines, hname]
    exact hp.args
  · refine ⟨p.lead, p.third, list, tail, ?_, Spelling.not_includes_lead hp hplain, hplain.third,
      hline, hlist, hparams, hbody⟩
    rw [h.slice hlines, Text.unlines_cons_eq, ← hrest, hname]
    conv_lhs => rw [hp.text]
    simp [Spelling.text, Spelling.signature]

/-- The word `define` is found in every definition, and every definition that is read takes up whole
lines behind those of the one before and has the number of its first line.  If the first lines are
spelled plainly then no slice leaves the text, and each definition has the name that the pragma
on its first line shows, the parameters in the parentheses behind that name, and the body behind
those. -/
theorem definitions_consistent (code : Text) :
    (forall l cs, (l, cs) ∈ definitionLines code.lines ->
      Text.includes (Text.unlines (l :: cs)) "define" = true) ∧
    (forall ms, definitions code = .ok ms ->
      (ms.Pairwise fun m m' => m.stop < m'.start) ∧ forall m, m ∈ ms -> m.IsWhole code) ∧
    (IsPlain code ->
      (forall l cs, (l, cs) ∈ definitionLines code.lines -> InRange (Text.unlines (l :: cs))) ∧
      forall ms, definitions code = .ok ms -> forall m, m ∈ ms -> m.IsConsistent code) := by
  have hread : forall ms, definitions code = .ok ms -> forall m, m ∈ ms ->
      exists xs l cs ys, code.lines = xs ++ l :: (cs ++ ys) ∧
        (l, cs) ∈ definitionLines code.lines ∧ m.IsReadAt xs l cs ys :=
    fun ms h => exists_isReadAt ms h [] rfl rfl
  refine ⟨?_, fun ms h => ⟨pairwise_of_definitionsFrom ms h, ?_⟩, fun hplain => ⟨?_, ?_⟩⟩
  · intro l cs hmem
    rcases mem_of_mem_definitionLines hmem with ⟨hl, hdef⟩
    rcases exists_spelling (Text.not_mem_of_mem_lines hl) hdef with ⟨p, hp⟩
    rw [Text.unlines_cons_eq]
    exact Spelling.includes_define hp _
  · intro m hm
    rcases hread ms h m hm with ⟨xs, l, cs, ys, hlines, _, hm⟩
    exact hm.isWhole hlines
  · intro l cs hmem
    rcases hplain l cs hmem with ⟨p, hp, hpplain⟩
    rw [Text.unlines_cons_eq]
    exact Spelling.inRange hp hpplain _
  · intro ms h m hm
    rcases hread ms h m hm with ⟨xs, l, cs, ys, hlines, hmem, hm⟩
    rcases hplain l cs hmem with ⟨p, hp, hpplain⟩
    exact isConsistent_of_isReadAt hm hlines hp hpplain

/-- A definition with a comment and one that is continued. -/
def plainSource : Text :=
  "#/* two */pragma define F(a, b) \\\n  a * b\n#pragma define Z() 0\nF(1, 2)"

theorem isPlain_plainSource : IsPlain plainSource := by
  have hlines : definitionLines plainSource.lines =
      [(Text.ofString "#/* two */pragma define F(a, b) \\", [Text.ofString "  a * b"]),
        (Text.ofString "#pragma define Z() 0", [])] := by
    decide +kernel
  have hblank : Directive.Filler " " :=
    Directive.Filler.blank (w := [Byte.space]) (by decide) Directive.Filler.nil
  intro l cs hmem
  rw [hlines] at hmem
  simp only [List.mem_cons, List.not_mem_nil, or_false, Prod.mk.injEq] at hmem
  rcases hmem with ⟨rfl, rfl⟩ | ⟨rfl, rfl⟩
  · refine ⟨⟨"", "/* two */", " ", " ", "F", "a, b) \\"⟩, ⟨by decide +kernel, ?_, ?_, hblank,
      hblank, by decide +kernel, Text.ofString "F(a, b) \\", by decide +kernel, by decide⟩, ?_⟩
    · exact List.forall_mem_nil _
    · exact Directive.Filler.comment (c := " two ") (by decide) Directive.Filler.nil
    · exact ⟨by decide, by decide, by decide +kernel⟩
  · refine ⟨⟨"", "", " ", " ", "Z", ") 0"⟩, ⟨by decide +kernel, ?_, Directive.Filler.nil, hblank,
      hblank, by decide +kernel, Text.ofString "Z() 0", by decide +kernel, by decide⟩, ?_⟩
    · exact List.forall_mem_nil _
    · exact ⟨by decide, by decide, by decide +kernel⟩

theorem definitions_consistent_continued :
    IsPlain plainSource ∧
      definitions plainSource =
        .ok [⟨"F", ["a", "b"], "a * b", 1, 0, 41⟩, ⟨"Z", [], "0", 3, 42, 62⟩] ∧
      (⟨"F", ["a", "b"], "a * b", 1, 0, 41⟩ : FunctionMacro).IsWhole plainSource ∧
      (⟨"F", ["a", "b"], "a * b", 1, 0, 41⟩ : FunctionMacro).IsConsistent plainSource := by
  have hmacros : definitions plainSource =
      .ok [⟨"F", ["a", "b"], "a * b", 1, 0, 41⟩, ⟨"Z", [], "0", 3, 42, 62⟩] := by
    decide +kernel
  rcases definitions_consistent plainSource with ⟨_, hplaced, hplain⟩
  exact ⟨isPlain_plainSource, hmacros, (hplaced _ hmacros).2 _ List.mem_cons_self,
    (hplain isPlain_plainSource).2 _ hmacros _ List.mem_cons_self⟩

/-- The word `define` in a comment is taken for that of the pragma: the definition of `F` is read as
one of `G`, and where a closing parenthesis stands in the place of the name a slice leaves the
text. -/
theorem definitions_comment_misread :
    definitions "#pragma/*define G(y) y*/define F(x) x" =
        .ok [⟨"G", ["y"], "y*/define F(x) x", 1, 0, 37⟩] ∧
      defineArgs? "#pragma/*define G(y) y*/define F(x) x" = some "F(x) x" ∧
      Occurrence.leadingName "F(x) x" = "F" ∧
      definitionLines (Text.lines "#pragma/*define)*/define F(x) x") =
        [(Text.ofString "#pragma/*define)*/define F(x) x", [])] ∧
      ¬ InRange "#pragma/*define)*/define F(x) x" := by
  refine ⟨by decide +kernel, by decide +kernel, by decide, by decide +kernel, fun h => ?_⟩
  have hcut : Text.cut? [Byte.closeParen] (signature "#pragma/*define)*/define F(x) x") =
      some ([], Text.ofString "*/define F(x) x") := by
    decide +kernel
  exact Nat.not_succ_le_zero _ (h _ _ hcut)

end FunctionMacro

end EffectShader
