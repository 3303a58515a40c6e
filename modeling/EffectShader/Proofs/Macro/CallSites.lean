import EffectShader.Macro.Function
import EffectShader.Proofs.Text.Lines
import EffectShader.Proofs.Text.Search
import Mathlib.Data.List.TakeWhile

/-!
# Blanked definitions

A definition takes up whole lines, from one that starts it to the last that continues
it.  When the definitions of a text are blanked, every other line stays where it was,
and no line is left that starts a definition.
-/

namespace EffectShader

namespace FunctionMacro

def blankLines : List Text -> List Text
  | [] => []
  | text :: rest =>
      if isDefinition text then
        let n := continuations text rest
        List.replicate (n + 1) [] ++ blankLines (rest.drop n)
      else text :: blankLines rest
  termination_by lines => lines.length
  decreasing_by all_goals (simp only [List.length_drop, List.length_cons]; omega)

theorem blankLines_cons_of_isDefinition {l : Text} (h : isDefinition l = true) (ls : List Text) :
    blankLines (l :: ls) =
      List.replicate (continuations l ls + 1) [] ++ blankLines (ls.drop (continuations l ls)) := by
  rw [blankLines, if_pos h]

theorem blankLines_cons_of_plain {l : Text} (h : isDefinition l = false) (ls : List Text) :
    blankLines (l :: ls) = l :: blankLines ls := by
  rw [blankLines, h]
  rfl

theorem blankLines_ne_nil {ls : List Text} (h : ls ≠ []) : blankLines ls ≠ [] := by
  cases ls with
  | nil => exact absurd rfl h
  | cons l ls =>
      cases hdef : isDefinition l with
      | true =>
          rw [blankLines_cons_of_isDefinition hdef, List.replicate_succ]
          exact List.cons_ne_nil _ _
      | false =>
          rw [blankLines_cons_of_plain hdef]
          exact List.cons_ne_nil _ _

theorem isDefinition_nil : isDefinition [] = false := rfl

theorem mem_blankLines {l : Text} {ls : List Text} (h : l ∈ blankLines ls) :
    isDefinition l = false ∧ (l = [] ∨ l ∈ ls) := by
  fun_induction blankLines ls with
  | case1 => cases h
  | case2 text rest hdef n ih =>
      rcases List.mem_append.mp h with h | h
      · rw [List.eq_of_mem_replicate h]
        exact ⟨isDefinition_nil, Or.inl rfl⟩
      · rcases ih h with ⟨hplain, hmem⟩
        exact ⟨hplain, hmem.imp_right fun hl => List.mem_cons_of_mem text (List.mem_of_mem_drop hl)⟩
  | case3 text rest hdef ih =>
      rcases List.mem_cons.mp h with rfl | h
      · exact ⟨by simpa using hdef, Or.inr List.mem_cons_self⟩
      · rcases ih h with ⟨hplain, hmem⟩
        exact ⟨hplain, hmem.imp_right (List.mem_cons_of_mem text)⟩

theorem definitionsFrom_of_plain {n offset : Nat} {ls : List Text}
    (h : forall l, l ∈ ls -> isDefinition l = false) : definitionsFrom n offset ls = .ok [] := by
  induction ls generalizing n offset with
  | nil => rw [definitionsFrom]
  | cons l ls ih =>
      rcases List.forall_mem_cons.mp h with ⟨hl, hls⟩
      rw [definitionsFrom, hl]
      exact ih hls

/-!
# Where definitions stand
-/

theorem isWord_of_mem_leadingName {s : Text} {b : UInt8} (h : b ∈ Occurrence.leadingName s) :
    Byte.isWord b = true := by
  cases s with
  | nil => cases h
  | cons a s =>
      rw [Occurrence.leadingName] at h
      split at h
      · rename_i ha
        rcases List.mem_cons.mp h with rfl | h
        · rw [Byte.isWord, ha, Bool.true_or]
        · exact List.mem_takeWhile_imp h
      · cases h

structure IsPlaced (m : FunctionMacro) (first : Nat) (text : Text) : Prop where
  start : m.start = first
  stop : m.stop = first + text.length
  name : forall b, b ∈ m.name -> Byte.isWord b = true

theorem isPlaced_of_ofDefinition {text : Text} {line start : Nat} {m : FunctionMacro}
    (h : ofDefinition text line start = .ok m) : IsPlaced m start text := by
  unfold ofDefinition at h
  dsimp only at h
  split at h
  · cases h
  · split at h
    · cases h
    · cases h
      exact ⟨rfl, rfl, fun b hb => isWord_of_mem_leadingName hb⟩

theorem start_le_of_definitionsFrom {n offset : Nat} {ls : List Text} :
    forall ms, definitionsFrom n offset ls = .ok ms -> forall m, m ∈ ms -> offset ≤ m.start := by
  fun_induction definitionsFrom n offset ls with
  | case1 =>
      intro ms h
      cases h
      exact List.forall_mem_nil _
  | case2 => exact fun ms h => nomatch h
  | case3 => exact fun ms h => nomatch h
  | case4 n offset l ls hdef c definition m hm more hmore ih =>
      intro ms h
      cases h
      rw [List.forall_mem_cons, (isPlaced_of_ofDefinition hm).start]
      exact ⟨Nat.le_refl _, fun m' hm' => Nat.le_trans (by omega) (ih more hmore m' hm')⟩
  | case5 n offset l ls hdef ih =>
      exact fun ms h m hm => Nat.le_trans (by omega) (ih ms h m hm)

theorem isWord_of_mem_name {n offset : Nat} {ls : List Text} :
    forall ms, definitionsFrom n offset ls = .ok ms ->
      forall m, m ∈ ms -> forall b, b ∈ m.name -> Byte.isWord b = true := by
  fun_induction definitionsFrom n offset ls with
  | case1 =>
      intro ms h
      cases h
      exact List.forall_mem_nil _
  | case2 => exact fun ms h => nomatch h
  | case3 => exact fun ms h => nomatch h
  | case4 n offset l ls hdef c definition m hm more hmore ih =>
      intro ms h
      cases h
      exact List.forall_mem_cons.mpr ⟨(isPlaced_of_ofDefinition hm).name, ih more hmore⟩
  | case5 n offset l ls hdef ih => exact ih

theorem continuations_le (l : Text) (ls : List Text) : continuations l ls ≤ ls.length := by
  induction ls generalizing l with
  | nil => exact Nat.le_refl 0
  | cons next ls ih =>
      rw [continuations]
      split
      · exact Nat.succ_le_succ (ih next)
      · exact Nat.zero_le _

/-!
# Blanking
-/

theorem removeFrom_append {offset : Nat} {x : Text} {ms : List FunctionMacro}
    (h : forall m, m ∈ ms -> offset + x.length ≤ m.start) (s : Text) :
    removeFrom offset (x ++ s) ms = x ++ removeFrom (offset + x.length) s ms := by
  cases ms with
  | nil => rfl
  | cons m ms =>
      have hstart := h m List.mem_cons_self
      have hlength : m.start - offset = x.length + (m.start - (offset + x.length)) := by
        omega
      rw [removeFrom, removeFrom, hlength]
      simp only [List.take_length_add_append, List.drop_length_add_append, List.append_assoc]

theorem removeFrom_cons {offset : Nat} {m : FunctionMacro} {text : Text}
    (h : IsPlaced m offset text) (s : Text) (ms : List FunctionMacro) :
    removeFrom offset (text ++ s) (m :: ms) =
      List.replicate (Text.newlines text) Byte.newline ++ removeFrom m.stop s ms := by
  have hsize : m.stop - m.start = text.length := by
    rw [h.start, h.stop, Nat.add_sub_cancel_left]
  rw [removeFrom, hsize, h.start]
  simp

theorem removeFrom_behind {n offset : Nat} {ls : List Text} {ms : List FunctionMacro}
    (h : definitionsFrom n (offset + 1) ls = .ok ms)
    (hls : ls ≠ [] -> removeFrom (offset + 1) (Text.unlines ls) ms =
      Text.unlines (blankLines ls)) :
    removeFrom offset (ls.flatMap (Byte.newline :: ·)) ms =
      (blankLines ls).flatMap (Byte.newline :: ·) := by
  have hflat : forall ks : List Text, ks ≠ [] ->
      ks.flatMap (Byte.newline :: ·) = [Byte.newline] ++ Text.unlines ks := by
    intro ks hks
    cases ks with
    | nil => exact absurd rfl hks
    | cons k ks => rw [Text.unlines_cons_eq, List.flatMap_cons, List.cons_append]; rfl
  by_cases hne : ls = []
  · subst hne
    rw [definitionsFrom] at h
    cases h
    rw [blankLines]
    rfl
  · rw [hflat ls hne, hflat (blankLines ls) (blankLines_ne_nil hne),
      removeFrom_append (start_le_of_definitionsFrom ms h), List.length_singleton, hls hne]

theorem removeFrom_unlines {n offset : Nat} {ls : List Text}
    (hls : forall l, l ∈ ls -> Byte.newline ∉ l) :
    forall ms, definitionsFrom n offset ls = .ok ms -> ls ≠ [] ->
      removeFrom offset (Text.unlines ls) ms = Text.unlines (blankLines ls) := by
  fun_induction definitionsFrom n offset ls with
  | case1 => exact fun ms _ hne => absurd rfl hne
  | case2 => exact fun ms h => nomatch h
  | case3 => exact fun ms h => nomatch h
  | case4 n offset l ls hdef c definition m hm more hmore ih =>
      intro ms h _
      cases h
      have hplaced := isPlaced_of_ofDefinition hm
      have hnewlines : Text.newlines definition = c := by
        have hlength := Text.newlines_unlines (List.cons_ne_nil l (ls.take c)) fun k hk =>
          hls k ((List.cons_subset_cons l (List.take_subset c ls)) hk)
        rw [List.length_cons, List.length_take_of_le (continuations_le l ls)] at hlength
        exact Nat.succ.inj hlength
      have hlines : Text.unlines (l :: ls) =
          definition ++ (ls.drop c).flatMap (Byte.newline :: ·) := by
        rw [Text.unlines_cons_eq, show definition = _ from Text.unlines_cons_eq l (ls.take c),
          List.append_assoc, ← List.flatMap_append, List.take_append_drop]
      have hrest : removeFrom m.stop ((ls.drop c).flatMap (Byte.newline :: ·)) more =
          (blankLines (ls.drop c)).flatMap (Byte.newline :: ·) := by
        rw [hplaced.stop]
        exact removeFrom_behind hmore (ih (fun k hk =>
          hls k (List.mem_cons_of_mem l (List.mem_of_mem_drop hk))) more hmore)
      rw [hlines, removeFrom_cons hplaced, hnewlines, hrest, blankLines_cons_of_isDefinition hdef,
        List.replicate_succ, List.cons_append, Text.unlines_cons_eq, List.flatMap_append]
      simp [List.flatMap_replicate, c]
  | case5 n offset l ls hdef ih =>
      intro ms h _
      rcases List.forall_mem_cons.mp hls with ⟨hl, hls⟩
      have hstart := start_le_of_definitionsFrom ms h
      rw [blankLines_cons_of_plain (by simpa using hdef), Text.unlines_cons_eq,
        Text.unlines_cons_eq, removeFrom_append fun m hm => Nat.le_of_succ_le (hstart m hm),
        removeFrom_behind h (ih hls ms h)]

theorem not_spans_of_lt {m : FunctionMacro} {offset : Nat} (h : offset < m.start) :
    m.spans offset = false := by
  rw [spans, decide_eq_false (Nat.not_le_of_lt h), Bool.false_and]

theorem not_spans_of_le {m : FunctionMacro} {offset : Nat} (h : m.stop ≤ offset) :
    m.spans offset = false := by
  rw [spans, decide_eq_false (Nat.not_lt_of_le h), Bool.and_false]

theorem exists_of_replicate_append {n : Nat} {l : Text} {xs ys rest : List Text} (hl : l ≠ [])
    (h : List.replicate n [] ++ rest = xs ++ l :: ys) :
    exists zs, xs = List.replicate n [] ++ zs ∧ rest = zs ++ l :: ys := by
  induction n generalizing xs with
  | zero => exact ⟨xs, rfl, h⟩
  | succ n ih =>
      cases xs with
      | nil => exact absurd (List.cons.inj h).1.symm hl
      | cons x xs =>
          rcases List.cons.inj h with ⟨rfl, hrest⟩
          rcases ih hrest with ⟨zs, rfl, hzs⟩
          exact ⟨zs, rfl, hzs⟩

/-- A line that is left and is not empty stands in the text outside all definitions. -/
theorem exists_of_blankLines {n offset : Nat} {ls : List Text} :
    forall ms, definitionsFrom n offset ls = .ok ms ->
      forall (xs : List Text) l ys, blankLines ls = xs ++ l :: ys -> l ≠ [] ->
        exists xs' ys', ls = xs' ++ l :: ys' ∧
          forall m, m ∈ ms -> forall k, k ≤ l.length ->
            m.spans (offset + (Text.ended xs').length + k) = false := by
  fun_induction definitionsFrom n offset ls with
  | case1 =>
      intro ms h xs l ys hblank
      rw [blankLines] at hblank
      exact absurd hblank.symm (by simp)
  | case2 => exact fun ms h => nomatch h
  | case3 => exact fun ms h => nomatch h
  | case4 n offset text ls hdef c definition m hm more hmore ih =>
      intro ms h xs l ys hblank hl
      cases h
      have hplaced := isPlaced_of_ofDefinition hm
      rw [blankLines_cons_of_isDefinition hdef] at hblank
      rcases exists_of_replicate_append hl hblank with ⟨zs, rfl, hrest⟩
      rcases ih more hmore zs l ys hrest hl with ⟨xs', ys', hls, houtside⟩
      have hended : (Text.ended (text :: ls.take c ++ xs')).length =
          definition.length + 1 + (Text.ended xs').length := by
        rw [Text.ended_append, List.length_append, Text.ended_eq, List.length_append,
          List.length_singleton]
      refine ⟨text :: ls.take c ++ xs', ys', ?_, ?_⟩
      · rw [List.append_assoc, ← hls, List.cons_append, List.take_append_drop]
      · rw [hended, ← Nat.add_assoc, ← Nat.add_assoc, List.forall_mem_cons]
        refine ⟨fun k _ => not_spans_of_le ?_, houtside⟩
        rw [hplaced.stop]
        omega
  | case5 n offset text ls hdef ih =>
      intro ms h xs l ys hblank hl
      rw [blankLines_cons_of_plain (by simpa using hdef)] at hblank
      cases xs with
      | nil =>
          cases hblank
          refine ⟨[], ls, rfl, ?_⟩
          intro m hm k hk
          have hstart := start_le_of_definitionsFrom ms h m hm
          apply not_spans_of_lt
          simp only [Text.ended, List.flatMap_nil, List.length_nil]
          omega
      | cons x xs =>
          rw [List.cons_append, List.cons.injEq] at hblank
          rcases hblank with ⟨rfl, hblank⟩
          rcases ih ms h xs l ys hblank hl with ⟨xs', ys', hls, houtside⟩
          have hended : (Text.ended (text :: xs')).length =
              text.length + 1 + (Text.ended xs').length := by
            rw [show Text.ended (text :: xs') = text ++ [Byte.newline] ++ Text.ended xs' from
              List.flatMap_cons, List.length_append, List.length_append, List.length_singleton]
          refine ⟨text :: xs', ys', by rw [hls]; rfl, ?_⟩
          rw [hended, ← Nat.add_assoc, ← Nat.add_assoc]
          exact houtside

variable {code : Text} {macros : List FunctionMacro}

theorem removeDefinitions_eq (h : definitions code = .ok macros) :
    removeDefinitions code macros = Text.unlines (blankLines code.lines) := by
  have hlines := removeFrom_unlines (fun l hl => Text.not_mem_of_mem_lines hl) macros h
    (Text.lines_ne_nil code)
  rw [Text.unlines_lines] at hlines
  exact hlines

theorem lines_removeDefinitions (h : definitions code = .ok macros) :
    (removeDefinitions code macros).lines = blankLines code.lines := by
  rw [removeDefinitions_eq h]
  apply Text.lines_unlines (blankLines_ne_nil (Text.lines_ne_nil code))
  intro l hl
  rcases (mem_blankLines hl).2 with rfl | hl
  · exact List.not_mem_nil
  · exact Text.not_mem_of_mem_lines hl

theorem definitions_removeDefinitions (h : definitions code = .ok macros) :
    definitions (removeDefinitions code macros) = .ok [] := by
  unfold definitions
  rw [lines_removeDefinitions h]
  exact definitionsFrom_of_plain fun l hl => (mem_blankLines hl).1

end FunctionMacro

/-!
# Where macros are called

A call is a name between identifier boundaries with blanks and an opening parenthesis
behind it, in front of which no line comment starts on its line.  All of it stands on one
line, so the lines around it can be exchanged; in particular, blanking definitions neither
hides nor makes calls.
-/

namespace FunctionMacro

def IsCommented (before : Text) : Prop :=
  exists x y, before = x ++ (Byte.slash :: Byte.slash :: y) ∧ Byte.newline ∉ y

def IsApplied (name s : Text) : Prop :=
  exists blanks rest, s = name ++ (blanks ++ Byte.openParen :: rest) ∧
    forall b, b ∈ blanks -> Byte.isBlank b = true

structure IsCallAt (name before after : Text) : Prop where
  boundary : before.getLast?.any Byte.isWord = false
  applied : IsApplied name after
  code : ¬ IsCommented before

def Calls (name s : Text) : Prop :=
  exists before after, s = before ++ after ∧ IsCallAt name before after

/-!
# The search for calls
-/

theorem not_isWord_of_isBlank {b : UInt8} (h : Byte.isBlank b = true) : Byte.isWord b = false := by
  rw [Byte.isBlank, Bool.or_eq_true, beq_iff_eq, beq_iff_eq] at h
  rcases h with rfl | rfl
  · decide
  · decide

theorem isCall_iff {name s : Text} {previous : UInt8} :
    isCall name previous s = true ↔ Byte.isWord previous = false ∧ IsApplied name s := by
  unfold isCall Occurrence.after?
  constructor
  · intro h
    cases hafter : Text.afterPrefix? name s with
    | none =>
        rw [hafter] at h
        cases h
    | some rest =>
        rw [hafter] at h
        dsimp only at h
        split at h
        · cases h
        · rename_i hword
          rw [Bool.or_eq_true, not_or] at hword
          rw [Option.any_some, beq_iff_eq] at h
          rcases List.head?_eq_some_iff.mp h with ⟨behind, hbehind⟩
          refine ⟨by simpa using hword.1, rest.takeWhile Byte.isBlank, behind, ?_,
            fun b hb => List.mem_takeWhile_imp hb⟩
          rw [← hbehind, List.takeWhile_append_dropWhile, Text.eq_append_of_afterPrefix? hafter]
  · rintro ⟨hprevious, blanks, rest, rfl, hblanks⟩
    have hhead : (blanks ++ Byte.openParen :: rest).head?.any Byte.isWord = false := by
      cases blanks with
      | nil => rfl
      | cons b blanks => exact not_isWord_of_isBlank (hblanks b List.mem_cons_self)
    have hopen : (blanks ++ Byte.openParen :: rest).dropWhile Byte.isBlank =
        Byte.openParen :: rest := by
      rw [List.dropWhile_append_of_pos hblanks]
      exact List.dropWhile_cons_of_neg (by decide)
    rw [Text.afterPrefix?_append]
    dsimp only
    rw [hprevious, hhead, Bool.or_false, if_neg Bool.false_ne_true, Option.any_some, hopen]
    rfl

theorem isCommented_concat {before : Text} {b : UInt8} :
    IsCommented (before ++ [b]) ↔
      b ≠ Byte.newline ∧
        (IsCommented before ∨ b = Byte.slash ∧ before.getLast? = some Byte.slash) := by
  constructor
  · rintro ⟨x, y, heq, hy⟩
    rcases List.eq_nil_or_concat y with rfl | ⟨y, c, rfl⟩
    · have hlast : before ++ [b] = (x ++ [Byte.slash]) ++ [Byte.slash] := by
        rw [heq, List.append_assoc]
        rfl
      rcases List.append_inj' hlast rfl with ⟨rfl, hb⟩
      cases hb
      exact ⟨by decide, Or.inr ⟨rfl, List.getLast?_concat⟩⟩
    · have hlast : before ++ [b] = (x ++ (Byte.slash :: Byte.slash :: y)) ++ [c] := by
        rw [heq, List.concat_eq_append, List.append_assoc]
        rfl
      rcases List.append_inj' hlast rfl with ⟨rfl, hb⟩
      cases hb
      simp only [List.concat_eq_append, List.mem_append, List.mem_singleton, not_or] at hy
      exact ⟨Ne.symm hy.2, Or.inl ⟨x, y, rfl, hy.1⟩⟩
  · rintro ⟨hb, ⟨x, y, rfl, hy⟩ | ⟨rfl, hlast⟩⟩
    · refine ⟨x, y ++ [b], by simp, ?_⟩
      rw [List.mem_append, List.mem_singleton, not_or]
      exact ⟨hy, Ne.symm hb⟩
    · rcases List.getLast?_eq_some_iff.mp hlast with ⟨x, rfl⟩
      exact ⟨x, [], by simp, List.not_mem_nil⟩

theorem not_isCommented_nil : ¬ IsCommented [] := by
  rintro ⟨x, y, heq, _⟩
  simp at heq

/-- What the search knows of the text in front of it: the last byte, and whether a line comment has
started. -/
structure IsPassed (before : Text) (previous : UInt8) (commented : Bool) : Prop where
  previous : before.getLast?.getD Byte.newline = previous
  commented : commented = true ↔ IsCommented before

theorem isPassed_nil : IsPassed [] Byte.newline false :=
  ⟨rfl, iff_of_false Bool.false_ne_true not_isCommented_nil⟩

theorem IsPassed.step {before : Text} {previous : UInt8} {commented : Bool}
    (h : IsPassed before previous commented) (b : UInt8) :
    IsPassed (before ++ [b]) b
      (b != Byte.newline && (commented || (b == Byte.slash && previous == Byte.slash))) := by
  have hslash : before.getLast?.getD Byte.newline = Byte.slash ↔
      before.getLast? = some Byte.slash := by
    cases before.getLast? with
    | none => exact iff_of_false (by decide) (by simp)
    | some c => simp
  constructor
  · rw [List.getLast?_concat]
    rfl
  · rw [isCommented_concat, ← h.commented, ← hslash, h.previous]
    simp only [Bool.and_eq_true, bne_iff_ne, Bool.or_eq_true, beq_iff_eq]

theorem IsPassed.isCallAt_iff {before : Text} {previous : UInt8} {commented : Bool}
    (h : IsPassed before previous commented) (name s : Text) :
    IsCallAt name before s ↔ isCall name previous s = true ∧ commented = false := by
  have hboundary : before.getLast?.any Byte.isWord = Byte.isWord previous := by
    rw [← h.previous]
    cases before.getLast? with
    | none => decide
    | some c => rfl
  have hplain : commented = false ↔ ¬ IsCommented before := by
    rw [← h.commented, Bool.not_eq_true]
  rw [isCall_iff, ← hboundary, hplain]
  constructor
  · exact fun hcall => ⟨⟨hcall.boundary, hcall.applied⟩, hcall.code⟩
  · exact fun hcall => ⟨hcall.1.1, hcall.1.2, hcall.2⟩

/-- The search finds an eligible call, unless there is none. -/
theorem findCall?_spec (name : Text) (eligible : Nat -> Bool) {before : Text} {previous : UInt8}
    {commented : Bool} (h : IsPassed before previous commented) (s : Text) :
    (forall offset, findCall? name eligible previous commented before.length s = some offset ->
      exists u v, s = u ++ v ∧ IsCallAt name (before ++ u) v ∧ (before ++ u).length = offset ∧
        eligible offset = true) ∧
      (findCall? name eligible previous commented before.length s = none ->
        forall u v, s = u ++ v -> IsCallAt name (before ++ u) v ->
          eligible (before ++ u).length = false) := by
  induction s generalizing before previous commented with
  | nil =>
      constructor
      · intro offset hfound
        cases hfound
      · intro _ u v huv hcall
        rcases List.append_eq_nil_iff.mp huv.symm with ⟨rfl, rfl⟩
        rcases hcall.applied with ⟨blanks, rest, heq, _⟩
        simp at heq
  | cons b s ih =>
      have hhere : (isCall name previous (b :: s) && !commented && eligible before.length) = true ↔
          IsCallAt name before (b :: s) ∧ eligible before.length = true := by
        rw [h.isCallAt_iff]
        simp only [Bool.and_eq_true, Bool.not_eq_true']
      have hlater := ih (h.step b)
      rw [List.length_append, List.length_singleton] at hlater
      rw [findCall?]
      dsimp only
      split
      · rename_i hfound
        rcases hhere.mp hfound with ⟨hcall, heligible⟩
        constructor
        · intro offset hoffset
          cases hoffset
          exact ⟨[], b :: s, rfl, by rwa [List.append_nil], by rw [List.append_nil], heligible⟩
        · intro hnone
          cases hnone
      · rename_i hpassed
        constructor
        · intro offset hoffset
          rcases hlater.1 offset hoffset with ⟨u, v, rfl, hcall, hlength, heligible⟩
          rw [← List.append_cons] at hcall hlength
          exact ⟨b :: u, v, rfl, hcall, hlength, heligible⟩
        · intro hnone u v huv hcall
          cases u with
          | nil =>
              rw [List.append_nil] at hcall ⊢
              rw [List.nil_append] at huv
              rw [← huv] at hcall
              rw [← Bool.not_eq_true]
              exact fun heligible => hpassed (hhere.mpr ⟨hcall, heligible⟩)
          | cons c u =>
              rcases List.cons.inj huv with ⟨rfl, hs⟩
              rw [List.append_cons] at hcall ⊢
              exact hlater.2 hnone u v hs hcall

theorem not_eligible_of_callIn? {name s before after : Text} {eligible : Nat -> Bool}
    (h : callIn? name eligible s = none) (hs : s = before ++ after)
    (hcall : IsCallAt name before after) : eligible before.length = false :=
  (findCall?_spec name eligible isPassed_nil s).2 h before after hs hcall

theorem isRecursive_iff (m : FunctionMacro) : m.isRecursive = true ↔ Calls m.name m.body := by
  unfold isRecursive
  cases hfound : callIn? m.name (fun _ => true) m.body with
  | none =>
      apply iff_of_false Bool.false_ne_true
      rintro ⟨before, after, hbody, hcall⟩
      cases not_eligible_of_callIn? hfound hbody hcall
  | some offset =>
      apply iff_of_true rfl
      rcases (findCall?_spec m.name (fun _ => true) isPassed_nil m.body).1 offset hfound with
        ⟨before, after, hbody, hcall, _⟩
      exact ⟨before, after, hbody, hcall⟩

/-!
# Lines
-/

def EndsLine (x : Text) : Prop :=
  x = [] ∨ exists w, x = w ++ [Byte.newline]

def StartsBehindLine (y : Text) : Prop :=
  y = [] ∨ exists w, y = Byte.newline :: w

theorem endsLine_ended (ls : List Text) : EndsLine (Text.ended ls) := by
  cases ls with
  | nil => exact Or.inl rfl
  | cons l ls => exact Or.inr ⟨_, Text.ended_eq l ls⟩

theorem startsBehindLine_flatMap (ls : List Text) :
    StartsBehindLine (ls.flatMap (Byte.newline :: ·)) := by
  cases ls with
  | nil => exact Or.inl rfl
  | cons l ls => exact Or.inr ⟨_, List.flatMap_cons⟩

theorem isCommented_append {x : Text} (hx : EndsLine x) (before : Text) :
    IsCommented (x ++ before) ↔ IsCommented before := by
  constructor
  · rintro ⟨u, y, heq, hy⟩
    rcases List.append_eq_append_iff.mp heq with ⟨w, rfl, hbefore⟩ | ⟨w, rfl, hbefore⟩
    · exact ⟨w, y, hbefore, hy⟩
    · -- A newline at the end of `x` would stand behind the slashes.
      rcases List.eq_nil_or_concat w with rfl | ⟨w, c, rfl⟩
      · exact ⟨[], y, hbefore.symm, hy⟩
      · exfalso
        rcases hx with hx | ⟨v, hx⟩
        · simp at hx
        · rw [List.concat_eq_append, ← List.append_assoc] at hx
          have hc : c = Byte.newline := List.singleton_inj.mp (List.append_inj' hx rfl).2
          have hmem : Byte.newline ∈ Byte.slash :: Byte.slash :: y := by
            rw [hbefore, hc, List.concat_eq_append]
            simp
          rcases List.mem_cons.mp hmem with hmem | hmem
          · cases hmem
          · rcases List.mem_cons.mp hmem with hmem | hmem
            · cases hmem
            · exact hy hmem
  · rintro ⟨u, y, rfl, hy⟩
    exact ⟨x ++ u, y, by rw [List.append_assoc], hy⟩

theorem isApplied_append {name y : Text} (hname : forall b, b ∈ name -> Byte.isWord b = true)
    (hy : StartsBehindLine y) (s : Text) : IsApplied name (s ++ y) ↔ IsApplied name s := by
  constructor
  · rintro ⟨blanks, rest, heq, hblanks⟩
    have hinline : Byte.newline ∉ name ++ (blanks ++ [Byte.openParen]) := by
      simp only [List.mem_append, List.mem_singleton, not_or]
      refine ⟨fun h => ?_, fun h => ?_, by decide⟩
      · exact absurd (hname _ h) (by decide)
      · exact absurd (hblanks _ h) (by decide)
    have hsplit : s ++ y = (name ++ (blanks ++ [Byte.openParen])) ++ rest := by
      rw [heq]
      simp
    rcases List.append_eq_append_iff.mp hsplit with ⟨w, hcall, hrest⟩ | ⟨w, hs, _⟩
    · have hw : w = [] := by
        cases w with
        | nil => rfl
        | cons c w =>
            exfalso
            rcases hy with rfl | ⟨v, rfl⟩
            · cases hrest
            · cases hrest
              exact hinline (hcall ▸ List.mem_append_right s List.mem_cons_self)
      rw [hw, List.append_nil] at hcall
      exact ⟨blanks, [], hcall.symm, hblanks⟩
    · exact ⟨blanks, w, by rw [hs]; simp, hblanks⟩
  · rintro ⟨blanks, rest, rfl, hblanks⟩
    exact ⟨blanks, rest ++ y, by simp, hblanks⟩

theorem isCallAt_append {name x y : Text} (hname : forall b, b ∈ name -> Byte.isWord b = true)
    (hx : EndsLine x) (hy : StartsBehindLine y) (before after : Text) :
    IsCallAt name (x ++ before) (after ++ y) ↔ IsCallAt name before after := by
  have hboundary : (x ++ before).getLast?.any Byte.isWord = before.getLast?.any Byte.isWord := by
    rcases hx with rfl | ⟨w, rfl⟩
    · rfl
    · cases hlast : before.getLast? with
      | none =>
          rw [List.getLast?_eq_none_iff.mp hlast, List.append_nil, List.getLast?_concat]
          decide
      | some c => rw [List.getLast?_append, hlast]; rfl
  constructor
  · rintro ⟨hb, happlied, hcode⟩
    exact ⟨hboundary ▸ hb, (isApplied_append hname hy after).mp happlied,
      mt (isCommented_append hx before).mpr hcode⟩
  · rintro ⟨hb, happlied, hcode⟩
    exact ⟨hboundary ▸ hb, (isApplied_append hname hy after).mpr happlied,
      mt (isCommented_append hx before).mp hcode⟩

theorem exists_call_of_removeDefinitions {code name : Text} {macros : List FunctionMacro}
    (h : definitions code = .ok macros) (hname : forall b, b ∈ name -> Byte.isWord b = true)
    (hcalls : Calls name (removeDefinitions code macros)) :
    exists before after, code = before ++ after ∧ IsCallAt name before after ∧
      forall m, m ∈ macros -> m.spans before.length = false := by
  rcases hcalls with ⟨before, after, htext, hcall⟩
  rw [removeDefinitions_eq h] at htext
  rcases Text.exists_line_of_append (blankLines_ne_nil (Text.lines_ne_nil code)) htext with
    ⟨ks, x, y, ms, hblank, rfl, rfl⟩
  have hline := (isCallAt_append hname (endsLine_ended ks) (startsBehindLine_flatMap ms) x y).mp
    hcall
  have hne : x ++ y ≠ [] := by
    rcases hline.applied with ⟨blanks, rest, rfl, _⟩
    simp
  rcases exists_of_blankLines macros h ks (x ++ y) ms hblank hne with ⟨ks', ms', hlines, houtside⟩
  refine ⟨Text.ended ks' ++ x, y ++ ms'.flatMap (Byte.newline :: ·), ?_, ?_, ?_⟩
  · rw [← Text.unlines_lines code, hlines, Text.unlines_append_cons]
    simp only [List.append_assoc]
  · exact (isCallAt_append hname (endsLine_ended ks') (startsBehindLine_flatMap ms') x y).mpr hline
  · intro m hm
    have hspans := houtside m hm x.length (by simp)
    rw [Nat.zero_add] at hspans
    rw [List.length_append, hspans]

end FunctionMacro

end EffectShader
