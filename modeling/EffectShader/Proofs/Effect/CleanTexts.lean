import EffectShader.Chunk.Registry
import EffectShader.Proofs.Effect.Cleanup
import EffectShader.Proofs.Text.Carriages
import Mathlib.Data.List.DropRight

/-!
# Clean texts stay as they are

Both cleaners trim the ends of lines and of the text; that of the output also drops
pragmas and repeated empty lines.  What either leaves is in a normal form, and a text
in normal form is its own clean text.
-/

namespace EffectShader

namespace Text

/-!
# The end of a line
-/

theorem dropEndWhile_eq_rdropWhile (p : UInt8 -> Bool) (s : Text) :
    dropEndWhile p s = s.rdropWhile p :=
  dropEndWhile_eq p s

theorem any_getLast?_dropEndWhile (p : UInt8 -> Bool) (s : Text) :
    (dropEndWhile p s).getLast?.any p = false := by
  rw [dropEndWhile_eq_rdropWhile]
  cases hlast : (s.rdropWhile p).getLast? with
  | none => rfl
  | some b =>
      rcases List.getLast?_eq_some_iff.mp hlast with ⟨init, hs⟩
      have hb := List.rdropWhile_last_not p s (by rw [hs]; simp)
      simpa [hs] using hb

theorem dropEndWhile_of_getLast? {p : UInt8 -> Bool} {s : Text}
    (h : s.getLast?.any p = false) : dropEndWhile p s = s := by
  unfold dropEndWhile
  rw [h, if_neg Bool.false_ne_true]

/-!
# The end of a text
-/

theorem dropEndWhile_unlines {ls : List Text} (hls : forall l, l ∈ ls -> Byte.newline ∉ l) :
    dropEndWhile (· == Byte.newline) (unlines ls) = unlines (ls.rdropWhile List.isEmpty) := by
  induction ls using List.reverseRecOn with
  | nil => rfl
  | append_singleton ls l ih =>
      have hlast : Byte.newline ∉ l := hls l (by simp)
      cases l with
      | nil =>
          rw [List.rdropWhile_concat_pos _ _ _ rfl,
            ← ih fun l hl => hls l (List.mem_append_left _ hl)]
          cases ls with
          | nil => rfl
          | cons k ls =>
              rw [unlines_append_cons, ended_eq, List.append_assoc]
              exact dropEndWhile_append (by simp) _
      | cons b l =>
          rw [List.rdropWhile_concat_neg _ _ _ (by simp)]
          apply dropEndWhile_of_getLast?
          rw [unlines_append_cons, List.flatMap_nil, List.append_nil,
            List.getLast?_append_of_ne_nil _ (List.cons_ne_nil b l)]
          cases hb : (b :: l).getLast? with
          | none => rfl
          | some c =>
              have hc : c ≠ Byte.newline :=
                fun heq => hlast (heq ▸ List.mem_of_getLast? hb)
              simpa using hc

/-!
# Lines with nothing to trim
-/

structure Trimmed (isBlank : UInt8 -> Bool) (ls : List Text) : Prop where
  inline : forall l, l ∈ ls -> Byte.newline ∉ l
  ends : forall l, l ∈ ls -> l.getLast?.any isBlank = false
  last : ls.getLast? ≠ some []

theorem Trimmed.dropEndWhile_unlines {isBlank : UInt8 -> Bool} {ls : List Text}
    (h : Trimmed isBlank ls) : dropEndWhile (· == Byte.newline) (unlines ls) = unlines ls := by
  rw [Text.dropEndWhile_unlines h.inline, List.rdropWhile_eq_self_iff.mpr]
  intro hne hempty
  apply h.last
  rw [List.getLast?_eq_getLast_of_ne_nil hne, List.isEmpty_iff.mp hempty]

theorem exists_trimmed {isBlank : UInt8 -> Bool} {ls : List Text}
    (hinline : forall l, l ∈ ls -> Byte.newline ∉ l)
    (hends : forall l, l ∈ ls -> l.getLast?.any isBlank = false) :
    exists ks, ks <+: ls ∧ Trimmed isBlank ks ∧
      dropEndWhile (· == Byte.newline) (unlines ls) = unlines ks := by
  have hfront : ls.rdropWhile List.isEmpty <+: ls := List.rdropWhile_prefix _ _
  have hlast : (ls.rdropWhile List.isEmpty).getLast? ≠ some [] := by
    intro hlast
    rcases List.getLast?_eq_some_iff.mp hlast with ⟨init, hls⟩
    have hempty := List.rdropWhile_last_not List.isEmpty ls (by rw [hls]; simp)
    simp [hls] at hempty
  exists ls.rdropWhile List.isEmpty
  constructor
  · exact hfront
  · constructor
    · exact ⟨fun l hl => hinline l (hfront.subset hl), fun l hl => hends l (hfront.subset hl),
        hlast⟩
    · exact dropEndWhile_unlines hinline

theorem unlines_concat_nil {ls : List Text} (h : ls ≠ []) :
    unlines (ls ++ [[]]) = unlines ls ++ [Byte.newline] := by
  rcases List.exists_cons_of_ne_nil h with ⟨l, rest, rfl⟩
  rw [unlines_append_cons, ended_eq, List.flatMap_nil, List.append_nil, List.append_nil]

/-!
# Carriage returns
-/

theorem withoutCarriages_cons_of_head? {s : Text} (h : s.head? ≠ some Byte.newline) (b : UInt8) :
    withoutCarriages (b :: s) = b :: withoutCarriages s := by
  have hstart : List.isPrefixOf (ofString "\r\n") (b :: s) = false := by
    rw [show ofString "\r\n" = [Byte.carriage, Byte.newline] by decide, List.isPrefixOf_cons_cons]
    cases s with
    | nil => rw [List.isPrefixOf_cons_nil, Bool.and_false]
    | cons c s =>
        have hc : c ≠ Byte.newline := fun heq => h (by rw [heq]; rfl)
        rw [List.isPrefixOf_cons_cons, beq_false_of_ne (Ne.symm hc), Bool.false_and, Bool.and_false]
  rw [withoutCarriages, replaceAll, replaceFrom, hstart]
  rfl

theorem withoutCarriages_line {l : Text} (hl : Byte.newline ∉ l)
    (hlast : l.getLast? ≠ some Byte.carriage) (s : Text) :
    withoutCarriages (l ++ s) = l ++ withoutCarriages s := by
  induction l with
  | nil => rfl
  | cons b l ih =>
      rcases not_or.mp (mt List.mem_cons.mpr hl) with ⟨_, hl⟩
      cases l with
      | nil =>
          have hb : b ≠ Byte.carriage := by simpa using hlast
          exact withoutCarriages_cons hb s
      | cons c l =>
          have hc : c ≠ Byte.newline := fun heq => hl (by rw [heq]; exact List.mem_cons_self)
          rw [List.getLast?_cons_cons] at hlast
          rw [List.cons_append, withoutCarriages_cons_of_head? (by simpa using hc), ih hl hlast]
          rfl

theorem Trimmed.withoutCarriages_unlines {isBlank : UInt8 -> Bool} {ls : List Text}
    (h : Trimmed isBlank ls) (hcarriage : isBlank Byte.carriage = true) :
    withoutCarriages (unlines ls) = unlines ls := by
  have hlines : forall l, l ∈ ls -> Byte.newline ∉ l ∧ l.getLast? ≠ some Byte.carriage := by
    intro l hl
    constructor
    · exact h.inline l hl
    · intro hlast
      have hblank := h.ends l hl
      rw [hlast, Option.any_some, hcarriage] at hblank
      cases hblank
  clear h
  induction ls with
  | nil => rfl
  | cons l ls ih =>
      rcases List.forall_mem_cons.mp hlines with ⟨⟨hl, hlast⟩, hlines⟩
      cases ls with
      | nil =>
          have hline := withoutCarriages_line hl hlast []
          rwa [List.append_nil, show withoutCarriages [] = [] from rfl, List.append_nil,
            ← unlines_singleton l] at hline
      | cons k ls =>
          rw [unlines_cons (List.cons_ne_nil k ls), withoutCarriages_line hl hlast,
            withoutCarriages_cons (by decide), ih hlines]

end Text

/-!
# Chunks
-/

namespace Chunk

open Text (Trimmed)

theorem exists_trimmed_clean (content : Text) :
    exists ls, Trimmed isLineBlank ls ∧ clean content = Text.unlines ls := by
  have hinline : forall l, l ∈ (Text.withoutCarriages content).lines.map
      (Text.dropEndWhile isLineBlank) -> Byte.newline ∉ l := by
    intro l hl
    rcases List.mem_map.mp hl with ⟨k, hk, rfl⟩
    rw [Text.dropEndWhile_eq_rdropWhile]
    exact fun hmem => Text.not_mem_of_mem_lines hk ((List.rdropWhile_prefix _ _).subset hmem)
  have hends : forall l, l ∈ (Text.withoutCarriages content).lines.map
      (Text.dropEndWhile isLineBlank) -> l.getLast?.any isLineBlank = false := by
    intro l hl
    rcases List.mem_map.mp hl with ⟨k, _, rfl⟩
    exact Text.any_getLast?_dropEndWhile isLineBlank k
  rcases Text.exists_trimmed hinline hends with ⟨ls, _, htrimmed, hclean⟩
  exact ⟨ls, htrimmed, hclean⟩

theorem clean_unlines {ls : List Text} (h : Trimmed isLineBlank ls) :
    clean (Text.unlines ls) = Text.unlines ls := by
  unfold clean
  rw [show Text.replaceAll "\r\n" "\n" (Text.unlines ls) = Text.unlines ls from
    h.withoutCarriages_unlines rfl]
  by_cases hne : ls = []
  · rw [hne]
    rfl
  · have htrim : ls.map (Text.dropEndWhile isLineBlank) = ls :=
      (List.map_congr_left fun l hl => Text.dropEndWhile_of_getLast? (h.ends l hl)).trans
        (List.map_id' ls)
    rw [Text.lines_unlines hne h.inline]
    show Text.dropEndWhile _ (Text.unlines (ls.map (Text.dropEndWhile isLineBlank))) = _
    rw [htrim]
    exact h.dropEndWhile_unlines

end Chunk

/-!
# Output
-/

namespace Effect

open Text (Trimmed)

/-- Of two lines in a row one is not empty. -/
def Apart (l k : Text) : Prop :=
  l ≠ [] ∨ k ≠ []

structure IsClean (ls : List Text) : Prop extends Trimmed isTrailing ls where
  standard : forall l, l ∈ ls -> isCustomPragma l = false
  first : ls.head? ≠ some []
  apart : ls.IsChain Apart

/-- A line that is kept is one of the code without the blanks at its end, and no custom pragma. -/
theorem exists_of_mem_cleanLines {empty continued : Bool} {ls : List Text} {l : Text}
    (h : l ∈ cleanLines empty continued ls) :
    isCustomPragma l = false ∧ exists k, k ∈ ls ∧ l = Text.dropEndWhile isTrailing k := by
  induction ls generalizing empty continued with
  | nil => cases h
  | cons k ls ih =>
      have hlater {empty continued : Bool} (h : l ∈ cleanLines empty continued ls) :
          isCustomPragma l = false ∧
            exists k', k' ∈ k :: ls ∧ l = Text.dropEndWhile isTrailing k' := by
        rcases ih h with ⟨hcustom, k', hk', hl⟩
        exact ⟨hcustom, k', List.mem_cons_of_mem k hk', hl⟩
      rw [cleanLines] at h
      split at h
      · exact hlater h
      · rename_i hkept
        split at h
        · exact hlater h
        · rcases List.mem_cons.mp h with rfl | h
          · simp only [Bool.or_eq_true, not_or, Bool.not_eq_true] at hkept
            exact ⟨hkept.2, k, List.mem_cons_self, rfl⟩
          · exact hlater h

theorem apart_cleanLines (empty continued : Bool) (ls : List Text) :
    (empty = true -> (cleanLines empty continued ls).head? ≠ some []) ∧
      (cleanLines empty continued ls).IsChain Apart := by
  induction ls generalizing empty continued with
  | nil => exact ⟨fun _ => by simp [cleanLines], .nil⟩
  | cons k ls ih =>
      rw [cleanLines]
      split
      · exact ih _ _
      · split
        · rcases ih true false with ⟨hfirst, hchain⟩
          exact ⟨fun _ => hfirst rfl, hchain⟩
        · rename_i hblank
          generalize Text.dropEndWhile isTrailing k = k' at hblank ⊢
          rcases ih k'.isEmpty false with ⟨hfirst, hchain⟩
          refine ⟨?_, List.isChain_cons.mpr ⟨?_, hchain⟩⟩
          · intro hempty hnil
            cases hnil
            rw [hempty] at hblank
            exact hblank rfl
          · intro l hl
            cases k' with
            | nil => exact Or.inr fun hnil => hfirst rfl (hnil ▸ hl)
            | cons b k' => exact Or.inl (List.cons_ne_nil b k')

/-- Lines that are clean, and one that is empty at the end, are all kept. -/
theorem cleanLines_eq_self {empty : Bool} {ls : List Text}
    (hends : forall l, l ∈ ls -> l.getLast?.any isTrailing = false)
    (hstandard : forall l, l ∈ ls -> isCustomPragma l = false)
    (hfirst : empty = true -> ls.head? ≠ some []) (hapart : ls.IsChain Apart) :
    cleanLines empty false ls = ls := by
  induction ls generalizing empty with
  | nil => rfl
  | cons l ls ih =>
      rcases List.forall_mem_cons.mp hends with ⟨hl, hends⟩
      rcases List.forall_mem_cons.mp hstandard with ⟨hcustom, hstandard⟩
      rcases List.isChain_cons.mp hapart with ⟨hnext, hapart⟩
      have hkeep : (l.isEmpty && empty) = false := by
        cases empty with
        | false => rw [Bool.and_false]
        | true =>
            cases l with
            | nil => exact absurd rfl (hfirst rfl)
            | cons b l => rfl
      have hrest : cleanLines l.isEmpty false ls = ls := by
        refine ih hends hstandard (fun hempty hnil => ?_) hapart
        rcases hnext [] hnil with hl | hnil
        · exact hl (List.isEmpty_iff.mp hempty)
        · exact hnil rfl
      rw [cleanLines, Text.dropEndWhile_of_getLast? hl]
      simp only [Bool.false_or, hcustom, hkeep, Bool.false_eq_true, if_false, hrest]

theorem exists_isClean (code : Text) :
    exists ls, IsClean ls ∧ clean code = Text.unlines ls ++ [Byte.newline] := by
  have hinline := newline_not_mem_cleanLines true false
    fun l (hl : l ∈ Text.lines code) => Text.not_mem_of_mem_lines hl
  have hends : forall l, l ∈ cleanLines true false (Text.lines code) ->
      l.getLast?.any isTrailing = false := by
    intro l hl
    rcases exists_of_mem_cleanLines hl with ⟨_, k, _, rfl⟩
    exact Text.any_getLast?_dropEndWhile isTrailing k
  rcases apart_cleanLines true false (Text.lines code) with ⟨hfirst, hapart⟩
  rcases Text.exists_trimmed hinline hends with ⟨ls, hfront, htrimmed, hclean⟩
  have hstandard : forall l, l ∈ ls -> isCustomPragma l = false :=
    fun l hl => (exists_of_mem_cleanLines (hfront.subset hl)).1
  have hhead : ls.head? ≠ some [] := by
    intro hhead
    rcases hfront with ⟨rest, heq⟩
    apply hfirst rfl
    rw [← heq, List.head?_append, hhead]
    rfl
  exact ⟨ls, ⟨htrimmed, hstandard, hhead, hapart.prefix hfront⟩,
    congrArg (· ++ [Byte.newline]) hclean⟩

theorem IsClean.clean_eq {ls : List Text} (h : IsClean ls) :
    clean (Text.unlines ls ++ [Byte.newline]) = Text.unlines ls ++ [Byte.newline] := by
  by_cases hne : ls = []
  · rw [hne]
    rfl
  · have hinline : forall l, l ∈ ls ++ [[]] -> Byte.newline ∉ l :=
      List.forall_mem_append.mpr ⟨h.inline, by simp⟩
    -- the last newline starts an empty line, which is kept because the line before it is not empty
    have hkept : cleanLines true false (ls ++ [[]]) = ls ++ [[]] := by
      apply cleanLines_eq_self
      · exact List.forall_mem_append.mpr ⟨h.ends, by simp⟩
      · exact List.forall_mem_append.mpr ⟨h.standard, List.forall_mem_singleton.mpr rfl⟩
      · rw [List.head?_append_of_ne_nil _ hne]
        exact fun _ => h.first
      · apply h.apart.append (.singleton _)
        intro l hl k _
        exact Or.inl fun hnil => h.last (hnil ▸ hl)
    unfold clean
    rw [← Text.unlines_concat_nil hne, Text.lines_unlines (by simp) hinline, hkept,
      Text.unlines_concat_nil hne, Text.dropEndWhile_append (by simp), h.dropEndWhile_unlines]

/-!
# Blank lines
-/

/-- A line without blanks at its end is not blank, unless it is empty. -/
theorem not_trailing {l : Text} (h : l.getLast?.any isTrailing = false) (hne : l ≠ []) :
    ¬ Trailing l := by
  intro hl
  rw [List.getLast?_eq_getLast_of_ne_nil hne, Option.any_some, hl _ (List.getLast_mem hne)] at h
  cases h

theorem IsClean.not_trailing {ls : List Text} (h : IsClean ls) :
    (Text.unlines ls ≠ [] -> forall l, (Text.unlines ls).lines.head? = some l -> ¬ Trailing l) ∧
      (Text.unlines ls).lines.IsChain fun l k => ¬ (Trailing l ∧ Trailing k) := by
  by_cases hne : ls = []
  · rw [hne]
    exact ⟨fun hbody => absurd rfl hbody, .singleton _⟩
  · rw [Text.lines_unlines hne h.inline]
    constructor
    · intro _ l hl
      apply Effect.not_trailing (h.ends l (List.mem_of_head? hl))
      intro hnil
      exact h.first (hnil ▸ hl)
    · apply h.apart.imp_of_mem_imp
      intro l k hl hk hapart hblank
      rcases hapart with hne | hne
      · exact Effect.not_trailing (h.ends l hl) hne hblank.1
      · exact Effect.not_trailing (h.ends k hk) hne hblank.2

end Effect

/-- Cleaning again changes nothing, whether a chunk or the output is cleaned.  The clean output ends
in exactly one newline; its first line is not blank unless it is a single newline, and no two lines
in a row are blank. -/
theorem clean_fixes_cleaned (s : Text) :
    Chunk.clean (Chunk.clean s) = Chunk.clean s ∧
      Effect.clean (Effect.clean s) = Effect.clean s ∧
      exists body, Effect.clean s = body ++ [Byte.newline] ∧ body.getLast? ≠ some Byte.newline ∧
        (body ≠ [] -> forall l, body.lines.head? = some l -> ¬ Effect.Trailing l) ∧
        body.lines.IsChain fun l k => ¬ (Effect.Trailing l ∧ Effect.Trailing k) := by
  rcases Chunk.exists_trimmed_clean s with ⟨ks, hks, hchunk⟩
  rcases Effect.exists_isClean s with ⟨ls, hls, hclean⟩
  refine ⟨?_, ?_, Text.unlines ls, hclean, ?_, ?_⟩
  · rw [hchunk, Chunk.clean_unlines hks]
  · rw [hclean, hls.clean_eq]
  · intro hlast
    have hend := Text.any_getLast?_dropEndWhile (· == Byte.newline) (Text.unlines ls)
    rw [hls.dropEndWhile_unlines, hlast] at hend
    cases hend
  · exact hls.not_trailing

end EffectShader
