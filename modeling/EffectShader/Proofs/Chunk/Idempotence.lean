import EffectShader.Proofs.Chunk.DepthFirst
import EffectShader.Proofs.Text.Search
import Mathlib.Data.List.TakeWhile

/-!
# Resolving a resolved source

A line has one directive, the first `#include` on it.  Text around the directive is
put around the lines of the chunk, where it may form a directive again: because it
holds another `#include`, because it completes a malformed one, or across the seam
with a line.  A resolved text that holds no directive stays as it is when it is
resolved again.
-/

namespace EffectShader

namespace Chunk

open Text

def mark : Text := "#include"

theorem mark_ne_nil : mark ≠ [] := by decide

/-!
# The directive of a line
-/

theorem exists_of_includeName? {s name after : Text} (h : includeName? s = some (name, after)) :
    exists w, s = w ++ after ∧ w.dropWhile Byte.isBlank = w ∧
      includeName? w = some (name, []) := by
  unfold includeName? at h
  split at h
  · rename_i s
    refine ⟨Byte.less :: (name ++ [Byte.greater]), ?_, rfl, ?_⟩
    · rw [eq_append_of_cut? h]
      simp
    · show cut? [Byte.greater] (name ++ [Byte.greater]) = some (name, [])
      simpa using cut?_append_of_cut? (by decide) h []
  · rename_i s
    refine ⟨Byte.quote :: (name ++ [Byte.quote]), ?_, rfl, ?_⟩
    · rw [eq_append_of_cut? h]
      simp
    · show cut? [Byte.quote] (name ++ [Byte.quote]) = some (name, [])
      simpa using cut?_append_of_cut? (by decide) h []
  · cases h

theorem parts_of_include? {l : Text} {i : Include} (h : include? l = some i) :
    exists rest name, cut? mark l = some (i.before, rest) ∧
      includeName? (rest.dropWhile Byte.isBlank) = some (name, i.after) ∧
      i.name = normalizeName name ∧ (normalizeName name).isEmpty = false := by
  unfold include? at h
  split at h
  · cases h
  · rename_i before rest hcut
    split at h
    · cases h
    · split at h
      · cases h
      · rename_i name after hname
        dsimp only at h
        split at h
        · cases h
        · rename_i hempty
          cases h
          exact ⟨rest, name, hcut, hname, rfl, by simpa using hempty⟩

theorem include?_mark {w name after : Text}
    (hname : includeName? (w.dropWhile Byte.isBlank) = some (name, after))
    (hempty : (normalizeName name).isEmpty = false) :
    include? (mark ++ w) = some ⟨normalizeName name, [], after⟩ := by
  have hcut : cut? mark (mark ++ w) = some ([], w) := by
    rcases exists_cut?_of_append mark_ne_nil [] w with ⟨before, rest, hcut, hle⟩
    rw [List.nil_append] at hcut
    have hbefore : before = [] := List.eq_nil_of_length_eq_zero (Nat.le_zero.mp hle)
    have heq := eq_append_of_cut? hcut
    rw [hbefore, List.nil_append, List.append_cancel_left_eq] at heq
    rw [hcut, hbefore, heq]
  unfold include?
  rw [show cut? "#include" (mark ++ w) = some ([], w) from hcut]
  simp [hname, hempty]

theorem exists_directive {l : Text} {i : Include} (h : include? l = some i) :
    exists d, l = i.before ++ (d ++ i.after) ∧ include? d = some ⟨i.name, [], []⟩ := by
  rcases parts_of_include? h with ⟨rest, name, hcut, hname, hnormal, hempty⟩
  rcases exists_of_includeName? hname with ⟨w, hw, hblank, hdirective⟩
  refine ⟨mark ++ (rest.takeWhile Byte.isBlank ++ w), ?_, ?_⟩
  · rw [eq_append_of_cut? hcut, List.append_assoc, List.append_assoc, ← hw,
      List.takeWhile_append_dropWhile]
  · rw [hnormal]
    apply include?_mark _ hempty
    rw [List.dropWhile_append_of_pos fun b hb => List.mem_takeWhile_imp hb, hblank]
    exact hdirective

/-!
# Lines without a directive
-/

/-- An `#include` on the line stands behind the start of a line comment. -/
def isQuiet (l : Text) : Bool :=
  match cut? mark l with
  | none => true
  | some (before, _) => before.includes "//"

theorem isQuiet_iff {l : Text} :
    isQuiet l = true ↔ forall u v, l = u ++ (mark ++ v) -> includes u "//" = true := by
  unfold isQuiet
  constructor
  · intro h u v hl
    rcases exists_cut?_of_append mark_ne_nil u v with ⟨before, after, hcut, _⟩
    rw [← hl] at hcut
    rw [hcut] at h
    rcases exists_append_of_cut? mark_ne_nil hcut hl with ⟨w, hu⟩
    rcases (includes_iff (by decide)).mp h with ⟨x, y, hbefore⟩
    apply (includes_iff (by decide)).mpr
    exact ⟨x, y ++ w, by rw [hu, hbefore, List.append_assoc, List.append_assoc]⟩
  · intro h
    cases hcut : cut? mark l with
    | none => rfl
    | some p => exact h p.1 p.2 (eq_append_of_cut? hcut)

theorem isQuiet_of_not_includes {l : Text} (h : ¬ includes l mark = true) : isQuiet l = true := by
  rw [isQuiet_iff]
  intro u v hl
  exact absurd ((includes_iff mark_ne_nil).mpr ⟨u, v, hl⟩) h

theorem include?_of_isQuiet {l : Text} (h : isQuiet l = true) : include? l = none := by
  cases hinc : include? l with
  | none => rfl
  | some i =>
      exfalso
      rcases parts_of_include? hinc with ⟨rest, _, hcut, _⟩
      have hl := eq_append_of_cut? hcut
      have hcomment := isQuiet_iff.mp h i.before rest hl
      rcases (includes_iff (by decide)).mp hcomment with ⟨x, y, hbefore⟩
      rcases exists_cut?_of_append (show ("//" : Text) ≠ [] by decide) x (y ++ (mark ++ rest)) with
        ⟨b, a, hslash, hle⟩
      have hslash : cut? "//" l = some (b, a) := by
        rw [hl, hbefore, List.append_assoc, List.append_assoc]
        exact hslash
      have hshort : b.length < i.before.length := by
        rw [hbefore, List.length_append, List.length_append]
        have : (2 : Nat) = ("//" : Text).length := rfl
        omega
      unfold include? at hinc
      rw [show cut? "#include" l = some (i.before, rest) from hcut, hslash] at hinc
      simp [hshort] at hinc

/-- The directive of the line, if it has one, is the only `#include` on it and set off from the text
around it by bytes that do not occur in `#include`; a line without a directive is quiet. -/
def isTidy (l : Text) : Bool :=
  match include? l with
  | none => isQuiet l
  | some i =>
      (i.before.getLast?.all fun b => !mark.contains b) &&
        (i.after.head?.all fun b => !mark.contains b) && !includes i.after mark

theorem parts_of_isTidy {l : Text} {i : Include} (h : isTidy l = true) (hl : include? l = some i) :
    (forall b, i.before.getLast? = some b -> b ∉ mark) ∧
      (forall b, i.after.head? = some b -> b ∉ mark) ∧
      ¬ includes i.before mark = true ∧ ¬ includes i.after mark = true := by
  rcases parts_of_include? hl with ⟨rest, _, hcut, _⟩
  unfold isTidy at h
  rw [hl] at h
  simp only [Bool.and_eq_true, Bool.not_eq_true', Option.all_eq_true] at h
  rcases h with ⟨⟨hlast, hhead⟩, hafter⟩
  refine ⟨?_, ?_, not_includes_of_cut? mark_ne_nil hcut, by simp [hafter]⟩
  · intro b hb
    simpa using hlast b hb
  · intro b hb
    simpa using hhead b hb

theorem isQuiet_surround {p l s : Text} (hp : forall b, p.getLast? = some b -> b ∉ mark)
    (hs : forall b, s.head? = some b -> b ∉ mark) (hbefore : ¬ includes p mark = true)
    (hafter : ¬ includes s mark = true) (hl : isQuiet l = true) :
    isQuiet (p ++ l ++ s) = true := by
  rw [isQuiet_iff] at hl ⊢
  intro u v heq
  rw [List.append_assoc] at heq
  have hleft : Seam mark p (l ++ s) := Or.inl hp
  rcases hleft.occurrence heq with ⟨w, hw⟩ | ⟨w, hrest, hu⟩
  · exact absurd ((includes_iff mark_ne_nil).mpr ⟨u, w, hw⟩) hbefore
  · have hright : Seam mark l s := Or.inr hs
    rcases hright.occurrence hrest with ⟨x, hx⟩ | ⟨x, hx, _⟩
    · rcases (includes_iff (by decide)).mp (hl w x hx) with ⟨y, z, hw⟩
      apply (includes_iff (by decide)).mpr
      exact ⟨p ++ y, z, by rw [hu, hw, List.append_assoc]⟩
    · exact absurd ((includes_iff mark_ne_nil).mpr ⟨x, v, hx⟩) hafter

/-!
# What a run writes
-/

section Runs

variable {r : Registry} {seen ls order out : List Text}

theorem mem_remainder {i : Include} {l : Text} (h : l ∈ i.remainder) : l = i.before ++ i.after := by
  unfold Include.remainder at h
  split at h
  · cases h
  · exact List.mem_singleton.mp h

theorem mem_lines_unlines {ls : List Text} (hls : forall l, l ∈ ls -> Byte.newline ∉ l) {l : Text}
    (h : l ∈ (unlines ls).lines) : l ∈ ls ∨ l = [] := by
  cases ls with
  | nil => exact Or.inr (by simpa [unlines_nil, lines_nil] using h)
  | cons k ks =>
      rw [lines_unlines (List.cons_ne_nil k ks) hls] at h
      exact Or.inl h

theorem not_mem_parts {l : Text} {i : Include} (h : Byte.newline ∉ l) (hl : include? l = some i) :
    Byte.newline ∉ i.before ∧ Byte.newline ∉ i.after := by
  rcases exists_directive hl with ⟨d, hd, _⟩
  rw [hd] at h
  simp only [List.mem_append, not_or] at h
  exact ⟨h.1, h.2.2⟩

theorem Expands.not_mem_newline (h : Expands r seen ls order out)
    (hls : forall l, l ∈ ls -> Byte.newline ∉ l) : forall l, l ∈ out -> Byte.newline ∉ l := by
  induction h with
  | done => simp
  | plain hl _ ih =>
      rcases List.forall_mem_cons.mp hls with ⟨hline, hls⟩
      exact List.forall_mem_cons.mpr ⟨hline, ih hls⟩
  | again hl _ _ ih =>
      rcases List.forall_mem_cons.mp hls with ⟨hline, hls⟩
      rcases not_mem_parts hline hl with ⟨hbefore, hafter⟩
      intro k hk
      rcases List.mem_append.mp hk with hk | hk
      · rw [mem_remainder hk, List.mem_append]
        exact not_or.mpr ⟨hbefore, hafter⟩
      · exact ih hls k hk
  | chunk hl _ _ _ _ _ _ ihlater =>
      rcases List.forall_mem_cons.mp hls with ⟨hline, hls⟩
      rcases not_mem_parts hline hl with ⟨hbefore, hafter⟩
      intro k hk
      rcases List.mem_append.mp hk with hk | hk
      · rcases List.mem_map.mp hk with ⟨m, hm, rfl⟩
        rw [List.mem_append, List.mem_append]
        exact not_or.mpr ⟨not_or.mpr ⟨hbefore, not_mem_of_mem_lines hm⟩, hafter⟩
      · exact ihlater hls k hk

def Tidy (r : Registry) (ls : List Text) : Prop :=
  (forall l, l ∈ ls -> isTidy l = true) ∧
    forall n content, r.ReachesFrom ls n -> r.lookup? n = some content ->
      forall l, l ∈ content.lines -> isTidy l = true

theorem Tidy.tail {l : Text} (h : Tidy r (l :: ls)) : Tidy r ls :=
  ⟨fun k hk => h.1 k (List.mem_cons_of_mem l hk), fun n content hn => h.2 n content hn.later⟩

theorem Tidy.inside {l content : Text} {i : Include} (h : Tidy r (l :: ls))
    (hl : include? l = some i) (hcontent : r.lookup? i.name = some content) :
    Tidy r content.lines :=
  ⟨h.2 i.name content (.head hl) hcontent, fun n c hn => h.2 n c (.inside hl hcontent hn)⟩

theorem Expands.isQuiet (h : Expands r seen ls order out) (htidy : Tidy r ls) :
    forall l, l ∈ out -> isQuiet l = true := by
  induction h with
  | done => simp
  | @plain seen order out ls l hl _ ih =>
      have hline := htidy.1 l List.mem_cons_self
      unfold isTidy at hline
      rw [hl] at hline
      exact List.forall_mem_cons.mpr ⟨hline, ih htidy.tail⟩
  | @again seen order out ls l i hl _ _ ih =>
      rcases parts_of_isTidy (htidy.1 l List.mem_cons_self) hl with ⟨hlast, _, hbefore, hafter⟩
      have hseam : Seam mark i.before i.after := Or.inl hlast
      intro k hk
      rcases List.mem_append.mp hk with hk | hk
      · rw [mem_remainder hk]
        exact isQuiet_of_not_includes (hseam.not_includes mark_ne_nil hbefore hafter)
      · exact ih htidy.tail k hk
  | @chunk seen inside body order out ls l content i hl _ _ hcontent hinside _ ihinside ihlater =>
      rcases parts_of_isTidy (htidy.1 l List.mem_cons_self) hl with ⟨hlast, hhead, hbefore, hafter⟩
      intro k hk
      rcases List.mem_append.mp hk with hk | hk
      -- A chunk for which nothing is written still gives one empty line.
      · rcases List.mem_map.mp hk with ⟨m, hm, rfl⟩
        have hlines := hinside.not_mem_newline fun _ => not_mem_of_mem_lines
        apply isQuiet_surround hlast hhead hbefore hafter
        rcases mem_lines_unlines hlines hm with hm | rfl
        · exact ihinside (htidy.inside hl hcontent) m hm
        · decide
      · exact ihlater htidy.tail k hk

/-- The expansion of the chunk starts with a line that includes the chunk itself. -/
def Reproduces (r : Registry) (n : Text) : Prop :=
  exists content inside body f fs, r.lookup? n = some content ∧
    Expands r [n] content.lines inside body ∧
    (unlines body).lines = f :: fs ∧ include? f = some ⟨n, [], []⟩

theorem Expands.plain_of_eq (h : Expands r seen ls order out) (hseen : seen = [])
    (heq : out = ls) : (forall l, l ∈ ls -> include? l = none) ∨ exists n, Reproduces r n := by
  induction h with
  | done => simp
  | @plain seen order out ls l hl _ ih =>
      rcases ih hseen (List.cons.inj heq).2 with hls | hn
      · exact Or.inl (List.forall_mem_cons.mpr ⟨hl, hls⟩)
      · exact Or.inr hn
  | again _ hmem _ _ =>
      subst hseen
      cases hmem
  | @chunk seen inside body order out ls l content i hl _ _ hcontent hinside _ _ _ =>
      subst hseen
      right
      rcases exists_directive hl with ⟨d, hd, hdirective⟩
      cases hlines : (unlines body).lines with
      | nil => exact absurd hlines (lines_ne_nil _)
      | cons f fs =>
          rw [Include.surround, hlines] at heq
          have hfirst : i.before ++ f ++ i.after = i.before ++ (d ++ i.after) := by
            rw [← hd]
            exact (List.cons.inj heq).1
          rw [List.append_assoc, List.append_cancel_left_eq, List.append_cancel_right_eq] at hfirst
          refine ⟨i.name, content, inside, body, f, fs, hcontent, hinside, hlines, ?_⟩
          rw [hfirst]
          exact hdirective

end Runs

end Chunk

/-!
# Resolving twice
-/

namespace Registry

open Chunk

/-- No line of the text holds a directive. -/
def Settled (t : Text) : Prop :=
  forall l, l ∈ t.lines -> include? l = none

theorem includedIn_of_plain {ls : List Text} (h : forall l, l ∈ ls -> include? l = none) :
    includedIn ls = [] := by
  rw [includedIn, List.filterMap_eq_nil_iff]
  intro l hl
  rw [h l hl]
  rfl

theorem eq_of_expands_plain {r : Registry} {seen ls order out : List Text}
    (h : Expands r seen ls order out) (hls : forall l, l ∈ ls -> include? l = none) : out = ls := by
  induction h with
  | done => rfl
  | plain _ _ ih =>
      rw [ih (List.forall_mem_cons.mp hls).2]
  | again hl _ _ _ | chunk hl _ _ _ _ _ _ _ =>
      rw [(List.forall_mem_cons.mp hls).1] at hl
      cases hl

theorem resolve_settled (r : Registry) {t : Text} (h : Settled t) :
    (r.resolve none t).2 = .ok t := by
  have hsucceeds : exists t', (r.resolve none t).2 = .ok t' := by
    rw [resolve_succeeds_iff]
    rintro n ⟨m, hm, _⟩
    rw [includedIn_of_plain h] at hm
    cases hm
  rcases hsucceeds with ⟨t', ht'⟩
  rcases resolve_success ht' with ⟨order, out, hrun, htext, _⟩
  rw [ht', htext, eq_of_expands_plain hrun h, Text.unlines_lines]

theorem settled_of_resolve {r : Registry} {t : Text} (h : (r.resolve none t).2 = .ok t) :
    Settled t ∨ exists n, Reproduces r n := by
  rcases resolve_success h with ⟨order, out, hrun, htext, _⟩
  have hlines := hrun.not_mem_newline fun _ => Text.not_mem_of_mem_lines
  cases out with
  | nil =>
      left
      intro l hl
      rw [htext, Text.unlines_nil, Text.lines_nil, List.mem_singleton] at hl
      rw [hl]
      rfl
  | cons l out =>
      apply hrun.plain_of_eq rfl
      rw [← Text.lines_unlines (List.cons_ne_nil l out) hlines, ← htext]

theorem settled_of_tidy {r : Registry} {source t : Text} (h : (r.resolve none source).2 = .ok t)
    (htidy : Tidy r source.lines) : Settled t := by
  rcases resolve_success h with ⟨order, out, hrun, htext, _⟩
  intro l hl
  rw [htext] at hl
  have hlines := hrun.not_mem_newline fun _ => Text.not_mem_of_mem_lines
  rcases mem_lines_unlines hlines hl with hl | rfl
  · exact include?_of_isQuiet (hrun.isQuiet htidy l hl)
  · rfl

/-- A resolved text stays as it is when it is resolved again if it holds no directive, and only
then, unless a chunk reproduces its own directive.  It holds none if the source and the chunks that
it reaches are tidy. -/
theorem resolve_resolved {r : Registry} {source t : Text}
    (h : (r.resolve none source).2 = .ok t) :
    (Settled t -> (r.resolve none t).2 = .ok t) ∧
    ((r.resolve none t).2 = .ok t -> Settled t ∨ exists n, Reproduces r n) ∧
    (Tidy r source.lines -> Settled t ∧ (r.resolve none t).2 = .ok t) := by
  refine ⟨resolve_settled r, settled_of_resolve, ?_⟩
  intro htidy
  have hsettled := settled_of_tidy h htidy
  exact ⟨hsettled, resolve_settled r hsettled⟩

theorem resolve_resolved_nested :
    let r := (empty.register "common" "float x;\n// #include <none>").register "lighting"
      "#include <common>\nfloat y;"
    (r.resolve none "( #include <lighting.chunk> )\n#include <common>;").2 =
        .ok "( float x; )\n( // #include <none> )\n( float y; )\n;" ∧
      Tidy r (Text.lines "( #include <lighting.chunk> )\n#include <common>;") ∧
      (r.resolve none "( float x; )\n( // #include <none> )\n( float y; )\n;").2 =
        .ok "( float x; )\n( // #include <none> )\n( float y; )\n;" := by
  intro r
  have hresolved : (r.resolve none "( #include <lighting.chunk> )\n#include <common>;").2 =
      .ok "( float x; )\n( // #include <none> )\n( float y; )\n;" := by
    decide +kernel
  have htidy : Tidy r (Text.lines "( #include <lighting.chunk> )\n#include <common>;") := by
    constructor
    · decide +kernel
    · have hnext : forall n, n ∈ (["common", "lighting"] : List Text) ->
          r.includedBy n ⊆ (["common", "lighting"] : List Text) := by
        decide +kernel
      have hchunks : forall n, n ∈ (["common", "lighting"] : List Text) ->
          forall l, l ∈ ((r.lookup? n).getD []).lines -> isTidy l = true := by
        decide +kernel
      intro n content hn hcontent
      have hlines := hchunks n (mem_of_reaches (by decide +kernel) hnext n hn)
      rw [hcontent] at hlines
      exact hlines
  exact ⟨hresolved, htidy, ((resolve_resolved hresolved).2.2 htidy).2⟩

/-- The second directive of a line is left for the second resolution. -/
theorem resolve_resolved_differs :
    ((empty.register "a" "x").resolve none "#include <a>#include <b>").2 = .ok "x#include <b>" ∧
      ((empty.register "a" "x").resolve none "x#include <b>").2 ≠ .ok "x#include <b>" := by
  decide +kernel

end Registry

end EffectShader
