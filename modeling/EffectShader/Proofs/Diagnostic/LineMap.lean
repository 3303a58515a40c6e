import EffectShader.Diagnostic.LineMap
import EffectShader.Proofs.Text.Lines

/-!
# Line maps of rewritten texts

A pass replaces pieces of a text one after the other, and records for each how many
lines the piece had and how many its replacement has.  The entries of the map stay
in order, and the lines before all pieces and those behind all pieces keep their
sources, however the numbers of lines change in between.
-/

namespace EffectShader

namespace LineMap

/-- A rewritten piece of a text, by the numbers of lines before and behind those that it touches. -/
structure Rewrite where
  before : Nat
  after : Nat
  deriving DecidableEq, Repr

/-- The map leads from a text of `count` lines to one of `total` lines, and away from the rewritten
pieces it keeps the distance from the start and from the end. -/
structure Tracks (total count : Nat) (m : LineMap) (rewrites : List Rewrite) : Prop where
  length : m.entries.length = count
  sorted : m.entries.Pairwise (· ≤ ·)
  bounded : forall n, n ∈ m.entries -> 1 ≤ n ∧ n ≤ total
  start : forall i, i < count -> (forall r, r ∈ rewrites -> i < r.before) ->
    m.entries[i]? = some (i + 1)
  finish : forall i, i < count -> (forall r, r ∈ rewrites -> i < r.after) ->
    exists n, m.entries.reverse[i]? = some n ∧ n + i = total

theorem tracks_ofText (code : Text) :
    Tracks (code.newlines + 1) (code.newlines + 1) (ofText code) [] := by
  constructor
  case length => simp [ofText]
  case sorted => exact List.pairwise_le_range'
  case bounded =>
    intro n hn
    rw [ofText, List.mem_range'_1] at hn
    omega
  case start =>
    intro i hi _
    rw [ofText, List.getElem?_range' hi, Nat.one_mul, Nat.add_comm]
  case finish =>
    intro i hi _
    refine ⟨code.newlines + 1 - i, ?_, by omega⟩
    rw [ofText, List.getElem?_reverse (by simpa using hi), List.length_range',
      List.getElem?_range' (by omega)]
    congr 1
    omega

/-!
# One replacement
-/

section Splice

variable {m : LineMap} {u v w : List Nat} {x : Nat}

theorem exists_parts {es : List Nat} {before removed after : Nat}
    (h : es.length = before + removed + after + 1) :
    exists u x v w, es = u ++ x :: (v ++ w) ∧ u.length = before ∧ v.length = removed ∧
      w.length = after := by
  have hdrop : 0 < (es.drop before).length := by
    rw [List.length_drop]
    omega
  rcases List.exists_cons_of_length_pos hdrop with ⟨x, rest, hrest⟩
  have hlength : rest.length = removed + after := by
    have := congrArg List.length hrest
    rw [List.length_drop, List.length_cons] at this
    omega
  refine ⟨es.take before, x, rest.take removed, rest.drop removed, ?_, ?_, ?_, ?_⟩
  · rw [List.take_append_drop, ← hrest, List.take_append_drop]
  · rw [List.length_take]
    omega
  · rw [List.length_take]
    omega
  · rw [List.length_drop]
    omega

theorem entries_splice (hm : m.entries = u ++ x :: (v ++ w)) {added : Nat}
    (hadded : v.length ≠ added) :
    (m.splice (u.length + 1) (v.length + 1) (added + 1)).entries =
      u ++ (List.replicate (added + 1) x ++ w) := by
  have hline : ((u.length : Int) + 1).toNat - 1 = u.length := by omega
  have hlength : m.entries.length = u.length + (v.length + w.length + 1) := by
    simp [hm]
  have hinside : ¬ ((m.entries.length : Int) < (u.length : Int) + 1) := by omega
  have hpositive : ¬ ((u.length : Int) + 1 < 1) := by omega
  unfold splice
  rw [if_neg (by simp [hinside, hpositive, hadded])]
  simp only [hline, hm, List.take_left, List.drop_left]
  simp

theorem splice_self (m : LineMap) (line : Int) (n : Nat) : m.splice line n n = m := by
  simp [splice]

theorem pairwise_replaced (h : (u ++ x :: (v ++ w)).Pairwise (· ≤ ·)) (k : Nat) :
    (u ++ (List.replicate k x ++ w)).Pairwise (· ≤ ·) := by
  rw [List.pairwise_append, List.pairwise_cons, List.pairwise_append] at h
  rcases h with ⟨hu, ⟨hx, _, hw, _⟩, hux⟩
  rw [List.pairwise_append, List.pairwise_append]
  refine ⟨hu, ⟨?_, hw, ?_⟩, ?_⟩
  · exact List.pairwise_replicate.mpr (Or.inr (Nat.le_refl x))
  · intro y hy z hz
    rw [List.eq_of_mem_replicate hy]
    exact hx z (List.mem_append_right v hz)
  · intro y hy z hz
    rcases List.mem_append.mp hz with hz | hz
    · rw [List.eq_of_mem_replicate hz]
      exact hux y hy x List.mem_cons_self
    · exact hux y hy z (List.mem_cons_of_mem x (List.mem_append_right v hz))

theorem mem_of_mem_replaced {k n : Nat} (h : n ∈ u ++ (List.replicate k x ++ w)) :
    n ∈ u ++ x :: (v ++ w) := by
  rcases List.mem_append.mp h with h | h
  · exact List.mem_append_left _ h
  · apply List.mem_append_right
    rcases List.mem_append.mp h with h | h
    · rw [List.eq_of_mem_replicate h]
      exact List.mem_cons_self
    · exact List.mem_cons_of_mem x (List.mem_append_right v h)

end Splice

namespace Tracks

variable {total before removed added after count : Nat} {m : LineMap} {rewrites : List Rewrite}

theorem mono {more : List Rewrite} (h : Tracks total count m rewrites) (hmore : rewrites ⊆ more) :
    Tracks total count m more := by
  refine ⟨h.length, h.sorted, h.bounded, ?_, ?_⟩
  · intro i hi hr
    exact h.start i hi fun r hmem => hr r (hmore hmem)
  · intro i hi hr
    exact h.finish i hi fun r hmem => hr r (hmore hmem)

/-- Replacing a piece that touches `removed + 1` lines by one that touches `added + 1` lines. -/
theorem splice (h : Tracks total (before + removed + after + 1) m rewrites) (added : Nat) :
    Tracks total (before + added + after + 1) (m.splice (before + 1) (removed + 1) (added + 1))
      (⟨before, after⟩ :: rewrites) := by
  by_cases hadded : removed = added
  · subst hadded
    rw [splice_self]
    exact h.mono (List.subset_cons_self _ _)
  -- The entries of the piece are `x :: v`; only its first one is kept, and repeated.
  rcases exists_parts h.length with ⟨u, x, v, w, hm, rfl, rfl, rfl⟩
  have hentries := entries_splice hm hadded
  constructor
  case length =>
    rw [hentries]
    simp only [List.length_append, List.length_replicate]
    omega
  case sorted =>
    rw [hentries]
    apply pairwise_replaced
    rw [← hm]
    exact h.sorted
  case bounded =>
    intro n hn
    rw [hentries] at hn
    apply h.bounded n
    rw [hm]
    exact mem_of_mem_replaced hn
  case start =>
    intro i _ hr
    have hi : i < u.length := hr _ List.mem_cons_self
    have hold := h.start i (by omega) fun s hs => hr s (List.mem_cons_of_mem _ hs)
    rw [hm, List.getElem?_append_left hi] at hold
    rw [hentries, List.getElem?_append_left hi]
    exact hold
  case finish =>
    intro i _ hr
    have hi : i < w.reverse.length := by
      rw [List.length_reverse]
      exact hr _ List.mem_cons_self
    have hold := h.finish i (by rw [List.length_reverse] at hi; omega) fun s hs =>
      hr s (List.mem_cons_of_mem _ hs)
    have hold' : m.entries.reverse = w.reverse ++ (v.reverse ++ x :: u.reverse) := by
      rw [hm]
      simp
    have hnew : (m.splice (u.length + 1) (v.length + 1) (added + 1)).entries.reverse =
        w.reverse ++ (List.replicate (added + 1) x ++ u.reverse) := by
      rw [hentries]
      simp
    rw [hold', List.getElem?_append_left hi] at hold
    rw [hnew, List.getElem?_append_left hi]
    exact hold

end Tracks

/-!
# Sources of lines
-/

/-- The lines of a text lead in order to lines of the source.  A line before all rewritten pieces
leads to the line at the same distance from the start, and one behind all of them to the line at
the same distance from the end. -/
structure Follows (source code : Text) (m : LineMap) (rewrites : List Rewrite) : Prop where
  length : m.entries.length = code.lines.length
  monotone : forall i j : Int, 1 ≤ i -> i ≤ j -> j ≤ code.lines.length -> m.source i ≤ m.source j
  bounded : forall i : Int, 1 ≤ i -> i ≤ code.lines.length ->
    1 ≤ m.source i ∧ m.source i ≤ source.lines.length
  start : forall i : Int, 1 ≤ i -> i ≤ code.lines.length ->
    (forall r, r ∈ rewrites -> i ≤ r.before) -> m.source i = i
  finish : forall i : Int, 0 ≤ i -> i < code.lines.length ->
    (forall r, r ∈ rewrites -> i < r.after) ->
      m.source (code.lines.length - i) = source.lines.length - i

theorem source_of_getElem? {m : LineMap} {i n : Nat} (h : m.entries[i]? = some n) :
    m.source (i + 1) = n := by
  have hpositive : ¬ ((i : Int) + 1 < 1) := by omega
  have hline : ((i : Int) + 1).toNat - 1 = i := by omega
  rw [source, if_neg hpositive, hline, h]

theorem Tracks.follows {source code : Text} {m : LineMap} {rewrites : List Rewrite}
    (h : Tracks (source.newlines + 1) (code.newlines + 1) m rewrites) :
    Follows source code m rewrites := by
  have hsource : source.lines.length = source.newlines + 1 := Text.length_lines source
  have hcode : code.lines.length = code.newlines + 1 := Text.length_lines code
  have hlength := h.length
  have hentry : forall i : Int, 1 ≤ i -> i ≤ code.lines.length ->
      exists k n, k < m.entries.length ∧ i = (k : Int) + 1 ∧ m.entries[k]? = some n ∧
        m.source i = n := by
    intro i hi hle
    have hk : (i - 1).toNat < m.entries.length := by omega
    have hi' : i = ((i - 1).toNat : Int) + 1 := by omega
    have hget := List.getElem?_eq_getElem hk
    have hsi := source_of_getElem? hget
    rw [← hi'] at hsi
    exact ⟨_, _, hk, hi', hget, hsi⟩
  constructor
  case length => rw [hlength, hcode]
  case monotone =>
    intro i j hi hij hj
    rcases hentry i hi (by omega) with ⟨k, n, hk, rfl, hn, hsi⟩
    rcases hentry j (by omega) hj with ⟨l, p, hl, rfl, hp, hsj⟩
    rw [hsi, hsj]
    rcases Nat.lt_or_eq_of_le (show k ≤ l by omega) with hkl | rfl
    · have hle := List.pairwise_iff_getElem.mp h.sorted k l hk hl hkl
      rw [List.getElem?_eq_getElem hk, Option.some.injEq] at hn
      rw [List.getElem?_eq_getElem hl, Option.some.injEq] at hp
      omega
    · rw [hn] at hp
      cases hp
      exact Int.le_refl _
  case bounded =>
    intro i hi hle
    rcases hentry i hi hle with ⟨k, n, _, _, hn, hsi⟩
    have hbound := h.bounded n (List.mem_of_getElem? hn)
    rw [hsi]
    omega
  case start =>
    intro i hi hle hr
    have hget := h.start (i - 1).toNat (by omega) fun r hmem => by
      have := hr r hmem
      omega
    have hi' : i = ((i - 1).toNat : Int) + 1 := by omega
    rw [hi', source_of_getElem? hget]
    rfl
  case finish =>
    intro i hi hlt hr
    rcases h.finish i.toNat (by omega) fun r hmem => by
      have := hr r hmem
      omega with ⟨n, hget, hn⟩
    rw [List.getElem?_reverse (by omega)] at hget
    have hline : (code.lines.length : Int) - i =
        ((m.entries.length - 1 - i.toNat : Nat) : Int) + 1 := by
      omega
    rw [hline, source_of_getElem? hget]
    omega

end LineMap

end EffectShader
