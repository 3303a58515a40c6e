import EffectShader.Chunk.Resolve
import EffectShader.Proofs.Text.Lines
import Mathlib.Data.Finset.Card

/-!
# Runs of include resolution

A chunk is expanded while the line that includes it is being resolved, and it may
include further chunks, itself among them.  The relations below describe this
recursion without a bound on its depth; only the chunks that were included before
keep it from going on.  Every resolution without a search is such a run, because
nested chunks have different names, and only finitely many names are included.
-/

namespace EffectShader

namespace Chunk

def Include.remainder (i : Include) : List Text :=
  if (Text.trim (i.before ++ i.after)).isEmpty then [] else [i.before ++ i.after]

def Include.surround (i : Include) (body : List Text) : List Text :=
  (Text.unlines body).lines.map fun l => i.before ++ l ++ i.after

def includedIn (ls : List Text) : List Text :=
  ls.filterMap fun l => (include? l).map (·.name)

/-- The names that a text includes. -/
def included (source : Text) : List Text :=
  includedIn source.lines

theorem includedIn_cons_of_none {l : Text} (h : include? l = none) (ls : List Text) :
    includedIn (l :: ls) = includedIn ls := by
  simp [includedIn, h]

theorem includedIn_cons_of_some {l : Text} {i : Include} (h : include? l = some i)
    (ls : List Text) : includedIn (l :: ls) = i.name :: includedIn ls := by
  simp [includedIn, h]

theorem mem_included {source n : Text} :
    n ∈ included source ↔ exists l i, l ∈ source.lines ∧ include? l = some i ∧ i.name = n := by
  simp only [included, includedIn, List.mem_filterMap, Option.map_eq_some_iff]
  constructor
  · rintro ⟨l, hl, i, hi, hn⟩
    exact ⟨l, i, hl, hi, hn⟩
  · rintro ⟨l, i, hl, hi, hn⟩
    exact ⟨l, hl, i, hi, hn⟩

theorem length_included_le (source : Text) : (included source).length ≤ source.newlines + 1 := by
  rw [← Text.length_lines]
  exact List.length_filterMap_le _ _

/-!
# Runs

The chunks in `seen` are included already.  A run that succeeds expands the
chunks `order`, each at the time when it stands in the list.
-/

/-- The lines are resolved to `out`. -/
inductive Expands (r : Registry) :
    (seen : List Text) -> List Text -> (order : List Text) -> (out : List Text) -> Prop where
  | done {seen : List Text} : Expands r seen [] [] []
  | plain {seen order out ls : List Text} {l : Text} :
      include? l = none -> Expands r seen ls order out ->
        Expands r seen (l :: ls) order (l :: out)
  | again {seen order out ls : List Text} {l : Text} {i : Include} :
      include? l = some i -> i.name ∈ seen -> Expands r seen ls order out ->
        Expands r seen (l :: ls) order (i.remainder ++ out)
  | chunk {seen inside body order out ls : List Text} {l content : Text} {i : Include} :
      include? l = some i -> i.name ∉ seen -> r.deprecated.get? i.name = none ->
        r.lookup? i.name = some content ->
        Expands r (i.name :: seen) content.lines inside body ->
        Expands r (inside.reverse ++ i.name :: seen) ls order out ->
        Expands r seen (l :: ls) (i.name :: (inside ++ order)) (i.surround body ++ out)

/-- The lines, of which `n` is the number of the first, are not resolved because of `e`. -/
inductive Fails (r : Registry) :
    (seen : List Text) -> (n : Nat) -> List Text -> Diagnostic -> Prop where
  | plain {seen ls : List Text} {n : Nat} {l : Text} {e : Diagnostic} :
      include? l = none -> Fails r seen (n + 1) ls e -> Fails r seen n (l :: ls) e
  | again {seen ls : List Text} {n : Nat} {l : Text} {i : Include} {e : Diagnostic} :
      include? l = some i -> i.name ∈ seen -> Fails r seen (n + 1) ls e ->
        Fails r seen n (l :: ls) e
  | deprecated {seen ls : List Text} {n : Nat} {l message : Text} {i : Include} :
      include? l = some i -> i.name ∉ seen -> r.deprecated.get? i.name = some message ->
        Fails r seen n (l :: ls) (deprecatedFailure n i.name message)
  | missing {seen ls : List Text} {n : Nat} {l : Text} {i : Include} :
      include? l = some i -> i.name ∉ seen -> r.deprecated.get? i.name = none ->
        r.lookup? i.name = none -> Fails r seen n (l :: ls) (missingFailure r n i.name)
  | inside {seen ls : List Text} {n : Nat} {l content : Text} {i : Include} {e : Diagnostic} :
      include? l = some i -> i.name ∉ seen -> r.deprecated.get? i.name = none ->
        r.lookup? i.name = some content -> Fails r (i.name :: seen) 1 content.lines e ->
        Fails r seen n (l :: ls) e
  | chunk {seen inside body ls : List Text} {n : Nat} {l content : Text} {i : Include}
      {e : Diagnostic} :
      include? l = some i -> i.name ∉ seen -> r.deprecated.get? i.name = none ->
        r.lookup? i.name = some content ->
        Expands r (i.name :: seen) content.lines inside body ->
        Fails r (inside.reverse ++ i.name :: seen) (n + 1) ls e ->
        Fails r seen n (l :: ls) e

/-- The lines are resolved, or not, as a run says; `p` is what the resolution gives. -/
inductive Outcome (r : Registry) (seen : List Text) (asked : List (List Text)) (n : Nat)
    (ls : List Text) : Resolution × Except Diagnostic (List Text) -> Prop where
  | success {order out : List Text} : Expands r seen ls order out ->
      Outcome r seen asked n ls (⟨r, order.reverse ++ seen, asked⟩, .ok out)
  | failure {seen' : List Text} {e : Diagnostic} : Fails r seen n ls e ->
      Outcome r seen asked n ls (⟨r, seen', asked⟩, .error e)

/-!
# One line
-/

section Lines

variable {r : Registry} {seen ls : List Text} {asked : List (List Text)} {n : Nat} {l : Text}
  {rec : Resolution -> Text -> Resolution × Except Diagnostic Text}

theorem outcome_plain (hl : include? l = none)
    (h : Outcome r seen asked (n + 1) ls (expandLines none rec ⟨r, seen, asked⟩ (n + 1) ls)) :
    Outcome r seen asked n (l :: ls) (expandLines none rec ⟨r, seen, asked⟩ n (l :: ls)) := by
  rw [expandLines]
  simp only [hl]
  generalize expandLines none rec ⟨r, seen, asked⟩ (n + 1) ls = p at h
  cases h with
  | success hrun => exact .success (.plain hl hrun)
  | failure hrun => exact .failure (.plain hl hrun)

theorem outcome_again {i : Include} (hl : include? l = some i) (hi : i.name ∈ seen)
    (h : Outcome r seen asked (n + 1) ls (expandLines none rec ⟨r, seen, asked⟩ (n + 1) ls)) :
    Outcome r seen asked n (l :: ls) (expandLines none rec ⟨r, seen, asked⟩ n (l :: ls)) := by
  rw [expandLines]
  simp only [hl, List.contains_iff_mem, hi, if_true]
  generalize expandLines none rec ⟨r, seen, asked⟩ (n + 1) ls = p at h
  cases h with
  | success hrun => exact .success (.again hl hi hrun)
  | failure hrun => exact .failure (.again hl hi hrun)

theorem outcome_unloaded {i : Include} (hl : include? l = some i) (hi : i.name ∉ seen)
    (h : r.deprecated.get? i.name ≠ none ∨ r.lookup? i.name = none) :
    Outcome r seen asked n (l :: ls) (expandLines none rec ⟨r, seen, asked⟩ n (l :: ls)) := by
  rw [expandLines]
  simp only [hl, List.contains_iff_mem, hi, if_false, load]
  cases hdep : r.deprecated.get? i.name with
  | some message => exact .failure (.deprecated hl hi hdep)
  | none =>
      rcases h with h | h
      · exact absurd hdep h
      · simp only [h]
        exact .failure (.missing hl hi hdep h)

theorem outcome_chunk {i : Include} {content : Text} (hl : include? l = some i)
    (hi : i.name ∉ seen) (hdep : r.deprecated.get? i.name = none)
    (hcontent : r.lookup? i.name = some content)
    (hinside : exists p, Outcome r (i.name :: seen) asked 1 content.lines p ∧
      rec ⟨r, i.name :: seen, asked⟩ content = (p.1, p.2.map Text.unlines))
    (h : forall seen', seen ⊆ seen' ->
      Outcome r seen' asked (n + 1) ls (expandLines none rec ⟨r, seen', asked⟩ (n + 1) ls)) :
    Outcome r seen asked n (l :: ls) (expandLines none rec ⟨r, seen, asked⟩ n (l :: ls)) := by
  rcases hinside with ⟨p, hp, hrec⟩
  rw [expandLines]
  simp only [hl, List.contains_iff_mem, hi, if_false, load, hdep, hcontent, hrec]
  cases hp with
  | failure hrun => exact .failure (.inside hl hi hdep hcontent hrun)
  | @success inside body hrun =>
      have hrest := h (inside.reverse ++ i.name :: seen) fun m hm =>
        List.mem_append_right _ (List.mem_cons_of_mem _ hm)
      simp only [Except.map]
      generalize expandLines none rec ⟨r, inside.reverse ++ i.name :: seen, asked⟩ (n + 1) ls = q
        at hrest
      cases hrest with
      | failure hlater => exact .failure (.chunk hl hi hdep hcontent hrun hlater)
      | @success order out hlater =>
          have hseen : order.reverse ++ (inside.reverse ++ i.name :: seen) =
              (i.name :: (inside ++ order)).reverse ++ seen := by
            simp
          show Outcome r seen asked n (l :: ls)
            (⟨r, order.reverse ++ (inside.reverse ++ i.name :: seen), asked⟩,
              .ok (i.surround body ++ out))
          rw [hseen]
          exact .success (.chunk hl hi hdep hcontent hrun hlater)

end Lines

/-!
# The depth of a run

The names that are still to be included become fewer with every nested chunk.
-/

section Depth

variable {r : Registry} {names : Finset Text} {asked : List (List Text)}

def Mentions (names : Finset Text) (source : Text) : Prop :=
  forall n, n ∈ included source -> n ∈ names

theorem card_sdiff_cons_lt {seen : List Text} {n : Text} (hn : n ∈ names) (hseen : n ∉ seen) :
    (names \ (n :: seen).toFinset).card < (names \ seen.toFinset).card := by
  apply Finset.card_lt_card
  rw [Finset.ssubset_iff_of_subset]
  · exact ⟨n, by simp [hn, hseen], by simp⟩
  · intro m hm
    simp only [Finset.mem_sdiff, List.mem_toFinset, List.mem_cons, not_or] at hm ⊢
    exact ⟨hm.1, hm.2.2⟩

theorem card_sdiff_le {seen seen' : List Text} (h : seen ⊆ seen') :
    (names \ seen'.toFinset).card ≤ (names \ seen.toFinset).card := by
  apply Finset.card_le_card
  intro m hm
  simp only [Finset.mem_sdiff, List.mem_toFinset] at hm ⊢
  exact ⟨hm.1, fun hseen => hm.2 (h hseen)⟩

theorem expand_outcome
    (hchunks : forall n content, r.lookup? n = some content -> Mentions names content)
    (depth : Nat) (seen : List Text) (source : Text) (hsource : Mentions names source)
    (hdepth : (names \ seen.toFinset).card < depth) :
    exists p, Outcome r seen asked 1 source.lines p ∧
      expand none depth ⟨r, seen, asked⟩ source = (p.1, p.2.map Text.unlines) := by
  induction depth generalizing seen source with
  | zero => exact absurd hdepth (Nat.not_lt_zero _)
  | succ depth ih =>
      -- The chunks included before are any, because each line may add some.
      have hlines : forall ls, ls ⊆ source.lines -> forall n seen',
          (names \ seen'.toFinset).card < depth + 1 ->
          Outcome r seen' asked n ls
            (expandLines none (expand none depth) ⟨r, seen', asked⟩ n ls) := by
        intro ls hls
        induction ls with
        | nil =>
            intro n seen' _
            exact @Outcome.success r seen' asked n [] [] [] .done
        | cons l ls ihls =>
            intro n seen' hcard
            rcases List.cons_subset.mp hls with ⟨hl, hls⟩
            cases hinc : include? l with
            | none => exact outcome_plain hinc (ihls hls _ _ hcard)
            | some i =>
                by_cases hi : i.name ∈ seen'
                · exact outcome_again hinc hi (ihls hls _ _ hcard)
                · have hname : i.name ∈ names :=
                    hsource i.name (mem_included.mpr ⟨l, i, hl, hinc, rfl⟩)
                  cases hdep : r.deprecated.get? i.name with
                  | some message => exact outcome_unloaded hinc hi (Or.inl (by simp [hdep]))
                  | none =>
                      cases hcontent : r.lookup? i.name with
                      | none => exact outcome_unloaded hinc hi (Or.inr hcontent)
                      | some content =>
                          have hless := card_sdiff_cons_lt hname hi
                          apply outcome_chunk hinc hi hdep hcontent
                          · apply ih _ _ (hchunks _ _ hcontent)
                            exact Nat.lt_of_lt_of_le hless (Nat.le_of_lt_succ hcard)
                          · intro seen'' hseen
                            exact ihls hls _ _ (Nat.lt_of_le_of_lt (card_sdiff_le hseen) hcard)
      have hrun := hlines source.lines (List.Subset.refl _) 1 seen hdepth
      refine ⟨_, hrun, ?_⟩
      rw [expand]
      generalize expandLines none (expand none depth) ⟨r, seen, asked⟩ 1 source.lines = p at hrun
      cases hrun <;> rfl

end Depth

end Chunk

/-!
# Resolutions
-/

namespace Registry

open Chunk

theorem exists_of_get? {α : Type} {t : Table α} {n : Text} {v : α} (h : t.get? n = some v) :
    (n, v) ∈ t := by
  rcases Option.map_eq_some_iff.mp h with ⟨⟨m, w⟩, hfind, rfl⟩
  have hm : m = n := by simpa using List.find?_some hfind
  rw [← hm]
  exact List.mem_of_find?_eq_some hfind

def includedNames (r : Registry) (source : Text) : List Text :=
  (source :: r.chunks.map (·.2)).flatMap included

theorem length_flatMap_included (texts : List Text) (k : Nat) :
    (texts.flatMap included).length + k ≤ texts.foldl (fun n t => n + (t.newlines + 1)) k := by
  induction texts generalizing k with
  | nil => simp
  | cons t texts ih =>
      have hrest := ih (k + (t.newlines + 1))
      have ht := length_included_le t
      rw [List.flatMap_cons, List.length_append, List.foldl_cons]
      omega

theorem card_includedNames_lt (r : Registry) (source : Text) :
    (r.includedNames source).toFinset.card < r.includeDepth none source := by
  have hlength := length_flatMap_included (source :: r.chunks.map (·.2)) 1
  have hcard := List.toFinset_card_le (r.includedNames source)
  have hdepth : r.includeDepth none source =
      (source :: r.chunks.map (·.2)).foldl (fun n t => n + (t.newlines + 1)) 1 := by
    simp [includeDepth]
  rw [hdepth]
  exact Nat.lt_of_le_of_lt hcard (Nat.lt_of_succ_le hlength)

/-- Without a search a resolution is a run, however the chunks include each other. -/
theorem resolve_outcome (r : Registry) (source : Text) :
    exists p, Outcome r [] [] 1 source.lines p ∧
      r.resolve none source = (p.1, p.2.map Text.unlines) := by
  have hsource : Mentions (r.includedNames source).toFinset source := by
    intro m hm
    rw [List.mem_toFinset, includedNames, List.mem_flatMap]
    exact ⟨source, List.mem_cons_self, hm⟩
  have hchunks : forall n content, r.lookup? n = some content ->
      Mentions (r.includedNames source).toFinset content := by
    intro n content hcontent m hm
    have hmem : content ∈ r.chunks.map (·.2) := List.mem_map_of_mem (exists_of_get? hcontent)
    rw [List.mem_toFinset, includedNames, List.mem_flatMap]
    exact ⟨content, List.mem_cons_of_mem _ hmem, hm⟩
  apply expand_outcome hchunks _ [] source hsource
  simpa using card_includedNames_lt r source

end Registry

end EffectShader
