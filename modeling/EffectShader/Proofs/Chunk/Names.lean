import EffectShader.Proofs.Chunk.DepthFirst
import Mathlib.Data.List.Nodup

/-!
# The names of chunks

A name is normalized when it is registered, deprecated or looked up, and when it is
read from a directive.  What is read from a directive is then looked up, so it is
normalized twice, but it is compared with the deprecated names and with the chunks
that are included already as it is.  The three agree on names that are their own
normal forms; `a.chunk.chunk` is not read as one of these.
-/

namespace EffectShader

namespace Registry

open Chunk

/-!
# Histories
-/

inductive Change where
  | register (name content : Text)
  | deprecateChunk (name message : Text)
  | deprecateName (name message : Text)
  deriving DecidableEq, Repr

def apply (r : Registry) : Change -> Registry
  | .register name content => r.register name content
  | .deprecateChunk name message => r.deprecateChunk name message
  | .deprecateName name message => r.deprecateName name message

def after (changes : List Change) : Registry :=
  changes.foldl apply empty

def Deprecates (changes : List Change) (n : Text) : Prop :=
  exists name message, Change.deprecateChunk name message ∈ changes ∧
    normalizeName name = normalizeName n

theorem deprecated_apply (r : Registry) (c : Change) (k : Text) :
    (r.apply c).deprecated.get? k ≠ none ↔
      (exists name message, c = .deprecateChunk name message ∧ normalizeName name = k) ∨
        r.deprecated.get? k ≠ none := by
  cases c with
  | register name content => simp [apply, Registry.register]
  | deprecateName name message => simp [apply, Registry.deprecateName]
  | deprecateChunk name message =>
      by_cases hk : normalizeName name = k
      · subst hk
        simp [apply, Registry.deprecateChunk, Table.get?_put_self]
      · simp [apply, Registry.deprecateChunk, Table.get?_put_of_ne _ message hk, hk]

theorem deprecated_foldl (changes : List Change) (r : Registry) (k : Text) :
    (changes.foldl apply r).deprecated.get? k ≠ none ↔
      (exists name message, Change.deprecateChunk name message ∈ changes ∧ normalizeName name = k) ∨
        r.deprecated.get? k ≠ none := by
  induction changes generalizing r with
  | nil => simp
  | cons c changes ih =>
      rw [List.foldl_cons, ih, deprecated_apply]
      constructor
      · rintro (⟨name, message, hmem, hk⟩ | ⟨name, message, rfl, hk⟩ | hk)
        · exact Or.inl ⟨name, message, List.mem_cons_of_mem _ hmem, hk⟩
        · exact Or.inl ⟨name, message, List.mem_cons_self, hk⟩
        · exact Or.inr hk
      · rintro (⟨name, message, hmem, hk⟩ | hk)
        · rcases List.mem_cons.mp hmem with hc | hmem
          · exact Or.inr (Or.inl ⟨name, message, hc.symm, hk⟩)
          · exact Or.inl ⟨name, message, hmem, hk⟩
        · exact Or.inr (Or.inr hk)

theorem deprecated_after {changes : List Change} {n : Text} :
    (after changes).deprecated.get? (normalizeName n) ≠ none ↔ Deprecates changes n := by
  rw [after, deprecated_foldl]
  simp [empty, Deprecates]

/-!
# Names that are found
-/

theorem lookup?_ne_none_iff {r : Registry} {n : Text} :
    r.lookup? n ≠ none ↔ normalizeName n ∈ r.names :=
  mem_names.symm

theorem resolve_deprecated {r : Registry} {source n : Text} (hn : r.Reaches source n)
    (hdep : r.deprecated.get? n ≠ none) :
    exists e, (r.resolve none source).2 = .error e ∧
      (e.cause = some .chunkDeprecated ∨
        e.cause = some .chunkNotFound ∧ exists m, r.Reaches source m ∧ r.lookup? m = none) := by
  cases hresult : (r.resolve none source).2 with
  | ok t => exact absurd (resolve_succeeds_iff.mp ⟨t, hresult⟩ n hn).1 hdep
  | error e =>
      refine ⟨e, rfl, ?_⟩
      rcases (resolve_failure hresult).refused with ⟨m, hm, hrefused⟩
      rcases hrefused with ⟨hcause, _⟩ | ⟨hcause, _, hmissing⟩
      · exact Or.inl hcause
      · exact Or.inr ⟨hcause, m, hm, hmissing⟩

/-!
# Expansions of one chunk
-/

/-- The names under which the chunk with the normal form `k` was expanded. -/
def spellings (order : List Text) (k : Text) : List Text :=
  order.filter fun n => normalizeName n = k

/-- A chunk is expanded at most once exactly if it is reached by at most one name. -/
theorem length_spellings_le_one_iff {r : Registry} {source : Text} {order out : List Text}
    (h : Expands r [] source.lines order out) (k : Text) :
    (spellings order k).length ≤ 1 ↔
      forall n m, r.Reaches source n -> r.Reaches source m ->
        normalizeName n = k -> normalizeName m = k -> n = m := by
  have hnodup : (spellings order k).Nodup := h.depthFirst.nodup.filter _
  have hmem : forall n, n ∈ (spellings order k).toFinset ↔
      r.Reaches source n ∧ normalizeName n = k := by
    intro n
    rw [List.mem_toFinset, spellings, List.mem_filter, mem_order_iff h, decide_eq_true_iff]
  rw [← List.toFinset_card_of_nodup hnodup, Finset.card_le_one]
  constructor
  · intro hone n m hn hm hnk hmk
    exact hone n ((hmem n).mpr ⟨hn, hnk⟩) m ((hmem m).mpr ⟨hm, hmk⟩)
  · intro hone n hn m hm
    rcases (hmem n).mp hn with ⟨hn, hnk⟩
    rcases (hmem m).mp hm with ⟨hm, hmk⟩
    exact hone n m hn hm hnk hmk

/-- A name is found if its normal form is listed.  A source that reaches a deprecated chunk by its
normal form is not resolved.  One that is resolved expands a chunk at most once exactly if it does
not reach the chunk by two names. -/
theorem names_canonical (changes : List Change) (source : Text) :
    let r := after changes
    (forall n, r.lookup? n ≠ none ↔ normalizeName n ∈ r.names) ∧
    (forall n, r.Reaches source n -> normalizeName n = n -> Deprecates changes n ->
      exists e, (r.resolve none source).2 = .error e ∧
        (e.cause = some .chunkDeprecated ∨
          e.cause = some .chunkNotFound ∧ exists m, r.Reaches source m ∧ r.lookup? m = none)) ∧
    (forall t, (r.resolve none source).2 = .ok t ->
      exists order out, Expands r [] source.lines order out ∧ t = Text.unlines out ∧
        (r.resolve none source).1.included.reverse = order ∧
        forall k, (spellings order k).length ≤ 1 ↔
          forall n m, r.Reaches source n -> r.Reaches source m ->
            normalizeName n = k -> normalizeName m = k -> n = m) := by
  intro r
  refine ⟨fun n => lookup?_ne_none_iff, ?_, ?_⟩
  · intro n hn hcanonical hdep
    apply resolve_deprecated hn
    rw [← hcanonical]
    exact deprecated_after.mpr hdep
  · intro t ht
    rcases resolve_success ht with ⟨order, out, hrun, htext, hincluded⟩
    exact ⟨order, out, hrun, htext, hincluded, length_spellings_le_one_iff hrun⟩

theorem names_canonical_spelled :
    let changes : List Change :=
      [.register "a" "x", .register "b.chunk" "#include < a.chunk >\ny", .register "c" "z",
        .deprecateChunk " c.chunk" "no"]
    (after changes).lookup? "b" ≠ none ∧
      (exists e, ((after changes).resolve none "#include <b>\n#include <c.chunk>").2 = .error e ∧
        e.cause = some .chunkDeprecated) ∧
      exists order out,
        Expands (after changes) [] (Text.lines "#include <b>\n#include <a.chunk>") order out ∧
          ("x\ny" : Text) = Text.unlines out ∧ (spellings order "a").length ≤ 1 := by
  intro changes
  have hnext : forall n, n ∈ (["a", "b", "c"] : List Text) ->
      (after changes).includedBy n ⊆ (["a", "b", "c"] : List Text) := by
    decide +kernel
  refine ⟨?_, ?_, ?_⟩
  · exact ((names_canonical changes []).1 "b").mpr (mem_names.mpr (by decide +kernel))
  · have hfound : forall n, n ∈ (["a", "b", "c"] : List Text) ->
        (after changes).lookup? n ≠ none := by
      decide +kernel
    have hreaches : (after changes).Reaches "#include <b>\n#include <c.chunk>" "c" :=
      ⟨"c", by decide +kernel, .refl⟩
    have hdeprecates : Deprecates changes "c" :=
      ⟨" c.chunk", "no", by decide +kernel, by decide +kernel⟩
    rcases (names_canonical changes "#include <b>\n#include <c.chunk>").2.1 "c" hreaches
      (by decide +kernel) hdeprecates with ⟨e, he, hcause | ⟨_, m, hm, hmissing⟩⟩
    · exact ⟨e, he, hcause⟩
    · exact absurd hmissing (hfound m (mem_of_reaches (by decide +kernel) hnext m hm))
  · have hresult : ((after changes).resolve none "#include <b>\n#include <a.chunk>").2 =
        .ok "x\ny" := by
      decide +kernel
    have hnames : forall n, n ∈ (["a", "b", "c"] : List Text) -> normalizeName n = n := by
      decide +kernel
    rcases (names_canonical changes "#include <b>\n#include <a.chunk>").2.2 _ hresult with
      ⟨order, out, hrun, htext, _, hcount⟩
    refine ⟨order, out, hrun, htext, (hcount "a").mpr ?_⟩
    intro n m hn hm hna hma
    have hn := hnames n (mem_of_reaches (by decide +kernel) hnext n hn)
    have hm := hnames m (mem_of_reaches (by decide +kernel) hnext m hm)
    rw [← hn, hna, ← hm, hma]

/-- A directive for `a.chunk.chunk` includes the chunk `a`, whether or not it is deprecated or
included already, and a chunk that is registered by a name of this kind is not found by the name
under which it is listed. -/
theorem names_differ :
    let r := after
      [.register "a" "x", .register "b.chunk.chunk" "y", .deprecateChunk "a.chunk" "no"]
    (include? "#include <a.chunk.chunk>").map (·.name) = some "a.chunk" ∧
      r.lookup? "a.chunk" = r.lookup? "a" ∧
      (r.resolve none "#include <a>").2 = .error (deprecatedFailure 1 "a" "no") ∧
      (r.resolve none "#include <a.chunk.chunk>").2 = .ok "x" ∧
      ((after [.register "a" "x"]).resolve none "#include <a>\n#include <a.chunk.chunk>").2 =
        .ok "x\nx" ∧
      r.names.contains "b.chunk" = true ∧ r.lookup? "b.chunk" = none := by
  intro r
  have hlisted : r.names.contains "b.chunk" = true :=
    List.contains_iff_mem.mpr (mem_names.mpr (by decide +kernel))
  refine ⟨?_, ?_, ?_, ?_, ?_, hlisted, ?_⟩ <;> decide +kernel

end Registry

end EffectShader
