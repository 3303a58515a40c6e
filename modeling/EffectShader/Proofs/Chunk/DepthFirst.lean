import EffectShader.Proofs.Chunk.Expansion
import Mathlib.Logic.Relation

/-!
# The chunks that a source reaches

The chunks and their includes form a graph, in which a run of the resolution is a
depth-first search: a chunk is expanded where it is included first, before
anything that stands behind that include.  The search meets exactly the chunks that
the source reaches, each once, and it fails exactly if one of them cannot be
included.
-/

namespace EffectShader

/-!
# Depth-first search
-/

/-- The nodes `ns`, and what they lead to, are visited in the order `order`; those in `seen`, the
last one first, were visited before. -/
inductive DepthFirst {α : Type} (next : α -> List α) :
    (seen : List α) -> List α -> (order : List α) -> Prop where
  | done {seen : List α} : DepthFirst next seen [] []
  | skip {seen ns order : List α} {n : α} :
      n ∈ seen -> DepthFirst next seen ns order -> DepthFirst next seen (n :: ns) order
  | visit {seen inside ns order : List α} {n : α} :
      n ∉ seen -> DepthFirst next (n :: seen) (next n) inside ->
        DepthFirst next (inside.reverse ++ n :: seen) ns order ->
        DepthFirst next seen (n :: ns) (n :: (inside ++ order))

namespace DepthFirst

variable {α : Type} {next : α -> List α} {seen ns order : List α}

theorem not_mem_seen (h : DepthFirst next seen ns order) :
    forall n, n ∈ order -> n ∉ seen := by
  induction h with
  | done => simp
  | skip _ _ ih => exact ih
  | visit hn _ _ ihinside ihorder =>
      intro m hm
      rcases List.mem_cons.mp hm with rfl | hm
      · exact hn
      · rcases List.mem_append.mp hm with hm | hm
        · exact fun hseen => ihinside m hm (List.mem_cons_of_mem _ hseen)
        · exact fun hseen => ihorder m hm (List.mem_append_right _ (List.mem_cons_of_mem _ hseen))

theorem nodup (h : DepthFirst next seen ns order) : order.Nodup := by
  induction h with
  | done => exact List.nodup_nil
  | skip _ _ ih => exact ih
  | visit hn hinside horder ihinside ihorder =>
      rw [List.nodup_cons, List.nodup_append]
      constructor
      · intro hmem
        rcases List.mem_append.mp hmem with hmem | hmem
        · exact hinside.not_mem_seen _ hmem List.mem_cons_self
        · exact horder.not_mem_seen _ hmem (List.mem_append_right _ List.mem_cons_self)
      · refine ⟨ihinside, ihorder, ?_⟩
        rintro m hm k hk rfl
        exact horder.not_mem_seen m hk (List.mem_append_left _ (List.mem_reverse.mpr hm))

theorem covers (h : DepthFirst next seen ns order) :
    (forall n, n ∈ ns -> n ∈ seen ∨ n ∈ order) ∧
      forall n m, n ∈ order -> m ∈ next n -> m ∈ seen ∨ m ∈ order := by
  induction h with
  | done => simp
  | skip hn _ ih =>
      constructor
      · intro m hm
        rcases List.mem_cons.mp hm with rfl | hm
        · exact Or.inl hn
        · exact ih.1 m hm
      · exact ih.2
  | @visit seen inside ns order n hn _ _ ihinside ihorder =>
      -- What the search has seen behind the first node is `inside`, the node and `seen`.
      have hfirst : forall m, m ∈ n :: seen ∨ m ∈ inside ->
          m ∈ seen ∨ m ∈ n :: (inside ++ order) := by
        intro m hm
        simp only [List.mem_cons, List.mem_append] at hm ⊢
        tauto
      have hlater : forall m, m ∈ inside.reverse ++ n :: seen ∨ m ∈ order ->
          m ∈ seen ∨ m ∈ n :: (inside ++ order) := by
        intro m hm
        simp only [List.mem_cons, List.mem_append, List.mem_reverse] at hm ⊢
        tauto
      constructor
      · intro m hm
        rcases List.mem_cons.mp hm with rfl | hm
        · exact Or.inr List.mem_cons_self
        · exact hlater m (ihorder.1 m hm)
      · intro k m hk hm
        rcases List.mem_cons.mp hk with rfl | hk
        · exact hfirst m (ihinside.1 m hm)
        · rcases List.mem_append.mp hk with hk | hk
          · exact hfirst m (ihinside.2 k m hk hm)
          · exact hlater m (ihorder.2 k m hk hm)

theorem reaches (h : DepthFirst next seen ns order) :
    forall m, m ∈ order ->
      exists n, n ∈ ns ∧ Relation.ReflTransGen (fun a b => b ∈ next a) n m := by
  induction h with
  | done => simp
  | skip _ _ ih =>
      intro m hm
      rcases ih m hm with ⟨n, hn, hreach⟩
      exact ⟨n, List.mem_cons_of_mem _ hn, hreach⟩
  | @visit seen inside ns order n _ _ _ ihinside ihorder =>
      intro m hm
      rcases List.mem_cons.mp hm with rfl | hm
      · exact ⟨m, List.mem_cons_self, .refl⟩
      · rcases List.mem_append.mp hm with hm | hm
        · rcases ihinside m hm with ⟨k, hk, hreach⟩
          exact ⟨n, List.mem_cons_self, .head hk hreach⟩
        · rcases ihorder m hm with ⟨k, hk, hreach⟩
          exact ⟨k, List.mem_cons_of_mem _ hk, hreach⟩

theorem mem_iff (h : DepthFirst next [] ns order) {m : α} :
    m ∈ order ↔ exists n, n ∈ ns ∧ Relation.ReflTransGen (fun a b => b ∈ next a) n m := by
  constructor
  · exact h.reaches m
  · rintro ⟨n, hn, hreach⟩
    rcases h.covers with ⟨hstart, hnext⟩
    induction hreach with
    | refl =>
        rcases hstart n hn with hseen | horder
        · cases hseen
        · exact horder
    | tail _ hstep ih =>
        rcases hnext _ _ ih hstep with hseen | horder
        · cases hseen
        · exact horder

end DepthFirst

/-!
# The graph of includes
-/

namespace Registry

open Chunk

/-- The names that the chunk of a name includes. -/
def includedBy (r : Registry) (n : Text) : List Text :=
  ((r.lookup? n).map included).getD []

/-- Some lines lead to a name through the includes of chunks. -/
def ReachesFrom (r : Registry) (ls : List Text) (n : Text) : Prop :=
  exists m, m ∈ includedIn ls ∧ Relation.ReflTransGen (fun a b => b ∈ r.includedBy a) m n

/-- A source leads to a name through the includes of chunks. -/
def Reaches (r : Registry) (source n : Text) : Prop :=
  r.ReachesFrom source.lines n

theorem includedBy_of_lookup? {r : Registry} {n content : Text} (h : r.lookup? n = some content) :
    r.includedBy n = included content := by
  rw [includedBy, h]
  rfl

section Lines

variable {r : Registry} {l content n : Text} {i : Include} {ls : List Text}

theorem ReachesFrom.head (hl : include? l = some i) : r.ReachesFrom (l :: ls) i.name := by
  refine ⟨i.name, ?_, .refl⟩
  rw [includedIn_cons_of_some hl]
  exact List.mem_cons_self

theorem ReachesFrom.inside (hl : include? l = some i) (hcontent : r.lookup? i.name = some content)
    (h : r.ReachesFrom content.lines n) : r.ReachesFrom (l :: ls) n := by
  rcases h with ⟨m, hm, hreach⟩
  refine ⟨i.name, ?_, .head ?_ hreach⟩
  · rw [includedIn_cons_of_some hl]
    exact List.mem_cons_self
  · show m ∈ r.includedBy i.name
    rw [includedBy_of_lookup? hcontent]
    exact hm

theorem ReachesFrom.later (h : r.ReachesFrom ls n) : r.ReachesFrom (l :: ls) n := by
  rcases h with ⟨m, hm, hreach⟩
  refine ⟨m, ?_, hreach⟩
  cases hl : include? l with
  | none =>
      rw [includedIn_cons_of_none hl]
      exact hm
  | some i =>
      rw [includedIn_cons_of_some hl]
      exact List.mem_cons_of_mem _ hm

end Lines

theorem mem_of_reaches {r : Registry} {source : Text} {names : List Text}
    (hsource : included source ⊆ names)
    (hnext : forall n, n ∈ names -> r.includedBy n ⊆ names) :
    forall n, r.Reaches source n -> n ∈ names := by
  rintro n ⟨m, hm, hreach⟩
  induction hreach with
  | refl => exact hsource hm
  | tail _ hstep ih => exact hnext _ ih hstep

end Registry

namespace Chunk

open Registry

variable {r : Registry} {seen ls order out : List Text}

theorem Expands.depthFirst (h : Expands r seen ls order out) :
    DepthFirst r.includedBy seen (includedIn ls) order := by
  induction h with
  | done => exact .done
  | plain hl _ ih =>
      rw [includedIn_cons_of_none hl]
      exact ih
  | again hl hseen _ ih =>
      rw [includedIn_cons_of_some hl]
      exact .skip hseen ih
  | chunk hl hseen _ hcontent _ _ ihinside ihlater =>
      rw [includedIn_cons_of_some hl]
      refine .visit hseen ?_ ihlater
      rw [includedBy_of_lookup? hcontent]
      exact ihinside

theorem Expands.loaded (h : Expands r seen ls order out) :
    forall n, n ∈ order -> r.deprecated.get? n = none ∧ r.lookup? n ≠ none := by
  induction h with
  | done => simp
  | plain _ _ ih => exact ih
  | again _ _ _ ih => exact ih
  | chunk _ _ hdep hcontent _ _ ihinside ihlater =>
      intro n hn
      rcases List.mem_cons.mp hn with rfl | hn
      · exact ⟨hdep, by simp [hcontent]⟩
      · rcases List.mem_append.mp hn with hn | hn
        · exact ihinside n hn
        · exact ihlater n hn

/-- The chunk `n` cannot be included, and `e` says why. -/
def Refused (r : Registry) (n : Text) (e : Diagnostic) : Prop :=
  (e.cause = some .chunkDeprecated ∧ r.deprecated.get? n ≠ none) ∨
    (e.cause = some .chunkNotFound ∧ r.deprecated.get? n = none ∧ r.lookup? n = none)

theorem Fails.refused {n : Nat} {e : Diagnostic} (h : Fails r seen n ls e) :
    exists m, r.ReachesFrom ls m ∧ Refused r m e := by
  induction h with
  | plain _ _ ih | again _ _ _ ih | chunk _ _ _ _ _ _ ih =>
      rcases ih with ⟨m, hm, hrefused⟩
      exact ⟨m, hm.later, hrefused⟩
  | deprecated hl _ hdep => exact ⟨_, .head hl, Or.inl ⟨rfl, by simp [hdep]⟩⟩
  | missing hl _ hdep hcontent => exact ⟨_, .head hl, Or.inr ⟨rfl, hdep, hcontent⟩⟩
  | inside hl _ _ hcontent _ ih =>
      rcases ih with ⟨m, hm, hrefused⟩
      exact ⟨m, .inside hl hcontent hm, hrefused⟩

end Chunk

/-!
# Resolving a source
-/

namespace Registry

open Chunk

theorem resolve_success {r : Registry} {source t : Text} (h : (r.resolve none source).2 = .ok t) :
    exists order out, Expands r [] source.lines order out ∧ t = Text.unlines out ∧
      (r.resolve none source).1.included.reverse = order := by
  rcases resolve_outcome r source with ⟨p, hp, heq⟩
  rw [heq] at h ⊢
  cases hp with
  | success hrun => exact ⟨_, _, hrun, (Except.ok.inj h).symm, by simp⟩
  | failure hrun => cases h

theorem resolve_failure {r : Registry} {source : Text} {e : Diagnostic}
    (h : (r.resolve none source).2 = .error e) : Fails r [] 1 source.lines e := by
  rcases resolve_outcome r source with ⟨p, hp, heq⟩
  rw [heq] at h
  cases hp with
  | success hrun => cases h
  | failure hrun =>
      cases h
      exact hrun

theorem mem_order_iff {r : Registry} {source : Text} {order out : List Text}
    (h : Expands r [] source.lines order out) {n : Text} : n ∈ order ↔ r.Reaches source n :=
  h.depthFirst.mem_iff

/-- A resolution succeeds exactly if every chunk that the source reaches can be included. -/
theorem resolve_succeeds_iff {r : Registry} {source : Text} :
    (exists t, (r.resolve none source).2 = .ok t) ↔
      forall n, r.Reaches source n -> r.deprecated.get? n = none ∧ r.lookup? n ≠ none := by
  constructor
  · rintro ⟨t, ht⟩ n hn
    rcases resolve_success ht with ⟨order, out, hrun, _, _⟩
    exact hrun.loaded n ((mem_order_iff hrun).mpr hn)
  · intro hloaded
    cases hresult : (r.resolve none source).2 with
    | ok t => exact ⟨t, rfl⟩
    | error e =>
        rcases (resolve_failure hresult).refused with ⟨n, hn, hrefused⟩
        rcases hrefused with ⟨_, hdep⟩ | ⟨_, _, hmissing⟩
        · exact absurd (hloaded n hn).1 hdep
        · exact absurd hmissing (hloaded n hn).2

theorem mem_names {r : Registry} {n : Text} : n ∈ r.names ↔ r.chunks.get? n ≠ none := by
  rw [names, Text.sort, List.mem_mergeSort, Table.names, Table.get?]
  simp only [ne_eq, Option.map_eq_none_iff, List.find?_eq_none, List.mem_map]
  push Not
  constructor
  · rintro ⟨entry, hentry, rfl⟩
    exact ⟨entry, hentry, by simp⟩
  · rintro ⟨entry, hentry, hname⟩
    exact ⟨entry, hentry, by simpa using hname⟩

/-- Include resolution always ends.  If the names that the source reaches are their own normal
forms, it succeeds exactly if all of them are registered and none is deprecated, and it expands
each of them once, depth first. -/
theorem resolve_depthFirst (r : Registry) (source : Text) :
    (exists p, Outcome r [] [] 1 source.lines p ∧
      r.resolve none source = (p.1, p.2.map Text.unlines)) ∧
    ((forall n, r.Reaches source n -> normalizeName n = n) ->
      ((exists t, (r.resolve none source).2 = .ok t) ↔
        forall n, r.Reaches source n -> n ∈ r.names ∧ r.deprecated.get? n = none) ∧
      forall t, (r.resolve none source).2 = .ok t ->
        exists order out, Expands r [] source.lines order out ∧ t = Text.unlines out ∧
          (r.resolve none source).1.included.reverse = order ∧
          DepthFirst r.includedBy [] (included source) order ∧ order.Nodup ∧
          forall n, n ∈ order ↔ r.Reaches source n) := by
  constructor
  · exact resolve_outcome r source
  · intro hcanonical
    have hnames : forall n, r.Reaches source n -> (n ∈ r.names ↔ r.lookup? n ≠ none) := by
      intro n hn
      rw [mem_names, lookup?, hcanonical n hn]
    constructor
    · rw [resolve_succeeds_iff]
      constructor
      · intro h n hn
        exact ⟨(hnames n hn).mpr (h n hn).2, (h n hn).1⟩
      · intro h n hn
        exact ⟨(h n hn).2, (hnames n hn).mp (h n hn).1⟩
    · intro t ht
      rcases resolve_success ht with ⟨order, out, hrun, htext, hincluded⟩
      exact ⟨order, out, hrun, htext, hincluded, hrun.depthFirst, hrun.depthFirst.nodup,
        fun n => mem_order_iff hrun⟩

theorem resolve_depthFirst_cycle :
    let r : Registry :=
      ⟨[("a", "#include <b>\nA"), ("b", "#include <a>\n#include <b>\nB"), ("c", "C")], [], []⟩
    (forall n, r.Reaches "#include <b>\n#include <a>" n -> normalizeName n = n) ∧
      exists order out, Expands r [] (Text.lines "#include <b>\n#include <a>") order out ∧
        ("A\nB" : Text) = Text.unlines out ∧
        DepthFirst r.includedBy [] ["b", "a"] order ∧ order = ["b", "a"] ∧
        forall n, n ∈ order ↔ r.Reaches "#include <b>\n#include <a>" n := by
  intro r
  have hcanonical : forall n, r.Reaches "#include <b>\n#include <a>" n -> normalizeName n = n := by
    have hnames : forall n, n ∈ (["a", "b"] : List Text) -> normalizeName n = n := by
      decide +kernel
    have hnext : forall n, n ∈ (["a", "b"] : List Text) ->
        r.includedBy n ⊆ (["a", "b"] : List Text) := by
      decide +kernel
    intro n hn
    exact hnames n (mem_of_reaches (by decide +kernel) hnext n hn)
  have htext : (r.resolve none "#include <b>\n#include <a>").2.toOption = some "A\nB" := by
    decide +kernel
  have hincluded : (r.resolve none "#include <b>\n#include <a>").1.included.reverse =
      ["b", "a"] := by
    decide +kernel
  have hstart : included "#include <b>\n#include <a>" = ["b", "a"] := by
    decide +kernel
  cases hresult : (r.resolve none "#include <b>\n#include <a>").2 with
  | error e =>
      rw [hresult] at htext
      cases htext
  | ok t =>
      rw [hresult] at htext
      cases htext
      rcases ((resolve_depthFirst r "#include <b>\n#include <a>").2 hcanonical).2 _ hresult with
        ⟨order, out, hrun, hout, horder, hdfs, _, hmem⟩
      rw [hstart] at hdfs
      exact ⟨hcanonical, order, out, hrun, hout, hdfs, horder.symm.trans hincluded, hmem⟩

end Registry

end EffectShader
