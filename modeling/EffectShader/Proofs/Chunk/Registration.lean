import EffectShader.Proofs.Chunk.DepthFirst

/-!
# What a resolution registers

Chunks that are not registered can be searched for while a source is resolved.  What
the search finds is registered at once, in the middle of the recursion, and stays
registered also if the resolution fails later.  Nothing else happens to the
registry: the chunks it held are kept, because only a name that was looked up in
vain is registered.
-/

namespace EffectShader

namespace Chunk

structure Finding where
  name : Text
  content : Text
  deriving DecidableEq, Repr

/-- What the registry holds of a finding. -/
def Finding.entry (f : Finding) : Text × Text :=
  (normalizeName f.name, clean f.content)

structure IsFound (search : Option Search) (r : Registry) (f : Finding) : Prop where
  allowed : r.deprecated.get? f.name = none
  missing : r.lookup? f.name = none
  found : exists s, search = some s ∧ s.find (f.name :: s.alternatives f.name) = some f.content

inductive Grows (search : Option Search) : Registry -> List Finding -> Registry -> Prop where
  | refl (r : Registry) : Grows search r [] r
  | found {r s : Registry} {f : Finding} {fs : List Finding} :
      IsFound search r f -> Grows search (r.register f.name f.content) fs s ->
      Grows search r (f :: fs) s

end Chunk

/-!
# New entries
-/

namespace Table

variable {α : Type} {t : Table α} {name : Text}

theorem put_of_get?_eq_none (h : t.get? name = none) (v : α) :
    t.put name v = t ++ [(name, v)] := by
  induction t with
  | nil => rfl
  | cons entry t ih =>
      rcases entry with ⟨n, w⟩
      rw [get?_cons] at h
      split at h
      · cases h
      · rename_i hne
        rw [put, if_neg hne, ih h, List.cons_append]

theorem get?_append (t u : Table α) (name : Text) :
    get? (t ++ u) name = (t.get? name).or (u.get? name) := by
  rw [get?, get?, get?, List.find?_append, Option.map_or]

theorem mem_of_get? {v : α} (h : t.get? name = some v) : (name, v) ∈ t := by
  rcases Option.map_eq_some_iff.mp h with ⟨⟨n, w⟩, hfind, rfl⟩
  have hname := List.find?_some hfind
  simp only [beq_iff_eq] at hname
  rw [← hname]
  exact List.mem_of_find?_eq_some hfind

end Table

namespace Chunk

variable {search : Option Search} {r s t : Registry} {fs gs : List Finding}

theorem IsFound.chunks_register {f : Finding} (h : IsFound search r f) :
    (r.register f.name f.content).chunks = r.chunks ++ [f.entry] :=
  Table.put_of_get?_eq_none h.missing _

theorem IsFound.grows {f : Finding} (h : IsFound search r f) :
    Grows search r [f] (r.register f.name f.content) :=
  .found h (.refl _)

theorem Grows.trans (h : Grows search r fs s) (h' : Grows search s gs t) :
    Grows search r (fs ++ gs) t := by
  induction h with
  | refl _ => exact h'
  | found hfound _ ih => exact Grows.found hfound (ih h')

theorem Grows.chunks_eq (h : Grows search r fs s) :
    s.chunks = r.chunks ++ fs.map Finding.entry := by
  induction h with
  | refl _ => simp
  | found hfound _ ih =>
      rw [ih, hfound.chunks_register, List.map_cons, List.append_assoc, List.singleton_append]

theorem Grows.deprecated_eq (h : Grows search r fs s) :
    s.deprecated = r.deprecated ∧ s.deprecatedNames = r.deprecatedNames := by
  induction h with
  | refl _ => exact ⟨rfl, rfl⟩
  | found _ _ ih => exact ih

theorem Grows.get?_eq (h : Grows search r fs s) {n content : Text}
    (hn : r.chunks.get? n = some content) : s.chunks.get? n = some content := by
  rw [h.chunks_eq, Table.get?_append, hn, Option.some_or]

theorem Grows.isFound (h : Grows search r fs s) : forall f, f ∈ fs -> IsFound search r f := by
  induction h with
  | refl _ => simp
  | @found r s g fs hfound hgrows ih =>
      intro f hf
      rcases List.mem_cons.mp hf with rfl | hf
      · exact hfound
      · rcases ih f hf with ⟨hallowed, hmissing, hsearch⟩
        refine ⟨hallowed, ?_, hsearch⟩
        cases hlookup : r.lookup? f.name with
        | none => rfl
        | some content => cases (hfound.grows.get?_eq hlookup).symm.trans hmissing

/-!
# Reached names in a growing registry
-/

theorem Grows.includedBy_subset (h : Grows search r fs s) (n : Text) :
    r.includedBy n ⊆ s.includedBy n := by
  intro m hm
  cases hlookup : r.lookup? n with
  | none =>
      rw [Registry.includedBy, hlookup] at hm
      cases hm
  | some content =>
      rw [Registry.includedBy_of_lookup? hlookup] at hm
      rw [Registry.includedBy_of_lookup? (h.get?_eq hlookup)]
      exact hm

theorem Grows.reachesFrom (h : Grows search r fs s) {ls : List Text} {n : Text}
    (hn : r.ReachesFrom ls n) : s.ReachesFrom ls n := by
  rcases hn with ⟨m, hm, hreach⟩
  exact ⟨m, hm, hreach.lift id fun a _ hb => h.includedBy_subset a hb⟩

def Registers (search : Option Search) (r : Registry) (ls : List Text) (s : Registry) : Prop :=
  exists fs, Grows search r fs s ∧ forall f, f ∈ fs -> s.ReachesFrom ls f.name

theorem Registers.refl (r : Registry) (ls : List Text) : Registers search r ls r :=
  ⟨[], Grows.refl r, by simp⟩

theorem Registers.trans {ls ls' ls'' : List Text} (h : Registers search r ls s)
    (h' : Registers search s ls' t) (hls : forall n, t.ReachesFrom ls n -> t.ReachesFrom ls'' n)
    (hls' : forall n, t.ReachesFrom ls' n -> t.ReachesFrom ls'' n) : Registers search r ls'' t := by
  rcases h with ⟨fs, hfs, hreach⟩
  rcases h' with ⟨gs, hgs, hreach'⟩
  refine ⟨fs ++ gs, hfs.trans hgs, ?_⟩
  intro f hf
  rcases List.mem_append.mp hf with hf | hf
  · exact hls _ (hgs.reachesFrom (hreach f hf))
  · exact hls' _ (hreach' f hf)

/-!
# One include
-/

theorem exists_grows_load (search : Option Search) (st : Resolution) (name : Text) (line : Nat) :
    (exists fs, Grows search st.registry fs (load search st name line).1.registry ∧
      forall f, f ∈ fs -> f.name = name) ∧
    forall content, (load search st name line).2 = .ok content ->
      (load search st name line).1.registry.lookup? name = some content := by
  unfold load
  cases hdep : st.registry.deprecated.get? name with
  | some message => exact ⟨⟨[], Grows.refl _, by simp⟩, fun _ h => nomatch h⟩
  | none =>
      cases hlookup : st.registry.lookup? name with
      | some content =>
          refine ⟨⟨[], Grows.refl _, by simp⟩, ?_⟩
          intro content' h
          cases h
          exact hlookup
      | none =>
          cases search with
          | none => exact ⟨⟨[], Grows.refl _, by simp⟩, fun _ h => nomatch h⟩
          | some s =>
              dsimp only
              cases hfind : s.find (name :: s.alternatives name) with
              | none => exact ⟨⟨[], Grows.refl _, by simp⟩, fun _ h => nomatch h⟩
              | some raw =>
                  have hcontent : (st.registry.register name raw).lookup? name = some (clean raw) :=
                    Table.get?_put_self _ _ _
                  constructor
                  · have hfound : IsFound (some s) st.registry ⟨name, raw⟩ :=
                      ⟨hdep, hlookup, s, rfl, hfind⟩
                    exact ⟨[⟨name, raw⟩], hfound.grows, by simp⟩
                  · intro content h
                    dsimp only at h ⊢
                    rw [hcontent] at h ⊢
                    cases h
                    rfl

/-!
# Lines
-/

section Lines

variable {rec : Resolution -> Text -> Resolution × Except Diagnostic Text}

/-- What the lines `l :: ls` come to, by what becomes of the first one. -/
inductive LineStep (search : Option Search)
    (rec : Resolution -> Text -> Resolution × Except Diagnostic Text)
    (st : Resolution) (n : Nat) (l : Text) (ls : List Text) :
    Resolution × Except Diagnostic (List Text) -> Prop where
  | kept (before : List Text) {p : Resolution × Except Diagnostic (List Text)} :
      (forall i, include? l = some i -> i.name ∈ st.included) ->
      expandLines search rec st (n + 1) ls = p ->
      LineStep search rec st n l ls (p.1, p.2.map (before ++ ·))
  | refused {i : Include} {e : Diagnostic} {st' : Resolution} :
      include? l = some i -> i.name ∉ st.included -> load search st i.name n = (st', .error e) ->
      LineStep search rec st n l ls (st', .error e)
  | inside {i : Include} {content : Text} {e : Diagnostic} {st' st'' : Resolution} :
      include? l = some i -> i.name ∉ st.included -> load search st i.name n = (st', .ok content) ->
      rec { st' with included := i.name :: st'.included } content = (st'', .error e) ->
      LineStep search rec st n l ls (st'', .error e)
  | chunk (before : List Text) {i : Include} {content expanded : Text} {st' st'' : Resolution}
      {p : Resolution × Except Diagnostic (List Text)} :
      include? l = some i -> i.name ∉ st.included -> load search st i.name n = (st', .ok content) ->
      rec { st' with included := i.name :: st'.included } content = (st'', .ok expanded) ->
      expandLines search rec st'' (n + 1) ls = p ->
      LineStep search rec st n l ls (p.1, p.2.map (before ++ ·))

theorem expandLines_cons (search : Option Search)
    (rec : Resolution -> Text -> Resolution × Except Diagnostic Text)
    (st : Resolution) (n : Nat) (l : Text) (ls : List Text) :
    LineStep search rec st n l ls (expandLines search rec st n (l :: ls)) := by
  rw [expandLines]
  cases hl : include? l with
  | none =>
      have hnone : forall i, include? l = some i -> i.name ∈ st.included := by
        intro i hi
        rw [hl] at hi
        cases hi
      have hkept := LineStep.kept (n := n) [l] hnone
        (Eq.refl (expandLines search rec st (n + 1) ls))
      dsimp only
      generalize expandLines search rec st (n + 1) ls = q at hkept ⊢
      rcases q with ⟨last, e | more⟩ <;> exact hkept
  | some i =>
      dsimp only
      split
      · rename_i hi
        have hincluded : forall j, include? l = some j -> j.name ∈ st.included := by
          rintro j hj
          cases hj.symm.trans hl
          exact List.contains_iff_mem.mp hi
        have hkept := fun before => LineStep.kept (n := n) before hincluded
          (Eq.refl (expandLines search rec st (n + 1) ls))
        generalize expandLines search rec st (n + 1) ls = q at hkept ⊢
        rcases q with ⟨last, e | more⟩
        · exact hkept []
        · exact hkept _
      · rename_i hi
        rw [List.contains_iff_mem] at hi
        rcases hload : load search st i.name n with ⟨st', e | content⟩
        · exact .refused hl hi hload
        · dsimp only
          rcases hrec : rec { st' with included := i.name :: st'.included } content with
            ⟨st'', e | expanded⟩
          · exact .inside hl hi hload hrec
          · dsimp only
            have hchunk := fun before => LineStep.chunk before hl hi hload hrec
              (Eq.refl (expandLines search rec st'' (n + 1) ls))
            generalize expandLines search rec st'' (n + 1) ls = q at hchunk ⊢
            rcases q with ⟨last, e | more⟩
            · exact hchunk []
            · exact hchunk _

/-- What an include registers: the chunk itself, if it was missing. -/
theorem registers_load {st st' : Resolution} {l : Text} {ls : List Text} {i : Include} {n : Nat}
    {result : Except Diagnostic Text} (hl : include? l = some i)
    (hload : load search st i.name n = (st', result)) :
    Registers search st.registry (l :: ls) st'.registry := by
  rcases exists_grows_load search st i.name n with ⟨⟨fs, hgrows, hnames⟩, _⟩
  rw [hload] at hgrows
  refine ⟨fs, hgrows, ?_⟩
  intro f hf
  rw [hnames f hf]
  exact .head hl

theorem registers_inside
    (hrec : forall st source, Registers search st.registry source.lines (rec st source).1.registry)
    {st st' st'' : Resolution} {l content : Text} {ls : List Text} {i : Include} {n : Nat}
    {result : Except Diagnostic Text} (hl : include? l = some i)
    (hload : load search st i.name n = (st', .ok content))
    (hinside : rec { st' with included := i.name :: st'.included } content = (st'', result)) :
    Registers search st.registry (l :: ls) st''.registry := by
  have hcontent : st'.registry.lookup? i.name = some content := by
    have h := (exists_grows_load search st i.name n).2 content
    rw [hload] at h
    exact h rfl
  have hnested := hrec { st' with included := i.name :: st'.included } content
  rw [hinside] at hnested
  rcases hnested with ⟨gs, hgrows, hreach⟩
  have hload' : Registers search st.registry (l :: ls) st'.registry := registers_load hl hload
  refine hload'.trans ⟨gs, hgrows, hreach⟩ (fun m hm => hm) ?_
  exact fun m hm => .inside hl (hgrows.get?_eq hcontent) hm

theorem registers_expandLines
    (hrec : forall st source, Registers search st.registry source.lines (rec st source).1.registry)
    (st : Resolution) (n : Nat) (ls : List Text) :
    Registers search st.registry ls (expandLines search rec st n ls).1.registry := by
  induction ls generalizing st n with
  | nil => exact Registers.refl _ _
  | cons l ls ih =>
      have hstep := expandLines_cons search rec st n l ls
      generalize expandLines search rec st n (l :: ls) = q at hstep
      cases hstep with
      | kept before _ hrest =>
          subst hrest
          exact (Registers.refl _ (l :: ls)).trans (ih st (n + 1)) (fun m hm => hm)
            fun m hm => hm.later
      | refused hl _ hload => exact registers_load hl hload
      | inside hl _ hload hinside => exact registers_inside hrec hl hload hinside
      | @chunk before i content expanded st' st'' p hl _ hload hinside hrest =>
          subst hrest
          have hfirst : Registers search st.registry (l :: ls) st''.registry :=
            registers_inside hrec hl hload hinside
          exact hfirst.trans (ih st'' (n + 1)) (fun m hm => hm) fun m hm => hm.later

end Lines

theorem registers_expand (search : Option Search) (depth : Nat) (st : Resolution) (source : Text) :
    Registers search st.registry source.lines (expand search depth st source).1.registry := by
  induction depth generalizing st source with
  | zero => exact Registers.refl _ _
  | succ depth ih =>
      have hlines := registers_expandLines ih st 1 source.lines
      rw [expand]
      generalize expandLines search (expand search depth) st 1 source.lines = q at hlines ⊢
      rcases q with ⟨last, e | lines⟩ <;> exact hlines

end Chunk

/-!
# The registry of a resolution
-/

namespace Registry

open Chunk

/-- The registry `s` has all that `r` has.  What else it has are chunks that the source leads to,
that were missing in `r` and that the search found. -/
structure Enlarges (search : Option Search) (source : Text) (r s : Registry) : Prop where
  kept : forall n content, r.chunks.get? n = some content -> s.chunks.get? n = some content
  deprecated : s.deprecated = r.deprecated
  deprecatedNames : s.deprecatedNames = r.deprecatedNames
  added : forall n content, s.chunks.get? n = some content -> r.chunks.get? n = none ->
    exists f, IsFound search r f ∧ s.Reaches source f.name ∧ (n, content) = f.entry

theorem enlarges_of_registers {search : Option Search} {source : Text} {r s : Registry}
    (h : Registers search r source.lines s) : Enlarges search source r s := by
  rcases h with ⟨fs, hgrows, hreach⟩
  refine ⟨fun n content => hgrows.get?_eq, hgrows.deprecated_eq.1, hgrows.deprecated_eq.2, ?_⟩
  intro n content hnew hold
  rw [hgrows.chunks_eq, Table.get?_append, hold, Option.none_or] at hnew
  rcases List.mem_map.mp (Table.mem_of_get? hnew) with ⟨f, hf, hentry⟩
  exact ⟨f, hgrows.isFound f hf, hreach f hf, hentry.symm⟩

/-- Resolving only adds to the registry, whether it succeeds or fails, and however deep the
includes are followed. -/
theorem resolve_enlarges (r : Registry) (search : Option Search) (source : Text) :
    Enlarges search source r (r.resolve search source).1.registry ∧
      forall depth,
        Enlarges search source r (expand search depth ⟨r, [], []⟩ source).1.registry := by
  have hdepth : forall depth,
      Enlarges search source r (expand search depth ⟨r, [], []⟩ source).1.registry :=
    fun depth => enlarges_of_registers (registers_expand search depth ⟨r, [], []⟩ source)
  exact ⟨hdepth _, hdepth⟩

example :
    let search : Search := .ofTable [("a", "A \n#include <c>")] fun _ => []
    let p := Registry.resolve ⟨[("b", "B")], [], []⟩ (some search)
      "#include <b>\n#include <a.chunk>"
    p.2.isOk = false ∧ p.1.registry = ⟨[("b", "B"), ("a", "A\n#include <c>")], [], []⟩ := by
  decide +kernel

end Registry

/-!
# Questions to the search

Whatever the search is asked for it either finds, and then the name is registered, or
the resolution fails.  So it is never asked twice for the same names, and what it
answers to other questions makes no difference to an answer.
-/

namespace Chunk

variable {α β : Type}

def Answered (st : Resolution) : Prop :=
  forall names, names ∈ st.asked ->
    exists name more, names = name :: more ∧ st.registry.lookup? name ≠ none

/-- No question is repeated, and a success leaves none without an answer. -/
def AsksOnce (st : Resolution) (p : Resolution × Except Diagnostic α) : Prop :=
  Answered st -> st.asked.Nodup -> p.1.asked.Nodup ∧ forall x, p.2 = .ok x -> Answered p.1

theorem AsksOnce.of_ok {st st' : Resolution} {x : α} {p : Resolution × Except Diagnostic β}
    (h : AsksOnce st (st', Except.ok x)) (h' : AsksOnce st' p) : AsksOnce st p := by
  intro hanswered hnodup
  rcases h hanswered hnodup with ⟨hnodup', hanswered'⟩
  exact h' (hanswered' x rfl) hnodup'

theorem AsksOnce.of_error {st st' : Resolution} {e : Diagnostic}
    (h : AsksOnce st (st', (.error e : Except Diagnostic α))) :
    AsksOnce st (st', (.error e : Except Diagnostic β)) := by
  intro hanswered hnodup
  exact ⟨(h hanswered hnodup).1, fun _ hx => nomatch hx⟩

theorem AsksOnce.map {st : Resolution} {p : Resolution × Except Diagnostic α} (f : α -> β)
    (h : AsksOnce st p) : AsksOnce st (p.1, p.2.map f) := by
  intro hanswered hnodup
  rcases p with ⟨st', e | x⟩
  · exact h.of_error hanswered hnodup
  · rcases h hanswered hnodup with ⟨hnodup', hanswered'⟩
    exact ⟨hnodup', fun _ _ => hanswered' x rfl⟩

theorem asksOnce_refl (st : Resolution) (result : Except Diagnostic α) : AsksOnce st (st, result) :=
  fun hanswered hnodup => ⟨hnodup, fun _ _ => hanswered⟩

theorem asksOnce_load (search : Option Search) (st : Resolution) (name : Text) (line : Nat) :
    AsksOnce st (load search st name line) := by
  unfold load
  cases hdep : st.registry.deprecated.get? name with
  | some message => exact asksOnce_refl _ _
  | none =>
      cases hlookup : st.registry.lookup? name with
      | some content => exact asksOnce_refl _ _
      | none =>
          cases search with
          | none => exact asksOnce_refl _ _
          | some s =>
              intro hanswered hnodup
              have hnew : name :: s.alternatives name ∉ st.asked := by
                intro hmem
                rcases hanswered _ hmem with ⟨_, _, heq, hne⟩
                cases heq
                exact hne hlookup
              have hasked : (st.asked ++ [name :: s.alternatives name]).Nodup :=
                List.nodup_append.mpr ⟨hnodup, List.nodup_singleton _, by
                  rintro names hmem _ (_ | ⟨_, ⟨⟩⟩) rfl
                  exact hnew hmem⟩
              dsimp only
              cases hfind : s.find (name :: s.alternatives name) with
              | none => exact ⟨hasked, fun _ h => nomatch h⟩
              | some raw =>
                  refine ⟨hasked, ?_⟩
                  intro _ _ names hmem
                  rcases List.mem_append.mp hmem with hmem | hmem
                  · rcases hanswered names hmem with ⟨other, more, hnames, hother⟩
                    rcases Option.ne_none_iff_exists'.mp hother with ⟨content, hcontent⟩
                    have hfound : IsFound (some s) st.registry ⟨name, raw⟩ :=
                      ⟨hdep, hlookup, s, rfl, hfind⟩
                    refine ⟨other, more, hnames, ?_⟩
                    exact Option.ne_none_iff_exists'.mpr ⟨content, hfound.grows.get?_eq hcontent⟩
                  · refine ⟨name, s.alternatives name, List.mem_singleton.mp hmem, ?_⟩
                    exact Option.ne_none_iff_exists'.mpr ⟨clean raw, Table.get?_put_self _ _ _⟩

theorem asksOnce_expandLines (search : Option Search)
    {rec : Resolution -> Text -> Resolution × Except Diagnostic Text}
    (hrec : forall st source, AsksOnce st (rec st source)) (st : Resolution) (n : Nat)
    (ls : List Text) : AsksOnce st (expandLines search rec st n ls) := by
  induction ls generalizing st n with
  | nil => exact asksOnce_refl _ _
  | cons l ls ih =>
      have hstep := expandLines_cons search rec st n l ls
      generalize expandLines search rec st n (l :: ls) = q at hstep
      cases hstep with
      | kept before _ hrest =>
          subst hrest
          exact (ih st (n + 1)).map _
      | @refused i e st' _ _ hload =>
          have h := asksOnce_load search st i.name n
          rw [hload] at h
          exact h.of_error
      | @inside i content e st' st'' _ _ hload hinside =>
          have h := asksOnce_load search st i.name n
          have h' := hrec { st' with included := i.name :: st'.included } content
          rw [hload] at h
          rw [hinside] at h'
          exact h.of_ok h'.of_error
      | @chunk before i content expanded st' st'' p _ _ hload hinside hrest =>
          have h := asksOnce_load search st i.name n
          have h' := hrec { st' with included := i.name :: st'.included } content
          rw [hload] at h
          rw [hinside] at h'
          subst hrest
          exact h.of_ok (h'.of_ok ((ih st'' (n + 1)).map _))

theorem asksOnce_expand (search : Option Search) (depth : Nat) (st : Resolution) (source : Text) :
    AsksOnce st (expand search depth st source) := by
  induction depth generalizing st source with
  | zero => exact asksOnce_refl _ _
  | succ depth ih =>
      have hlines := (asksOnce_expandLines search ih st 1 source.lines).map Text.unlines
      rw [expand]
      generalize expandLines search (expand search depth) st 1 source.lines = q at hlines ⊢
      rcases q with ⟨last, e | lines⟩ <;> exact hlines

end Chunk

theorem Registry.nodup_asked_resolve (r : Registry) (search : Option Chunk.Search) (source : Text) :
    (r.resolve search source).1.asked.Nodup :=
  (Chunk.asksOnce_expand search _ ⟨r, [], []⟩ source (by rintro names ⟨⟩) List.nodup_nil).1

end EffectShader
