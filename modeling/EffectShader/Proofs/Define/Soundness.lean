import EffectShader.Proofs.Condition.Printing
import EffectShader.Proofs.Define.Lines

/-!
# Gates of kept lines

If a line is kept, then of every conditional around it the current branch is the
chosen one and all branches before failed.  From this the gates of the line
follow, up to those that are in doubt.
-/

namespace EffectShader

namespace Gating

/-!
# Conditionals around a line
-/

/-- An open conditional: the directive of its current branch and those of the branches before. -/
structure Conditional where
  current : Directive
  earlier : List Directive
  deriving DecidableEq, Repr

def Conditional.doubts (c : Conditional) : List Gate :=
  c.earlier.flatMap doubtsBehind ++ doubtsInside c.current

/-- The open conditionals after a directive, innermost first. -/
def follow (cs : List Conditional) (d : Directive) : List Conditional :=
  match d.role with
  | .opens => ⟨d, []⟩ :: cs
  | .continues =>
      match cs with
      | [] => []
      | c :: rest => ⟨d, c.current :: c.earlier⟩ :: rest
  | .closes => cs.tail
  | .other => cs

def doubtsAt (ts : List Token) (line : Nat) : List Gate :=
  ((Preprocess.directivesBy line ts).foldl follow []).flatMap Conditional.doubts

/-!
# The invariant

The gates of branches that were passed follow as long as no such branch was
chosen; those of the current branch follow if it is the chosen one.
-/

structure Gated (macros : Environment) (l : Level) (p : Preprocess.Level) (c : Conditional) :
    Prop where
  passed : p.active = true ∨ p.chosen = false -> forall g, g ∈ l.passed ->
    Gate.holds macros g = true ∨ g ∈ c.earlier.flatMap doubtsBehind
  inside : p.active = true -> forall g, g ∈ l.current ->
    Gate.holds macros g = true ∨ g ∈ doubtsInside c.current
  behind : p.chosen = false -> forall g, g ∈ l.current ->
    Gate.holds macros (Gate.negate g) = true ∨ Gate.negate g ∈ doubtsBehind c.current

inductive Tracks (macros : Environment) :
    List Level -> List Preprocess.Level -> List Conditional -> Prop where
  | nil : Tracks macros [] [] []
  | cons {l : Level} {p : Preprocess.Level} {c : Conditional} {stack : List Level}
      {levels : List Preprocess.Level} {cs : List Conditional} :
      Gated macros l p c -> Tracks macros stack levels cs ->
      Tracks macros (l :: stack) (p :: levels) (c :: cs)

section Step

variable {macros : Environment} {d : Directive} {gates : List Gate}

theorem gated_opened (hgates : gates ⊆ testsOf d) :
    Gated macros ⟨[], gates⟩ (Preprocess.Level.opened (d.isMet macros)) ⟨d, []⟩ := by
  constructor
  · intro _ g hg
    cases hg
  · intro hmet g hg
    exact holds_of_isMet hmet (hgates hg)
  · intro hmet g hg
    exact holds_negate_of_not_isMet hmet (hgates hg)

theorem gated_next {l : Level} {p : Preprocess.Level} {c : Conditional}
    (h : Gated macros l p c) (hgates : gates ⊆ testsOf d) :
    Gated macros ⟨l.flip.passed, gates⟩ (p.next (d.isMet macros))
      ⟨d, c.current :: c.earlier⟩ := by
  have hopen : (p.next (d.isMet macros)).active = true ∨
      (p.next (d.isMet macros)).chosen = false -> p.chosen = false := by
    unfold Preprocess.Level.next
    cases p.chosen <;> simp
  constructor
  · intro hchosen g hg
    have hp := hopen hchosen
    rw [List.flatMap_cons, List.mem_append]
    rcases List.mem_append.mp hg with hg | hg
    · exact (h.passed (Or.inr hp) g hg).imp_right Or.inr
    · rcases List.mem_map.mp hg with ⟨k, hk, rfl⟩
      exact (h.behind hp k hk).imp_right Or.inl
  · intro hactive g hg
    have hmet : d.isMet macros = true := by
      unfold Preprocess.Level.next at hactive
      exact (Bool.and_eq_true_iff.mp hactive).2
    exact holds_of_isMet hmet (hgates hg)
  · intro hchosen g hg
    have hmet : d.isMet macros = false := by
      unfold Preprocess.Level.next at hchosen
      exact (Bool.or_eq_false_iff.mp hchosen).2
    exact holds_negate_of_not_isMet hmet (hgates hg)

theorem Tracks.step {context : Context} {levels : List Preprocess.Level} {cs : List Conditional}
    (h : Tracks macros context.levels levels cs) :
    Tracks macros (context.after d).levels (Preprocess.enter macros d levels) (follow cs d) := by
  have hgates := context.gatesOf_subset d
  unfold Preprocess.enter follow
  cases hrole : d.role with
  | opens =>
      rw [Context.after_opens hrole]
      exact Tracks.cons (gated_opened hgates) h
  | continues =>
      unfold Context.after
      rw [hrole]
      generalize hold : context.levels = stack at h ⊢
      cases h with
      | nil =>
          dsimp only
          rw [hold]
          exact Tracks.nil
      | cons hgated hrest => exact Tracks.cons (gated_next hgated hgates) hrest
  | closes =>
      rw [Context.after_closes hrole]
      generalize context.levels = stack at h ⊢
      cases h with
      | nil => exact Tracks.nil
      | cons _ hrest => exact hrest
  | other =>
      rw [Context.after_other hrole]
      exact h

theorem Tracks.afterAll (ds : List Directive) {context : Context}
    {levels : List Preprocess.Level} {cs : List Conditional}
    (h : Tracks macros context.levels levels cs) :
    Tracks macros (context.afterAll ds).levels (Preprocess.enterAll macros levels ds)
      (ds.foldl follow cs) := by
  induction ds generalizing context levels cs with
  | nil => exact h
  | cons d ds ih => exact ih h.step

end Step

theorem chain_cons (l : Level) (stack : List Level) :
    chain (l :: stack) = chain stack ++ l.gates := by
  simp [chain]

theorem Tracks.holds {macros : Environment} {stack : List Level} {levels : List Preprocess.Level}
    {cs : List Conditional} (h : Tracks macros stack levels cs)
    (hactive : Preprocess.isActive levels = true) {g : Gate} (hg : g ∈ chain stack) :
    Gate.holds macros g = true ∨ g ∈ cs.flatMap Conditional.doubts := by
  induction h with
  | nil => cases hg
  | @cons l p c stack levels cs hgated _ ih =>
      unfold Preprocess.isActive at hactive
      rw [List.all_cons, Bool.and_eq_true] at hactive
      rw [List.flatMap_cons, List.mem_append]
      rw [chain_cons] at hg
      rcases List.mem_append.mp hg with hg | hg
      · exact (ih hactive.2 hg).imp_right Or.inr
      · unfold Conditional.doubts
        rw [List.mem_append]
        rcases List.mem_append.mp hg with hg | hg
        · exact (hgated.passed (Or.inl hactive.1) g hg).imp_right fun hdoubt =>
            Or.inl (Or.inl hdoubt)
        · exact (hgated.inside hactive.1 g hg).imp_right fun hdoubt => Or.inl (Or.inr hdoubt)

end Gating

namespace Extractor

open Gating Preprocess

/-- The gates of a line after a run: each holds or is in doubt, if the line is kept. -/
theorem holds_of_walk {macros : Environment} {last line : Nat} {st : State} {ts : List Token}
    {x : Extraction} {levels : List Preprocess.Level} {cs : List Conditional}
    (hsorted : ts.Pairwise fun t u => t.lastLine ≤ u.lastLine)
    (htracks : Tracks macros st.stack levels cs)
    (hlines : forall entry, entry ∈ st.out.lines -> entry.1 ≤ line)
    (hgates : (st.out.latest line).getD [] = chain st.stack)
    (h : (walk last st ts).2 = .ok x)
    (hkept : isActive (enterAll macros levels (directivesBy line ts)) = true) {g : Gate}
    (hg : g ∈ (x.latest line).getD []) :
    Gate.holds macros g = true ∨
      g ∈ ((directivesBy line ts).foldl follow cs).flatMap Conditional.doubts := by
  have hall : Tracks macros (st.context.afterAll (directivesBy line ts)).levels _ _ :=
    Tracks.afterAll (directivesBy line ts) htracks
  apply hall.holds hkept
  rw [(latest_of_walk hsorted hlines h).1] at hg
  split at hg
  · rename_i hnil
    rw [hgates] at hg
    rw [hnil]
    exact hg
  · exact hg

end Extractor

/-- The gates of a kept line hold exactly if those do that are in doubt: the operands of comparisons
and the negated gates of branches that test more than one macro. -/
theorem gates_hold_iff {source : Text} {ts : List Token} {defines : DefineSet} {x : Extraction}
    {macros : Environment} {line : Nat} (htokens : tokenize source = .ok ts)
    (hx : (extractDefines ts defines).2 = .ok x)
    (hkept : Preprocess.keepsLine macros ts line = true) :
    (forall g, g ∈ (x.gatesAt line).getD [] -> Gating.Gate.holds macros g = true) ↔
      forall g, g ∈ (x.gatesAt line).getD [] -> g ∈ Gating.doubtsAt ts line ->
        Gating.Gate.holds macros g = true := by
  constructor
  · intro hall g hg _
    exact hall g hg
  · intro hdoubts g hg
    have hlatest : g ∈ (x.latest line).getD [] := by
      rwa [Extraction.gatesAt_eq_latest (Extractor.ordered_extractDefines htokens hx)] at hg
    rcases Lexer.tokenize_eq_ok_iff.mp htokens with ⟨ws, _, rfl⟩
    rcases Extractor.holds_of_walk (Lexer.pairwise_lastLine_place _ ws) Gating.Tracks.nil
      (by simp [Extraction.empty]) rfl hx hkept hlatest with hholds | hdoubt
    · exact hholds
    · exact hdoubts g hg hdoubt

/-!
# A conjunction and its other branch
-/

namespace Gating

theorem parse_conjunction :
    Condition.parse "A && B" = .ok (.binary .and (.ident "A") (.ident "B")) :=
  Condition.parse_of_print (by decide +kernel) (by decide +kernel)

theorem extract_else :
    exists ts x, tokenize "#if A && B\n#else\n2\n#endif" = .ok ts ∧
      (extractDefines ts DefineSet.empty).2 = .ok x ∧
      x.lines = ([(1, ["A", "B"]), (2, ["!A", "!B"]), (4, [])] : List (Nat × List Text)) ∧
      forall macros, Condition.isMet macros (.binary .and (.ident "A") (.ident "B")) = false ->
        Preprocess.keepsLine macros ts 3 = true := by
  have htokens : tokenize "#if A && B\n#else\n2\n#endif" = .ok
      [⟨.directive, "#if A && B", ⟨1, 1, 0⟩⟩, ⟨.whitespace, "\n", ⟨1, 11, 10⟩⟩,
        ⟨.directive, "#else", ⟨2, 1, 11⟩⟩, ⟨.whitespace, "\n", ⟨2, 6, 16⟩⟩,
        ⟨.integer, "2", ⟨3, 1, 17⟩⟩, ⟨.whitespace, "\n", ⟨3, 2, 18⟩⟩,
        ⟨.directive, "#endif", ⟨4, 1, 19⟩⟩, ⟨.eof, [], ⟨4, 7, 25⟩⟩] := by
    decide +kernel
  have hif : (Directive.parse? "#if A && B").getD ⟨[], []⟩ = ⟨"if", "A && B"⟩ := by decide +kernel
  have helse : (Directive.parse? "#else").getD ⟨[], []⟩ = ⟨"else", []⟩ := by decide +kernel
  have hendif : (Directive.parse? "#endif").getD ⟨[], []⟩ = ⟨"endif", []⟩ := by decide +kernel
  have hfirst (st : Extractor.State) : Extractor.directive st
      ((Directive.parse? "#if A && B").getD ⟨[], []⟩) 1 = _ :=
    (congrArg (fun d => Extractor.directive st d 1) hif).trans
      ((Extractor.directive_if rfl).trans (Extractor.condition_of_parse parse_conjunction _ 1))
  refine ⟨_, ⟨[(1, ["A", "B"]), (2, ["!A", "!B"]), (4, [])], [], [], [], [], []⟩, htokens, ?_,
    rfl, ?_⟩
  · rw [extractDefines, Extractor.walk_cons_of_step _ rfl (hfirst _)]
    simp only [Extractor.walk, Token.isDirective, helse, hendif]
    rfl
  · intro macros hfalse
    have hmet : (Directive.mk "if" "A && B").isMet macros = false :=
      (Directive.isMet_of_condition? (Directive.condition?_of_parse
      (Or.inl rfl) parse_conjunction)).trans hfalse
    show Preprocess.isActive (Preprocess.enterAll macros []
      [(Directive.parse? "#if A && B").getD ⟨[], []⟩,
        (Directive.parse? "#else").getD ⟨[], []⟩]) = true
    rw [hif, helse]
    simp only [Preprocess.enterAll, List.foldl, Preprocess.enter,
      show (Directive.mk "if" "A && B").role = .opens from rfl, hmet]
    rfl

/-- The other branch of a conjunction is taken although one of its macros is on. -/
theorem gate_of_else_fails :
    exists ts x macros g, tokenize "#if A && B\n#else\n2\n#endif" = .ok ts ∧
      (extractDefines ts DefineSet.empty).2 = .ok x ∧
      Preprocess.keepsLine macros ts 3 = true ∧ g ∈ (x.gatesAt 3).getD [] ∧
      Gate.holds macros g = false := by
  rcases extract_else with ⟨ts, x, htokens, hx, hlines, hkept⟩
  refine ⟨ts, x, fun n => if n == ("A" : Text) then some (.int 1) else none, "!A", htokens, hx,
    hkept _ rfl, ?_, by decide⟩
  rw [Extraction.gatesAt_eq_latest (Extractor.ordered_extractDefines htokens hx), Extraction.latest,
    hlines]
  decide

theorem gates_hold_iff_else :
    exists ts x, tokenize "#if A && B\n#else\n2\n#endif" = .ok ts ∧
      (extractDefines ts DefineSet.empty).2 = .ok x ∧
      Preprocess.keepsLine (fun _ => none) ts 3 = true ∧
      ((forall g, g ∈ (x.gatesAt 3).getD [] -> Gate.holds (fun _ => none) g = true) ↔
        forall g, g ∈ (x.gatesAt 3).getD [] -> g ∈ doubtsAt ts 3 ->
          Gate.holds (fun _ => none) g = true) := by
  rcases extract_else with ⟨ts, x, htokens, hx, _, hkept⟩
  exact ⟨ts, x, htokens, hx, hkept _ rfl, gates_hold_iff htokens hx (hkept _ rfl)⟩

end Gating

end EffectShader
