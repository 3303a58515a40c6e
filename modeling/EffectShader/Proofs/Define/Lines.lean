import EffectShader.Proofs.Define.Gates
import EffectShader.Proofs.Preprocess
import Mathlib.Data.List.TakeWhile

/-!
# Gates of lines

After every directive the gates of the open conditionals are recorded for the line on
which it ends.  The tokens of a source end on lines in their order, so the recorded
lines increase, and a search among them finds what was recorded by the last directive
that ends on a line or before it.
-/

namespace EffectShader

/-!
# Open conditionals
-/

namespace Gating

/-- How many conditionals some directives open. -/
def openings (ds : List Directive) : Nat :=
  ds.countP fun d => d.role == .opens

/-- How many conditionals some directives close. -/
def closings (ds : List Directive) : Nat :=
  ds.countP fun d => d.role == .closes

theorem openings_cons (d : Directive) (ds : List Directive) :
    openings (d :: ds) = openings [d] + openings ds := by
  change openings ([d] ++ ds) = _
  exact List.countP_append

theorem closings_cons (d : Directive) (ds : List Directive) :
    closings (d :: ds) = closings [d] + closings ds := by
  change closings ([d] ++ ds) = _
  exact List.countP_append

theorem Context.length_after {c : Context} {d : Directive}
    (h : d.role = .continues ∨ d.role = .closes -> c.levels ≠ []) :
    (c.after d).levels.length + closings [d] = c.levels.length + openings [d] := by
  unfold openings closings
  rw [List.countP_singleton, List.countP_singleton]
  cases hrole : d.role with
  | opens =>
      rw [Context.after_opens hrole]
      rfl
  | continues =>
      rcases List.exists_cons_of_ne_nil (h (Or.inl hrole)) with ⟨l, rest, hlevels⟩
      rw [Context.after_continues hrole hlevels, hlevels]
      rfl
  | closes =>
      rcases List.exists_cons_of_ne_nil (h (Or.inr hrole)) with ⟨l, rest, hlevels⟩
      rw [Context.after_closes hrole, hlevels]
      rfl
  | other =>
      rw [Context.after_other hrole]
      rfl

/-- The conditionals that are open on a line. -/
def openOn (ts : List Token) (line : Nat) : List Level :=
  (Context.afterAll ⟨[], []⟩ (Preprocess.directivesBy line ts)).levels

end Gating

/-!
# Recorded lines
-/

namespace Extraction

def latest (x : Extraction) (line : Nat) : Option (List Text) :=
  (x.lines.takeWhile fun entry => entry.1 ≤ line).getLast?.map (·.2)

def Ordered (x : Extraction) : Prop :=
  (x.lines.map (·.1)).Pairwise (· < ·)

section Search

variable {lines : List Nat} {line : Nat}

theorem getD_le_iff (h : lines.Pairwise (· < ·)) {i : Nat} (hi : i < lines.length) :
    lines.getD i 0 ≤ line ↔ i < (lines.takeWhile fun n => n ≤ line).length := by
  induction lines generalizing i with
  | nil => cases hi
  | cons n lines ih =>
      rcases List.pairwise_cons.mp h with ⟨hfirst, hrest⟩
      by_cases hn : n ≤ line
      · rw [List.takeWhile_cons_of_pos (by simpa using hn)]
        cases i with
        | zero => simpa using hn
        | succ i => simpa using ih hrest (Nat.lt_of_succ_lt_succ hi)
      · rw [List.takeWhile_cons_of_neg (by simpa using hn)]
        cases i with
        | zero => simpa using hn
        | succ i =>
            have hi : i < lines.length := Nat.lt_of_succ_lt_succ hi
            have hlater := hfirst lines[i] (List.getElem_mem hi)
            rw [List.getD_cons_succ, List.getD_eq_getElem?_getD, List.getElem?_eq_getElem hi,
              Option.getD_some]
            simp only [List.length_nil, Nat.not_lt_zero, iff_false]
            omega

theorem countUpTo_eq (h : lines.Pairwise (· < ·)) {low high : Nat}
    (hlow : low ≤ (lines.takeWhile fun n => n ≤ line).length)
    (hhigh : (lines.takeWhile fun n => n ≤ line).length ≤ high) (hlength : high ≤ lines.length) :
    countUpTo lines line low high = (lines.takeWhile fun n => n ≤ line).length := by
  fun_induction countUpTo lines line low high with
  | case1 low high hlt middle hle ih =>
      have hmiddle : middle < high := by omega
      exact ih ((getD_le_iff h (by omega)).mp hle) hhigh hlength
  | case2 low high hlt middle hle ih =>
      have hmiddle : middle < high := by omega
      exact ih hlow (Nat.not_lt.mp fun hlt => hle ((getD_le_iff h (by omega)).mpr hlt)) (by omega)
  | case3 low high hle => omega

end Search

theorem gatesAt_eq_latest {x : Extraction} (h : x.Ordered) (line : Nat) :
    x.gatesAt line = x.latest line := by
  have hprefix := List.takeWhile_prefix (fun entry : Nat × List Text => decide (entry.1 ≤ line))
    (l := x.lines)
  have hlength : ((x.lines.map (·.1)).takeWhile fun n => n ≤ line).length =
      (x.lines.takeWhile fun entry => entry.1 ≤ line).length := by
    rw [List.takeWhile_map, List.length_map]
    rfl
  have hcount : countUpTo (x.lines.map (·.1)) line 0 x.lines.length =
      (x.lines.takeWhile fun entry => entry.1 ≤ line).length := by
    rw [← hlength]
    apply countUpTo_eq h (Nat.zero_le _)
    · rw [hlength]
      exact hprefix.length_le
    · rw [List.length_map]
  unfold gatesAt latest
  rw [hcount, List.getLast?_eq_getElem?]
  split
  · rename_i hzero
    rw [List.eq_nil_of_length_eq_zero hzero]
    rfl
  · rename_i n hn
    rw [hn, Nat.succ_sub_one, List.prefix_iff_getElem?.mp hprefix n (by omega),
      List.getElem?_eq_getElem (by omega)]

theorem latest_congr {x y : Extraction} (h : x.lines = y.lines) (line : Nat) :
    x.latest line = y.latest line := by
  unfold latest
  rw [h]

theorem lines_save (x : Extraction) (line : Nat) (gates : List Text) :
    ((x.save line gates).lines = x.lines ++ [(line, gates)] ∧
      forall entries last old, x.lines = entries ++ [(last, old)] -> last ≠ line) ∨
      exists entries old, x.lines = entries ++ [(line, old)] ∧
        (x.save line gates).lines = entries ++ [(line, gates)] := by
  unfold save
  rcases List.eq_nil_or_concat x.lines with hlines | ⟨entries, ⟨last, old⟩, hlines⟩
  · left
    simp [hlines]
  · rw [List.concat_eq_append] at hlines
    simp only [hlines, List.getLast?_concat, List.dropLast_concat]
    split
    · rename_i hlast
      rw [eq_of_beq hlast]
      exact Or.inr ⟨entries, old, rfl, rfl⟩
    · rename_i hlast
      refine Or.inl ⟨rfl, ?_⟩
      intro entries' last' old' heq
      cases (List.append_inj_right' heq rfl)
      simpa using hlast

theorem latest_save_of_lt {x : Extraction} {line last : Nat} (gates : List Text)
    (h : line < last) : (x.save last gates).latest line = x.latest line := by
  have hstop (old : List Text) (entries : List (Nat × List Text)) :
      (entries ++ [(last, old)]).takeWhile (fun entry => decide (entry.1 ≤ line)) =
        entries.takeWhile fun entry => decide (entry.1 ≤ line) := by
    rw [List.takeWhile_append]
    split
    · rename_i hlen
      rw [(List.takeWhile_prefix _).eq_of_length hlen]
      simp [Nat.not_le.mpr h]
    · rfl
  unfold latest
  rcases lines_save x last gates with ⟨hlines, _⟩ | ⟨entries, old, hold, hlines⟩
  · rw [hlines, hstop]
  · rw [hlines, hold, hstop, hstop]

section Save

variable {x : Extraction} {last : Nat}

theorem le_of_mem_save {line : Nat} (gates : List Text)
    (hlines : forall entry, entry ∈ x.lines -> entry.1 ≤ line) (h : last ≤ line) :
    forall entry, entry ∈ (x.save last gates).lines -> entry.1 ≤ line := by
  have hall (entries : List (Nat × List Text))
    (hentries : forall entry, entry ∈ entries -> entry ∈ x.lines) :
      forall entry, entry ∈ entries ++ [(last, gates)] -> entry.1 ≤ line := by
    intro entry hentry
    rcases List.mem_append.mp hentry with hentry | hentry
    · exact hlines entry (hentries entry hentry)
    · rw [List.mem_singleton.mp hentry]
      exact h
  rcases lines_save x last gates with ⟨heq, _⟩ | ⟨entries, old, hold, heq⟩
  · rw [heq]
    exact hall _ fun _ => id
  · rw [heq]
    exact hall _ fun entry hentry => hold ▸ List.mem_append_left _ hentry

theorem latest_save_of_le {line : Nat} (gates : List Text)
    (hlines : forall entry, entry ∈ x.lines -> entry.1 ≤ line) (h : last ≤ line) :
    (x.save last gates).latest line = some gates := by
  have hbound := le_of_mem_save gates hlines h
  have hall : ((x.save last gates).lines.takeWhile fun entry => decide (entry.1 ≤ line)) =
      (x.save last gates).lines :=
    List.takeWhile_eq_self_iff.mpr fun entry hentry => decide_eq_true (hbound entry hentry)
  unfold latest
  rw [hall]
  rcases lines_save x last gates with ⟨heq, _⟩ | ⟨entries, old, _, heq⟩
  · rw [heq, List.getLast?_concat]
    rfl
  · rw [heq, List.getLast?_concat]
    rfl

/-- Recording a line that is not before the others keeps them in order. -/
theorem ordered_save (gates : List Text) (h : x.Ordered)
    (hlines : forall entry, entry ∈ x.lines -> entry.1 ≤ last) : (x.save last gates).Ordered := by
  unfold Ordered at h ⊢
  rcases lines_save x last gates with ⟨heq, hlast⟩ | ⟨entries, old, hold, heq⟩
  · rw [heq, List.map_append, List.pairwise_append]
    refine ⟨h, List.pairwise_singleton _ _, ?_⟩
    intro n hn m hm
    rw [List.mem_singleton.mp hm]
    rcases List.eq_nil_or_concat x.lines with hnil | ⟨entries, entry, hlines'⟩
    · rw [hnil] at hn
      cases hn
    · rw [List.concat_eq_append] at hlines'
      have hle : entry.1 ≤ last := hlines entry (by simp [hlines'])
      have hne : entry.1 ≠ last := hlast entries entry.1 entry.2 hlines'
      rw [hlines', List.map_append] at h hn
      rcases List.mem_append.mp hn with hn | hn
      · exact Nat.lt_of_lt_of_le
          ((List.pairwise_append.mp h).2.2 n hn entry.1 (List.mem_singleton_self _)) hle
      · rw [List.mem_singleton.mp hn]
        exact Nat.lt_of_le_of_ne hle hne
  · rw [heq, List.map_append]
    rwa [hold, List.map_append] at h

end Save

end Extraction

namespace Extractor

open Gating Preprocess

/-!
# Runs of an extraction
-/

theorem walk_cons_of_step {last : Nat} {st st' : State} {t : Token} (ts : List Token)
    (ht : t.isDirective = true)
    (h : directive st (Preprocess.directive t.lexeme) t.line = (st', none)) :
    walk last st (t :: ts) =
      walk last (st'.record fun y => y.save t.lastLine (chain st'.stack)) ts := by
  rw [walk, if_pos ht]
  unfold Preprocess.directive at h
  rw [show (Directive.parse? t.text).getD ⟨[], []⟩ =
    (Directive.parse? t.lexeme.text).getD ⟨[], []⟩ from rfl, h]
  rfl

theorem walk_cons_directive {last : Nat} {st : State} {t : Token} {ts : List Token}
    {x : Extraction} (ht : t.isDirective = true) (h : (walk last st (t :: ts)).2 = .ok x) :
    exists st', directive st (Preprocess.directive t.lexeme) t.line = (st', none) ∧
      (walk last (st'.record fun y => y.save t.lastLine (chain st'.stack)) ts).2 = .ok x := by
  cases hstep : directive st (Preprocess.directive t.lexeme) t.line with
  | mk st' problem =>
      cases problem with
      | some e =>
          rw [walk, if_pos ht] at h
          have hparse : (Directive.parse? t.text).getD ⟨[], []⟩ = Preprocess.directive t.lexeme :=
            rfl
          rw [hparse, hstep] at h
          cases h
      | none =>
          rw [walk_cons_of_step ts ht hstep] at h
          exact ⟨st', rfl, h⟩

theorem walk_cons_of_not_directive {last : Nat} {st : State} {t : Token} (ts : List Token)
    (ht : t.isDirective = false) : walk last st (t :: ts) = walk last st ts := by
  rw [walk, ht]
  rfl

theorem ordered_of_walk {last : Nat} {st : State} {ts : List Token} {x : Extraction}
    (hsorted : ts.Pairwise fun t u => t.lastLine ≤ u.lastLine) (hordered : st.out.Ordered)
    (hlines : forall t, t ∈ ts -> forall entry, entry ∈ st.out.lines -> entry.1 ≤ t.lastLine)
    (h : (walk last st ts).2 = .ok x) : x.Ordered := by
  induction ts generalizing st with
  | nil =>
      rw [walk] at h
      split at h
      · cases h
        exact hordered
      · cases h
  | cons t ts ih =>
      rcases List.pairwise_cons.mp hsorted with ⟨hfirst, hsorted⟩
      cases ht : t.isDirective with
      | false =>
          rw [walk_cons_of_not_directive ts ht] at h
          exact ih hsorted hordered (fun u hu => hlines u (List.mem_cons_of_mem t hu)) h
      | true =>
          rcases walk_cons_directive ht h with ⟨st', hstep, hwalk⟩
          have hsame := (directive_spec hstep).lines
          have hbound : forall entry, entry ∈ st'.out.lines -> entry.1 ≤ t.lastLine := by
            rw [hsame]
            exact hlines t List.mem_cons_self
          have hordered' : st'.out.Ordered := by
            unfold Extraction.Ordered
            rw [hsame]
            exact hordered
          apply ih hsorted (Extraction.ordered_save _ hordered' hbound) _ hwalk
          intro u hu
          have hle := hfirst u hu
          exact Extraction.le_of_mem_save _
            (fun entry hentry => Nat.le_trans (hbound entry hentry) hle) hle

theorem latest_walk {last line : Nat} {st : State} {ts : List Token} {x : Extraction}
    (hlater : forall t, t ∈ ts -> t.isDirective = true -> line < t.lastLine)
    (h : (walk last st ts).2 = .ok x) : x.latest line = st.out.latest line := by
  induction ts generalizing st with
  | nil =>
      rw [walk] at h
      split at h
      · cases h
        rfl
      · cases h
  | cons t ts ih =>
      have hrest : forall u, u ∈ ts -> u.isDirective = true -> line < u.lastLine :=
        fun u hu => hlater u (List.mem_cons_of_mem t hu)
      cases ht : t.isDirective with
      | false =>
          rw [walk_cons_of_not_directive ts ht] at h
          exact ih hrest h
      | true =>
          rcases walk_cons_directive ht h with ⟨st', hstep, hwalk⟩
          rw [ih hrest hwalk]
          show (st'.out.save t.lastLine (chain st'.stack)).latest line = _
          rw [Extraction.latest_save_of_lt _ (hlater t List.mem_cons_self ht)]
          exact Extraction.latest_congr (directive_spec hstep).lines line

theorem latest_of_walk {last line : Nat} {st : State} {ts : List Token} {x : Extraction}
    (hsorted : ts.Pairwise fun t u => t.lastLine ≤ u.lastLine)
    (hlines : forall entry, entry ∈ st.out.lines -> entry.1 ≤ line)
    (h : (walk last st ts).2 = .ok x) :
    x.latest line = (if directivesBy line ts = [] then st.out.latest line
        else some (chain (st.context.afterAll (directivesBy line ts)).levels)) ∧
      (st.context.afterAll (directivesBy line ts)).levels.length + closings (directivesBy line ts) =
        st.stack.length + openings (directivesBy line ts) := by
  induction ts generalizing st with
  | nil => exact ⟨latest_walk (by simp) h, rfl⟩
  | cons t ts ih =>
      rcases List.pairwise_cons.mp hsorted with ⟨hfirst, hsorted⟩
      cases ht : t.isDirective with
      | false =>
          rw [walk_cons_of_not_directive ts ht] at h
          rw [directivesBy_cons_of_neg (Or.inl ht)]
          exact ih hsorted hlines h
      | true =>
          by_cases hline : t.lastLine ≤ line
          · rcases walk_cons_directive ht h with ⟨st', hstep, hwalk⟩
            have haccepts := directive_spec hstep
            rw [directivesBy_cons_of_pos ht hline]
            generalize Preprocess.directive t.lexeme = d at haccepts ⊢
            have hlines' : forall entry, entry ∈ st'.out.lines -> entry.1 ≤ line := by
              rw [haccepts.lines]
              exact hlines
            have hsaved := Extraction.latest_save_of_le (chain st'.stack) hlines' hline
            have hbound := Extraction.le_of_mem_save (chain st'.stack) hlines' hline
            have hlength := Context.length_after (c := st.context) haccepts.isOpen
            rcases ih hsorted hbound hwalk with ⟨hgates, hcount⟩
            change (st'.context.afterAll _).levels.length + _ =
              st'.context.levels.length + _ at hcount
            change (st.context.after d).levels.length + _ = st.stack.length + _ at hlength
            have hafter : st.context.afterAll (d :: directivesBy line ts) =
                st'.context.afterAll (directivesBy line ts) := by
              rw [haccepts.context]
              rfl
            rw [hafter, openings_cons, closings_cons]
            constructor
            · rw [hgates, if_neg (List.cons_ne_nil _ _)]
              split
              · rename_i hnil
                rw [hnil]
                exact hsaved
              · rfl
            · rw [congrArg Context.levels haccepts.context] at hcount
              omega
          · have hlater : forall u, u ∈ t :: ts -> u.isDirective = true -> line < u.lastLine := by
              intro u hu _
              rcases List.mem_cons.mp hu with rfl | hu
              · omega
              · have := hfirst u hu
                omega
            rw [directivesBy_eq_nil hlater]
            exact ⟨latest_walk hlater h, rfl⟩

end Extractor

theorem Lexer.pairwise_lastLine_place (p : Position) (ws : List Piece) :
    (place p ws).Pairwise fun t u => t.lastLine ≤ u.lastLine := by
  induction ws generalizing p with
  | nil => exact List.pairwise_singleton _ _
  | cons w ws ih =>
      rw [place_cons, List.pairwise_cons]
      refine ⟨?_, ih _⟩
      intro u hu
      exact Nat.le_trans (lastLine_le_of_mem_place hu) (Nat.le_add_right _ _)

theorem Extractor.ordered_extractDefines {source : Text} {ts : List Token} {defines : DefineSet}
    {x : Extraction} (htokens : tokenize source = .ok ts)
    (hx : (extractDefines ts defines).2 = .ok x) : x.Ordered := by
  rcases Lexer.tokenize_eq_ok_iff.mp htokens with ⟨ws, _, rfl⟩
  refine ordered_of_walk (Lexer.pairwise_lastLine_place _ ws) ?_ (by simp [Extraction.empty]) hx
  exact List.Pairwise.nil

/-- The recorded lines increase, so that the search among them is sound.  The gates that are found
for a line are those of the conditionals that are open behind exactly the directives that end on it
or before it; nothing is found if there is no such directive.  Where as many conditionals were
closed as opened there are no gates. -/
theorem gatesAt_eq {source : Text} {ts : List Token} {defines : DefineSet} {x : Extraction}
    (htokens : tokenize source = .ok ts) (hx : (extractDefines ts defines).2 = .ok x) (line : Nat) :
    (x.lines.map (·.1)).Pairwise (· < ·) ∧
      x.gatesAt line =
        (if Preprocess.directivesBy line ts = [] then none
          else some (Gating.chain (Gating.openOn ts line))) ∧
      (Gating.closings (Preprocess.directivesBy line ts) =
          Gating.openings (Preprocess.directivesBy line ts) ->
        (x.gatesAt line).getD [] = []) := by
  have hordered := Extractor.ordered_extractDefines htokens hx
  rw [Extraction.gatesAt_eq_latest hordered]
  rcases Lexer.tokenize_eq_ok_iff.mp htokens with ⟨ws, _, rfl⟩
  have hwalk : x.latest line = _ ∧ _ :=
    Extractor.latest_of_walk (Lexer.pairwise_lastLine_place _ ws) (by simp [Extraction.empty]) hx
  rcases hwalk with ⟨hgates, hcount⟩
  refine ⟨hordered, hgates, ?_⟩
  intro hclosed
  have hnone : Gating.openOn (Lexer.place Position.start ws) line = [] := by
    apply List.eq_nil_of_length_eq_zero
    change (Gating.openOn (Lexer.place Position.start ws) line).length + _ = 0 + _ at hcount
    omega
  change _ = if _ then none else some (Gating.chain (Gating.openOn _ line)) at hgates
  rw [hgates, hnone]
  split <;> rfl

/-- A conditional with two branches inside another one. -/
theorem gatesAt_eq_nested :
    exists ts x,
      tokenize "#ifdef A\n#ifndef B\n1\n#else\n2\n#endif\n3\n#endif\n" = .ok ts ∧
      (extractDefines ts DefineSet.empty).2 = .ok x ∧
      x.gatesAt 5 = some (["A", "B"] : List Text) ∧ x.gatesAt 7 = some (["A"] : List Text) ∧
      (x.gatesAt 9).getD [] = [] := by
  have hrun :
      ((tokenize "#ifdef A\n#ifndef B\n1\n#else\n2\n#endif\n3\n#endif\n").toOption.any fun ts =>
        (extractDefines ts DefineSet.empty).2.toOption.isSome &&
          !(Preprocess.directivesBy 5 ts).isEmpty && !(Preprocess.directivesBy 7 ts).isEmpty &&
          Gating.chain (Gating.openOn ts 5) == (["A", "B"] : List Text) &&
          Gating.chain (Gating.openOn ts 7) == (["A"] : List Text) &&
          Gating.closings (Preprocess.directivesBy 9 ts) ==
            Gating.openings (Preprocess.directivesBy 9 ts)) = true := by
    decide +kernel
  simp only [Option.any_eq_true, toOption_eq_some_iff, Bool.and_eq_true, Option.isSome_iff_exists,
    beq_iff_eq, Bool.not_eq_true', List.isEmpty_eq_false_iff] at hrun
  rcases hrun with ⟨ts, htokens, ⟨⟨⟨⟨⟨x, hx⟩, hfive⟩, hseven⟩, hinner⟩, houter⟩, hclosed⟩
  refine ⟨ts, x, htokens, hx, ?_, ?_, (gatesAt_eq htokens hx 9).2.2 hclosed⟩
  · rw [(gatesAt_eq htokens hx 5).2.1, if_neg hfive, hinner]
  · rw [(gatesAt_eq htokens hx 7).2.1, if_neg hseven, houter]

end EffectShader
