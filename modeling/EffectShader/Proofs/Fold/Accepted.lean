import EffectShader.Proofs.Condition.Known
import EffectShader.Proofs.Define.Soundness
import EffectShader.Proofs.Fold.Follows

/-!
# Folding a source with defines

The extraction of defines reads every condition and follows every conditional, the
folder only those that it reaches.  What the extraction accepts has its conditionals
closed and its conditions in order, so folding it can fail in one way only: a
condition that is reached divides by zero.
-/

namespace EffectShader

open Preprocess

/-!
# Accepted directives
-/

namespace Extractor

theorem directive_elif {st : State} {d : Directive} {line : Nat} (h : d.name = "elif") :
    directive st d line =
      match st.nextBranch? with
      | none => failed st line "#elif without #if"
      | some st => condition st d.body line := by
  rcases d with ⟨_, body⟩
  cases h
  rfl

section Accepted

variable {st st' : State} {d : Directive} {line : Nat}

theorem exists_condition (h : directive st d line = (st', none))
    (hname : d.name = "if" ∨ d.name = "elif") : exists c, Condition.parse d.body = .ok c := by
  have hparse : exists old, condition old d.body line = (st', none) := by
    rcases hname with hname | hname
    · rw [directive_if hname] at h
      exact ⟨_, h⟩
    · rw [directive_elif hname] at h
      split at h
      · cases h
      · exact ⟨_, h⟩
  rcases hparse with ⟨old, hold⟩
  cases hc : Condition.parse d.body with
  | ok c => exact ⟨c, rfl⟩
  | error e =>
      unfold condition at hold
      rw [hc] at hold
      cases hold

theorem length_of_directive (h : directive st d line = (st', none)) :
    match d.role with
    | .opens => st'.stack.length = st.stack.length + 1
    | .continues => st.stack ≠ [] ∧ st'.stack.length = st.stack.length
    | .closes => st.stack ≠ [] ∧ st'.stack.length = st.stack.length - 1
    | .other => st'.stack.length = st.stack.length := by
  have haccepts := directive_spec h
  have hlength := Gating.Context.length_after (c := st.context) haccepts.isOpen
  have hstack : st'.stack = (st.context.after d).levels :=
    congrArg Gating.Context.levels haccepts.context
  have hopen := haccepts.isOpen
  rw [hstack]
  unfold Gating.openings Gating.closings at hlength
  rw [List.countP_singleton, List.countP_singleton] at hlength
  change _ = st.stack.length + _ at hlength
  generalize d.role = role at hlength hopen ⊢
  cases role with
  | opens => simpa using hlength
  | continues => exact ⟨hopen (Or.inl rfl), by simpa using hlength⟩
  | closes => exact ⟨hopen (Or.inr rfl), Nat.eq_sub_of_add_eq (by simpa using hlength)⟩
  | other => simpa using hlength

end Accepted

end Extractor

namespace Fold

/-!
# Conditionals of an accepted source
-/

def IsZeroDivision (version : Int) (t : Token) (e : Error) : Prop :=
  exists c, (directive t.lexeme).condition? = some c ∧
    Condition.known (environment version) c = .error .divisionByZero ∧
    e = .undefined t.line (directive t.lexeme).body .divisionByZero

inductive Goes (version : Int) (t : Token) (depth : Nat) :
    Except Error (List Branch × Text) -> Prop where
  | on {stack : List Branch} {text : Text} : stack.length = depth ->
      Goes version t depth (.ok (stack, text))
  | zero {e : Error} : IsZeroDivision version t e -> Goes version t depth (.error e)

theorem name_of_opens {d : Directive} (h : d.role = .opens)
    (hdefined : d.name ≠ "ifdef" ∧ d.name ≠ "ifndef") : d.name = "if" := by
  unfold Directive.role at h
  split at h
  · rename_i hname
    simpa [hdefined.1, hdefined.2] using hname
  · repeat' split at h
    all_goals cases h

section Step

variable (version : Int) {t : Token} {stack : List Branch}

theorem decide?_accepted
    (h : (directive t.lexeme).name = "if" ∨ (directive t.lexeme).name = "elif" ->
      exists c, Condition.parse (directive t.lexeme).body = .ok c)
    (hrole : (directive t.lexeme).role = .opens ∨ (directive t.lexeme).name = "elif") :
    (exists decision, decide? version (directive t.lexeme) t.line = .ok decision) ∨
      exists e, decide? version (directive t.lexeme) t.line = .error e ∧
        IsZeroDivision version t e := by
  generalize hd : directive t.lexeme = d at h hrole ⊢
  unfold decide?
  split
  · exact Or.inl ⟨none, rfl⟩
  · rename_i hdefined
    have hname : d.name = "if" ∨ d.name = "elif" := by
      rcases hrole with hrole | hname
      · exact Or.inl (name_of_opens hrole (by simpa using hdefined))
      · exact Or.inr hname
    rcases h hname with ⟨c, hc⟩
    rw [hc]
    dsimp only
    cases hknown : Condition.known (environment version) c with
    | ok v => exact Or.inl ⟨_, rfl⟩
    | error e =>
        have he := Condition.known_error hknown
        subst he
        refine Or.inr ⟨_, rfl, c, ?_, hknown, by rw [hd]⟩
        rw [hd]
        exact Directive.condition?_of_parse hname hc

theorem openBranch_accepted
    (h : (directive t.lexeme).name = "if" ∨ (directive t.lexeme).name = "elif" ->
      exists c, Condition.parse (directive t.lexeme).body = .ok c)
    (hrole : (directive t.lexeme).role = .opens) :
    Goes version t (stack.length + 1) (openBranch version (directive t.lexeme) t stack) := by
  unfold openBranch
  split
  · rcases decide?_accepted version h (Or.inl hrole) with
      ⟨decision, hdecide⟩ | ⟨e, hdecide, hzero⟩
    · rw [hdecide]
      rcases decision with _ | _ | _ <;> exact Goes.on rfl
    · rw [hdecide]
      exact Goes.zero hzero
  · exact Goes.on rfl

theorem nextBranch_accepted
    (h : (directive t.lexeme).name = "if" ∨ (directive t.lexeme).name = "elif" ->
      exists c, Condition.parse (directive t.lexeme).body = .ok c)
    (hstack : stack ≠ []) :
    Goes version t stack.length (nextBranch version (directive t.lexeme) t stack) := by
  cases stack with
  | nil => exact absurd rfl hstack
  | cons b stack =>
      rw [nextBranch]
      split
      · exact Goes.on rfl
      · split
        · rename_i e hdecide
          split at hdecide
          · rename_i hname
            rcases decide?_accepted version h (Or.inr (eq_of_beq hname)) with
              ⟨decision, hok⟩ | ⟨e', herror, hzero⟩
            · cases hok.symm.trans hdecide
            · cases herror.symm.trans hdecide
              exact Goes.zero hzero
          · cases hdecide
        · exact Goes.on rfl

theorem closeBranch_accepted (hstack : stack ≠ []) :
    Goes version t (stack.length - 1) (closeBranch (directive t.lexeme) t stack) := by
  cases stack with
  | nil => exact absurd rfl hstack
  | cons b stack => exact Goes.on rfl

/-- Where the extraction goes on, so does the folder, with as many open conditionals, unless a
condition divides by zero. -/
theorem step_accepted {st st' : Extractor.State} (ht : t.isDirective = true)
    (h : Extractor.directive st (directive t.lexeme) t.line = (st', none))
    (hdepth : stack.length = st.stack.length) :
    Goes version t st'.stack.length (step version stack t) := by
  have hlength := Extractor.length_of_directive h
  have hcondition := Extractor.exists_condition h
  have hne : st.stack ≠ [] -> stack ≠ [] := by
    rintro hne rfl
    exact hne (List.length_eq_zero_iff.mp hdepth.symm)
  rw [step_eq, if_pos ht]
  cases hrole : (directive t.lexeme).role with
  | opens =>
      rw [hrole] at hlength
      dsimp only at hlength ⊢
      rw [hlength, ← hdepth]
      exact openBranch_accepted version hcondition hrole
  | continues =>
      rw [hrole] at hlength
      dsimp only at hlength ⊢
      rw [hlength.2, ← hdepth]
      exact nextBranch_accepted version hcondition (hne hlength.1)
  | closes =>
      rw [hrole] at hlength
      dsimp only at hlength ⊢
      rw [hlength.2, ← hdepth]
      exact closeBranch_accepted version (hne hlength.1)
  | other =>
      rw [hrole] at hlength
      dsimp only at hlength ⊢
      rw [hlength, ← hdepth]
      exact Goes.on rfl

/-- A run of the extraction, followed by the folder: the two stacks have the same height
throughout. -/
theorem foldTokens_accepted {ts : List Token} {st : Extractor.State} {last n : Nat}
    {x : Extraction} (h : (Extractor.walk last st ts).2 = .ok x)
    (hdepth : stack.length = st.stack.length) :
    (exists text, foldTokens version n stack ts = .ok text) ∨
      exists t e, t ∈ ts ∧ t.isDirective = true ∧ IsZeroDivision version t e ∧
        foldTokens version n stack ts = .error e := by
  induction ts generalizing st stack n with
  | nil =>
      rw [Extractor.walk] at h
      split at h
      · rename_i hempty
        have hnil : stack = [] := by
          rw [← List.length_eq_zero_iff, hdepth, List.length_eq_zero_iff]
          exact List.isEmpty_iff.mp hempty
        rw [hnil]
        exact Or.inl ⟨[], rfl⟩
      · cases h
  | cons t ts ih =>
      have hgoes : exists st' : Extractor.State, (Extractor.walk last st' ts).2 = .ok x ∧
          Goes version t st'.stack.length (step version stack t) ∧
          (t.isDirective = false -> exists text, step version stack t = .ok text) := by
        cases ht : t.isDirective with
        | true =>
            rcases Extractor.walk_cons_directive ht h with ⟨st', hstep, hwalk⟩
            have hgoes := step_accepted version ht hstep hdepth
            exact ⟨_, hwalk, hgoes, by simp⟩
        | false =>
            rw [Extractor.walk_cons_of_not_directive ts ht] at h
            have hstep : step version stack t = .ok (stack, plainText stack t.text) := by
              rw [step_eq, ht]
              rfl
            rw [hstep]
            exact ⟨st, h, Goes.on hdepth, fun _ => ⟨_, rfl⟩⟩
      rcases hgoes with ⟨st', hwalk, hgoes, hplain⟩
      rw [foldTokens]
      generalize hstep : step version stack t = result at hgoes hplain ⊢
      cases hgoes with
      | zero hzero =>
          refine Or.inr ⟨t, _, List.mem_cons_self, ?_, hzero, rfl⟩
          by_contra hnot
          rcases hplain (by simpa using hnot) with ⟨_, hok⟩
          cases hok
      | on hdepth' =>
          rcases ih (n := t.line) hwalk hdepth' with ⟨rest, hrest⟩ | ⟨u, e, hu, hd, hzero, hfail⟩
          · left
            dsimp only
            rw [hrest]
            exact ⟨_, rfl⟩
          · right
            dsimp only
            rw [hfail]
            exact ⟨u, e, List.mem_cons_of_mem t hu, hd, hzero, rfl⟩

end Step

end Fold

/-- A source whose defines can be extracted is folded for every version, unless the version makes a
condition divide by zero. -/
theorem fold_of_extractDefines {code : Text} {ts : List Token} {defines : DefineSet}
    {x : Extraction} (htokens : tokenize code = .ok ts)
    (hx : (extractDefines ts defines).2 = .ok x) (version : Int) :
    (exists text, fold code version = .ok text) ∨
      exists t c, t ∈ ts ∧ t.isDirective = true ∧ (directive t.lexeme).condition? = some c ∧
        Condition.known (Fold.environment version) c = .error .divisionByZero ∧
        fold code version =
          .error (.undefined t.line (directive t.lexeme).body .divisionByZero) := by
  unfold fold
  rw [htokens]
  rcases Fold.foldTokens_accepted version (n := 1) hx
    (rfl : ([] : List Fold.Branch).length = 0) with
    hfolds | ⟨t, e, ht, hd, ⟨c, hc, hzero, rfl⟩, hfails⟩
  · exact Or.inl hfolds
  · exact Or.inr ⟨t, c, ht, hd, hc, hzero, hfails⟩

/-!
# A condition that divides by the version
-/

theorem parse_quotient : Condition.parse "1 / __VERSION__" =
    .ok (.binary .div (.literal (.int 1)) (.ident "__VERSION__")) :=
  Condition.parse_of_print (by decide +kernel) (by decide +kernel)

theorem extract_quotient :
    exists ts x, tokenize "#if 1 / __VERSION__\n2\n#endif" = .ok ts ∧
      (extractDefines ts DefineSet.empty).2 = .ok x := by
  have htokens : tokenize "#if 1 / __VERSION__\n2\n#endif" = .ok
      [⟨.directive, "#if 1 / __VERSION__", ⟨1, 1, 0⟩⟩, ⟨.whitespace, "\n", ⟨1, 20, 19⟩⟩,
        ⟨.integer, "2", ⟨2, 1, 20⟩⟩, ⟨.whitespace, "\n", ⟨2, 2, 21⟩⟩,
        ⟨.directive, "#endif", ⟨3, 1, 22⟩⟩, ⟨.eof, [], ⟨3, 7, 28⟩⟩] := by
    decide +kernel
  have hif : (Directive.parse? "#if 1 / __VERSION__").getD ⟨[], []⟩ =
      ⟨"if", "1 / __VERSION__"⟩ := by decide +kernel
  have hendif : (Directive.parse? "#endif").getD ⟨[], []⟩ = ⟨"endif", []⟩ := by decide +kernel
  have hfirst (st : Extractor.State) : Extractor.directive st
      ((Directive.parse? "#if 1 / __VERSION__").getD ⟨[], []⟩) 1 = _ :=
    (congrArg (fun d => Extractor.directive st d 1) hif).trans
      ((Extractor.directive_if rfl).trans (Extractor.condition_of_parse parse_quotient _ 1))
  refine ⟨_, ⟨[(1, []), (3, [])], [], [], [], [], []⟩, htokens, ?_⟩
  rw [extractDefines, Extractor.walk_cons_of_step _ rfl (hfirst _)]
  simp only [Extractor.walk, Token.isDirective, hendif]
  rfl

/-- A condition that divides by the version is accepted, and version zero makes it divide by
zero. -/
theorem fold_of_extractDefines_quotient :
    exists ts x, tokenize "#if 1 / __VERSION__\n2\n#endif" = .ok ts ∧
      (extractDefines ts DefineSet.empty).2 = .ok x ∧
      ((exists text, fold "#if 1 / __VERSION__\n2\n#endif" 0 = .ok text) ∨
        exists t c, t ∈ ts ∧ t.isDirective = true ∧ (directive t.lexeme).condition? = some c ∧
          Condition.known (Fold.environment 0) c = .error .divisionByZero ∧
          fold "#if 1 / __VERSION__\n2\n#endif" 0 =
            .error (.undefined t.line (directive t.lexeme).body .divisionByZero)) := by
  rcases extract_quotient with ⟨ts, x, htokens, hx⟩
  exact ⟨ts, x, htokens, hx, fold_of_extractDefines htokens hx 0⟩

end EffectShader
