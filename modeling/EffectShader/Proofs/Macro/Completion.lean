import EffectShader.Proofs.Macro.CallSites
import EffectShader.Proofs.Macro.Spelling

/-!
# Expanding until no call is left

The expansion of a text is a run of steps.  Each step reads the definitions anew and
replaces the leftmost call of a macro that is not blocked.  A run is no longer than the
limit.  Where it ends without an error and before the limit, no call is left outside the
definition of the macro that is called, and blanking the definitions leaves calls of
recursive macros only.
-/

namespace EffectShader

namespace FunctionMacro

inductive Step (blocked : List Text) : Progress -> Progress -> Prop where
  | expand {p q : Progress} {macros : List FunctionMacro} {m : FunctionMacro} {offset : Nat} :
      definitions p.code = .ok macros -> leftmostCall? p.code blocked macros = some (m, offset) ->
      expandCall p m offset (macros.any fun m => m.spans offset) = .ok q -> Step blocked p q

inductive Runs (blocked : List Text) : Nat -> Progress -> Progress -> Prop where
  | stay (p : Progress) : Runs blocked 0 p p
  | step {n : Nat} {p q r : Progress} :
      Step blocked p q -> Runs blocked n q r -> Runs blocked (n + 1) p r

/-- What is reported after a number of expansions, the last of which led to `p`. -/
inductive Ends (blocked : List Text) (n : Nat) (p : Progress) : Expansion -> Prop where
  | malformed {e : Diagnostic} : definitions p.code = .error e ->
      Ends blocked n p ⟨.error e, p.lines, p.warnings⟩
  | unterminated {macros : List FunctionMacro} {m : FunctionMacro} {offset : Nat} {e : Diagnostic} :
      definitions p.code = .ok macros -> leftmostCall? p.code blocked macros = some (m, offset) ->
      expandCall p m offset (macros.any fun m => m.spans offset) = .error e ->
      Ends blocked n p ⟨.error e, p.lines, p.warnings⟩
  | settled {macros : List FunctionMacro} :
      definitions p.code = .ok macros -> leftmostCall? p.code blocked macros = none ->
      Ends blocked n p ⟨.ok (removeDefinitions p.code macros), p.lines, p.warnings⟩
  | stopped {macros : List FunctionMacro} : n = maxExpansions ->
      definitions p.code = .ok macros ->
      Ends blocked n p
        ⟨.ok (removeDefinitions p.code macros), p.lines, p.warnings ++ [limitWarning]⟩

theorem exists_runs_expandLoop {blocked : List Text} {n budget : Nat} {p : Progress}
    {macros : List FunctionMacro} (hmacros : definitions p.code = .ok macros)
    (hbudget : n + budget = maxExpansions) :
    exists k last, k ≤ budget ∧ Runs blocked k p last ∧
      Ends blocked (n + k) last (expandLoop blocked budget p macros) := by
  induction budget generalizing n p macros with
  | zero => exact ⟨0, p, Nat.le_refl 0, Runs.stay p, Ends.stopped hbudget hmacros⟩
  | succ budget ih =>
      rw [expandLoop]
      cases hleftmost : leftmostCall? p.code blocked macros with
      | none => exact ⟨0, p, Nat.zero_le _, Runs.stay p, Ends.settled hmacros hleftmost⟩
      | some call =>
          rcases call with ⟨m, offset⟩
          dsimp only
          cases hcall : expandCall p m offset (macros.any fun m => m.spans offset) with
          | error e =>
              exact ⟨0, p, Nat.zero_le _, Runs.stay p, Ends.unterminated hmacros hleftmost hcall⟩
          | ok q =>
              have hstep := Step.expand hmacros hleftmost hcall
              dsimp only
              cases hnext : definitions q.code with
              | error e =>
                  exact ⟨1, q, Nat.le_add_left 1 budget, Runs.step hstep (Runs.stay q),
                    Ends.malformed hnext⟩
              | ok next =>
                  rcases ih hnext (n := n + 1) (by omega) with ⟨k, last, hk, hruns, hends⟩
                  refine ⟨k + 1, last, Nat.succ_le_succ hk, Runs.step hstep hruns, ?_⟩
                  rw [← Nat.add_assoc, Nat.add_right_comm]
                  exact hends

/-!
# Warnings
-/

theorem warnings_warned (p : Progress) (c : Bool) (d : Diagnostic) :
    p.warnings ⊆ (if c = true then p else p.warn d).warnings := by
  cases c with
  | false => exact List.subset_append_left _ _
  | true => exact List.Subset.refl _

theorem warnings_of_expandCall {p q : Progress} {m : FunctionMacro} {offset : Nat}
    {inDefinition : Bool} (h : expandCall p m offset inDefinition = .ok q) :
    p.warnings ⊆ q.warnings := by
  unfold expandCall at h
  dsimp only at h
  split at h
  · cases h
  · cases h
    exact warnings_warned p _ _

theorem Runs.warnings {blocked : List Text} {n : Nat} {p q : Progress}
    (h : Runs blocked n p q) : p.warnings ⊆ q.warnings := by
  induction h with
  | stay p => exact List.Subset.refl _
  | step hstep _ ih =>
      cases hstep with
      | expand _ _ hcall => exact List.Subset.trans (warnings_of_expandCall hcall) ih

theorem Ends.warnings {blocked : List Text} {n : Nat} {p : Progress} {x : Expansion}
    (h : Ends blocked n p x) : p.warnings ⊆ x.warnings := by
  cases h with
  | malformed => exact List.Subset.refl _
  | unterminated => exact List.Subset.refl _
  | settled => exact List.Subset.refl _
  | stopped => exact List.subset_append_left _ _

/-!
# Complete expansions
-/

/-- The macros of a text that call themselves. -/
def recursive (code : Text) : List FunctionMacro :=
  ((definitions code).toOption.getD []).filter isRecursive

/-- An expansion before its first step. -/
def initial (code : Text) (lines : LineMap) : Progress :=
  ⟨code, lines, (recursive code).map fun m => lines.relocate (recursionWarning m)⟩

/-- The names of macros that are not expanded. -/
def blocked (code : Text) : List Text :=
  (recursive code).map (·.name)

theorem exists_runs_expand (code : Text) (lines : LineMap)
    (hpragma : Text.includes code "#pragma" = true) :
    exists n last, n ≤ maxExpansions ∧ Runs (blocked code) n (initial code lines) last ∧
      Ends (blocked code) n last (expand code lines) := by
  unfold expand
  rw [hpragma]
  simp only [Bool.not_true, Bool.false_eq_true, if_false]
  cases hmacros : definitions code with
  | error e =>
      have hinitial : initial code lines = ⟨code, lines, []⟩ := by
        rw [initial, recursive, hmacros]
        rfl
      rw [hinitial]
      exact ⟨0, _, Nat.zero_le _, Runs.stay _, Ends.malformed hmacros⟩
  | ok macros =>
      have hrecursive : recursive code = macros.filter isRecursive := by
        rw [recursive, hmacros]
        rfl
      have hinitial : initial code lines = ⟨code, lines,
          (macros.filter isRecursive).map fun m => lines.relocate (recursionWarning m)⟩ := by
        rw [initial, hrecursive]
      rw [hinitial, blocked, hrecursive]
      dsimp only
      split
      · rename_i hempty
        rw [List.isEmpty_iff] at hempty
        subst hempty
        exact ⟨0, _, Nat.zero_le _, Runs.stay _, Ends.settled (p := ⟨code, lines, []⟩) hmacros rfl⟩
      · rcases exists_runs_expandLoop (p := ⟨code, lines, _⟩) hmacros (Nat.zero_add _) with
          ⟨n, last, hn, hruns, hends⟩
        rw [Nat.zero_add] at hends
        exact ⟨n, last, hn, hruns, hends⟩

def better (code : Text) (blocked : List Text) (best : Option (FunctionMacro × Nat))
    (m : FunctionMacro) : Option (FunctionMacro × Nat) :=
  if blocked.contains m.name then best
  else
    match firstCall? code m, best with
    | none, best => best
    | some offset, none => some (m, offset)
    | some offset, some (m', offset') =>
        if offset < offset' then some (m, offset) else some (m', offset')

theorem better_eq_none {code : Text} {blocked : List Text}
    {best : Option (FunctionMacro × Nat)} {m : FunctionMacro}
    (h : better code blocked best m = none) :
    best = none ∧ (m.name ∉ blocked -> firstCall? code m = none) := by
  unfold better at h
  split at h
  · rename_i hblocked
    exact ⟨h, fun hfree => absurd (List.contains_iff_mem.mp hblocked) hfree⟩
  · cases hfirst : firstCall? code m with
    | none =>
        rw [hfirst] at h
        exact ⟨h, fun _ => rfl⟩
    | some offset =>
        rw [hfirst] at h
        cases best with
        | none => cases h
        | some call =>
            dsimp only at h
            split at h
            · cases h
            · cases h

theorem firstCall?_of_foldl {code : Text} {blocked : List Text}
    {best : Option (FunctionMacro × Nat)} {macros : List FunctionMacro}
    (h : macros.foldl (better code blocked) best = none) :
    best = none ∧ forall m, m ∈ macros -> m.name ∉ blocked -> firstCall? code m = none := by
  induction macros generalizing best with
  | nil => exact ⟨h, List.forall_mem_nil _⟩
  | cons m macros ih =>
      rcases ih h with ⟨hbest, hmacros⟩
      rcases better_eq_none hbest with ⟨hnone, hm⟩
      exact ⟨hnone, List.forall_mem_cons.mpr ⟨hm, hmacros⟩⟩

/-- Expansion makes no more steps than the limit.  If it succeeds below the limit, the text has no
definition of a function macro and calls no macro that was defined when the last call had been
expanded, except for those that were reported as recursive. -/
theorem expand_complete (code : Text) (lines : LineMap)
    (hpragma : Text.includes code "#pragma" = true) :
    exists n last, n ≤ maxExpansions ∧ Runs (blocked code) n (initial code lines) last ∧
      Ends (blocked code) n last (expand code lines) ∧
      forall text, (expand code lines).result = .ok text ->
        limitWarning ∉ (expand code lines).warnings ->
          definitions text = .ok [] ∧
            exists macros, definitions last.code = .ok macros ∧
              forall m, m ∈ macros -> Calls m.name text ->
                exists r, r ∈ recursive code ∧ r.name = m.name ∧
                  lines.relocate (recursionWarning r) ∈ (expand code lines).warnings := by
  rcases exists_runs_expand code lines hpragma with ⟨n, last, hn, hruns, hends⟩
  refine ⟨n, last, hn, hruns, hends, ?_⟩
  have hwarnings := List.Subset.trans hruns.warnings hends.warnings
  intro text htext hlimit
  generalize expand code lines = x at *
  cases hends with
  | malformed => cases htext
  | unterminated => cases htext
  | stopped => simp at hlimit
  | @settled macros hmacros hleftmost =>
      cases htext
      refine ⟨definitions_removeDefinitions hmacros, macros, hmacros, ?_⟩
      intro m hm hcalls
      have hname := isWord_of_mem_name macros hmacros m hm
      rcases exists_call_of_removeDefinitions hmacros hname hcalls with
        ⟨before, after, hcode, hcall, houtside⟩
      have hblocked : m.name ∈ blocked code := by
        by_contra hfree
        have hfirst := (firstCall?_of_foldl hleftmost).2 m hm hfree
        have heligible := not_eligible_of_callIn? hfirst hcode hcall
        rw [houtside m hm] at heligible
        cases heligible
      rcases List.mem_map.mp hblocked with ⟨r, hr, hrname⟩
      exact ⟨r, hr, hrname, hwarnings (List.mem_map_of_mem hr)⟩

/-- A macro that is expanded and one that calls itself. -/
def recursiveSource : Text :=
  "#pragma define A(x) x\n#pragma define R(x) R(x)\nA(b) R(c)"

theorem expand_complete_recursive :
    Text.includes recursiveSource "#pragma" = true ∧
      (expand recursiveSource .identity).result = .ok "\n\nb R(c)" ∧
      exists n last macros, n ≤ maxExpansions ∧
        Runs (blocked recursiveSource) n (initial recursiveSource .identity) last ∧
        definitions "\n\nb R(c)" = .ok [] ∧ definitions last.code = .ok macros ∧
        forall m, m ∈ macros -> Calls m.name "\n\nb R(c)" ->
          exists r, r ∈ recursive recursiveSource ∧ r.name = m.name ∧
            LineMap.identity.relocate (recursionWarning r) ∈
              (expand recursiveSource .identity).warnings := by
  have hpragma : Text.includes recursiveSource "#pragma" = true := by
    decide +kernel
  have hresult : (expand recursiveSource .identity).result = .ok "\n\nb R(c)" ∧
      limitWarning ∉ (expand recursiveSource .identity).warnings := by
    decide +kernel
  rcases expand_complete recursiveSource .identity hpragma with ⟨n, last, hn, hruns, _, htext⟩
  rcases htext _ hresult.1 hresult.2 with ⟨hnone, macros, hmacros, hcalls⟩
  exact ⟨hpragma, hresult.1, n, last, macros, hn, hruns, hnone, hmacros, hcalls⟩

end FunctionMacro

/-!
# The shortcut of the expansion

A text in which the word `#pragma` does not occur is returned as it is, before its lines are read.
A directive is read across white space and comments, so a definition can be spelled with a
space or a comment behind the hash sign.  Where every definition that is spelled so stands in a
text that has the word somewhere, the shortcut changes nothing; a text that does not have it keeps
such a definition and its calls.
-/

namespace FunctionMacro

/-- Expands the function macros of a text whether or not it has the word `#pragma`. -/
def expandAll (code : Text) (lines : LineMap) : Expansion :=
  match definitions code with
  | .error e => ⟨.error e, lines, []⟩
  | .ok macros =>
      let blocked := macros.filter isRecursive
      let warnings := blocked.map fun m => lines.relocate (recursionWarning m)
      if macros.isEmpty then ⟨.ok code, lines, []⟩
      else expandLoop (blocked.map (·.name)) maxExpansions ⟨code, lines, warnings⟩ macros

theorem expand_eq_ite (code : Text) (lines : LineMap) :
    expand code lines =
      if Text.includes code "#pragma" = true then expandAll code lines
      else ⟨.ok code, lines, []⟩ := by
  unfold expand expandAll
  cases Text.includes code "#pragma" <;> rfl

/-!
# Texts without definitions
-/

theorem plain_of_definitionsFrom {n offset : Nat} {ls : List Text}
    (h : definitionsFrom n offset ls = .ok []) {l : Text} (hl : l ∈ ls) :
    isDefinition l = false := by
  fun_induction definitionsFrom n offset ls with
  | case1 => cases hl
  | case2 => cases h
  | case3 => cases h
  | case4 => cases h
  | case5 n offset text ls hdef ih =>
      rcases List.mem_cons.mp hl with rfl | hl
      · simpa using hdef
      · exact ih h hl

theorem definitions_eq_nil_iff {code : Text} :
    definitions code = .ok [] ↔ forall l, l ∈ code.lines -> isDefinition l = false :=
  ⟨fun h _ hl => plain_of_definitionsFrom h hl, definitionsFrom_of_plain⟩

theorem definitions_of_expandAll {code text : Text} {lines : LineMap}
    (h : (expandAll code lines).result = .ok text) : definitions text = .ok [] := by
  unfold expandAll at h
  split at h
  · cases h
  · rename_i macros hmacros
    dsimp only at h
    split at h
    · rename_i hempty
      cases h
      rw [hmacros, List.isEmpty_iff.mp hempty]
    · rcases exists_runs_expandLoop (p := ⟨code, lines, _⟩) hmacros (Nat.zero_add _) with
        ⟨n, last, _, _, hends⟩
      generalize expandLoop _ _ _ _ = x at h hends
      cases hends with
      | malformed => cases h
      | unterminated => cases h
      | settled hlast =>
          cases h
          exact definitions_removeDefinitions hlast
      | stopped _ hlast =>
          cases h
          exact definitions_removeDefinitions hlast

theorem expandAll_of_plain {code : Text} (h : definitions code = .ok []) (lines : LineMap) :
    expandAll code lines = ⟨.ok code, lines, []⟩ := by
  unfold expandAll
  rw [h]
  rfl

/-!
# Definitions with a space behind the hash sign
-/

/-- The line starts a definition, and white space or a comment stands behind its hash sign. -/
def IsSpaced (l : Text) : Prop :=
  isDefinition l = true ∧ exists p : Spelling, p.Spells l ∧ p.first ≠ []

theorem includes_of_mem_lines {code l word : Text} (hword : word ≠ []) (hl : l ∈ code.lines)
    (h : Text.includes l word = true) : Text.includes code word = true := by
  rcases (Text.includes_iff hword).mp h with ⟨u, v, rfl⟩
  rcases List.append_of_mem hl with ⟨ks, ms, hlines⟩
  apply (Text.includes_iff hword).mpr
  refine ⟨Text.ended ks ++ u, v ++ ms.flatMap (Byte.newline :: ·), ?_⟩
  rw [← Text.unlines_lines code, hlines, Text.unlines_append_cons]
  simp only [List.append_assoc]

theorem isSpaced_or_includes {l : Text} (hl : Byte.newline ∉ l) (h : isDefinition l = true) :
    IsSpaced l ∨ Text.includes l "#pragma" = true := by
  rcases exists_spelling hl h with ⟨p, hp⟩
  by_cases hfirst : p.first = []
  · refine Or.inr ((Text.includes_iff (by decide)).mpr
      ⟨p.indent, p.second ++ ("define" ++ (p.third ++ p.signature)), ?_⟩)
    rw [hp.text, Spelling.text, Spelling.lead, hfirst]
    simp only [List.append_assoc]
    rfl
  · exact Or.inl ⟨h, p, hp, hfirst⟩

/-- Expansion agrees with that of the text whose words are not looked at if and only if a text
without the word `#pragma` has no definition, and this is so if and only if none of its lines is a
definition with white space or a comment behind the hash sign. -/
theorem expand_eq_expandAll_iff (code : Text) (lines : LineMap) :
    (expand code lines = expandAll code lines ↔
      (¬ Text.includes code "#pragma" = true -> definitions code = .ok [])) ∧
    ((¬ Text.includes code "#pragma" = true -> definitions code = .ok []) ↔
      (¬ Text.includes code "#pragma" = true -> forall l, l ∈ code.lines -> ¬ IsSpaced l)) := by
  constructor
  · rw [expand_eq_ite]
    by_cases hword : Text.includes code "#pragma" = true
    · simp only [hword, if_true, not_true, false_implies]
    · rw [if_neg hword]
      constructor
      · intro h _
        exact @definitions_of_expandAll code code lines (by rw [← h])
      · exact fun h => (expandAll_of_plain (h hword) lines).symm
  · refine forall_congr' fun hword => ?_
    rw [definitions_eq_nil_iff]
    constructor
    · rintro h l hl ⟨hdef, _⟩
      rw [h l hl] at hdef
      cases hdef
    · intro h l hl
      by_contra hdef
      rw [Bool.not_eq_false] at hdef
      rcases isSpaced_or_includes (Text.not_mem_of_mem_lines hl) hdef with hspaced | hincludes
      · exact h l hl hspaced
      · exact hword (includes_of_mem_lines (by decide) hl hincludes)

/-- A definition with a space behind the hash sign is kept together with its call, which the
algorithm expands. -/
theorem expand_spaced_kept :
    let code : Text := "# pragma define F(x) x\nF(1)"
    ¬ Text.includes code "#pragma" = true ∧
      definitions code = .ok [⟨"F", ["x"], "x", 1, 0, 22⟩] ∧
      (expand code .identity).result = .ok code ∧
      (expandAll code .identity).result = .ok "\n1" := by
  decide +kernel

end FunctionMacro

end EffectShader
