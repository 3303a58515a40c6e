import EffectShader.Proofs.Fold.Runs

/-!
# Folding a folded source

A second folder runs behind the first one.  It has only those conditionals open
that the first one wrote, it decides none of them, and so it keeps every branch
that it finds: folding a folded source changes nothing.
-/

namespace EffectShader

namespace Fold

open Lexer Preprocess

/-!
# Open conditionals of a folded source
-/

/-- How the open conditionals of a second folder belong to those of the first. -/
inductive Remains : List Branch -> List Branch -> Prop where
  | nil : Remains [] []
  /-- The conditional stands in a dropped region, and nothing of it is left. -/
  | dead {stack left : List Branch} : Remains stack left -> keeping stack = false ->
      Remains (⟨false, true, false, true⟩ :: stack) left
  /-- The version has decided every branch so far. -/
  | unwritten {stack left : List Branch} (taken kept : Bool) : Remains stack left ->
      keeping stack = true -> Remains (⟨false, taken, kept, false⟩ :: stack) left
  /-- The version has left some branch open; a branch that is dropped is no longer there. -/
  | written {stack left : List Branch} (taken kept : Bool) : Remains stack left ->
      keeping stack = true ->
      Remains (⟨true, taken, kept, false⟩ :: stack) (⟨true, taken, true, false⟩ :: left)

theorem Remains.keeping_left {stack left : List Branch} (h : Remains stack left) :
    keeping left = true := by
  induction h with
  | nil => rfl
  | dead _ _ ih => exact ih
  | unwritten _ _ _ _ ih => exact ih
  | written => rfl

theorem Remains.plainText_left {stack left : List Branch} (h : Remains stack left) (s : Text) :
    plainText left s = s := by
  rw [plainText, if_pos h.keeping_left]

/-!
# Steps of the second folder
-/

def Copies (version : Int) (left : List Branch) (l : Text) (left' : List Branch) : Prop :=
  forall p, step version left ⟨.directive, l, p⟩ = .ok (left', l)

/-- What the first folder leaves of a conditional directive, and how the second one goes on. -/
inductive Settles (version : Int) (text : Text) (left : List Branch) :
    List Branch -> Text -> Prop where
  | kept {stack left' : List Branch} : keeping stack = true -> Remains stack left' ->
      Copies version left text left' -> Settles version text left stack text
  | removed {stack : List Branch} : Remains stack left ->
      Settles version text left stack (Edit.blank text)
  | replaced {stack left' : List Branch} {l : Text} {d : Directive} : SpellsDirective l d ->
      keeping stack = true -> Remains stack left' -> Copies version left l left' ->
      Settles version text left stack (l ++ Edit.blank text)

section Step

variable {version : Int} {d : Directive} {t : Token} {stack stack' left : List Branch} {text : Text}

theorem step_directive (version : Int) (stack : List Branch) (text : Text) (p : Position) :
    step version stack ⟨.directive, text, p⟩ =
      match (directive ⟨.directive, text, 0⟩).role with
      | .opens => openBranch version (directive ⟨.directive, text, 0⟩) ⟨.directive, text, p⟩ stack
      | .continues => nextBranch version (directive ⟨.directive, text, 0⟩)
          ⟨.directive, text, p⟩ stack
      | .closes => closeBranch (directive ⟨.directive, text, 0⟩) ⟨.directive, text, p⟩ stack
      | .other => .ok (stack, plainText stack text) :=
  step_eq version stack ⟨.directive, text, p⟩

theorem decide?_anywhere {line : Nat} {decision : Option Bool}
    (h : decide? version d line = .ok decision) (line' : Nat) :
    decide? version d line' = .ok decision := by
  unfold decide? at h ⊢
  split
  · rename_i hname
    rw [if_pos hname] at h
    exact h
  · rename_i hname
    rw [if_neg hname] at h
    cases hparse : Condition.parse d.body with
    | error e =>
        rw [hparse] at h
        cases h
    | ok c =>
        rw [hparse] at h
        cases hknown : Condition.known (environment version) c with
        | error e =>
            simp only [hknown] at h
            cases h
        | ok v =>
            simp only [hknown] at h ⊢
            exact h

theorem settles_of_openBranch (hd : directive t.lexeme = d) (hrole : d.role = .opens)
    (hremains : Remains stack left)
    (h : openBranch version d t stack = .ok (stack', text)) :
    Settles version t.text left stack' text := by
  unfold openBranch at h
  split at h
  · rename_i hkeep
    split at h
    · cases h
    · rename_i hdecide
      cases h
      refine Settles.kept rfl (Remains.written false true hremains hkeep) ?_
      intro p
      have hdirective : directive ⟨.directive, t.text, 0⟩ = d := hd
      rw [step_directive, hdirective, hrole]
      dsimp only
      rw [openBranch, if_pos hremains.keeping_left, decide?_anywhere hdecide]
    · cases h
      exact Settles.removed (Remains.unwritten true true hremains hkeep)
    · cases h
      exact Settles.removed (Remains.unwritten false false hremains hkeep)
  · rename_i hdrop
    cases h
    exact Settles.removed (Remains.dead hremains (by simpa using hdrop))

theorem settles_of_closeBranch (hd : directive t.lexeme = d) (hrole : d.role = .closes)
    (hremains : Remains stack left) (h : closeBranch d t stack = .ok (stack', text)) :
    Settles version t.text left stack' text := by
  cases hremains with
  | nil => cases h
  | dead hrest _ =>
      cases h
      exact Settles.removed hrest
  | unwritten taken kept hrest _ =>
      cases h
      exact Settles.removed hrest
  | written taken kept hrest hkeep =>
      cases h
      refine Settles.kept hkeep hrest ?_
      intro p
      have hdirective : directive ⟨.directive, t.text, 0⟩ = d := hd
      rw [step_directive, hdirective, hrole]
      rfl

theorem spellsDirective_if {c : Condition} (hbody : Directive.IsBody d.body)
    (hparse : Condition.parse d.body = .ok c) :
    SpellsDirective ("#if " ++ d.body) ⟨"if", d.body⟩ := by
  rcases single_if hbody hparse with ⟨hline, hopen⟩
  exact spellsDirective (v := "if " ++ d.body) hline hopen
    (Directive.parse?_if hbody (Condition.ne_nil_of_parse hparse))

theorem settles_of_enterBranch {b b' : Branch} {decision : Option Bool}
    (hd : directive t.lexeme = d) (hrole : d.role = .continues) (hbody : Directive.IsBody d.body)
    (hlive : b.dead = false) (hopen : b.taken = false) (hremains : Remains (b :: stack) left)
    (hdecide : forall line,
      (if d.name == ("elif" : Text) then decide? version d line else .ok (some true)) =
        .ok decision)
    (h : enterBranch d t b decision = (b', text)) :
    Settles version t.text left (b' :: stack) text := by
  have hdirective : directive ⟨.directive, t.text, 0⟩ = d := hd
  -- only an `elif` can be left open
  have hname : decision = none -> d.name = "elif" ∧
      exists c, Condition.parse d.body = .ok c ∧
        forall line, decide? version d line = .ok none := by
    rintro rfl
    have hline := hdecide 0
    split at hline
    · rename_i helif
      rcases parse_of_decide? (eq_of_beq helif) hline with ⟨c, hc⟩
      exact ⟨eq_of_beq helif, c, hc, fun line => decide?_anywhere hline line⟩
    · cases hline
  cases hremains with
  | dead => cases hlive
  | unwritten taken kept hrest hkeep =>
      have htaken : taken = false := hopen
      subst htaken
      cases decision with
      | none =>
          cases h
          rcases hname rfl with ⟨helif, c, hparse, hundecided⟩
          have hspells := spellsDirective_if hbody hparse
          refine Settles.replaced hspells rfl (Remains.written false true hrest hkeep) ?_
          intro p
          have hsame : decide? version ⟨"if", d.body⟩ p.line = .ok none := by
            rw [← hundecided p.line]
            unfold decide?
            rw [helif]
            rfl
          rw [hspells.step_eq]
          show openBranch version ⟨"if", d.body⟩ ⟨.directive, "#if " ++ d.body, p⟩ left = _
          rw [openBranch, if_pos hrest.keeping_left]
          dsimp only [Token.line]
          rw [hsame]
      | some met =>
          cases met with
          | true =>
              cases h
              exact Settles.removed (Remains.unwritten true true hrest hkeep)
          | false =>
              cases h
              exact Settles.removed (Remains.unwritten false false hrest hkeep)
  | written taken kept hrest hkeep =>
      have htaken : taken = false := hopen
      subst htaken
      cases decision with
      | none =>
          cases h
          refine Settles.kept rfl (Remains.written false true hrest hkeep) ?_
          intro p
          rw [step_directive, hdirective, hrole]
          dsimp only
          rw [nextBranch, hdecide]
          rfl
      | some met =>
          cases met with
          | true =>
              cases h
              exact Settles.replaced spellsDirective_else rfl
                (Remains.written true true hrest hkeep)
                fun p => spellsDirective_else.step_eq p
          | false =>
              cases h
              exact Settles.removed (Remains.written false false hrest hkeep)

theorem settles_of_nextBranch (hd : directive t.lexeme = d) (hrole : d.role = .continues)
    (hbody : Directive.IsBody d.body) (hremains : Remains stack left)
    (h : nextBranch version d t stack = .ok (stack', text)) :
    Settles version t.text left stack' text := by
  cases stack with
  | nil => cases h
  | cons b stack =>
      rw [nextBranch] at h
      split at h
      · rename_i htaken
        cases h
        -- a branch behind the one that is taken is dropped
        cases hremains with
        | dead hrest hdrop => exact Settles.removed (Remains.dead hrest hdrop)
        | unwritten taken kept hrest hkeep =>
            exact Settles.removed (Remains.unwritten taken false hrest hkeep)
        | written taken kept hrest hkeep =>
            exact Settles.removed (Remains.written taken false hrest hkeep)
      · rename_i hopen
        have hopen : b.dead = false ∧ b.taken = false := by simpa using hopen
        split at h
        · cases h
        · rename_i decision hdecision
          cases h
          refine settles_of_enterBranch hd hrole hbody hopen.1 hopen.2 hremains ?_ rfl
          intro line
          by_cases helif : d.name == ("elif" : Text)
          · rw [if_pos helif] at hdecision ⊢
            exact decide?_anywhere hdecision line
          · rw [if_neg helif] at hdecision ⊢
            exact hdecision

theorem settles_of_step (hkind : isConditional t.lexeme = true)
    (hbody : Directive.IsBody (directive t.lexeme).body) (hremains : Remains stack left)
    (h : step version stack t = .ok (stack', text)) : Settles version t.text left stack' text := by
  rcases Bool.and_eq_true_iff.mp hkind with ⟨hdirective, hrole'⟩
  rw [step_eq, if_pos (show t.isDirective = true from hdirective)] at h
  cases hrole : (directive t.lexeme).role with
  | opens =>
      rw [hrole] at h
      exact settles_of_openBranch rfl hrole hremains h
  | continues =>
      rw [hrole] at h
      exact settles_of_nextBranch rfl hrole hbody hremains h
  | closes =>
      rw [hrole] at h
      exact settles_of_closeBranch rfl hrole hremains h
  | other =>
      rw [hrole] at hrole'
      exact absurd hrole' (by decide)

end Step

/-!
# A folded source, folded again
-/

section Piece

variable {version : Int} {fresh fresh' : Bool} {kind : TokenKind} {b : UInt8} {w rest rest' : Text}
  {ws : List Piece} {stack left : List Branch}

theorem folds_separators (hremains : Remains stack left) {v : Text}
    (hv : forall c, c ∈ v -> isSeparator c = true)
    (h : Folds version (fresh' || v.contains Byte.newline) left rest' [] rest') :
    Folds version fresh' left (v ++ rest') [] (v ++ rest') := by
  have hfolds := Folds.separators hv h
  rw [hremains.plainText_left] at hfolds
  exact hfolds

theorem folds_plain (hremains : Remains stack left)
    (hextent : extent? fresh b (w ++ rest) = some (kind, w.length))
    (hinert : IsInert ⟨kind, b :: w⟩) (hstart : fresh' = fresh ∨ b = Byte.newline)
    (hline : staysFresh fresh kind (b :: w) = false -> SameLine rest rest')
    (h : Folds version (staysFresh fresh kind (b :: w)) left rest' [] rest') :
    Folds version fresh' left (b :: w ++ rest') [] (b :: w ++ rest') := by
  by_cases hspace : kind = .whitespace
  · subst hspace
    rw [← staysFresh_whitespace hstart] at h
    exact folds_separators hremains (separators_of_extent? hextent) h
  · have hfresh := fresh_eq_of_extent? hextent hspace hstart
    subst hfresh
    have hcuts : Cuts fresh' [⟨kind, b :: w⟩] (staysFresh fresh' kind (b :: w)) rest' :=
      Cuts.cons (extent?_kept hextent hspace hline) (Cuts.nil _ _)
    have hruns : Runs version left [⟨kind, b :: w⟩] left
      (plainText left (spell [⟨kind, b :: w⟩])) :=
      Runs.inert (by simpa using hinert)
    have hfolds := Folds.cuts hcuts hruns h
    rw [hremains.plainText_left] at hfolds
    simpa using hfolds

theorem folds_conditional {text : Text}
    (hextent : extent? true b (w ++ rest) = some (.directive, w.length))
    (hsettles : Settles version (b :: w) left stack text)
    (hline : keeping stack = true -> SameLine rest rest')
    (h : forall f left', Remains stack left' -> Folds version f left' rest' [] rest') :
    Folds version true left (text ++ rest') [] (text ++ rest') := by
  have hrest' : keeping stack = true -> rest' = [] ∨ rest'.head? = some Byte.newline := by
    intro hkeep
    have hhead := (hline hkeep).untilBarrier.head?_eq
    rcases (directive_of_extent? hextent).2.2.2 with rfl | hnewline
    · exact Or.inl (List.head?_eq_none_iff.mp hhead)
    · exact Or.inr (hhead.trans hnewline)
  cases hsettles with
  | kept hkeep hremains hcopies =>
      have hcuts : Cuts true [⟨.directive, b :: w⟩] false rest' :=
        Cuts.cons (extent?_sameLine hextent (hline hkeep)) (Cuts.nil _ _)
      have hfolds := Folds.cuts hcuts (Runs.cons hcopies (Runs.nil _)) (h _ _ hremains)
      simpa using hfolds
  | removed hremains =>
      exact folds_separators hremains isSeparator_of_mem_blank (h _ _ hremains)
  | @replaced left' l d hspells hkeep hremains hcopies =>
      have hblank : Folds version false left' (Edit.blank (b :: w) ++ rest') []
          (Edit.blank (b :: w) ++ rest') :=
        folds_separators hremains isSeparator_of_mem_blank (h _ _ hremains)
      have hend : Edit.blank (b :: w) ++ rest' = [] ∨
          (Edit.blank (b :: w) ++ rest').head? = some Byte.newline := by
        unfold Edit.blank
        cases Text.newlines (b :: w) with
        | zero => exact hrest' hkeep
        | succ n => exact Or.inr rfl
      have hfolds := Folds.cuts (hspells.cuts _ hend) (Runs.cons hcopies (Runs.nil _)) hblank
      simpa using hfolds

end Piece

/-- The invariant of both runs: the second folder has open what remains of the first one's
conditionals, and the folded source allows a directive wherever the source does. -/
theorem folds_of_foldTokens {version : Int} {fresh fresh' : Bool} {s out : Text} {ws : List Piece}
    {stack left : List Branch} {last : Nat} {p : Position} (hlexes : Lexes fresh s ws)
    (hremains : Remains stack left) (hfresh : fresh = true -> fresh' = true)
    (hstart : keeping stack = true -> fresh' = fresh ∨ s = [] ∨ s.head? = some Byte.newline)
    (h : foldTokens version last stack (place p ws) = .ok out) :
    Folds version fresh' left out [] out := by
  induction hlexes generalizing fresh' stack left last p out with
  | nil fresh =>
      rcases foldTokens_place_nil h with ⟨rfl, rfl⟩
      cases hremains
      exact ⟨[], Lexes.nil fresh', Runs.nil []⟩
  | @cons fresh kind b w rest ws hextent hrest ih =>
      rcases foldTokens_place_cons h with ⟨stack', text, rest', hstep, hrest', rfl⟩
      cases hcond : isConditional ⟨kind, b :: w, 0⟩ with
      | true =>
          have hkind : kind = .directive := eq_of_beq (Bool.and_eq_true_iff.mp hcond).1
          subst hkind
          rcases directive_of_extent? hextent with ⟨rfl, rfl, hcontinued, hend⟩
          rw [hfresh rfl]
          have hbody : Directive.IsBody (directive ⟨.directive, Byte.hash :: w, 0⟩).body :=
            Directive.isBody_of_parse? hcontinued rfl
          have hsettles := settles_of_step (t := ⟨.directive, Byte.hash :: w, p⟩) hcond hbody
            hremains hstep
          refine folds_conditional hextent hsettles
            (fun hkeep => sameLine_of_foldTokens hrest hkeep hrest') ?_
          intro f left' hremains'
          exact ih hremains' (by simp [staysFresh]) (fun _ => Or.inr hend) hrest'
      | false =>
          have hplain : isConditional (Token.lexeme ⟨kind, b :: w, p⟩) = false := hcond
          rw [step_of_not_isConditional hplain] at hstep
          cases hstep
          cases hkeep : keeping stack with
          | true =>
              rw [plainText, if_pos hkeep]
              refine folds_plain hremains hextent hcond ?_ ?_ ?_
              · exact (hstart hkeep).imp_right (by simp)
              · intro hstays
                rw [hstays] at hrest
                exact sameLine_of_foldTokens hrest hkeep hrest'
              · exact ih hremains id (fun _ => Or.inl rfl) hrest'
          | false =>
              rw [plainText, hkeep, if_neg (by decide)]
              refine folds_separators hremains isSeparator_of_mem_blank ?_
              exact ih hremains (fresh_blank hfresh) (by simp [hkeep]) hrest'

end Fold

/-- Folding is idempotent: a folded source can be folded again, and is left as it is. -/
theorem fold_fold {code folded : Text} {version : Int} (h : fold code version = .ok folded) :
    fold folded version = .ok folded := by
  unfold fold at h
  split at h
  · cases h
  · rename_i ts htokens
    rcases Lexer.tokenize_eq_ok_iff.mp htokens with ⟨ws, hlexes, rfl⟩
    exact (Fold.folds_of_foldTokens hlexes Fold.Remains.nil id (fun _ => Or.inl rfl) h).fold_eq

/-- The `#elif` that the version decides behind an open branch becomes the `#else`. -/
theorem fold_fold_else :
    fold "#ifdef A\n1\n#elif 1\n2\n#endif" 300 = .ok "#ifdef A\n1\n#else\n2\n#endif" ∧
      fold "#ifdef A\n1\n#else\n2\n#endif" 300 = .ok "#ifdef A\n1\n#else\n2\n#endif" := by
  have hsource : tokenize "#ifdef A\n1\n#elif 1\n2\n#endif" = .ok
      [⟨.directive, "#ifdef A", ⟨1, 1, 0⟩⟩, ⟨.whitespace, "\n", ⟨1, 9, 8⟩⟩,
        ⟨.integer, "1", ⟨2, 1, 9⟩⟩, ⟨.whitespace, "\n", ⟨2, 2, 10⟩⟩,
        ⟨.directive, "#elif 1", ⟨3, 1, 11⟩⟩, ⟨.whitespace, "\n", ⟨3, 8, 18⟩⟩,
        ⟨.integer, "2", ⟨4, 1, 19⟩⟩, ⟨.whitespace, "\n", ⟨4, 2, 20⟩⟩,
        ⟨.directive, "#endif", ⟨5, 1, 21⟩⟩, ⟨.eof, [], ⟨5, 7, 27⟩⟩] := by
    decide +kernel
  have hopens : Fold.step 300 [] ⟨.directive, "#ifdef A", ⟨1, 1, 0⟩⟩ =
      .ok ([⟨true, false, true, false⟩], "#ifdef A") :=
    toOption_eq_some_iff.mp (by decide +kernel)
  have hspace (p : Position) : Fold.step 300 [⟨true, false, true, false⟩] ⟨.whitespace, "\n", p⟩ =
      .ok ([⟨true, false, true, false⟩], "\n") := rfl
  have hone (p : Position) : Fold.step 300 [⟨true, false, true, false⟩] ⟨.integer, "1", p⟩ =
      .ok ([⟨true, false, true, false⟩], "1") := rfl
  have helif : (Directive.parse? "#elif 1").getD ⟨[], []⟩ = ⟨"elif", "1"⟩ := by decide +kernel
  have hnext : Fold.step 300 [⟨true, false, true, false⟩] ⟨.directive, "#elif 1", ⟨3, 1, 11⟩⟩ =
      .ok ([⟨true, true, true, false⟩], "#else") := by
    unfold Fold.step
    dsimp only
    rw [helif, if_pos (by rfl), if_neg (by decide +kernel), if_pos (by decide +kernel),
      Fold.nextBranch, if_neg (by decide), if_pos (by decide +kernel),
      Fold.decide?_one 300 (by decide +kernel)]
    rfl
  have hrest : Fold.foldTokens 300 3 [⟨true, true, true, false⟩]
      [⟨.whitespace, "\n", ⟨3, 8, 18⟩⟩, ⟨.integer, "2", ⟨4, 1, 19⟩⟩,
        ⟨.whitespace, "\n", ⟨4, 2, 20⟩⟩, ⟨.directive, "#endif", ⟨5, 1, 21⟩⟩,
        ⟨.eof, [], ⟨5, 7, 27⟩⟩] = .ok "\n2\n#endif" :=
    toOption_eq_some_iff.mp (by decide +kernel)
  have h : fold "#ifdef A\n1\n#elif 1\n2\n#endif" 300 = .ok "#ifdef A\n1\n#else\n2\n#endif" := by
    unfold fold
    rw [hsource]
    exact (Fold.foldTokens_cons_of_step hopens (Fold.foldTokens_cons_of_step (hspace _)
      (Fold.foldTokens_cons_of_step (hone _) (Fold.foldTokens_cons_of_step (hspace _)
        (Fold.foldTokens_cons_of_step hnext hrest))))).trans
          (congrArg Except.ok (by decide +kernel))
  exact ⟨h, fold_fold h⟩

end EffectShader
