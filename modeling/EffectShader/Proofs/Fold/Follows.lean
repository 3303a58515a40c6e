import EffectShader.Proofs.Condition.Known
import EffectShader.Target.Fold

/-!
# Conditionals of a folded source

While a source is folded, three stacks of open conditionals are of interest:
the one of the folder, the one of a preprocessor that reads the source and the
one of a preprocessor that reads the folded source.  A conditional that was not
written is missing in the last one.
-/

namespace EffectShader

namespace Fold

open Preprocess

/-- How the open conditionals of the source and of the folded source belong to those of the
folder. -/
inductive Follows : List Branch -> List Level -> List Level -> Prop where
  | nil : Follows [] [] []
  /-- The conditional stands in a dropped region, and nothing of it is left. -/
  | dead {stack : List Branch} {levels levels' : List Level} (l : Level) :
      Follows stack levels levels' -> keeping stack = false ->
      Follows (⟨false, true, false, true⟩ :: stack) (l :: levels) levels'
  /-- The version has decided every branch so far. -/
  | unwritten {stack : List Branch} {levels levels' : List Level} (taken kept : Bool) :
      Follows stack levels levels' -> keeping stack = true ->
      Follows (⟨false, taken, kept, false⟩ :: stack) (⟨taken, kept⟩ :: levels) levels'
  /-- The version has left some branch open. -/
  | written {stack : List Branch} {levels levels' : List Level} {taken kept : Bool}
      {l l' : Level} :
      Follows stack levels levels' -> keeping stack = true ->
      l'.chosen = l.chosen -> (kept = true -> l'.active = l.active) ->
      (kept = false -> l.active = false) -> (taken = true -> l.chosen = true) ->
      Follows (⟨true, taken, kept, false⟩ :: stack) (l :: levels) (l' :: levels')

section Active

variable {stack : List Branch} {levels levels' : List Level}

theorem Follows.isActive_of_not_keeping (h : Follows stack levels levels')
    (hkeep : keeping stack = false) : isActive levels = false := by
  induction h with
  | nil => cases hkeep
  | dead l hrest hdrop ih =>
      have hinactive := ih hdrop
      unfold isActive at hinactive ⊢
      rw [List.all_cons, hinactive, Bool.and_false]
  | unwritten taken kept hrest _ _ =>
      have hkept : kept = false := hkeep
      simp [isActive, hkept]
  | written _ _ _ _ hdropped _ _ => simp [isActive, hdropped hkeep]

theorem Follows.isActive_eq (h : Follows stack levels levels') (hkeep : keeping stack = true) :
    isActive levels' = isActive levels := by
  induction h with
  | nil => rfl
  | dead l _ _ _ => cases hkeep
  | unwritten taken kept hrest hkept ih =>
      have hactive : kept = true := hkeep
      have hrest := ih hkept
      unfold isActive at hrest ⊢
      rw [List.all_cons, hrest, hactive, Bool.true_and]
  | written hrest hkept hchosen hsame hdropped htaken ih =>
      have hrest := ih hkept
      unfold isActive at hrest ⊢
      rw [List.all_cons, List.all_cons, hrest, hsame hkeep]

end Active

/-!
# Decisions
-/

/-- Every condition that the version decides holds for the macros as it was decided. -/
def Agrees (macros : Environment) (version : Int) (d : Directive) : Prop :=
  forall line met, decide? version d line = .ok (some met) -> d.isMet macros = met

theorem extends_environment {macros : Environment} {version : Int}
    (h : macros versionName = some (.int (Int64.ofInt version))) :
    macros.Extends (environment version) := by
  intro n v hn
  unfold environment at hn
  split at hn
  · rename_i hname
    cases hn
    rw [eq_of_beq hname]
    exact h
  · cases hn

def HasValue (macros : Environment) (d : Directive) : Prop :=
  forall c, d.condition? = some c -> exists v, c.value macros = .ok v

theorem agrees_of_value {macros : Environment} {version : Int} {d : Directive}
    (hmacros : macros versionName = some (.int (Int64.ofInt version)))
    (hname : d.name = "if" ∨ d.name = "elif")
    (hvalue : HasValue macros d) : Agrees macros version d := by
  intro line met hdecide
  unfold decide? at hdecide
  split at hdecide
  · cases hdecide
  · cases hparse : Condition.parse d.body with
    | error e =>
        rw [hparse] at hdecide
        cases hdecide
    | ok c =>
        have hc : d.condition? = some c := Directive.condition?_of_parse hname hparse
        cases hknown : Condition.known (environment version) c with
        | error e =>
            simp only [hparse, hknown] at hdecide
            cases hdecide
        | ok v =>
            simp only [hparse, hknown, Except.ok.injEq, Option.map_eq_some_iff] at hdecide
            rcases hdecide with ⟨v, rfl, rfl⟩
            rcases hvalue c hc with ⟨w, hw⟩
            have heq : w = v :=
              Condition.value_of_known (extends_environment hmacros) hknown hw
            rw [Directive.isMet_of_condition? hc, Condition.isMet, hw, heq]

/-!
# Steps of a conditional

A conditional directive is kept, removed, or replaced by another one that leaves
its line ends behind it.
-/

theorem name_of_continues {d : Directive} (h : d.role = .continues) (helif : d.name ≠ "elif") :
    d.name = "else" := by
  unfold Directive.role at h
  split at h
  · cases h
  · split at h
    · rename_i hname
      simpa [helif] using hname
    · split at h <;> cases h

/-- What is left of a conditional directive, and the conditionals that are open then. -/
inductive Leaves (macros : Environment) (d : Directive) (text : Text)
    (levels levels' : List Level) :
    List Branch -> Text -> Prop where
  | kept {stack : List Branch} : keeping stack = true ->
      Follows stack (enter macros d levels) (enter macros d levels') ->
      Leaves macros d text levels levels' stack text
  | removed {stack : List Branch} : Follows stack (enter macros d levels) levels' ->
      Leaves macros d text levels levels' stack (Edit.blank text)
  | otherwise {stack : List Branch} : keeping stack = true ->
      Follows stack (enter macros d levels) (enter macros ⟨"else", []⟩ levels') ->
      Leaves macros d text levels levels' stack ("#else" ++ Edit.blank text)
  | opened {stack : List Branch} {c : Condition} : keeping stack = true ->
      Condition.parse d.body = .ok c ->
      Follows stack (enter macros d levels) (enter macros ⟨"if", d.body⟩ levels') ->
      Leaves macros d text levels levels' stack ("#if " ++ d.body ++ Edit.blank text)

section Step

variable {macros : Environment} {version : Int} {d : Directive} {t : Token}
  {stack stack' : List Branch} {levels levels' : List Level} {text : Text}

theorem enter_opens (h : d.role = .opens) (levels : List Level) :
    enter macros d levels = Level.opened (d.isMet macros) :: levels := by
  unfold enter
  rw [h]

theorem enter_continues (h : d.role = .continues) (l : Level) (levels : List Level) :
    enter macros d (l :: levels) = l.next (d.isMet macros) :: levels := by
  unfold enter
  rw [h]

theorem enter_closes (h : d.role = .closes) (levels : List Level) :
    enter macros d levels = levels.tail := by
  unfold enter
  rw [h]

theorem leaves_of_openBranch (hrole : d.role = .opens) (hagrees : Agrees macros version d)
    (hfollows : Follows stack levels levels')
    (h : openBranch version d t stack = .ok (stack', text)) :
    Leaves macros d t.text levels levels' stack' text := by
  unfold openBranch at h
  split at h
  · rename_i hkeep
    split at h
    · cases h
    · cases h
      apply Leaves.kept rfl
      rw [enter_opens hrole, enter_opens hrole]
      exact Follows.written hfollows hkeep rfl (fun _ => rfl) (by simp) (by simp)
    · rename_i hdecide
      cases h
      apply Leaves.removed
      rw [enter_opens hrole, hagrees _ _ hdecide]
      exact Follows.unwritten true true hfollows hkeep
    · rename_i hdecide
      cases h
      apply Leaves.removed
      rw [enter_opens hrole, hagrees _ _ hdecide]
      exact Follows.unwritten false false hfollows hkeep
  · rename_i hdrop
    cases h
    apply Leaves.removed
    rw [enter_opens hrole]
    exact Follows.dead _ hfollows (by simpa using hdrop)

theorem leaves_of_closeBranch (hrole : d.role = .closes) (hfollows : Follows stack levels levels')
    (h : closeBranch d t stack = .ok (stack', text)) :
    Leaves macros d t.text levels levels' stack' text := by
  cases hfollows with
  | nil => cases h
  | dead l hrest _ =>
      cases h
      apply Leaves.removed
      rw [enter_closes hrole]
      exact hrest
  | unwritten taken kept hrest hkeep =>
      cases h
      apply Leaves.removed
      rw [enter_closes hrole]
      exact hrest
  | written hrest hkeep _ _ _ _ =>
      cases h
      apply Leaves.kept hkeep
      rw [enter_closes hrole, enter_closes hrole]
      exact hrest

theorem follows_after_taken {b : Branch} (hrole : d.role = .continues)
    (htaken : b.dead = true ∨ b.taken = true) (hfollows : Follows (b :: stack) levels levels') :
    Follows (⟨b.written, b.taken, false, b.dead⟩ :: stack) (enter macros d levels) levels' := by
  cases hfollows with
  | dead l hrest hdrop =>
      rw [enter_continues hrole]
      exact Follows.dead _ hrest hdrop
  | unwritten taken kept hrest hkeep =>
      have htaken : taken = true := by simpa using htaken
      rw [enter_continues hrole, htaken]
      exact Follows.unwritten true false hrest hkeep
  | written hrest hkeep hchosen hsame hdropped hsettled =>
      rename_i taken kept l l'
      have htaken : taken = true := by simpa using htaken
      have hl : l.chosen = true := hsettled htaken
      rw [enter_continues hrole]
      refine Follows.written hrest hkeep ?_ (by simp) ?_ ?_ <;> simp [Level.next, hl, hchosen]

theorem leaves_of_enterBranch {b b' : Branch} {decision : Option Bool}
    (hrole : d.role = .continues) (hlive : b.dead = false) (hopen : b.taken = false)
    (hfollows : Follows (b :: stack) levels levels')
    (hmet : forall met, decision = some met -> d.isMet macros = met)
    (hparse : decision = none -> d.name = "elif" ∧ exists c, Condition.parse d.body = .ok c)
    (h : enterBranch d t b decision = (b', text)) :
    Leaves macros d t.text levels levels' (b' :: stack) text := by
  cases hfollows with
  | dead l hrest hdrop => cases hlive
  | unwritten taken kept hrest hkeep =>
      have htaken : taken = false := hopen
      subst htaken
      cases decision with
      | none =>
          cases h
          rcases hparse rfl with ⟨hname, c, hc⟩
          apply Leaves.opened rfl hc
          rw [enter_continues hrole, enter_opens (rfl : (Directive.mk "if" d.body).role = .opens)]
          have hsame : (Directive.mk "if" d.body).isMet macros = d.isMet macros := by
            unfold Directive.isMet Directive.condition?
            rw [hname]
            rfl
          rw [hsame]
          exact Follows.written hrest hkeep (by simp [Level.next, Level.opened])
            (by simp [Level.next, Level.opened]) (by simp) (by simp)
      | some met =>
          have hd := hmet met rfl
          cases met with
          | true =>
              cases h
              apply Leaves.removed
              rw [enter_continues hrole, hd]
              exact Follows.unwritten true true hrest hkeep
          | false =>
              cases h
              apply Leaves.removed
              rw [enter_continues hrole, hd]
              exact Follows.unwritten false false hrest hkeep
  | written hrest hkeep hchosen hsame hdropped hsettled =>
      rename_i taken kept l l'
      have htaken : taken = false := hopen
      subst htaken
      cases decision with
      | none =>
          cases h
          apply Leaves.kept rfl
          rw [enter_continues hrole, enter_continues hrole]
          exact Follows.written hrest hkeep (by simp [Level.next, hchosen])
            (by simp [Level.next, hchosen]) (by simp) (by simp)
      | some met =>
          have hd := hmet met rfl
          cases met with
          | true =>
              cases h
              apply Leaves.otherwise rfl
              rw [enter_continues hrole, hd,
                enter_continues (rfl : (Directive.mk "else" []).role = .continues),
                show (Directive.mk "else" []).isMet macros = true from rfl]
              exact Follows.written hrest hkeep (by simp [Level.next])
                (by simp [Level.next, hchosen]) (by simp) (by simp [Level.next])
          | false =>
              cases h
              apply Leaves.removed
              rw [enter_continues hrole, hd]
              exact Follows.written hrest hkeep (by simp [Level.next, hchosen]) (by simp)
                (by simp [Level.next]) (by simp)

theorem parse_of_decide? {line : Nat} {decision : Option Bool} (hname : d.name = "elif")
    (h : decide? version d line = .ok decision) : exists c, Condition.parse d.body = .ok c := by
  unfold decide? at h
  split at h
  · rename_i hdefined
    rw [hname] at hdefined
    cases hdefined
  · cases hparse : Condition.parse d.body with
    | error e =>
        rw [hparse] at h
        cases h
    | ok c => exact ⟨c, rfl⟩

theorem leaves_of_nextBranch (hrole : d.role = .continues)
    (hagrees : d.name = "elif" -> Agrees macros version d) (hfollows : Follows stack levels levels')
    (h : nextBranch version d t stack = .ok (stack', text)) :
    Leaves macros d t.text levels levels' stack' text := by
  cases stack with
  | nil => cases h
  | cons b stack =>
      rw [nextBranch] at h
      split at h
      · rename_i htaken
        cases h
        exact Leaves.removed (follows_after_taken hrole (by simpa using htaken) hfollows)
      · rename_i hopen
        have hopen : b.dead = false ∧ b.taken = false := by simpa using hopen
        split at h
        · cases h
        · rename_i decision hdecision
          cases h
          apply leaves_of_enterBranch hrole hopen.1 hopen.2 hfollows _ _ rfl
          · rintro met rfl
            split at hdecision
            · rename_i helif
              exact hagrees (eq_of_beq helif) _ _ hdecision
            · rename_i helif
              cases hdecision
              have helse : d.name = "else" := name_of_continues hrole (by simpa using helif)
              unfold Directive.isMet
              rw [helse]
              rfl
          · rintro rfl
            split at hdecision
            · rename_i helif
              exact ⟨eq_of_beq helif, parse_of_decide? (eq_of_beq helif) hdecision⟩
            · cases hdecision

end Step

/-!
# Steps of the folder
-/

/-- The text that takes the place of a token without a part in any conditional. -/
def plainText (stack : List Branch) (text : Text) : Text :=
  if keeping stack then text else Edit.blank text

theorem step_eq (version : Int) (stack : List Branch) (t : Token) :
    step version stack t =
      if t.isDirective then
        match (directive t.lexeme).role with
        | .opens => openBranch version (directive t.lexeme) t stack
        | .continues => nextBranch version (directive t.lexeme) t stack
        | .closes => closeBranch (directive t.lexeme) t stack
        | .other => .ok (stack, plainText stack t.text)
      else .ok (stack, plainText stack t.text) := by
  have hd : (Directive.parse? t.text).getD ⟨[], []⟩ = directive t.lexeme := rfl
  unfold step plainText
  rw [hd]
  generalize directive t.lexeme = d
  unfold Directive.role
  dsimp only
  repeat' split
  all_goals first | rfl | simp_all

theorem step_of_not_isConditional {version : Int} {stack : List Branch} {t : Token}
    (h : isConditional t.lexeme = false) :
    step version stack t = .ok (stack, plainText stack t.text) := by
  rw [step_eq]
  split
  · rename_i ht
    have hrole : (directive t.lexeme).role = .other := by
      have hkind : t.lexeme.kind = .directive := eq_of_beq ht
      simpa [isConditional, hkind] using h
    rw [hrole]
  · rfl

theorem name_of_decide? {version : Int} {d : Directive} {line : Nat} {met : Bool}
    (hrole : d.role = .opens) (h : decide? version d line = .ok (some met)) : d.name = "if" := by
  unfold decide? at h
  split at h
  · cases h
  · rename_i hname
    unfold Directive.role at hrole
    split at hrole
    · simp_all
    · repeat' split at hrole
      all_goals cases hrole

theorem leaves_of_step {macros : Environment} {version : Int} {t : Token}
    {stack stack' : List Branch} {levels levels' : List Level} {text : Text}
    (hmacros : macros versionName = some (.int (Int64.ofInt version)))
    (hvalue : HasValue macros (directive t.lexeme)) (ht : isConditional t.lexeme = true)
    (hfollows : Follows stack levels levels') (h : step version stack t = .ok (stack', text)) :
    Leaves macros (directive t.lexeme) t.text levels levels' stack' text := by
  unfold isConditional at ht
  rw [Bool.and_eq_true] at ht
  rw [step_eq, if_pos (show t.isDirective = true from ht.1)] at h
  cases hrole : (directive t.lexeme).role with
  | opens =>
      rw [hrole] at h
      refine leaves_of_openBranch hrole ?_ hfollows h
      intro line met hdecide
      exact agrees_of_value hmacros (Or.inl (name_of_decide? hrole hdecide)) hvalue line met hdecide
  | continues =>
      rw [hrole] at h
      exact leaves_of_nextBranch hrole
        (fun hname => agrees_of_value hmacros (Or.inr hname) hvalue) hfollows h
  | closes =>
      rw [hrole] at h
      exact leaves_of_closeBranch hrole hfollows h
  | other =>
      rw [hrole] at ht
      exact absurd ht.2 (by decide)

end Fold

end EffectShader
