import EffectShader.Proofs.Fold.Meaning
import EffectShader.Proofs.Text.Lines
import Mathlib.Data.List.Basic

/-!
# Folding a source in parts

A source is folded piece by piece.  A part that is cut into whole pieces is folded
with the conditionals that are open before it, whatever follows.  Lines that belong
to no conditional are kept or leave their newlines; a conditional that is decided
leaves the branch that is taken.
-/

namespace EffectShader

namespace Fold

open Lexer Preprocess
open Text (ended ended_cons)

/-- Folding the pieces leads from these open conditionals to those, and leaves a text. -/
inductive Runs (version : Int) : List Branch -> List Piece -> List Branch -> Text -> Prop where
  | nil (stack : List Branch) : Runs version stack [] stack []
  | cons {stack stack' stack'' : List Branch} {w : Piece} {ws : List Piece} {text out : Text} :
      (forall p, step version stack ⟨w.kind, w.text, p⟩ = .ok (stack', text)) ->
      Runs version stack' ws stack'' out -> Runs version stack (w :: ws) stack'' (text ++ out)

section

variable {version : Int} {stack stack' stack'' : List Branch}

theorem Runs.append {us ws : List Piece} {text out : Text} (hus : Runs version stack us stack' text)
    (hws : Runs version stack' ws stack'' out) :
    Runs version stack (us ++ ws) stack'' (text ++ out) := by
  induction hus with
  | nil => exact hws
  | cons hstep _ ih =>
      rw [List.append_assoc]
      exact Runs.cons hstep (ih hws)

theorem Runs.foldTokens_eq {ws : List Piece} {out : Text} (h : Runs version stack ws stack' out)
    (hclosed : stack' = []) (last : Nat) (p : Position) :
    foldTokens version last stack (place p ws) = .ok out := by
  induction h generalizing last p with
  | nil =>
      rw [hclosed]
      rfl
  | cons hstep _ ih =>
      rw [place_cons, foldTokens, hstep p]
      dsimp only
      rw [ih hclosed]

theorem blank_append (s t : Text) : Edit.blank (s ++ t) = Edit.blank s ++ Edit.blank t := by
  unfold Edit.blank
  rw [Text.newlines_append, List.replicate_add]

theorem plainText_append (stack : List Branch) (s t : Text) :
    plainText stack (s ++ t) = plainText stack s ++ plainText stack t := by
  unfold plainText
  split
  · rfl
  · exact blank_append s t

theorem plainText_nil (stack : List Branch) : plainText stack [] = [] := by
  unfold plainText
  split <;> rfl

theorem plainText_newline (stack : List Branch) :
    plainText stack [Byte.newline] = [Byte.newline] := by
  unfold plainText
  split <;> rfl

def IsInert (w : Piece) : Prop :=
  isConditional ⟨w.kind, w.text, 0⟩ = false

theorem IsInert.step_eq {w : Piece} (h : IsInert w) (p : Position) :
    step version stack ⟨w.kind, w.text, p⟩ = .ok (stack, plainText stack w.text) :=
  step_of_not_isConditional h

theorem isInert_of_kind {w : Piece} (h : w.kind ≠ .directive) : IsInert w :=
  not_isConditional_of_kind h

theorem Runs.inert {ws : List Piece} (h : forall w, w ∈ ws -> IsInert w) :
    Runs version stack ws stack (plainText stack (spell ws)) := by
  induction ws with
  | nil =>
      rw [spell_nil, plainText_nil]
      exact Runs.nil stack
  | cons w ws ih =>
      rcases List.forall_mem_cons.mp h with ⟨hw, hws⟩
      rw [spell_cons, plainText_append]
      exact Runs.cons hw.step_eq (ih hws)

/-!
# Parts of a source
-/

/-- The source, read with these conditionals open, leaves the text and those conditionals. -/
def Folds (version : Int) (fresh : Bool) (stack : List Branch) (s : Text) (stack' : List Branch)
    (out : Text) : Prop :=
  exists ws, Lexes fresh s ws ∧ Runs version stack ws stack' out

theorem Folds.fold_eq {code out : Text} (h : Folds version true [] code [] out) :
    fold code version = .ok out := by
  rcases h with ⟨ws, hlexes, hruns⟩
  unfold fold
  rw [tokenize_eq_ok_iff.mpr ⟨ws, hlexes, rfl⟩]
  exact hruns.foldTokens_eq rfl _ _

theorem Folds.cuts {f g : Bool} {us : List Piece} {r text out : Text} (hcuts : Cuts f us g r)
    (hruns : Runs version stack us stack' text) (h : Folds version g stack' r stack'' out) :
    Folds version f stack (spell us ++ r) stack'' (text ++ out) := by
  rcases h with ⟨ws, hws, hrest⟩
  exact ⟨us ++ ws, hcuts.lexes hws, hruns.append hrest⟩

theorem Folds.separators {fresh : Bool} {w s out : Text}
    (hw : forall c, c ∈ w -> isSeparator c = true)
    (h : Folds version (fresh || w.contains Byte.newline) stack s stack' out) :
    Folds version fresh stack (w ++ s) stack' (plainText stack w ++ out) := by
  have hspace : forall v, IsInert ⟨.whitespace, v⟩ := fun v => isInert_of_kind (by simp)
  rcases h with ⟨ws, hlexes, hruns⟩
  rcases exists_lexes_separators hw hlexes with ⟨us, hus, hshape⟩
  refine ⟨us, hus, ?_⟩
  rcases hshape with ⟨rfl, rfl⟩ | rfl | ⟨v, vs, rfl, rfl⟩
  · rw [plainText_nil]
    exact hruns
  · exact Runs.cons (hspace w).step_eq hruns
  · cases hruns with
    | cons hstep hrest =>
        have hplain := hstep Position.start
        rw [(hspace v).step_eq] at hplain
        cases hplain
        rw [← List.append_assoc, ← plainText_append]
        exact Runs.cons (hspace (w ++ v)).step_eq hrest

theorem Folds.newline {fresh : Bool} {r out : Text} (h : Folds version true stack r stack' out) :
    Folds version fresh stack (Byte.newline :: r) stack' (Byte.newline :: out) := by
  have hsep : forall c, c ∈ [Byte.newline] -> isSeparator c = true := by simp [isSeparator]
  have hfresh : (fresh || [Byte.newline].contains Byte.newline) = true := by simp
  have hfolds := Folds.separators hsep (hfresh ▸ h)
  rw [plainText_newline] at hfolds
  exact hfolds

/-- The pieces end in white space with a newline, so that a line may follow them. -/
def EndsLine (us : List Piece) : Prop :=
  us = [] ∨ exists w, us.getLast? = some ⟨.whitespace, w⟩ ∧ Byte.newline ∈ w

theorem EndsLine.fresh {us : List Piece} {g : Bool} {r : Text} (h : EndsLine us)
    (hcuts : Cuts true us g r) : g = true := by
  rcases h with rfl | ⟨w, hlast, hnewline⟩
  · cases hcuts
    rfl
  · rcases List.getLast?_eq_some_iff.mp hlast with ⟨vs, rfl⟩
    rcases hcuts.split with ⟨f, _, hend⟩
    cases hend with
    | cons _ hnil =>
        cases hnil
        simp [staysFresh, hnewline]

theorem Folds.behind {before r text out : Text} {us : List Piece} (hlexes : Lexes true before us)
    (hend : EndsLine us) (hruns : Runs version stack us stack' text)
    (hr : forall c, r.head? = some c -> isSeparator c = false)
    (h : Folds version true stack' r stack'' out) :
    Folds version true stack (before ++ r) stack'' (text ++ out) := by
  rw [← List.append_nil us] at hlexes
  rcases hlexes.cuts with ⟨g, r', rfl, hcuts, hnil⟩
  cases hnil
  rw [hend.fresh hcuts] at hcuts
  have hcloses : forall w, us.getLast? = some w -> Closes w [] r := by
    intro w hw
    rcases hend with rfl | ⟨v, hlast, _⟩
    · cases hw
    · cases hlast.symm.trans hw
      exact hr
  rw [List.append_nil]
  exact Folds.cuts (hcuts.exchange hcloses) hruns h

/-!
# Lines
-/

def CutsLine (us : List Piece) : Prop :=
  forall r, r = [] ∨ r.head? = some Byte.newline -> exists g, Cuts true us g r

def IsInertLine (l : Text) : Prop :=
  exists us, spell us = l ∧ CutsLine us ∧ forall u, u ∈ us -> IsInert u

theorem Folds.inertLines {ls : List Text} {r out : Text} (hls : forall l, l ∈ ls -> IsInertLine l)
    (h : Folds version true stack r stack' out) :
    Folds version true stack (ended ls ++ r) stack' (plainText stack (ended ls) ++ out) := by
  induction ls with
  | nil =>
      rw [show ended [] = [] from rfl, plainText_nil]
      exact h
  | cons l ls ih =>
      rcases List.forall_mem_cons.mp hls with ⟨⟨us, rfl, hcuts, hinert⟩, hrest⟩
      rcases hcuts (Byte.newline :: (ended ls ++ r)) (Or.inr rfl) with ⟨g, hcuts⟩
      have hfolds := Folds.cuts hcuts (Runs.inert hinert) (Folds.newline (ih hrest))
      have hend : ended (spell us :: ls) = spell us ++ ([Byte.newline] ++ ended ls) := by
        simp [ended]
      rw [ended_cons, hend, plainText_append, plainText_append, plainText_newline]
      simpa using hfolds

/-!
# Decided conditionals
-/

structure SpellsDirective (l : Text) (d : Directive) : Prop where
  cuts : forall r, r = [] ∨ r.head? = some Byte.newline -> Cuts true [⟨.directive, l⟩] false r
  line : Byte.newline ∉ l
  parse : Directive.parse? l = some d

/-- A hash sign at the start of a line starts a directive that reaches to the first newline that is
not continued. -/
theorem cuts_directive {v r : Text} (hv : Continued v) (hopen : endsOpen v = false)
    (hr : r = [] ∨ r.head? = some Byte.newline) :
    Cuts true [⟨.directive, Byte.hash :: v⟩] false r := by
  have hextent : directiveExtent (v ++ r) = v.length := by
    apply directiveExtent_of_continued hv
    rcases hr with hr | hr
    · exact Or.inl hr
    · exact Or.inr ⟨hr, hopen⟩
  refine Cuts.cons (v := v) ?_ (Cuts.nil _ _)
  rw [spell_nil, List.nil_append, extent?_eq]
  show some (TokenKind.directive, directiveExtent (v ++ r)) = _
  rw [hextent]

theorem spellsDirective {v : Text} {d : Directive} (hline : Byte.newline ∉ v)
    (hopen : endsOpen v = false) (hparse : Directive.parse? (Byte.hash :: v) = some d) :
    SpellsDirective (Byte.hash :: v) d := by
  refine ⟨fun r hr => cuts_directive (continued_of_not_mem hline) hopen hr, ?_, hparse⟩
  intro hmem
  rcases List.mem_cons.mp hmem with heq | hmem
  · exact absurd heq (by decide)
  · exact hline hmem

theorem spellsDirective_else : SpellsDirective "#else" ⟨"else", []⟩ :=
  spellsDirective (v := "else") (by decide) (by decide) Directive.parse?_else

theorem spellsDirective_endif : SpellsDirective "#endif" ⟨"endif", []⟩ :=
  spellsDirective (v := "endif") (by decide) (by decide) (by decide +kernel)

theorem spellsDirective_named {w t : Text} (hne : w ≠ [])
    (hw : forall b, b ∈ w -> Byte.isWord b = true) (htne : t ≠ [])
    (ht : forall b, b ∈ t -> b ≠ Byte.newline ∧ b ≠ Byte.slash)
    (hhead : forall c, t.head? = some c -> Text.mayEndBlank c = false)
    (hlast : forall c, t.getLast? = some c -> Text.mayEndBlank c = false ∧ c ≠ Byte.backslash) :
    SpellsDirective (Byte.hash :: (w ++ Byte.space :: t)) ⟨w, t⟩ := by
  have hright : Text.trimRight t = t := by
    have htrim := Text.trimRight_append (m := t) (y := []) (by simp) fun c hc => (hlast c hc).1
    rw [List.append_nil] at htrim
    exact htrim
  have hbody : Directive.IsBody t :=
    ⟨fun hmem => (ht _ hmem).1 rfl, Directive.hasComment_of_not_mem fun hmem => (ht _ hmem).2 rfl,
      Text.dropBlanks_of_head? hhead, hright⟩
  have hend : (w ++ Byte.space :: t).getLast? = t.getLast? := by
    rw [← List.singleton_append (x := Byte.space), ← List.append_assoc,
      List.getLast?_append_of_ne_nil _ htne]
  refine spellsDirective ?_ ?_ (Directive.parse?_named hne hw hbody htne)
  · simp only [List.mem_append, List.mem_cons, not_or]
    exact ⟨fun hmem => Directive.of_isWord (P := fun b => b ≠ Byte.newline) (hw _ hmem)
      (by decide) rfl, by decide, hbody.single⟩
  · apply endsOpen_eq_false
    · rw [hend]
      exact fun heq => (hlast _ heq).2 rfl
    · rw [hend]
      exact fun heq => absurd (hlast _ heq).1 (by decide)

section Directives

variable {l : Text} {d : Directive} {ls : List Text} {r out : Text} {b : Branch}

theorem SpellsDirective.step_eq (h : SpellsDirective l d) (p : Position) :
    step version stack ⟨.directive, l, p⟩ =
      match d.role with
      | .opens => openBranch version d ⟨.directive, l, p⟩ stack
      | .continues => nextBranch version d ⟨.directive, l, p⟩ stack
      | .closes => closeBranch d ⟨.directive, l, p⟩ stack
      | .other => .ok (stack, plainText stack l) := by
  have hdirective : directive (Token.lexeme ⟨.directive, l, p⟩) = d := by
    unfold directive Token.lexeme
    rw [h.parse]
    rfl
  rw [Fold.step_eq, hdirective]
  rfl

theorem SpellsDirective.blank_eq (h : SpellsDirective l d) : Edit.blank l = [] := by
  unfold Edit.blank
  rw [Text.newlines_of_not_mem h.line]
  rfl

theorem SpellsDirective.isInert (h : SpellsDirective l d) (hrole : d.role = .other) :
    IsInert ⟨.directive, l⟩ := by
  unfold IsInert isConditional directive
  rw [h.parse]
  simp [hrole]

/-- What a branch leaves of a text, if it is kept or dropped. -/
def remains (kept : Bool) (s : Text) : Text :=
  if kept then s else Edit.blank s

theorem Folds.removed (h : SpellsDirective l d)
    (hstep : forall p, step version stack ⟨.directive, l, p⟩ = .ok (stack', Edit.blank l))
    (hr : r = [] ∨ r.head? = some Byte.newline) (hrest : Folds version false stack' r stack'' out) :
    Folds version true stack (l ++ r) stack'' out := by
  have hruns : Runs version stack [⟨.directive, l⟩] stack' (Edit.blank l ++ []) :=
    Runs.cons hstep (Runs.nil stack')
  rw [h.blank_eq] at hruns
  have hfolds := Folds.cuts (h.cuts r hr) hruns hrest
  simpa using hfolds

theorem Folds.firstBranch (h : SpellsDirective l d) (hrole : d.role = .opens)
    (hkeep : keeping stack = true) {met : Bool}
    (hmet : forall line, decide? version d line = .ok (some met))
    (hls : forall k, k ∈ ls -> IsInertLine k)
    (hrest : Folds version true (⟨false, met, met, false⟩ :: stack) r stack' out) :
    Folds version true stack (ended (l :: ls) ++ r) stack'
      (Byte.newline :: (remains met (ended ls) ++ out)) := by
  rw [ended_cons]
  apply Folds.removed h _ (Or.inr rfl) (Folds.newline (Folds.inertLines hls hrest))
  intro p
  rw [h.step_eq, hrole]
  dsimp only
  unfold openBranch
  rw [if_pos hkeep, hmet]
  cases met <;> rfl

/-- A branch behind a decided one; it is decided unless another branch is taken before it. -/
theorem Folds.nextBranch (h : SpellsDirective l d) (hrole : d.role = .continues)
    {taken kept met : Bool}
    (hmet : taken = false -> forall line,
      (if d.name == ("elif" : Text) then decide? version d line else .ok (some true)) =
        .ok (some met))
    (hls : forall k, k ∈ ls -> IsInertLine k)
    (hrest :
      Folds version true (⟨false, taken || met, !taken && met, false⟩ :: stack) r stack' out) :
    Folds version true (⟨false, taken, kept, false⟩ :: stack) (ended (l :: ls) ++ r) stack'
      (Byte.newline :: (remains (!taken && met) (ended ls) ++ out)) := by
  rw [ended_cons]
  apply Folds.removed h _ (Or.inr rfl) (Folds.newline (Folds.inertLines hls hrest))
  intro p
  rw [h.step_eq, hrole]
  dsimp only
  rw [Fold.nextBranch]
  cases taken with
  | true => rfl
  | false =>
      dsimp only [Bool.or_false, Bool.false_eq_true]
      rw [if_neg (by decide), hmet rfl]
      cases met <;> rfl

theorem Folds.closeBranch (h : SpellsDirective l d) (hrole : d.role = .closes)
    (hwritten : b.written = false) (hr : r = [] ∨ r.head? = some Byte.newline)
    (hrest : Folds version false stack r stack' out) :
    Folds version true (b :: stack) (l ++ r) stack' out := by
  apply Folds.removed h _ hr hrest
  intro p
  rw [h.step_eq, hrole]
  dsimp only
  rw [Fold.closeBranch, hwritten]
  rfl

end Directives

end

end Fold

end EffectShader
