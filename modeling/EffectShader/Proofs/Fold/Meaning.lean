import EffectShader.Proofs.Condition.Printing
import EffectShader.Proofs.Condition.Source
import EffectShader.Proofs.Edit
import EffectShader.Proofs.Fold.Follows
import EffectShader.Proofs.Token.Cuts

/-!
# Folding keeps the meaning

The folded source is cut into pieces again, step by step with the source.  A
token that is kept stays a token because the rest of its line is kept; a token
that is removed leaves newlines, which join the white space around them.
-/

namespace EffectShader

namespace Preprocess

open Lexer

/-!
# Active pieces
-/

section Pieces

variable {macros : Environment} {levels levels' : List Level} {w : Piece} {us ws : List Piece}

theorem activeFrom_conditional (hw : isConditional ⟨w.kind, w.text, 0⟩ = true) (line : Nat) :
    activeFrom macros levels (lexemesFrom line (w :: ws)) =
      activeFrom macros (enter macros (directive ⟨w.kind, w.text, 0⟩) levels)
        (lexemesFrom (line + w.text.newlines) ws) := by
  have hkind : w.kind = .directive := by
    unfold isConditional at hw
    exact eq_of_beq (Bool.and_eq_true_iff.mp hw).1
  have hcond : isConditional ⟨w.kind, w.text, line⟩ = true := hw
  rw [lexemesFrom, if_neg (by simp [hkind]), activeFrom, if_pos hcond]
  rfl

theorem activeFrom_inactive (hw : isConditional ⟨w.kind, w.text, 0⟩ = false)
    (hactive : isActive levels = false) (line : Nat) :
    activeFrom macros levels (lexemesFrom line (w :: ws)) =
      activeFrom macros levels (lexemesFrom (line + w.text.newlines) ws) := by
  have hcond : isConditional ⟨w.kind, w.text, line⟩ = false := hw
  rw [lexemesFrom]
  split
  · rfl
  · rw [activeFrom, hcond, hactive]
    rfl

theorem activeFrom_same (hw : isConditional ⟨w.kind, w.text, 0⟩ = false)
    (hactive : isActive levels' = isActive levels)
    (h : forall line, activeFrom macros levels' (lexemesFrom line us) =
      activeFrom macros levels (lexemesFrom line ws)) (line : Nat) :
    activeFrom macros levels' (lexemesFrom line (w :: us)) =
      activeFrom macros levels (lexemesFrom line (w :: ws)) := by
  have hcond : isConditional ⟨w.kind, w.text, line⟩ = false := hw
  rw [lexemesFrom, lexemesFrom]
  split
  · exact h _
  · rw [activeFrom, activeFrom, hcond, hactive, h]
    rfl

end Pieces

end Preprocess

namespace Fold

open Lexer Preprocess

/-!
# Runs of the folder
-/

theorem foldTokens_place_nil {version : Int} {last : Nat} {stack : List Branch} {p : Position}
    {out : Text} (h : foldTokens version last stack (place p []) = .ok out) :
    stack = [] ∧ out = [] := by
  have hstep : step version stack (Token.endAt p) = .ok (stack, plainText stack []) :=
    step_of_not_isConditional rfl
  have htext : plainText stack [] = [] := by
    unfold plainText
    rw [show Edit.blank [] = [] from rfl, ite_self]
  rw [place_nil, foldTokens, hstep, htext] at h
  cases stack with
  | nil =>
      cases h
      exact ⟨rfl, rfl⟩
  | cons b stack => cases h

theorem foldTokens_place_cons {version : Int} {last : Nat} {stack : List Branch} {p : Position}
    {w : Piece} {ws : List Piece} {out : Text}
    (h : foldTokens version last stack (place p (w :: ws)) = .ok out) :
    exists stack' text rest, step version stack ⟨w.kind, w.text, p⟩ = .ok (stack', text) ∧
      foldTokens version p.line stack' (place (p.advance w.text) ws) = .ok rest ∧
      out = text ++ rest := by
  rw [place_cons, foldTokens] at h
  split at h
  · cases h
  · rename_i stack' text hstep
    split at h
    · cases h
    · rename_i rest hrest
      cases h
      exact ⟨stack', text, rest, hstep, hrest, rfl⟩

theorem not_isConditional_of_kind {x : Lexeme} (h : x.kind ≠ .directive) :
    isConditional x = false := by
  simp [isConditional, h]

/-- No directive starts inside a line, so the rest of a line that is kept stays as it is. -/
theorem sameLine_of_foldTokens {version : Int} {last : Nat} {stack : List Branch} {p : Position}
    {s out : Text} {ws : List Piece} (hlexes : Lexes false s ws) (hkeep : keeping stack = true)
    (h : foldTokens version last stack (place p ws) = .ok out) : SameLine s out := by
  generalize hfresh : false = fresh at hlexes
  induction hlexes generalizing last p out with
  | nil =>
      rw [(foldTokens_place_nil h).2]
      exact SameLine.refl []
  | @cons fresh kind b w rest ws hextent hrest ih =>
      rcases foldTokens_place_cons h with ⟨stack', text, rest', hstep, hrest', rfl⟩
      have hkind : kind ≠ .directive := by
        rintro rfl
        rw [(directive_of_extent? hextent).2.1] at hfresh
        cases hfresh
      have hcond : isConditional (Token.lexeme ⟨kind, b :: w, p⟩) = false :=
        not_isConditional_of_kind hkind
      rw [step_of_not_isConditional hcond] at hstep
      cases hstep
      rw [plainText, if_pos hkeep, ← List.cons_append]
      by_cases hnewline : Byte.newline ∈ b :: w
      · rcases List.append_of_mem hnewline with ⟨x, y, hxy⟩
        rw [hxy, List.append_assoc, List.append_assoc]
        exact SameLine.newline x (y ++ rest) (y ++ rest')
      · subst hfresh
        exact (ih hrest' (staysFresh_eq_false hnewline).symm).append (b :: w)

theorem isSeparator_of_mem_blank {s : Text} :
    forall c, c ∈ Edit.blank s -> isSeparator c = true := by
  intro c hc
  rw [List.eq_of_mem_replicate hc]
  rfl

/-!
# Kept pieces

Where the text is kept, the folded source allows a directive where the source
does, or the next piece is white space that starts with a newline.
-/

section Kept

variable {fresh fresh' : Bool} {kind : TokenKind} {b : UInt8} {w rest rest' : Text}

theorem staysFresh_whitespace (hstart : fresh' = fresh ∨ b = Byte.newline) :
    (fresh' || (b :: w).contains Byte.newline) = staysFresh fresh .whitespace (b :: w) := by
  rcases hstart with rfl | rfl
  · rfl
  · simp [staysFresh]

/-- A piece that is no white space does not start with a newline. -/
theorem fresh_eq_of_extent? (hextent : extent? fresh b (w ++ rest) = some (kind, w.length))
    (hspace : kind ≠ .whitespace) (hstart : fresh' = fresh ∨ b = Byte.newline) :
    fresh' = fresh := by
  rcases hstart with hfresh | rfl
  · exact hfresh
  · have hspec := form_spec fresh Byte.newline (w ++ rest).head?
    rw [form_of_extent? hextent] at hspec
    cases kind <;> simp_all [formOf]
    all_goals cases hspec.1

theorem extent?_kept (hextent : extent? fresh b (w ++ rest) = some (kind, w.length))
    (hspace : kind ≠ .whitespace)
    (hline : staysFresh fresh kind (b :: w) = false -> SameLine rest rest') :
    extent? fresh b (w ++ rest') = some (kind, w.length) := by
  cases hstays : staysFresh fresh kind (b :: w) with
  | false => exact extent?_sameLine hextent (hline hstays)
  | true =>
      have hkind : kind = .blockComment := by
        unfold staysFresh at hstays
        split at hstays
        · exact absurd rfl hspace
        · rfl
        · cases hstays
      subst hkind
      exact extent?_blockComment hextent rest'

theorem fresh_blank (hfresh : fresh = true -> fresh' = true)
    (hstays : staysFresh fresh kind (b :: w) = true) :
    (fresh' || (Edit.blank (b :: w)).contains Byte.newline) = true := by
  have hblank : (Edit.blank (b :: w)).contains Byte.newline = (b :: w).contains Byte.newline := by
    rw [Text.contains_newline_eq, Text.contains_newline_eq, Edit.newlines_blank]
  rw [hblank]
  have hopen : (fresh || (b :: w).contains Byte.newline) = true := by
    unfold staysFresh at hstays
    split at hstays
    · exact hstays
    · exact hstays
    · cases hstays
  rcases Bool.or_eq_true_iff.mp hopen with hopen | hopen
  · rw [hfresh hopen, Bool.true_or]
  · rw [hopen, Bool.or_true]

end Kept

/-- An `if` with a condition that can be read stands on one line and ends there. -/
theorem single_if {body : Text} {c : Condition} (hbody : Directive.IsBody body)
    (hparse : Condition.parse body = .ok c) :
    Byte.newline ∉ (("if " : Text) ++ body) ∧ endsOpen (("if " : Text) ++ body) = false := by
  have hopen : endsOpen body = false :=
    endsOpen_eq_false (Condition.getLast?_ne_of_parse hparse hbody.bare)
      (Text.getLast?_ne_carriage hbody.right)
  constructor
  · intro hmem
    rcases List.mem_append.mp hmem with hmem | hmem
    · exact absurd hmem (by decide)
    · exact hbody.single hmem
  · show endsOpen (Byte.of 'i' :: Byte.of 'f' :: Byte.space :: body) = false
    rw [endsOpen_cons (by decide), endsOpen_cons (by decide), endsOpen_cons (by decide)]
    exact hopen

/-!
# One piece after the other
-/

/-- A source can be folded from here on without a change of what its pieces mean. -/
def Refolds (macros : Environment) (fresh' : Bool) (levels levels' : List Level) (s out : Text)
    (ws : List Piece) : Prop :=
  exists us, Lexes fresh' out us ∧ out.newlines = s.newlines ∧
    forall line, activeFrom macros levels' (lexemesFrom line us) =
      activeFrom macros levels (lexemesFrom line ws)

section Piece

variable {macros : Environment} {fresh fresh' : Bool} {kind : TokenKind} {b : UInt8}
  {w rest rest' : Text} {ws : List Piece} {levels levels' levels'' : List Level}

theorem refolds_separators {v : Text} (hv : forall c, c ∈ v -> isSeparator c = true)
    (hlength : v.newlines = Text.newlines (b :: w))
    (hpiece : forall line, activeFrom macros levels (lexemesFrom line (⟨kind, b :: w⟩ :: ws)) =
      activeFrom macros levels'' (lexemesFrom (line + Text.newlines (b :: w)) ws))
    (h : Refolds macros (fresh' || v.contains Byte.newline) levels'' levels' rest rest' ws) :
    Refolds macros fresh' levels levels' (b :: (w ++ rest)) (v ++ rest')
      (⟨kind, b :: w⟩ :: ws) := by
  rcases h with ⟨us, hus, hnewlines, hactive⟩
  rcases lexes_separators_append hv hus with ⟨vs, hvs, hlines⟩
  refine ⟨vs, hvs, ?_, ?_⟩
  · rw [Text.newlines_append, hlength, hnewlines, ← List.cons_append, Text.newlines_append]
  · intro line
    rw [hlines, hlength, hactive, hpiece]

theorem refolds_keep
    (hextent : extent? fresh' b (w ++ rest') = some (kind, w.length))
    (hcond : isConditional ⟨kind, b :: w, 0⟩ = false) (hsame : isActive levels' = isActive levels)
    (h : Refolds macros (staysFresh fresh' kind (b :: w)) levels levels' rest rest' ws) :
    Refolds macros fresh' levels levels' (b :: (w ++ rest)) (b :: w ++ rest')
      (⟨kind, b :: w⟩ :: ws) := by
  rcases h with ⟨us, hus, hnewlines, hactive⟩
  refine ⟨⟨kind, b :: w⟩ :: us, Lexes.cons hextent hus, ?_, ?_⟩
  · rw [Text.newlines_append, hnewlines, ← List.cons_append, Text.newlines_append]
  · exact activeFrom_same hcond hsame hactive

/-- A conditional directive that is replaced by another one, written in front of its newlines. -/
theorem refolds_replace {d : Directive} {v : Text}
    (hpiece : forall line, activeFrom macros levels (lexemesFrom line (⟨kind, b :: w⟩ :: ws)) =
      activeFrom macros levels'' (lexemesFrom (line + Text.newlines (b :: w)) ws))
    (hparse : Directive.parse? (Byte.hash :: v) = some d) (hrole : d.role ≠ .other)
    (hline : Byte.newline ∉ v) (hopen : endsOpen v = false)
    (hrest : rest' = [] ∨ rest'.head? = some Byte.newline)
    (h : Refolds macros ((Edit.blank (b :: w)).contains Byte.newline) levels''
      (enter macros d levels') rest rest' ws) :
    Refolds macros true levels levels' (b :: (w ++ rest))
      (Byte.hash :: v ++ Edit.blank (b :: w) ++ rest') (⟨kind, b :: w⟩ :: ws) := by
  rcases h with ⟨us, hus, hnewlines, hactive⟩
  have hfresh : Lexes (false || (Edit.blank (b :: w)).contains Byte.newline) rest' us := hus
  rcases lexes_separators_append isSeparator_of_mem_blank hfresh with ⟨vs, hvs, hlines⟩
  have hend : Edit.blank (b :: w) ++ rest' = [] ∨
      (Edit.blank (b :: w) ++ rest').head? = some Byte.newline ∧ endsOpen v = false := by
    unfold Edit.blank
    cases Text.newlines (b :: w) with
    | zero => exact hrest.imp_right fun hhead => ⟨hhead, hopen⟩
    | succ n => exact Or.inr ⟨rfl, hopen⟩
  have hextent : extent? true Byte.hash (v ++ (Edit.blank (b :: w) ++ rest')) =
      some (.directive, v.length) := by
    rw [extent?_eq, show form true Byte.hash _ = Form.directive from rfl]
    dsimp only
    rw [directiveExtent_of_continued (continued_of_not_mem hline) hend]
  have hdirective : directive ⟨.directive, Byte.hash :: v, 0⟩ = d := by
    unfold directive
    rw [hparse]
    rfl
  have hcond : isConditional ⟨.directive, Byte.hash :: v, 0⟩ = true := by
    unfold isConditional
    rw [hdirective]
    simpa using hrole
  have hzero : Text.newlines (Byte.hash :: v) = 0 := by
    rw [Text.newlines, List.count_eq_zero]
    exact List.not_mem_cons_of_ne_of_not_mem (by decide) hline
  refine ⟨⟨.directive, Byte.hash :: v⟩ :: vs, ?_, ?_, ?_⟩
  · rw [List.append_assoc, List.cons_append]
    exact Lexes.cons hextent hvs
  · rw [Text.newlines_append, Text.newlines_append, hzero, Edit.newlines_blank, hnewlines,
      ← List.cons_append, Text.newlines_append, Nat.zero_add]
  · intro line
    rw [activeFrom_conditional hcond, hdirective, hlines, hzero, Edit.newlines_blank, hactive,
      hpiece,
      Nat.add_zero]

theorem refolds_plain (hextent : extent? fresh b (w ++ rest) = some (kind, w.length))
    (hcond : isConditional ⟨kind, b :: w, 0⟩ = false) (hsame : isActive levels' = isActive levels)
    (hstart : fresh' = fresh ∨ b = Byte.newline)
    (hline : staysFresh fresh kind (b :: w) = false -> SameLine rest rest')
    (h : Refolds macros (staysFresh fresh kind (b :: w)) levels levels' rest rest' ws) :
    Refolds macros fresh' levels levels' (b :: (w ++ rest)) (b :: w ++ rest')
      (⟨kind, b :: w⟩ :: ws) := by
  by_cases hspace : kind = .whitespace
  · subst hspace
    rw [← staysFresh_whitespace hstart] at h
    exact refolds_separators (separators_of_extent? hextent) rfl (fun line => rfl) h
  · have hfresh := fresh_eq_of_extent? hextent hspace hstart
    subst hfresh
    exact refolds_keep (extent?_kept hextent hspace hline) hcond hsame h

theorem refolds_conditional {stack : List Branch} {text : Text}
    (hextent : extent? fresh b (w ++ rest) = some (.directive, w.length))
    (hcond : isConditional ⟨.directive, b :: w, 0⟩ = true)
    (hleaves : Leaves macros (directive ⟨.directive, b :: w, 0⟩) (b :: w) levels levels' stack text)
    (hline : keeping stack = true -> SameLine rest rest')
    (h : forall f levels'' ,
      Follows stack (enter macros (directive ⟨.directive, b :: w, 0⟩) levels) levels'' ->
      Refolds macros f (enter macros (directive ⟨.directive, b :: w, 0⟩) levels) levels''
        rest rest' ws) :
    Refolds macros true levels levels' (b :: (w ++ rest)) (text ++ rest')
      (⟨.directive, b :: w⟩ :: ws) := by
  rcases directive_of_extent? hextent with ⟨rfl, rfl, hcontinued, hend⟩
  have hpiece : forall line,
      activeFrom macros levels (lexemesFrom line (⟨.directive, Byte.hash :: w⟩ :: ws)) =
        activeFrom macros (enter macros (directive ⟨.directive, Byte.hash :: w, 0⟩) levels)
          (lexemesFrom (line + Text.newlines (Byte.hash :: w)) ws) := activeFrom_conditional hcond
  have hrest' : keeping stack = true -> rest' = [] ∨ rest'.head? = some Byte.newline := by
    intro hkeep
    have hhead := (hline hkeep).untilBarrier.head?_eq
    rcases hend with rfl | hnewline
    · exact Or.inl (List.head?_eq_none_iff.mp hhead)
    · exact Or.inr (hhead.trans hnewline)
  cases hleaves with
  | kept hkeep hfollows =>
      rcases h false _ hfollows with ⟨us, hus, hnewlines, hactive⟩
      refine ⟨⟨.directive, Byte.hash :: w⟩ :: us, ?_, ?_, ?_⟩
      · exact Lexes.cons (extent?_sameLine hextent (hline hkeep)) hus
      · rw [Text.newlines_append, hnewlines, ← List.cons_append, Text.newlines_append]
      · intro line
        rw [activeFrom_conditional hcond, hactive, hpiece]
  | removed hfollows =>
      exact refolds_separators isSeparator_of_mem_blank (Edit.newlines_blank _) hpiece
        (h _ _ hfollows)
  | otherwise hkeep hfollows =>
      exact refolds_replace hpiece (v := "else") Directive.parse?_else (by decide) (by decide)
        (by decide) (hrest' hkeep) (h _ _ hfollows)
  | opened hkeep hparse hfollows =>
      have hbody : Directive.IsBody (directive ⟨.directive, Byte.hash :: w, 0⟩).body :=
        Directive.isBody_of_parse? hcontinued rfl
      rcases single_if hbody hparse with ⟨hsingle, hopen⟩
      exact refolds_replace hpiece (v := "if " ++ _)
        (Directive.parse?_if hbody (Condition.ne_nil_of_parse hparse))
        (by decide : Directive.Role.opens ≠ .other) hsingle hopen (hrest' hkeep) (h _ _ hfollows)

end Piece

/-- The invariant of a run: the stacks of conditionals belong together, and the folded source allows
a directive wherever the source does. -/
theorem refolds_of_foldTokens {macros : Environment} {version : Int}
    (hmacros : macros versionName = some (.int (Int64.ofInt version))) {fresh fresh' : Bool}
    {s out : Text} {ws : List Piece} {stack : List Branch} {levels levels' : List Level}
    {last : Nat} {p : Position} (hlexes : Lexes fresh s ws)
    (hvalues : forall w, w ∈ ws -> w.kind = .directive ->
      HasValue macros (directive ⟨w.kind, w.text, 0⟩))
    (hfollows : Follows stack levels levels') (hfresh : fresh = true -> fresh' = true)
    (hstart : keeping stack = true ->
      fresh' = fresh ∨ s = [] ∨ s.head? = some Byte.newline)
    (h : foldTokens version last stack (place p ws) = .ok out) :
    Refolds macros fresh' levels levels' s out ws := by
  induction hlexes generalizing fresh' stack levels levels' last p out with
  | nil fresh =>
      rcases foldTokens_place_nil h with ⟨rfl, rfl⟩
      cases hfollows
      exact ⟨[], Lexes.nil fresh', rfl, fun line => rfl⟩
  | @cons fresh kind b w rest ws hextent hrest ih =>
      rcases foldTokens_place_cons h with ⟨stack', text, rest', hstep, hrest', rfl⟩
      have hvalues' : forall v, v ∈ ws -> v.kind = .directive ->
          HasValue macros (directive ⟨v.kind, v.text, 0⟩) :=
        fun v hv => hvalues v (List.mem_cons_of_mem _ hv)
      cases hcond : isConditional ⟨kind, b :: w, 0⟩ with
      | true =>
          have hkind : kind = .directive := eq_of_beq (Bool.and_eq_true_iff.mp hcond).1
          subst hkind
          rcases directive_of_extent? hextent with ⟨_, hfresh', _, hend⟩
          rw [hfresh hfresh']
          have hleaves := leaves_of_step (t := ⟨.directive, b :: w, p⟩) hmacros
            (hvalues _ List.mem_cons_self rfl) hcond hfollows hstep
          refine refolds_conditional hextent hcond hleaves
            (fun hkeep => sameLine_of_foldTokens hrest hkeep hrest') ?_
          intro f levels'' hfollows'
          exact ih hvalues' hfollows' (by simp [staysFresh]) (fun _ => Or.inr hend) hrest'
      | false =>
          have hplain : isConditional (Token.lexeme ⟨kind, b :: w, p⟩) = false := hcond
          rw [step_of_not_isConditional hplain] at hstep
          cases hstep
          cases hkeep : keeping stack with
          | true =>
              rw [plainText, if_pos hkeep]
              refine refolds_plain hextent hcond (hfollows.isActive_eq hkeep) ?_ ?_ ?_
              · exact (hstart hkeep).imp_right (by simp)
              · intro hstays
                rw [hstays] at hrest
                exact sameLine_of_foldTokens hrest hkeep hrest'
              · exact ih hvalues' hfollows id (fun _ => Or.inl rfl) hrest'
          | false =>
              rw [plainText, hkeep, if_neg (by decide)]
              refine refolds_separators isSeparator_of_mem_blank (Edit.newlines_blank _)
                (activeFrom_inactive hcond (hfollows.isActive_of_not_keeping hkeep)) ?_
              exact ih hvalues' hfollows (fresh_blank hfresh) (by simp [hkeep]) hrest'

theorem foldTokens_cons_of_step {version : Int} {last : Nat} {stack stack' : List Branch}
    {t : Token} {ts : List Token} {text rest : Text} (h : step version stack t = .ok (stack', text))
    (hrest : foldTokens version t.line stack' ts = .ok rest) :
    foldTokens version last stack (t :: ts) = .ok (text ++ rest) := by
  rw [foldTokens, h]
  dsimp only
  rw [hrest]

theorem parse_one : Condition.parse "1" = .ok (.literal (.int 1)) :=
  Condition.parse_of_print (by decide +kernel) (by decide +kernel)

theorem decide?_one (version : Int) {name : Text} (h : name ≠ "ifdef" ∧ name ≠ "ifndef")
    (line : Nat) : decide? version ⟨name, "1"⟩ line = .ok (some true) := by
  unfold decide?
  rw [if_neg (by simp [h]), parse_one]
  rfl

end Fold

/-- Folding keeps the meaning of a source: with the version decided and whatever the other macros
are, the same tokens are active, on the same lines. -/
theorem preprocess_fold {code folded : Text} {version : Int} {macros : Environment}
    (hfold : fold code version = .ok folded)
    (hversion : macros Fold.versionName = some (.int (Int64.ofInt version)))
    (hvalues : forall ts t c, tokenize code = .ok ts -> t ∈ ts -> t.isDirective = true ->
      (Preprocess.directive t.lexeme).condition? = some c ->
      c.value macros ≠ .error .divisionByZero) :
    exists ts us, tokenize code = .ok ts ∧ tokenize folded = .ok us ∧
      preprocess macros us = preprocess macros ts ∧ folded.newlines = code.newlines := by
  unfold fold at hfold
  split at hfold
  · cases hfold
  · rename_i ts htokens
    rcases Lexer.tokenize_eq_ok_iff.mp htokens with ⟨ws, hlexes, rfl⟩
    have hdirectives : forall w, w ∈ ws -> w.kind = .directive ->
        Fold.HasValue macros (Preprocess.directive ⟨w.kind, w.text, 0⟩) := by
      intro w hw hkind c hc
      rcases Lexer.exists_mem_place hw Position.start with ⟨q, hq⟩
      have hdefined := hvalues _ _ c htokens hq (by simp [Token.isDirective, hkind]) hc
      exact Condition.exists_value hdefined
    rcases Fold.refolds_of_foldTokens hversion hlexes hdirectives Fold.Follows.nil id
      (fun _ => Or.inl rfl) hfold with ⟨us, hus, hnewlines, hactive⟩
    refine ⟨_, _, htokens, Lexer.tokenize_eq_ok_iff.mpr ⟨us, hus, rfl⟩, ?_, hnewlines⟩
    unfold preprocess
    rw [Lexer.lexemes_place, Lexer.lexemes_place]
    exact hactive _

/-- A conditional that is decided leaves the lines of the branch that is taken. -/
theorem preprocess_fold_decided :
    fold "#if 1\n2\n#else\n3\n#endif" 100 = .ok "\n2\n\n\n" ∧
      exists ts us, tokenize "#if 1\n2\n#else\n3\n#endif" = .ok ts ∧ tokenize "\n2\n\n\n" = .ok us ∧
        preprocess (Fold.environment 100) us = preprocess (Fold.environment 100) ts ∧
        Text.newlines "\n2\n\n\n" = Text.newlines "#if 1\n2\n#else\n3\n#endif" := by
  have hsource : tokenize "#if 1\n2\n#else\n3\n#endif" = .ok
      [⟨.directive, "#if 1", ⟨1, 1, 0⟩⟩, ⟨.whitespace, "\n", ⟨1, 6, 5⟩⟩,
        ⟨.integer, "2", ⟨2, 1, 6⟩⟩, ⟨.whitespace, "\n", ⟨2, 2, 7⟩⟩,
        ⟨.directive, "#else", ⟨3, 1, 8⟩⟩, ⟨.whitespace, "\n", ⟨3, 6, 13⟩⟩,
        ⟨.integer, "3", ⟨4, 1, 14⟩⟩, ⟨.whitespace, "\n", ⟨4, 2, 15⟩⟩,
        ⟨.directive, "#endif", ⟨5, 1, 16⟩⟩, ⟨.eof, [], ⟨5, 7, 22⟩⟩] := by
    decide +kernel
  have hdirective : (Directive.parse? "#if 1").getD ⟨[], []⟩ = ⟨"if", "1"⟩ := by decide +kernel
  have hopens : Fold.step 100 [] ⟨.directive, "#if 1", ⟨1, 1, 0⟩⟩ =
      .ok ([⟨false, true, true, false⟩], []) := by
    unfold Fold.step
    dsimp only
    rw [hdirective, if_pos (by rfl), if_pos (by decide +kernel), Fold.openBranch,
      if_pos (by rfl), Fold.decide?_one 100 (by decide +kernel)]
    rfl
  have hfold : fold "#if 1\n2\n#else\n3\n#endif" 100 = .ok "\n2\n\n\n" := by
    unfold fold
    rw [hsource]
    apply Fold.foldTokens_cons_of_step hopens
    apply toOption_eq_some_iff.mp
    decide +kernel
  refine ⟨hfold, preprocess_fold hfold rfl ?_⟩
  intro ts t c htokens ht hdirective' hc
  have hif : (Preprocess.directive ⟨.directive, "#if 1", 1⟩).condition? =
      some (.literal (.int 1)) := by
    rw [Preprocess.directive, hdirective]
    exact Directive.condition?_of_parse (Or.inl rfl) Fold.parse_one
  have helse : (Preprocess.directive ⟨.directive, "#else", 3⟩).condition? = none := by
    decide +kernel
  have hendif : (Preprocess.directive ⟨.directive, "#endif", 5⟩).condition? = none := by
    decide +kernel
  rw [hsource] at htokens
  cases htokens
  simp only [List.mem_cons, List.not_mem_nil, or_false] at ht
  rcases ht with rfl | rfl | rfl | rfl | rfl | rfl | rfl | rfl | rfl | rfl
  case inl =>
    cases hif.symm.trans hc
    simp [Condition.value]
  all_goals
    first
    | cases helse.symm.trans hc
    | cases hendif.symm.trans hc
    | cases hdirective'

end EffectShader
