import EffectShader.Proofs.Condition.Known
import EffectShader.Proofs.Condition.Printing
import EffectShader.Proofs.Condition.Spacing
import EffectShader.Proofs.Fold.Follows
import EffectShader.Proofs.Fold.Runs
import EffectShader.Target.Downgrade

/-!
# The prelude of extensions

The prelude enables each extension for certain, under its condition, or not at all.
The preprocessor then enables exactly the extensions with an entry whose condition
holds.  One thing is in the way: a condition that ends in a comment may end in a
backslash, and then the directive that enables the extension belongs to the comment.
-/

namespace EffectShader

open Preprocess

/-!
# Enabled extensions
-/

def Directive.extension? (d : Directive) : Option Text :=
  if d.name == ("extension" : Text) then some (d.body.takeWhile Byte.isWord) else none

def Lexeme.extension? (x : Lexeme) : Option Text :=
  if x.kind == .directive then (directive x).extension? else none

/-- The extensions that the directives of a source enable, once it is preprocessed. -/
def enabledExtensions (macros : Environment) (ts : List Token) : List Text :=
  (preprocess macros ts).filterMap Lexeme.extension?

namespace Extension

/-- The condition holds; an empty one always does. -/
def Holds (macros : Environment) (e : Extension) : Prop :=
  e.condition = [] ∨
    exists c, Condition.parse e.condition = .ok c ∧ Condition.isMet macros c = true

structure IsWritable (e : Extension) : Prop where
  ne : e.name ≠ []
  name : forall b, b ∈ e.name -> Byte.isWord b = true
  behavior : forall b, b ∈ e.behavior -> Byte.isWord b = true
  line : Byte.newline ∉ e.condition

/-- The condition is evaluated without an error. -/
def Evaluates (macros : Environment) (e : Extension) : Prop :=
  e.condition = [] ∨
    exists c v, Condition.parse e.condition = .ok c ∧ Condition.value macros c = .ok v

/-- Something in the condition divides by zero, maybe where the preprocessor does not look. -/
def Divides (macros : Environment) (e : Extension) : Prop :=
  exists c, Condition.parse e.condition = .ok c ∧
    Condition.known macros c = .error .divisionByZero

/-- The condition is left to the preprocessor, and its line goes on with the next one. -/
def IsSwallowed (version : Int) (e : Extension) : Prop :=
  Downgrade.decideCondition version e.condition = .ok none ∧ Lexer.endsOpen e.condition = true

end Extension

namespace Downgrade

open Lexer Fold Directive

/-!
# Directives one below the other
-/

def Enables (macros : Environment) (levels : List Level) (s : Text) (names : List Text) : Prop :=
  exists ws, Lexes true s ws ∧ forall line,
    (activeFrom macros levels (lexemesFrom line ws)).filterMap Lexeme.extension? = names

section Enables

variable {macros : Environment} {levels : List Level} {l r : Text} {d : Directive}
  {names : List Text}

theorem enables_nil : Enables macros levels [] [] := by
  refine ⟨[], Lexes.nil true, fun line => ?_⟩
  rw [lexemesFrom, activeFrom, if_neg (by simp [isConditional])]
  split <;> rfl

theorem exists_lexes_directive {ws : List Piece}
    (hcuts : Cuts true [⟨.directive, l⟩] false (Byte.newline :: r)) (hws : Lexes true r ws) :
    exists us, Lexes true (l ++ Byte.newline :: r) (⟨.directive, l⟩ :: us) ∧
      forall line, lexemesFrom line us = lexemesFrom (line + 1) ws := by
  have hsep : forall c, c ∈ [Byte.newline] -> isSeparator c = true := by simp [isSeparator]
  have hfresh : (false || [Byte.newline].contains Byte.newline) = true := by simp
  rcases lexes_separators_append hsep (hfresh ▸ hws) with ⟨us, hus, hlines⟩
  refine ⟨us, ?_, hlines⟩
  have hlexes := hcuts.lexes hus
  simpa using hlexes

theorem Enables.conditional (h : Enables macros (enter macros d levels) r names)
    (hcuts : Cuts true [⟨.directive, l⟩] false (Byte.newline :: r))
    (hparse : Directive.parse? l = some d) (hrole : d.role ≠ .other) :
    Enables macros levels (l ++ Byte.newline :: r) names := by
  rcases h with ⟨ws, hws, hnames⟩
  rcases exists_lexes_directive hcuts hws with ⟨us, hus, hlines⟩
  refine ⟨_, hus, fun line => ?_⟩
  have hdirective : directive ⟨.directive, l, 0⟩ = d := by
    unfold directive
    rw [hparse]
    rfl
  have hcond : isConditional ⟨.directive, l, 0⟩ = true := by
    unfold isConditional
    rw [hdirective]
    simp [hrole]
  rw [activeFrom_conditional hcond, hdirective, hlines, hnames]

theorem Enables.extension (h : Enables macros levels r names) (hl : SpellsDirective l d)
    (hrole : d.role = .other) :
    Enables macros levels (l ++ Byte.newline :: r)
      ((if isActive levels then d.extension?.toList else []) ++ names) := by
  rcases h with ⟨ws, hws, hnames⟩
  rcases exists_lexes_directive (hl.cuts _ (Or.inr rfl)) hws with ⟨us, hus, hlines⟩
  refine ⟨_, hus, fun line => ?_⟩
  have hcond : isConditional ⟨.directive, l, line⟩ = false := hl.isInert hrole
  have hextension : Lexeme.extension? ⟨.directive, l, line⟩ = d.extension? := by
    unfold Lexeme.extension? directive
    rw [hl.parse]
    rfl
  rw [lexemesFrom, if_neg (by simp), activeFrom, hcond, hlines]
  cases hactive : isActive levels with
  | false => exact hnames _
  | true =>
      rw [if_neg (by decide), if_pos rfl, List.filterMap_cons, hextension, hnames]
      cases d.extension? <;> rfl

end Enables

/-!
# The directives of the prelude
-/

section Directives

variable {e : Extension}

def demand (e : Extension) : Text :=
  if e.behavior.isEmpty then "require" else e.behavior

theorem demand_spec (he : e.IsWritable) :
    demand e ≠ [] ∧ forall b, b ∈ demand e -> Byte.isWord b = true := by
  unfold demand
  split
  · exact ⟨by decide, List.all_eq_true.mp (by decide)⟩
  · rename_i hne
    exact ⟨by simpa using hne, he.behavior⟩

theorem directive_eq (e : Extension) :
    e.directive =
      Byte.hash :: (Text.ofString "extension" ++ Byte.space :: (e.name ++ (": " ++ demand e))) := by
  have hstart : Text.ofString "#extension " =
      Byte.hash :: (Text.ofString "extension" ++ [Byte.space]) := rfl
  unfold Extension.directive demand
  rw [hstart]
  simp

theorem spellsDirective_extension (he : e.IsWritable) :
    SpellsDirective e.directive ⟨"extension", e.name ++ (": " ++ demand e)⟩ := by
  rcases demand_spec he with ⟨hne, hwords⟩
  have hword {b : UInt8} (hb : Byte.isWord b = true) :
      b ≠ Byte.newline ∧ b ≠ Byte.slash ∧ b ≠ Byte.backslash ∧ Text.mayEndBlank b = false :=
    of_isWord (P := fun b => b ≠ Byte.newline ∧ b ≠ Byte.slash ∧ b ≠ Byte.backslash ∧
      Text.mayEndBlank b = false) hb (by decide)
  have hcolon : forall b, b ∈ Text.ofString ": " -> b ≠ Byte.newline ∧ b ≠ Byte.slash := by
    decide +kernel
  rw [directive_eq]
  refine spellsDirective_named (w := "extension") (by decide) (List.all_eq_true.mp (by decide))
    (by simp [he.ne]) ?_ ?_ ?_
  · intro b hb
    rcases List.mem_append.mp hb with hb | hb
    · exact ⟨(hword (he.name b hb)).1, (hword (he.name b hb)).2.1⟩
    · rcases List.mem_append.mp hb with hb | hb
      · exact hcolon b hb
      · exact ⟨(hword (hwords b hb)).1, (hword (hwords b hb)).2.1⟩
  · intro c hc
    rw [List.head?_append_of_ne_nil _ he.ne] at hc
    exact (hword (he.name c (List.mem_of_head? hc))).2.2.2
  · intro c hc
    rw [← List.append_assoc, List.getLast?_append_of_ne_nil _ hne] at hc
    have hbyte := hword (hwords c (List.mem_of_getLast? hc))
    exact ⟨hbyte.2.2.2, hbyte.2.2.1⟩

theorem endsOpen_directive (he : e.IsWritable) (x : Text) :
    endsOpen (x ++ e.directive) = false := by
  rcases demand_spec he with ⟨hne, hwords⟩
  have hsplit : x ++ e.directive = (x ++ ("#extension " ++ e.name ++ ": ")) ++ demand e := by
    unfold Extension.directive demand
    simp
  have hlast : forall c, (x ++ e.directive).getLast? = some c -> Byte.isWord c = true := by
    intro c hc
    rw [hsplit, List.getLast?_append_of_ne_nil _ hne] at hc
    exact hwords c (List.mem_of_getLast? hc)
  apply endsOpen_eq_false
  · exact fun heq => absurd (hlast _ heq) (by decide)
  · exact fun heq => absurd (hlast _ heq) (by decide)

theorem extension?_directive (he : e.IsWritable) :
    Directive.extension? ⟨"extension", e.name ++ (": " ++ demand e)⟩ = some e.name := by
  have htake : (e.name ++ (Text.ofString ": " ++ demand e)).takeWhile Byte.isWord = e.name := by
    rw [List.takeWhile_append_of_pos he.name]
    exact List.append_nil e.name
  unfold Directive.extension?
  rw [if_pos (beq_self_eq_true _)]
  exact congrArg some htake

/-- An `if` is read with its condition, without comments and white space at the ends. -/
theorem parse?_if_joined {u v : Text} (h : joinContinuations ("if " ++ u) = "if " ++ v) :
    Directive.parse? ("#if " ++ u) = some ⟨"if", Text.trim (stripComments v)⟩ := by
  have hhash : Text.ofString "#if " ++ u = Byte.hash :: (Text.ofString "if " ++ u) := rfl
  have hstrip : stripComments (Text.ofString "if " ++ v) = Text.ofString "if " ++ stripComments v :=
    stripComments_append (by decide) v
  have hleft : Text.trimLeft (Text.ofString "if " ++ stripComments v) =
      Text.ofString "if " ++ stripComments v := by
    apply Text.dropBlanks_of_head?
    intro c hc
    cases hc
    rfl
  rcases takeWhile_trim (p := Byte.isWord) (fun c => graphic_of_isWord)
    (Text.ofString "if " ++ stripComments v) with ⟨htake, hdrop⟩
  have hword : (Text.ofString "if " ++ stripComments v).takeWhile Byte.isWord = "if" := rfl
  have hbody : (Text.ofString "if " ++ stripComments v).dropWhile Byte.isWord =
      Byte.space :: stripComments v := rfl
  have htrim : Text.trim (Byte.space :: stripComments v) = Text.trim (stripComments v) := by
    rw [Text.trim, Text.trimLeft_space]
    rfl
  rw [hhash, parse?_hash, bare, h, hstrip, ofBare, htake, hdrop, hleft, hword, hbody, htrim]

theorem endsOpen_if (c : Text) : endsOpen ("if " ++ c) = endsOpen c := by
  show endsOpen (_ :: _ :: _ :: c) = _
  rw [endsOpen_cons (by decide), endsOpen_cons (by decide), endsOpen_cons (by decide)]

theorem spellsDirective_condition {c : Text} (hline : Byte.newline ∉ c)
    (hopen : endsOpen c = false) :
    SpellsDirective ("#if " ++ c) ⟨"if", Text.trim (stripComments c)⟩ := by
  have hline' : Byte.newline ∉ Text.ofString "if " ++ c := by
    rw [List.mem_append, not_or]
    exact ⟨by decide, hline⟩
  have hhash : Text.ofString "#if " ++ c = Byte.hash :: (Text.ofString "if " ++ c) := rfl
  have hparse := parse?_if_joined (joinContinuations_eq_self hline')
  rw [hhash] at hparse ⊢
  exact spellsDirective hline' ((endsOpen_if c).trans hopen) hparse

theorem isMet_condition {macros : Environment} {source : Text} {c : Condition}
    (hline : Byte.newline ∉ source) (h : Condition.parse source = .ok c) :
    Directive.isMet macros ⟨"if", Text.trim (stripComments source)⟩ =
      Condition.isMet macros c :=
  isMet_of_condition? (condition?_of_parse (Or.inl rfl)
    (Condition.parse_trim_stripComments hline h))

theorem continued_marks {a z s : Text} (ha : Byte.newline ∉ a) (hz : z ∈ marks)
    (hs : Continued s) : Continued (a ++ z ++ Byte.newline :: s) := by
  induction a with
  | nil =>
      have hcases : z = [Byte.backslash] ∨ z = [Byte.backslash, Byte.carriage] := by
        simpa [marks] using hz
      rcases hcases with rfl | rfl
      · exact Continued.newline hs
      · exact Continued.returnNewline hs
  | cons b a ih =>
      rcases not_or.mp (mt List.mem_cons.mpr ha) with ⟨hb, ha⟩
      exact Continued.byte (Ne.symm hb) (ih ha)

theorem exists_swallowing {c : Text} (hline : Byte.newline ∉ c) (hopen : endsOpen c = true) :
    exists a z, z ∈ marks ∧ Byte.newline ∉ Text.ofString "if " ++ a ∧
      forall l, Text.ofString "if " ++ (c ++ Byte.newline :: l) =
        Text.ofString "if " ++ a ++ z ++ Byte.newline :: l := by
  rcases endsOpen_iff.mp hopen with ⟨a, z, hz, rfl⟩
  rw [List.mem_append, not_or] at hline
  refine ⟨a, z, hz, ?_, by simp⟩
  rw [List.mem_append, not_or]
  exact ⟨by decide, hline.1⟩

theorem cuts_swallowed {c l r : Text} (hline : Byte.newline ∉ c) (hopen : endsOpen c = true)
    (hl : Byte.newline ∉ l) (hclosed : forall x, endsOpen (x ++ l) = false) :
    Cuts true [⟨.directive, Text.ofString "#if " ++ (c ++ Byte.newline :: l)⟩] false
      (Byte.newline :: r) := by
  rcases exists_swallowing hline hopen with ⟨a, z, hz, ha, hsplit⟩
  apply cuts_directive (v := Text.ofString "if " ++ (c ++ Byte.newline :: l))
  · rw [hsplit]
    exact continued_marks ha hz (continued_of_not_mem hl)
  · rw [hsplit, ← List.singleton_append, ← List.append_assoc]
    exact hclosed _
  · exact Or.inr rfl

end Directives

section Entries

variable {macros : Environment} {e : Extension} {r : Text} {names : List Text}

theorem Enables.enabled (he : e.IsWritable) (h : Enables macros [] r names) :
    Enables macros [] (e.directive ++ "\n" ++ r) (e.name :: names) := by
  have htext : e.directive ++ Text.ofString "\n" ++ r = e.directive ++ Byte.newline :: r := by
    rw [List.append_assoc]
    rfl
  have hline := h.extension (spellsDirective_extension he) rfl
  rw [extension?_directive he] at hline
  rw [htext]
  exact hline

theorem Enables.endif {m : Bool} (h : Enables macros [] r names) :
    Enables macros [Level.opened m] ("#endif" ++ Byte.newline :: r) names :=
  Enables.conditional (d := ⟨"endif", []⟩) h (spellsDirective_endif.cuts _ (Or.inr rfl))
    spellsDirective_endif.parse (by decide)

theorem guarded_eq (e : Extension) (r : Text) :
    Text.ofString "#if " ++ e.condition ++ "\n" ++ e.directive ++ "\n#endif\n" ++ r =
      Text.ofString "#if " ++ e.condition ++ Byte.newline ::
        (e.directive ++ Byte.newline :: (Text.ofString "#endif" ++ Byte.newline :: r)) := by
  have hend : Text.ofString "\n#endif\n" =
      Byte.newline :: (Text.ofString "#endif" ++ [Byte.newline]) := rfl
  rw [hend]
  simp [show Text.ofString "\n" = [Byte.newline] from rfl]

theorem role_if (t : Text) : Directive.role ⟨"if", t⟩ = .opens := rfl

theorem Enables.guarded (he : e.IsWritable) {c : Condition}
    (hparse : Condition.parse e.condition = .ok c) (hopen : endsOpen e.condition = false)
    (h : Enables macros [] r names) :
    Enables macros [] ("#if " ++ e.condition ++ "\n" ++ e.directive ++ "\n#endif\n" ++ r)
      ((if c.isMet macros then [e.name] else []) ++ names) := by
  have hif := spellsDirective_condition he.line hopen
  have hinner : Enables macros [Level.opened (c.isMet macros)]
      (e.directive ++ Byte.newline :: (Text.ofString "#endif" ++ Byte.newline :: r))
      ((if c.isMet macros then [e.name] else []) ++ names) := by
    have hline := (h.endif (m := c.isMet macros)).extension (spellsDirective_extension he) rfl
    rw [extension?_directive he] at hline
    simpa [isActive, Level.opened] using hline
  rw [guarded_eq]
  apply Enables.conditional _ (hif.cuts _ (Or.inr rfl)) hif.parse (by rw [role_if]; decide)
  unfold enter
  rw [role_if, isMet_condition he.line hparse]
  exact hinner

theorem Enables.swallowed (he : e.IsWritable) (hopen : endsOpen e.condition = true)
    (h : Enables macros [] r names) :
    Enables macros [] ("#if " ++ e.condition ++ "\n" ++ e.directive ++ "\n#endif\n" ++ r)
      names := by
  have hext := spellsDirective_extension he
  rcases exists_swallowing he.line hopen with ⟨a, z, hz, ha, hsplit⟩
  have hcuts := cuts_swallowed (r := Text.ofString "#endif" ++ Byte.newline :: r) he.line hopen
    hext.line (endsOpen_directive he)
  have hparse := parse?_if_joined (u := e.condition ++ Byte.newline :: e.directive)
    (v := a ++ Byte.space :: e.directive) (by
      rw [hsplit, joinContinuations_line hz ha, joinContinuations_eq_self hext.line,
        List.append_assoc])
  have htext : Text.ofString "#if " ++ e.condition ++ Byte.newline ::
        (e.directive ++ Byte.newline :: (Text.ofString "#endif" ++ Byte.newline :: r)) =
      Text.ofString "#if " ++ (e.condition ++ Byte.newline :: e.directive) ++
        Byte.newline :: (Text.ofString "#endif" ++ Byte.newline :: r) := by
    simp
  rw [guarded_eq, htext]
  apply Enables.conditional _ hcuts hparse (by rw [role_if]; decide)
  unfold enter
  rw [role_if]
  exact h.endif

end Entries

/-!
# One entry after the other
-/

def decision (version : Int) (e : Extension) : Except Failure (Option Bool) :=
  if e.condition.isEmpty then .ok (some true) else decideCondition version e.condition

section Decisions

variable {macros : Environment} {version : Int} {e : Extension}

theorem decideCondition_of_known {source : Text} {c : Condition} {o : Option Value}
    (hparse : Condition.parse source = .ok c)
    (hknown : Condition.known (Fold.environment version) c = .ok o) :
    decideCondition version source = .ok (o.map Value.truthy) := by
  unfold decideCondition
  rw [hparse]
  dsimp only
  rw [hknown]

theorem decideCondition_of_error {source : Text} {c : Condition} {x : EvalError}
    (hparse : Condition.parse source = .ok c)
    (hknown : Condition.known (Fold.environment version) c = .error x) :
    exists failure, decideCondition version source = .error failure := by
  unfold decideCondition
  rw [hparse]
  dsimp only
  rw [hknown]
  exact ⟨_, rfl⟩

theorem decision_eq (h : e.condition ≠ []) :
    decision version e = decideCondition version e.condition := by
  unfold decision
  rw [if_neg (by simpa using h)]

theorem holds_iff {c : Condition} (hparse : Condition.parse e.condition = .ok c) :
    e.Holds macros ↔ Condition.isMet macros c = true := by
  constructor
  · rintro (hnil | ⟨c', hparse', hmet⟩)
    · exact absurd hnil (Condition.ne_nil_of_parse hparse)
    · cases hparse.symm.trans hparse'
      exact hmet
  · exact fun hmet => Or.inr ⟨c, hparse, hmet⟩

/-- What the version decides agrees with the other macros; what it does not decide is left to
them.  The decision fails only where something divides by zero. -/
theorem decision_cases (hmacros : macros versionName = some (.int (Int64.ofInt version)))
    (he : e.Evaluates macros) :
    (exists met, decision version e = .ok (some met) ∧ ¬ e.IsSwallowed version ∧
      (e.Holds macros ↔ met = true)) ∨
    (exists c, decision version e = .ok none ∧ Condition.parse e.condition = .ok c ∧
      (e.IsSwallowed version ↔ endsOpen e.condition = true)) ∨
    exists failure, decision version e = .error failure ∧ e.Divides macros := by
  rcases he with hnil | ⟨c, v, hparse, hvalue⟩
  · refine Or.inl ⟨true, ?_, ?_, by simp [Extension.Holds, hnil]⟩
    · unfold decision
      rw [hnil]
      rfl
    · rintro ⟨_, hopen⟩
      rw [hnil] at hopen
      cases hopen
  · have henv : macros.Extends (environment version) := extends_environment hmacros
    rw [decision_eq (Condition.ne_nil_of_parse hparse)]
    cases hknown : Condition.known (environment version) c with
    | error x =>
        rcases decideCondition_of_error hparse hknown with ⟨failure, hfailure⟩
        exact Or.inr (Or.inr
          ⟨failure, hfailure, c, hparse, Condition.known_error_of_extends henv hknown⟩)
    | ok o =>
        have hdecide := decideCondition_of_known hparse hknown
        cases o with
        | none =>
            refine Or.inr (Or.inl ⟨c, hdecide, hparse, ?_⟩)
            unfold Extension.IsSwallowed
            rw [hdecide]
            simp
        | some w =>
            have hw := Condition.value_of_known henv hknown hvalue
            refine Or.inl ⟨w.truthy, hdecide, ?_, ?_⟩
            · rintro ⟨hnone, _⟩
              rw [hdecide] at hnone
              cases hnone
            · rw [holds_iff hparse, Condition.isMet, hvalue, hw]

end Decisions

theorem preludeFrom_cons (version : Int) (enabled : List Text) (e : Extension)
    (es : List Extension) :
    preludeFrom version enabled (e :: es) =
      if enabled.contains e.name then preludeFrom version enabled es
      else
        match decision version e with
        | .error failure => .error failure
        | .ok (some true) =>
            (preludeFrom version (e.name :: enabled) es).map fun rest =>
              e.directive ++ "\n" ++ rest
        | .ok (some false) => preludeFrom version enabled es
        | .ok none =>
            (preludeFrom version enabled es).map fun rest =>
              "#if " ++ e.condition ++ "\n" ++ e.directive ++ "\n#endif\n" ++ rest := rfl

def Counts (macros : Environment) (version : Int) (e : Extension) : Prop :=
  e.Holds macros ∧ ¬ e.IsSwallowed version

section Runs

variable {macros : Environment} {version : Int}

theorem exists_of_map {f : Text -> Text} {rest : Except Failure Text} {text : Text}
    (h : rest.map f = .ok text) : exists r, rest = .ok r ∧ text = f r := by
  cases rest with
  | error failure => cases h
  | ok r => exact ⟨r, rfl, (Except.ok.inj h).symm⟩

theorem error_of_map {f : Text -> Text} {rest : Except Failure Text} {failure : Failure}
    (h : rest.map f = .error failure) : rest = .error failure := by
  cases rest with
  | error x => exact congrArg Except.error (Except.error.inj h)
  | ok r => cases h

theorem divides_of_preludeFrom (hmacros : macros versionName = some (.int (Int64.ofInt version)))
    {es : List Extension} (hes : forall e, e ∈ es -> e.Evaluates macros) {enabled : List Text}
    {failure : Failure} (h : preludeFrom version enabled es = .error failure) :
    exists e, e ∈ es ∧ e.Divides macros := by
  induction es generalizing enabled with
  | nil => cases h
  | cons e es ih =>
      rcases List.forall_mem_cons.mp hes with ⟨heval, hes⟩
      have hrest {enabled' : List Text} (h : preludeFrom version enabled' es = .error failure) :
          exists e', e' ∈ e :: es ∧ e'.Divides macros := by
        rcases ih hes h with ⟨e', he', hdivides⟩
        exact ⟨e', List.mem_cons_of_mem _ he', hdivides⟩
      rw [preludeFrom_cons] at h
      split at h
      · exact hrest h
      · rcases decision_cases hmacros heval with
          ⟨met, hdecision, _⟩ | ⟨c, hdecision, _⟩ | ⟨_, _, hdivides⟩
        · rw [hdecision] at h
          cases met with
          | true => exact hrest (error_of_map h)
          | false => exact hrest h
        · rw [hdecision] at h
          exact hrest (error_of_map h)
        · exact ⟨e, List.mem_cons_self, hdivides⟩

/-- Together with those enabled before, the extensions that the rest of the prelude enables are the
ones with an entry that counts. -/
theorem enables_of_preludeFrom (hmacros : macros versionName = some (.int (Int64.ofInt version)))
    {es : List Extension} (hes : forall e, e ∈ es -> e.IsWritable ∧ e.Evaluates macros)
    {enabled : List Text} {text : Text} (h : preludeFrom version enabled es = .ok text) :
    exists names, Enables macros [] text names ∧ forall name, (name ∈ enabled ∨ name ∈ names) ↔
      (name ∈ enabled ∨ exists e, e ∈ es ∧ e.name = name ∧ Counts macros version e) := by
  induction es generalizing enabled text with
  | nil =>
      cases h
      exact ⟨[], enables_nil, by simp⟩
  | cons e es ih =>
      rcases List.forall_mem_cons.mp hes with ⟨⟨hwritable, heval⟩, hes⟩
      have hcons : forall name, (exists e', e' ∈ e :: es ∧ e'.name = name ∧
          Counts macros version e') ↔ (name = e.name ∧ Counts macros version e) ∨
          exists e', e' ∈ es ∧ e'.name = name ∧ Counts macros version e' := by
        intro name
        rw [List.exists_mem_cons_iff, eq_comm]
      simp only [hcons]
      rw [preludeFrom_cons] at h
      split at h
      · rename_i hseen
        rcases ih hes h with ⟨names, henables, hnames⟩
        refine ⟨names, henables, fun name => ?_⟩
        rw [hnames]
        grind
      · rcases decision_cases hmacros heval with
          ⟨met, hdecision, hkept, hholds⟩ | ⟨c, hdecision, hparse, hswallowed⟩ |
          ⟨_, hdecision, _⟩
        · rw [hdecision] at h
          cases met with
          | true =>
              rcases exists_of_map h with ⟨rest, hrest, rfl⟩
              rcases ih hes hrest with ⟨names, henables, hnames⟩
              refine ⟨e.name :: names, henables.enabled hwritable, fun name => ?_⟩
              have hcounts : Counts macros version e := ⟨hholds.mpr rfl, hkept⟩
              have hname := hnames name
              simp only [List.mem_cons] at hname ⊢
              grind
          | false =>
              rcases ih hes h with ⟨names, henables, hnames⟩
              have hcounts : ¬ Counts macros version e :=
                fun h => Bool.false_ne_true (hholds.mp h.1)
              refine ⟨names, henables, fun name => ?_⟩
              rw [hnames]
              grind
        · rw [hdecision] at h
          rcases exists_of_map h with ⟨rest, hrest, rfl⟩
          rcases ih hes hrest with ⟨names, henables, hnames⟩
          cases hopen : endsOpen e.condition with
          | true =>
              have hcounts : ¬ Counts macros version e := fun h => h.2 (hswallowed.mpr hopen)
              refine ⟨names, henables.swallowed hwritable hopen, fun name => ?_⟩
              rw [hnames]
              grind
          | false =>
              refine ⟨_, henables.guarded hwritable hparse hopen, fun name => ?_⟩
              have hcounts : Counts macros version e ↔ c.isMet macros = true := by
                unfold Counts
                rw [holds_iff hparse, hswallowed, hopen]
                simp
              rw [hcounts]
              have hname := hnames name
              simp only [List.mem_append]
              cases hmet : c.isMet macros with
              | true =>
                  simp only [if_true, List.mem_singleton, and_true]
                  grind
              | false => simpa using hname
        · rw [hdecision] at h
          cases h

theorem Enables.exists_tokens {text : Text} {names : List Text} (h : Enables macros [] text names) :
    exists ts, tokenize text = .ok ts ∧ enabledExtensions macros ts = names := by
  rcases h with ⟨ws, hws, hnames⟩
  refine ⟨_, tokenize_eq_ok_iff.mpr ⟨ws, hws, rfl⟩, ?_⟩
  unfold enabledExtensions preprocess
  rw [lexemes_place, hnames]

end Runs

/-!
# The whole prelude
-/

theorem print_conditions :
    let old : Condition := .binary .lt (.ident "__VERSION__") (.literal (.int 300))
    ((Condition.ident "A").isPrintable = true ∧ (Condition.ident "A").print = "A") ∧
      old.isPrintable = true ∧ old.print = "__VERSION__ < 300" := by
  decide +kernel

theorem parse_name : Condition.parse "A" = .ok (.ident "A") :=
  Condition.parse_of_print print_conditions.1.1 print_conditions.1.2

theorem parse_old : Condition.parse "__VERSION__ < 300" =
    .ok (.binary .lt (.ident "__VERSION__") (.literal (.int 300))) :=
  Condition.parse_of_print print_conditions.2.1 print_conditions.2.2

theorem parse_commented : Condition.parse "A // \\" = .ok (.ident "A") := by
  have htokens : tokenize "A // \\" = .ok
      [⟨.ident, "A", ⟨1, 1, 0⟩⟩, ⟨.whitespace, " ", ⟨1, 2, 1⟩⟩,
        ⟨.lineComment, "// \\", ⟨1, 3, 2⟩⟩, ⟨.eof, [], ⟨1, 7, 6⟩⟩] := by
    decide +kernel
  have hname : tokenize "A" = .ok [⟨.ident, "A", ⟨1, 1, 0⟩⟩, ⟨.eof, [], ⟨1, 2, 1⟩⟩] := by
    decide +kernel
  rcases Condition.parse_eq_ok_iff.mp parse_name with ⟨ts, hts, hderives⟩
  cases hname.symm.trans hts
  exact Condition.parse_eq_ok_iff.mpr ⟨_, htokens, hderives⟩

/-- The prelude enables the extensions with an entry whose condition holds, but for entries whose
condition swallows the line below it.  It fails only where something divides by zero. -/
theorem enabledExtensions_prelude {macros : Environment} {version : Int}
    (hmacros : macros "__VERSION__" = some (.int (Int64.ofInt version))) {es : List Extension}
    (hes : forall e, e ∈ es -> e.IsWritable ∧ e.Evaluates macros) :
    (exists failure e, prelude version es = .error failure ∧ e ∈ es ∧ e.Divides macros) ∨
    exists text ts, prelude version es = .ok text ∧ tokenize text = .ok ts ∧
      forall name, name ∈ enabledExtensions macros ts ↔
        exists e, e ∈ es ∧ e.name = name ∧ e.Holds macros ∧ ¬ e.IsSwallowed version := by
  cases hprelude : prelude version es with
  | error failure =>
      rcases divides_of_preludeFrom hmacros (fun e he => (hes e he).2) hprelude with
        ⟨e, he, hdivides⟩
      exact Or.inl ⟨failure, e, rfl, he, hdivides⟩
  | ok text =>
      rcases enables_of_preludeFrom hmacros hes hprelude with ⟨names, henables, hnames⟩
      rcases henables.exists_tokens with ⟨ts, htokens, henabled⟩
      refine Or.inr ⟨text, ts, rfl, htokens, fun name => ?_⟩
      rw [henabled]
      simpa [Counts] using hnames name

/-- An extension is enabled once and for all although the condition of another entry fails. -/
theorem enabledExtensions_prelude_guarded :
    exists text ts,
      prelude 300 [⟨"GL_b", [], "A"⟩, ⟨"GL_c", "warn", "__VERSION__ < 300"⟩, ⟨"GL_b", [], []⟩] =
        .ok text ∧
      tokenize text = .ok ts ∧
      forall name, name ∈ enabledExtensions (environment 300) ts ↔ name = ("GL_b" : Text) := by
  have hes : forall e, e ∈ [(⟨"GL_b", [], "A"⟩ : Extension),
      ⟨"GL_c", "warn", "__VERSION__ < 300"⟩, ⟨"GL_b", [], []⟩] ->
      e.IsWritable ∧ e.Evaluates (environment 300) := by
    simp only [List.forall_mem_cons]
    refine ⟨⟨⟨by decide, ?_, ?_, by decide⟩, Or.inr ⟨_, _, parse_name, rfl⟩⟩,
      ⟨⟨by decide, ?_, ?_, by decide⟩, Or.inr ⟨_, _, parse_old, rfl⟩⟩,
      ⟨⟨by decide, ?_, ?_, by decide⟩, Or.inl rfl⟩, by simp⟩
    all_goals exact List.all_eq_true.mp (by decide +kernel)
  rcases enabledExtensions_prelude rfl hes with
    ⟨_, e, _, he, c, hparse, hdivides⟩ | ⟨text, ts, htext, htokens, hnames⟩
  · simp only [List.mem_cons, List.not_mem_nil, or_false] at he
    rcases he with rfl | rfl | rfl
    · cases parse_name.symm.trans hparse
      cases hdivides
    · cases parse_old.symm.trans hparse
      cases hdivides
    · exact absurd rfl (Condition.ne_nil_of_parse hparse)
  · refine ⟨text, ts, htext, htokens, fun name => (hnames name).trans ⟨?_, ?_⟩⟩
    · rintro ⟨e, he, rfl, hholds, _⟩
      simp only [List.mem_cons, List.not_mem_nil, or_false] at he
      rcases he with rfl | rfl | rfl
      · rfl
      · exact absurd ((holds_iff parse_old).mp hholds) (by decide)
      · rfl
    · rintro rfl
      refine ⟨⟨"GL_b", [], []⟩, by simp, rfl, Or.inl rfl, ?_⟩
      rintro ⟨_, hopen⟩
      cases hopen

/-- A comment at the end of the condition is continued by the directive below. -/
theorem condition_swallows_extension :
    let e : Extension := ⟨"GL_EXT_x", [], "A // \\"⟩
    let macros : Environment := fun n => if n == "A" then some (.int 1) else environment 300 n
    e.IsWritable ∧ e.Evaluates macros ∧ e.Holds macros ∧
      exists ts, prelude 300 [e] = .ok "#if A // \\\n#extension GL_EXT_x: require\n#endif\n" ∧
        tokenize "#if A // \\\n#extension GL_EXT_x: require\n#endif\n" = .ok ts ∧
        enabledExtensions macros ts = [] := by
  intro e macros
  have he : e.IsWritable :=
    ⟨by decide, List.all_eq_true.mp (by decide +kernel), List.all_eq_true.mp rfl,
      by decide +kernel⟩
  have hempty : Enables macros [] [] [] := enables_nil
  have henables := hempty.swallowed he (by decide)
  have hdecision : decideCondition 300 e.condition = .ok none :=
    decideCondition_of_known parse_commented rfl
  rcases henables.exists_tokens with ⟨ts, htokens, hnames⟩
  refine ⟨he, Or.inr ⟨_, _, parse_commented, rfl⟩, Or.inr ⟨_, parse_commented, rfl⟩, ts, ?_,
    htokens, hnames⟩
  rw [prelude, preludeFrom_cons, if_neg (by decide), decision_eq (by decide), hdecision]
  rfl

end Downgrade

end EffectShader
