import EffectShader.Condition.Eval
import EffectShader.Condition.Parser
import EffectShader.Define.Extraction
import EffectShader.Proofs.Token.DirectiveText
import EffectShader.Token.Directive
import EffectShader.Token.Lexer

/-!
# Preprocessing

What a source means once every macro is either defined, with a value, or not
defined.  Of each conditional the first branch whose condition holds is active;
a conditional inside a branch that is not active has no active branch.  The
result is the sequence of tokens that are left, without white space, comments
and conditional directives, each with its line.
-/

namespace EffectShader

structure Lexeme where
  kind : TokenKind
  text : Text
  line : Nat
  deriving DecidableEq, Repr

def Token.lexeme (t : Token) : Lexeme :=
  ⟨t.kind, t.text, t.line⟩

/-- What is left of some tokens without white space and comments. -/
def lexemes (ts : List Token) : List Lexeme :=
  (significant ts).map Token.lexeme

/-!
# Conditions with every macro decided

A macro that is not defined counts as zero.  The right side of a conjunction or
disjunction is looked at only if the left side leaves it open.
-/

namespace Condition

def value (macros : Environment) : Condition -> Except EvalError Value
  | .literal v => .ok v
  | .ident n => .ok ((macros n).getD (.int 0))
  | .defined n => .ok (.bool (macros n).isSome)
  | .unary op x =>
      match value macros x with
      | .error e => .error e
      | .ok v => .ok (applyUnary op v)
  | .binary op left right =>
      match value macros left with
      | .error e => .error e
      | .ok l =>
          if op = .and ∧ l.truthy = false then .ok (.bool false)
          else if op = .or ∧ l.truthy = true then .ok (.bool true)
          else
            match value macros right with
            | .error e => .error e
            | .ok r =>
                match op with
                | .and | .or => .ok (.bool r.truthy)
                | _ => arith op l r

def isMet (macros : Environment) (c : Condition) : Bool :=
  match value macros c with
  | .ok v => v.truthy
  | .error _ => false

end Condition

/-!
# Conditional directives
-/

namespace Directive

inductive Role where
  | opens
  | continues
  | closes
  | other
  deriving DecidableEq, Repr

def role (d : Directive) : Role :=
  if [("if" : Text), "ifdef", "ifndef"].contains d.name then .opens
  else if d.name == ("elif" : Text) || d.name == ("else" : Text) then .continues
  else if d.name == ("endif" : Text) then .closes
  else .other

/-- The macro that an `ifdef` or `ifndef` tests. -/
def operand (d : Directive) : Text :=
  (Text.cut? " " d.body).elim d.body (·.1)

def condition? (d : Directive) : Option Condition :=
  if d.name == ("if" : Text) || d.name == ("elif" : Text) then
    match Condition.parse d.body with
    | .ok c => some c
    | .error _ => none
  else none

/-- The condition of the branch that the directive starts holds; a text that is no condition does
not. -/
def isMet (macros : Environment) (d : Directive) : Bool :=
  if d.name == ("ifdef" : Text) then (macros d.operand).isSome
  else if d.name == ("ifndef" : Text) then (macros d.operand).isNone
  else if d.name == ("else" : Text) then true
  else d.condition?.any (Condition.isMet macros)

theorem condition?_of_parse {d : Directive} {c : Condition}
    (hname : d.name = "if" ∨ d.name = "elif")
    (h : Condition.parse d.body = .ok c) : d.condition? = some c := by
  unfold Directive.condition?
  rw [if_pos (by rcases hname with hname | hname <;> simp [hname]), h]

theorem isMet_of_condition? {macros : Environment} {d : Directive} {c : Condition}
    (h : d.condition? = some c) : d.isMet macros = c.isMet macros := by
  have hname : d.name = "if" ∨ d.name = "elif" := by
    unfold Directive.condition? at h
    split at h
    · rename_i hname
      simpa using hname
    · cases h
  unfold Directive.isMet
  rw [h]
  rcases hname with hname | hname <;> rw [hname] <;> rfl

end Directive

/-!
# Active tokens
-/

namespace Preprocess

structure Level where
  /-- One of its branches so far was chosen. -/
  chosen : Bool
  /-- The current branch is the chosen one. -/
  active : Bool
  deriving DecidableEq, Repr

namespace Level

def opened (met : Bool) : Level := ⟨met, met⟩

def next (l : Level) (met : Bool) : Level := ⟨l.chosen || met, !l.chosen && met⟩

end Level

def enter (macros : Environment) (d : Directive) (levels : List Level) : List Level :=
  match d.role with
  | .opens => Level.opened (d.isMet macros) :: levels
  | .continues =>
      match levels with
      | [] => []
      | l :: rest => l.next (d.isMet macros) :: rest
  | .closes => levels.tail
  | .other => levels

def isActive (levels : List Level) : Bool :=
  levels.all Level.active

/-- The directive that a lexeme spells. -/
def directive (x : Lexeme) : Directive :=
  (Directive.parse? x.text).getD ⟨[], []⟩

def isConditional (x : Lexeme) : Bool :=
  x.kind == .directive && (directive x).role != .other

def activeFrom (macros : Environment) (levels : List Level) : List Lexeme -> List Lexeme
  | [] => []
  | x :: xs =>
      if isConditional x then activeFrom macros (enter macros (directive x) levels) xs
      else if isActive levels then x :: activeFrom macros levels xs
      else activeFrom macros levels xs

end Preprocess

/-- What preprocessing leaves of a source. -/
def preprocess (macros : Environment) (ts : List Token) : List Lexeme :=
  Preprocess.activeFrom macros [] (lexemes ts)

/-!
# Kept lines

Directives stand on lines of their own, so whether a line is kept depends only
on the directives that end on it or before it.
-/

def Token.lastLine (t : Token) : Nat :=
  t.line + t.text.newlines

namespace Preprocess

/-- The directives that end on a line or before it. -/
def directivesBy (line : Nat) (ts : List Token) : List Directive :=
  (ts.filter fun t => t.isDirective && t.lastLine ≤ line).map fun t => directive t.lexeme

def enterAll (macros : Environment) (levels : List Level) (ds : List Directive) : List Level :=
  ds.foldl (fun levels d => enter macros d levels) levels

/-- The preprocessor keeps a line: every conditional around it is in its chosen branch. -/
def keepsLine (macros : Environment) (ts : List Token) (line : Nat) : Bool :=
  isActive (enterAll macros [] (directivesBy line ts))

theorem directivesBy_cons_of_pos {line : Nat} {t : Token} {ts : List Token}
    (ht : t.isDirective = true) (hline : t.lastLine ≤ line) :
    directivesBy line (t :: ts) = directive t.lexeme :: directivesBy line ts := by
  unfold directivesBy
  rw [List.filter_cons_of_pos (by simp [ht, hline])]
  rfl

theorem directivesBy_cons_of_neg {line : Nat} {t : Token} {ts : List Token}
    (h : t.isDirective = false ∨ line < t.lastLine) :
    directivesBy line (t :: ts) = directivesBy line ts := by
  unfold directivesBy
  rw [List.filter_cons_of_neg]
  rcases h with h | h
  · simp [h]
  · simp [Nat.not_le.mpr h]

theorem directivesBy_eq_nil {line : Nat} {ts : List Token}
    (h : forall t, t ∈ ts -> t.isDirective = true -> line < t.lastLine) :
    directivesBy line ts = [] := by
  unfold directivesBy
  rw [List.map_eq_nil_iff, List.filter_eq_nil_iff]
  intro t ht hmem
  simp only [Bool.and_eq_true, decide_eq_true_eq] at hmem
  have := h t ht hmem.1
  omega

theorem enter_other {macros : Environment} {d : Directive} (h : d.role = .other)
    (levels : List Level) : enter macros d levels = levels := by
  unfold enter
  rw [h]

theorem enterAll_directivesBy_cons {macros : Environment} {t : Token}
    (h : isConditional t.lexeme = false) (levels : List Level) (line : Nat) (ts : List Token) :
    enterAll macros levels (directivesBy line (t :: ts)) =
      enterAll macros levels (directivesBy line ts) := by
  cases hd : t.isDirective with
  | false => rw [directivesBy_cons_of_neg (Or.inl hd)]
  | true =>
      by_cases hline : t.lastLine ≤ line
      · have hrole : (directive t.lexeme).role = .other := by
          have hkind : t.lexeme.kind = .directive := eq_of_beq hd
          simpa [isConditional, hkind] using h
        rw [directivesBy_cons_of_pos hd hline]
        show enterAll macros (enter macros (directive t.lexeme) levels) _ = _
        rw [enter_other hrole]
      · rw [directivesBy_cons_of_neg (Or.inr (Nat.lt_of_not_le hline))]

end Preprocess

namespace Lexer

open Preprocess

/-!
# Lines of tokens
-/

theorem line_le_of_mem_place {p : Position} {ws : List Piece} {t : Token} (h : t ∈ place p ws) :
    p.line ≤ t.line := by
  induction ws generalizing p with
  | nil =>
      rw [List.mem_singleton.mp h]
      exact Nat.le_refl _
  | cons w ws ih =>
      rcases List.mem_cons.mp h with rfl | h
      · exact Nat.le_refl _
      · have hle := ih h
        rw [Position.line_advance] at hle
        omega

theorem Lexes.line_lt_of_directive {s : Text} {ws : List Piece} (h : Lexes false s ws)
    {p : Position} {t : Token} (ht : t ∈ place p ws) (hd : t.isDirective = true) :
    p.line < t.line := by
  generalize hfresh : false = fresh at h
  induction h generalizing p with
  | nil fresh =>
      rw [List.mem_singleton.mp ht] at hd
      cases hd
  | @cons fresh kind b w rest ws hextent hrest ih =>
      rcases List.mem_cons.mp ht with rfl | ht
      · have hkind : kind = .directive := by simpa [Token.isDirective] using hd
        subst hkind
        rw [(directive_of_extent? hextent).2.1] at hfresh
        cases hfresh
      · by_cases hnewline : Byte.newline ∈ b :: w
        · have hle := line_le_of_mem_place ht
          have hpos : 0 < Text.newlines (b :: w) := List.count_pos_iff.mpr hnewline
          rw [Position.line_advance] at hle
          dsimp only at hle
          omega
        · subst hfresh
          have hlt := ih ht (staysFresh_eq_false hnewline).symm
          rw [Position.line_advance] at hlt
          omega

theorem lastLine_le_of_mem_place {p : Position} {w : Piece} {ws : List Piece} {t : Token}
    (h : t ∈ place (p.advance w.text) ws) : (Token.mk w.kind w.text p).lastLine ≤ t.line := by
  have hle := line_le_of_mem_place h
  rwa [Position.line_advance] at hle

/-!
# Lines of active tokens
-/

theorem lexemes_cons_of_trivia {t : Token} {ts : List Token} (h : t.isTrivia = true) :
    lexemes (t :: ts) = lexemes ts := by
  unfold lexemes significant
  rw [List.filter_cons_of_neg (by simp [h])]

theorem lexemes_cons {t : Token} {ts : List Token} (h : t.isTrivia = false) :
    lexemes (t :: ts) = t.lexeme :: lexemes ts := by
  unfold lexemes significant
  rw [List.filter_cons_of_pos (by simp [h]), List.map_cons]

theorem mem_activeFrom_cons {macros : Environment} {levels : List Level} {x : Lexeme} {t : Token}
    {ts : List Token} (h : x ∈ activeFrom macros levels (lexemes (t :: ts))) :
    t.isTrivia = false ∧ isActive levels = true ∧ isConditional t.lexeme = false ∧ x = t.lexeme ∨
      isConditional t.lexeme = false ∧ x ∈ activeFrom macros levels (lexemes ts) ∨
      isConditional t.lexeme = true ∧
        x ∈ activeFrom macros (enter macros (directive t.lexeme) levels) (lexemes ts) := by
  cases htrivia : t.isTrivia with
  | true =>
      rw [lexemes_cons_of_trivia htrivia] at h
      have hcond : isConditional t.lexeme = false := by
        cases hkind : t.kind <;> simp_all [Token.isTrivia, isConditional, Token.lexeme]
      exact Or.inr (Or.inl ⟨hcond, h⟩)
  | false =>
      rw [lexemes_cons htrivia, activeFrom] at h
      split at h
      · rename_i hcond
        exact Or.inr (Or.inr ⟨hcond, h⟩)
      · rename_i hcond
        have hcond : isConditional t.lexeme = false := by simpa using hcond
        split at h
        · rename_i hactive
          rcases List.mem_cons.mp h with rfl | h
          · exact Or.inl ⟨rfl, hactive, hcond, rfl⟩
          · exact Or.inr (Or.inl ⟨hcond, h⟩)
        · exact Or.inr (Or.inl ⟨hcond, h⟩)

theorem isActive_of_mem_activeFrom {macros : Environment} {fresh : Bool} {s : Text}
    {ws : List Piece} (hlexes : Lexes fresh s ws) {p : Position} {levels : List Level} {x : Lexeme}
    (h : x ∈ activeFrom macros levels (lexemes (place p ws))) :
    p.line ≤ x.line ∧
      isActive (enterAll macros levels (directivesBy x.line (place p ws))) = true := by
  induction hlexes generalizing p levels with
  | nil fresh =>
      have hactive : x = ⟨.eof, [], p.line⟩ ∧ isActive levels = true := by
        have hlast : x ∈ if isActive levels then [Lexeme.mk .eof [] p.line] else [] := h
        split at hlast
        · rename_i hactive
          exact ⟨List.mem_singleton.mp hlast, hactive⟩
        · cases hlast
      rcases hactive with ⟨rfl, hactive⟩
      exact ⟨Nat.le_refl _, hactive⟩
  | @cons fresh kind b w rest ws hextent hrest ih =>
      rw [place_cons] at h ⊢
      generalize htoken : (⟨kind, b :: w, p⟩ : Token) = t at h ⊢
      have hline : t.lexeme.line = p.line := by rw [← htoken]; rfl
      have hstart : p.line ≤ (p.advance (b :: w)).line := by
        rw [Position.line_advance]
        exact Nat.le_add_right _ _
      rcases mem_activeFrom_cons h with ⟨htrivia, hactive, hcond, rfl⟩ | ⟨hcond, h⟩ | ⟨hcond, h⟩
      · rw [enterAll_directivesBy_cons hcond, directivesBy_eq_nil]
        · exact ⟨Nat.le_of_eq hline.symm, hactive⟩
        · intro u hu hd
          have hstays : staysFresh fresh kind (b :: w) = false := by
            rw [← htoken] at htrivia
            cases kind <;> simp_all [Token.isTrivia, staysFresh]
          rw [hstays] at hrest
          have hlt := hrest.line_lt_of_directive hu hd
          have hle : u.line ≤ u.lastLine := Nat.le_add_right _ _
          dsimp only at hlt
          omega
      · rcases ih h with ⟨hle, hactive⟩
        rw [enterAll_directivesBy_cons hcond]
        exact ⟨Nat.le_trans hstart hle, hactive⟩
      · rcases ih h with ⟨hle, hactive⟩
        have hd : t.isDirective = true := (Bool.and_eq_true_iff.mp hcond).1
        have hlast : t.lastLine ≤ x.line := by
          rw [Position.line_advance] at hle
          rw [← htoken]
          exact hle
        rw [directivesBy_cons_of_pos hd hlast]
        exact ⟨Nat.le_trans hstart hle, hactive⟩

end Lexer

theorem Preprocess.keepsLine_of_mem_preprocess {source : Text} {ts : List Token}
    {macros : Environment} {x : Lexeme} (htokens : tokenize source = .ok ts)
    (h : x ∈ preprocess macros ts) : keepsLine macros ts x.line = true := by
  rcases Lexer.tokenize_eq_ok_iff.mp htokens with ⟨ws, hlexes, rfl⟩
  exact (Lexer.isActive_of_mem_activeFrom hlexes h).2

/-!
# Preprocessing with definitions

The `define` and `undef` directives of a source take effect where they are active.  What
the text of a macro comes to in a condition may depend on the other macros.
-/

namespace Preprocess

/-- The texts of the macros that are defined. -/
abbrev Macros := Text -> Option Text

abbrev Reading := Macros -> Text -> Value

namespace Macros

def values (read : Reading) (m : Macros) : Environment :=
  fun n => (m n).map (read m)

/-- The macros after one of them was defined, or was made undefined. -/
def set (m : Macros) (name : Text) (text : Option Text) : Macros :=
  fun n => if n = name then text else m n

theorem set_self (m : Macros) (name : Text) (text : Option Text) : m.set name text name = text :=
  if_pos rfl

theorem set_of_ne (m : Macros) {name n : Text} (text : Option Text) (h : n ≠ name) :
    m.set name text n = m n :=
  if_neg h

end Macros

/-- The open conditionals, innermost first, and the macros at a place. -/
structure State where
  levels : List Level
  macros : Macros

namespace State

/-- What a `define` directive gives its macro, or an `undef` directive takes from it. -/
def given (d : Directive) : Option Text :=
  if d.name == ("define" : Text) then some (Text.trim (d.body.dropWhile Byte.isWord)) else none

def after (read : Reading) (s : State) (d : Directive) : State :=
  if d.name == ("define" : Text) || d.name == ("undef" : Text) then
    if isActive s.levels then
      ⟨s.levels, s.macros.set (Extractor.definedName d.body) (given d)⟩
    else s
  else ⟨enter (s.macros.values read) d s.levels, s.macros⟩

def afterAll (read : Reading) (s : State) (ds : List Directive) : State :=
  ds.foldl (after read) s

@[simp] theorem afterAll_nil (read : Reading) (s : State) : s.afterAll read [] = s := rfl

@[simp] theorem afterAll_cons (read : Reading) (s : State) (d : Directive) (ds : List Directive) :
    s.afterAll read (d :: ds) = (s.after read d).afterAll read ds := rfl

theorem afterAll_append (read : Reading) (s : State) (ds es : List Directive) :
    s.afterAll read (ds ++ es) = (s.afterAll read ds).afterAll read es :=
  List.foldl_append

section After

variable {read : Reading} {s : State} {d : Directive} {n : Text}

theorem after_of_eq (h : d.name = "define" ∨ d.name = "undef") :
    s.after read d = if isActive s.levels then
      ⟨s.levels, s.macros.set (Extractor.definedName d.body) (given d)⟩ else s := by
  unfold after
  rw [if_pos (by simpa using h)]

theorem after_of_ne (h : ¬ (d.name = "define" ∨ d.name = "undef")) :
    s.after read d = ⟨enter (s.macros.values read) d s.levels, s.macros⟩ := by
  unfold after
  rw [if_neg (by simpa using h)]

theorem levels_after_of_eq (h : d.name = "define" ∨ d.name = "undef") :
    (s.after read d).levels = s.levels := by
  rw [after_of_eq h]
  split <;> rfl

theorem macros_after
    (h : d.name = "define" ∨ d.name = "undef" -> Extractor.definedName d.body ≠ n) :
    (s.after read d).macros n = s.macros n := by
  by_cases hname : d.name = "define" ∨ d.name = "undef"
  · rw [after_of_eq hname]
    split
    · exact Macros.set_of_ne _ _ (Ne.symm (h hname))
    · rfl
  · rw [after_of_ne hname]

/-- A macro that is not defined again keeps its text or loses it. -/
theorem macros_after_or (h : d.name = "define" -> Extractor.definedName d.body ≠ n) :
    (s.after read d).macros n = s.macros n ∨ (s.after read d).macros n = none := by
  by_cases hundef : d.name = "undef" ∧ Extractor.definedName d.body = n
  · rcases hundef with ⟨hname, rfl⟩
    rw [after_of_eq (Or.inr hname)]
    split
    · right
      refine (Macros.set_self _ _ _).trans ?_
      rw [given, hname]
      rfl
    · exact Or.inl rfl
  · left
    apply macros_after
    rintro (hname | hname)
    · exact h hname
    · exact fun heq => hundef ⟨hname, heq⟩

end After

end State

/-- The preprocessor keeps a line, if definitions take effect and these macros are defined from the
start. -/
def keepsLineDefining (read : Reading) (macros : Macros) (ts : List Token) (line : Nat) : Bool :=
  isActive ((State.mk [] macros).afterAll read (directivesBy line ts)).levels

theorem keepsLineDefining_eq {read : Reading} {macros : Macros} {ts : List Token} {line : Nat}
    (h : forall d, d ∈ directivesBy line ts -> ¬ (d.name = "define" ∨ d.name = "undef")) :
    keepsLineDefining read macros ts line = keepsLine (macros.values read) ts line := by
  unfold keepsLineDefining keepsLine
  generalize directivesBy line ts = ds at h
  generalize ([] : List Level) = levels
  induction ds generalizing levels with
  | nil => rfl
  | cons d ds ih =>
      rcases List.forall_mem_cons.mp h with ⟨hd, hds⟩
      rw [State.afterAll_cons, State.after_of_ne hd]
      exact ih hds _

end Preprocess

end EffectShader
