import EffectShader.Define.Extraction
import EffectShader.Define.Gating
import EffectShader.Proofs.Condition.Known
import EffectShader.Proofs.Condition.Source

/-!
# What gates say

A gate holds if its macro is defined, or, after an exclamation mark, undefined
or zero.  The gates of a condition follow from the condition, except those of
comparisons: an undefined macro can be less than five.  The negated gates follow
from its negation only if the condition is a single test: a false conjunction
leaves open which side is false.
-/

namespace EffectShader

namespace Gating

def isOff (macros : Environment) (n : Text) : Bool :=
  (macros n).all fun v => !v.truthy

def Gate.holds (macros : Environment) : Gate -> Bool
  | [] => (macros []).isSome
  | b :: s => if b == negation then isOff macros s else (macros (b :: s)).isSome

def isReadable (n : Text) : Bool :=
  n.head? != some negation

theorem Gate.holds_of_isReadable {macros : Environment} {n : Text} (h : isReadable n = true) :
    Gate.holds macros n = (macros n).isSome := by
  cases n with
  | nil => rfl
  | cons b s =>
      have hb : b ≠ negation := by simpa [isReadable] using h
      simp [Gate.holds, hb]

theorem Gate.holds_negation (macros : Environment) (n : Text) :
    Gate.holds macros (negation :: n) = isOff macros n := by
  simp [Gate.holds]

theorem Gate.negate_of_isReadable {n : Text} (h : isReadable n = true) :
    Gate.negate n = negation :: n := by
  cases n with
  | nil => rfl
  | cons b s =>
      have hb : b ≠ negation := by simpa [isReadable] using h
      simp [Gate.negate, hb]

theorem Gate.negate_negation (n : Text) : Gate.negate (negation :: n) = n := by
  simp [Gate.negate]

/-!
# Gates of a condition
-/

def isTest : Condition -> Bool
  | .ident _ => true
  | .defined _ => true
  | .unary .not (.ident _) => true
  | .unary .not (.defined _) => true
  | _ => false

def compared : Condition -> List Gate
  | .binary .and l r => compared l ++ compared r
  | .binary op l r => if isComparison op then bareName l ++ bareName r else []
  | _ => []

theorem isSome_of_truthy {macros : Environment} {n : Text}
    (h : ((macros n).getD (.int 0)).truthy = true) : (macros n).isSome = true := by
  cases hn : macros n with
  | none =>
      rw [hn] at h
      exact absurd h (by decide)
  | some v => rfl

theorem isOff_eq (macros : Environment) (n : Text) :
    isOff macros n = !((macros n).getD (.int 0)).truthy := by
  unfold isOff
  cases macros n with
  | none => rfl
  | some v => rfl

/-- A condition that holds makes its gates hold, except those of comparisons. -/
theorem holds_of_mem_conjuncts {macros : Environment} {c : Condition} {v : Value} {g : Gate}
    (hvalue : c.value macros = .ok v) (htrue : v.truthy = true) (hg : g ∈ conjuncts c)
    (hnames : forall n, n ∈ c.occurrences -> isReadable n = true) :
    Gate.holds macros g = true ∨ g ∈ compared c := by
  induction c using conjuncts.induct generalizing v with
  | case1 n =>
      left
      have hread := hnames n (by simp [Condition.occurrences])
      rw [List.mem_singleton.mp hg, Gate.holds_of_isReadable hread]
      cases hvalue
      exact isSome_of_truthy htrue
  | case2 n =>
      left
      have hread := hnames n (by simp [Condition.occurrences])
      rw [List.mem_singleton.mp hg, Gate.holds_of_isReadable hread]
      cases hvalue
      exact htrue
  | case3 n =>
      left
      rw [List.mem_singleton.mp hg, Gate.holds_negation, isOff_eq]
      cases hvalue
      exact htrue
  | case4 n =>
      left
      rw [List.mem_singleton.mp hg, Gate.holds_negation, isOff]
      cases hvalue
      have hnone : macros n = none := by simpa [Condition.applyUnary, Value.truthy] using htrue
      rw [hnone]
      rfl
  | case5 l r ihl ihr =>
      rcases Condition.value_binary hvalue with ⟨x, hx, hcases⟩
      have hboth : exists y, r.value macros = .ok y ∧ x.truthy = true ∧ y.truthy = true := by
        rcases hcases with ⟨_, _, rfl⟩ | ⟨hor, _, _⟩ | ⟨y, hy, hcases⟩
        · cases htrue
        · cases hor
        · rcases hcases with ⟨_, hxtrue, rfl⟩ | ⟨hor, _, _⟩ | ⟨hand, _, _⟩
          · exact ⟨y, hy, hxtrue, htrue⟩
          · cases hor
          · exact absurd rfl hand
      rcases hboth with ⟨y, hy, hxtrue, hytrue⟩
      have hleft : forall n, n ∈ l.occurrences -> isReadable n = true :=
        fun n hn => hnames n (List.mem_append_left _ hn)
      have hright : forall n, n ∈ r.occurrences -> isReadable n = true :=
        fun n hn => hnames n (List.mem_append_right _ hn)
      rcases List.mem_append.mp hg with hg | hg
      · exact (ihl hx hxtrue hg hleft).imp_right (List.mem_append_left _)
      · exact (ihr hy hytrue hg hright).imp_right (List.mem_append_right _)
  | case6 op l r hand hcompare =>
      right
      rw [conjuncts, if_pos hcompare] at hg
      · rw [compared, if_pos hcompare]
        · exact hg
        · exact hand
      · exact hand
  | case7 op l r hand hcompare =>
      rw [conjuncts, if_neg hcompare] at hg
      · cases hg
      · exact hand
  | case8 c hident hdefined hnotIdent hnotDefined hand hbinary =>
      rw [conjuncts] at hg
      · cases hg
      all_goals assumption

theorem holds_negate_of_isTest {macros : Environment} {c : Condition} {v : Value} {g : Gate}
    (hvalue : c.value macros = .ok v) (hfalse : v.truthy = false) (htest : isTest c = true)
    (hg : g ∈ conjuncts c) (hnames : forall n, n ∈ c.occurrences -> isReadable n = true) :
    Gate.holds macros (Gate.negate g) = true := by
  fun_cases isTest c with
  | case1 n =>
      have hread := hnames n (by simp [Condition.occurrences])
      rw [List.mem_singleton.mp hg, Gate.negate_of_isReadable hread, Gate.holds_negation, isOff_eq]
      cases hvalue
      rw [hfalse]
      rfl
  | case2 n =>
      have hread := hnames n (by simp [Condition.occurrences])
      rw [List.mem_singleton.mp hg, Gate.negate_of_isReadable hread, Gate.holds_negation, isOff]
      cases hvalue
      have hnone : macros n = none := by simpa [Value.truthy] using hfalse
      rw [hnone]
      rfl
  | case3 n =>
      have hread := hnames n (by simp [Condition.occurrences])
      rw [List.mem_singleton.mp hg, Gate.negate_negation, Gate.holds_of_isReadable hread]
      cases hvalue
      exact isSome_of_truthy (by simpa [Condition.applyUnary, Value.truthy] using hfalse)
  | case4 n =>
      have hread := hnames n (by simp [Condition.occurrences])
      rw [List.mem_singleton.mp hg, Gate.negate_negation, Gate.holds_of_isReadable hread]
      cases hvalue
      simpa [Condition.applyUnary, Value.truthy] using hfalse
  | case5 c h1 h2 h3 h4 =>
      rw [isTest] at htest
      · cases htest
      all_goals assumption

theorem exists_value_of_isTest {c : Condition} (macros : Environment) (h : isTest c = true) :
    exists v, c.value macros = .ok v := by
  fun_cases isTest c with
  | case1 n => exact ⟨_, rfl⟩
  | case2 n => exact ⟨_, rfl⟩
  | case3 n => exact ⟨_, rfl⟩
  | case4 n => exact ⟨_, rfl⟩
  | case5 c h1 h2 h3 h4 =>
      rw [isTest] at h
      · cases h
      all_goals assumption

/-!
# Gates of a directive

The gates of a branch are those of its condition.  An `ifdef` takes any text up
to a space for a name, also one that starts with an exclamation mark.
-/

def testsOf (d : Directive) : List Gate :=
  if d.name == ("ifdef" : Text) then [d.operand]
  else if d.name == ("ifndef" : Text) then [negation :: d.operand]
  else d.condition?.elim [] conjuncts

def isTestOf (d : Directive) : Bool :=
  if d.name == ("ifdef" : Text) || d.name == ("ifndef" : Text) then isReadable d.operand
  else d.condition?.any isTest

def doubtsInside (d : Directive) : List Gate :=
  if d.name == ("ifdef" : Text) then if isReadable d.operand then [] else [d.operand]
  else if d.name == ("ifndef" : Text) then []
  else d.condition?.elim [] compared

def doubtsBehind (d : Directive) : List Gate :=
  if isTestOf d then [] else (testsOf d).map Gate.negate

theorem isReadable_of_condition? {d : Directive} {c : Condition} (h : d.condition? = some c)
    {n : Text} (hn : n ∈ c.occurrences) : isReadable n = true := by
  unfold Directive.condition? at h
  split at h
  · split at h
    · rename_i hparse
      cases h
      simpa [isReadable, negation] using Condition.head?_ne_of_parse hparse hn
    · cases h
  · cases h

theorem holds_of_isMet {macros : Environment} {d : Directive} {g : Gate}
    (hmet : d.isMet macros = true) (hg : g ∈ testsOf d) :
    Gate.holds macros g = true ∨ g ∈ doubtsInside d := by
  unfold testsOf at hg
  unfold doubtsInside
  split at hg
  · rename_i hname
    rw [if_pos hname, List.mem_singleton.mp hg]
    split
    · rename_i hread
      left
      rw [Gate.holds_of_isReadable hread]
      unfold Directive.isMet at hmet
      rwa [if_pos hname] at hmet
    · exact Or.inr (List.mem_singleton_self _)
  · rename_i hname
    split at hg
    · rename_i hname'
      left
      rw [List.mem_singleton.mp hg, Gate.holds_negation, isOff]
      unfold Directive.isMet at hmet
      rw [if_neg hname, if_pos hname', Option.isNone_iff_eq_none] at hmet
      rw [hmet]
      rfl
    · rename_i hname'
      rw [if_neg hname, if_neg hname']
      cases hc : d.condition? with
      | none =>
          rw [hc] at hg
          cases hg
      | some c =>
          rw [hc] at hg
          rw [Directive.isMet_of_condition? hc, Condition.isMet] at hmet
          split at hmet
          · rename_i v hvalue
            exact holds_of_mem_conjuncts hvalue hmet hg (fun n => isReadable_of_condition? hc)
          · cases hmet

theorem holds_negate_of_not_isMet {macros : Environment} {d : Directive} {g : Gate}
    (hmet : d.isMet macros = false) (hg : g ∈ testsOf d) :
    Gate.holds macros (Gate.negate g) = true ∨ Gate.negate g ∈ doubtsBehind d := by
  unfold doubtsBehind
  split
  · rename_i htest
    left
    unfold isTestOf at htest
    unfold testsOf at hg
    split at hg
    · rename_i hname
      have hread : isReadable d.operand = true := by simpa [hname] using htest
      unfold Directive.isMet at hmet
      rw [if_pos hname, Option.isSome_eq_false_iff, Option.isNone_iff_eq_none] at hmet
      rw [List.mem_singleton.mp hg, Gate.negate_of_isReadable hread, Gate.holds_negation, isOff,
        hmet]
      rfl
    · rename_i hname
      split at hg
      · rename_i hname'
        have hread : isReadable d.operand = true := by simpa [hname'] using htest
        unfold Directive.isMet at hmet
        rw [if_neg hname, if_pos hname'] at hmet
        rw [List.mem_singleton.mp hg, Gate.negate_negation, Gate.holds_of_isReadable hread]
        simpa using hmet
      · rename_i hname'
        rw [if_neg (by simp [hname, hname'])] at htest
        cases hc : d.condition? with
        | none =>
            rw [hc] at hg
            cases hg
        | some c =>
            rw [hc] at hg htest
            rcases exists_value_of_isTest macros htest with ⟨v, hvalue⟩
            rw [Directive.isMet_of_condition? hc, Condition.isMet, hvalue] at hmet
            exact holds_negate_of_isTest hvalue hmet htest hg
              (fun n => isReadable_of_condition? hc)
  · exact Or.inr (List.mem_map.mpr ⟨g, hg, rfl⟩)

/-!
# Open conditionals

What the directives before some place come to: the conditionals that are open there
with the gates of their branches, and the macros that the source itself has defined.
-/

/-- The open conditionals, innermost first, and the macros that the source defines. -/
structure Context where
  levels : List Level
  locals : List Text

namespace Context

def tracks (c : Context) (name : Text) : Bool :=
  !isReserved name && !c.locals.contains name

def gatesOf (c : Context) (d : Directive) : List Gate :=
  if d.name == ("ifdef" : Text) || d.name == ("ifndef" : Text) then
    if c.tracks d.operand then testsOf d else []
  else (testsOf d).filter fun g => c.tracks (Gate.macroName g)

/-- The context after one more directive. -/
def after (c : Context) (d : Directive) : Context :=
  match d.role with
  | .opens => { c with levels := Level.opened (c.gatesOf d) :: c.levels }
  | .continues =>
      match c.levels with
      | [] => c
      | l :: rest => { c with levels := ⟨l.flip.passed, c.gatesOf d⟩ :: rest }
  | .closes => { c with levels := c.levels.tail }
  | .other =>
      if d.name == ("define" : Text) then
        { c with locals := Extractor.definedName d.body :: c.locals }
      else c

def afterAll (c : Context) (ds : List Directive) : Context :=
  ds.foldl after c

theorem gatesOf_subset (c : Context) (d : Directive) : c.gatesOf d ⊆ testsOf d := by
  unfold gatesOf
  split
  · split
    · exact List.Subset.refl _
    · exact List.nil_subset _
  · exact List.filter_sublist.subset

section After

variable {c : Context} {d : Directive}

theorem after_opens (h : d.role = .opens) :
    c.after d = ⟨Level.opened (c.gatesOf d) :: c.levels, c.locals⟩ := by
  unfold after
  rw [h]

theorem after_continues {l : Level} {rest : List Level} (h : d.role = .continues)
    (hlevels : c.levels = l :: rest) :
    c.after d = ⟨⟨l.flip.passed, c.gatesOf d⟩ :: rest, c.locals⟩ := by
  unfold after
  rw [h]
  dsimp only
  rw [hlevels]

theorem after_closes (h : d.role = .closes) : c.after d = ⟨c.levels.tail, c.locals⟩ := by
  unfold after
  rw [h]

theorem after_other (h : d.role = .other) :
    c.after d = ⟨c.levels, if d.name == ("define" : Text) then
      Extractor.definedName d.body :: c.locals else c.locals⟩ := by
  unfold after
  rw [h]
  dsimp only
  split <;> rfl

end After

end Context

end Gating

/-!
# What a directive does to the gates

Of everything that an extraction keeps, conditional directives change the open levels
and definitions the macros of the source.  No directive changes the recorded lines.
-/

namespace Extractor

open Gating

def State.context (st : State) : Context :=
  ⟨st.stack, st.locals⟩

theorem tracks_eq (st : State) (name : Text) : st.tracks name = st.context.tracks name := rfl

/-!
# Recording macros
-/

theorem use_frame (st : State) (name : Text) (type : DefineType) :
    (st.use name type).context = st.context ∧ (st.use name type).out = st.out := by
  unfold State.use
  split <;> exact ⟨rfl, rfl⟩

theorem foldl_use_frame (type : Text -> DefineType) (names : List Text) (st : State) :
    (names.foldl (fun st name => st.use name (type name)) st).context = st.context ∧
      (names.foldl (fun st name => st.use name (type name)) st).out = st.out := by
  induction names generalizing st with
  | nil => exact ⟨rfl, rfl⟩
  | cons name names ih =>
      rcases ih (st.use name (type name)) with ⟨hcontext, hout⟩
      rcases use_frame st name (type name) with ⟨hcontext', hout'⟩
      exact ⟨hcontext.trans hcontext', hout.trans hout'⟩

/-!
# Conditions
-/

def recorded (st : State) (c : Condition) : State :=
  c.names.foldl
    (fun st name => st.use name (if (numericNames c).contains name then .number else .boolean)) st

theorem recorded_frame (st : State) (c : Condition) :
    (recorded st c).context = st.context ∧ (recorded st c).out = st.out :=
  foldl_use_frame _ c.names st

theorem condition_of_parse {body : Text} {c : Condition} (h : Condition.parse body = .ok c)
    (st : State) (line : Nat) :
    condition st body line = ((recorded st c).enterBranch
      ((conjuncts c).filter fun g => (recorded st c).tracks (Gate.macroName g)), none) := by
  unfold condition
  rw [h]
  rfl

theorem condition_spec {st st' : State} {body : Text} {line : Nat} {l : Level} {rest : List Level}
    (hstack : st.stack = l :: rest) (h : condition st body line = (st', none)) :
    exists c, Condition.parse body = .ok c ∧ st'.out = st.out ∧
      st'.context = ⟨⟨l.passed, l.current ++
        (conjuncts c).filter fun g => st.context.tracks (Gate.macroName g)⟩ :: rest,
        st.locals⟩ := by
  cases hparse : Condition.parse body with
  | error e =>
      unfold condition at h
      rw [hparse] at h
      cases h
  | ok c =>
      rw [condition_of_parse hparse] at h
      rcases recorded_frame st c with ⟨hcontext, hout⟩
      have hlevels : (recorded st c).stack = l :: rest :=
        (congrArg Context.levels hcontext).trans hstack
      have hlocals : (recorded st c).locals = st.locals := congrArg Context.locals hcontext
      simp only [State.enterBranch, hlevels, tracks_eq, hcontext] at h
      cases h
      exact ⟨c, rfl, hout, congrArg _ hlocals⟩

theorem ifDefined_spec {st st' : State} {negated : Bool} {d : Directive} {line : Nat}
    (h : ifDefined st negated d.body line = (st', none)) :
    st'.out = st.out ∧
      st'.context = ⟨Level.opened (if st.context.tracks d.operand then
        [if negated then negation :: d.operand else d.operand] else []) :: st.stack,
        st.locals⟩ := by
  unfold ifDefined at h
  dsimp only at h
  split at h
  · cases h
  · cases h
    rcases use_frame st d.operand .boolean with ⟨hcontext, hout⟩
    refine ⟨hout, ?_⟩
    rw [← hcontext]
    exact congrArg₂ Context.mk (congrArg _ (congrArg Context.levels hcontext))
      (congrArg Context.locals hcontext)

/-!
# Pragmas
-/

theorem defineMeta_frame {st st' : State} {args : Text} {line : Nat}
    (h : defineMeta st args line = (st', none)) :
    st'.context = st.context ∧ st'.out = st.out := by
  unfold defineMeta at h
  dsimp only at h
  split at h
  · cases h
  · split at h
    · cases h
    · split at h
      · cases h
        exact ⟨rfl, rfl⟩
      · cases h

theorem pragma_frame {st st' : State} {p : Pragma} {line : Nat}
    (h : pragma st p line = (st', none)) :
    st'.context = st.context ∧ st'.out.lines = st.out.lines := by
  unfold pragma at h
  dsimp only at h
  split at h
  · rcases defineMeta_frame h with ⟨hcontext, hout⟩
    exact ⟨hcontext, congrArg _ hout⟩
  · repeat' split at h
    all_goals
      cases h
      try exact ⟨rfl, rfl⟩

/-!
# Directives
-/

theorem testsOf_of_parse {d : Directive} {c : Condition} (hname : d.name = "if" ∨ d.name = "elif")
    (h : Condition.parse d.body = .ok c) : testsOf d = conjuncts c := by
  unfold testsOf
  rw [Directive.condition?_of_parse hname h]
  rcases hname with hname | hname <;> rw [hname] <;> rfl

theorem gatesOf_of_parse {d : Directive} {c : Condition} (context : Context)
    (hname : d.name = "if" ∨ d.name = "elif") (h : Condition.parse d.body = .ok c) :
    context.gatesOf d = (conjuncts c).filter fun g => context.tracks (Gate.macroName g) := by
  unfold Context.gatesOf
  rw [testsOf_of_parse hname h]
  rcases hname with hname | hname <;> rw [hname] <;> rfl

theorem role_of_name {d : Directive} {name : Text} (h : d.name = name) :
    d.role = (Directive.mk name d.body).role := by
  rw [← h]

theorem role_eq_other {d : Directive} (hif : ¬ (d.name == ("if" : Text)) = true)
    (helif : ¬ (d.name == ("elif" : Text)) = true) (hifdef : ¬ (d.name == ("ifdef" : Text)) = true)
    (hifndef : ¬ (d.name == ("ifndef" : Text)) = true)
    (helse : ¬ (d.name == ("else" : Text)) = true)
    (hendif : ¬ (d.name == ("endif" : Text)) = true) : d.role = .other := by
  unfold Directive.role
  rw [if_neg (by simp_all), if_neg (by simp_all), if_neg hendif]

theorem directive_if {st : State} {d : Directive} {line : Nat} (h : d.name = "if") :
    directive st d line = condition (st.push (Level.opened [])) d.body line := by
  unfold directive
  rw [if_pos (by simp [h])]

structure Accepts (st st' : State) (d : Directive) : Prop where
  context : st'.context = st.context.after d
  lines : st'.out.lines = st.out.lines
  isOpen : d.role = .continues ∨ d.role = .closes -> st.stack ≠ []

section Accepts

variable {st st' : State} {d : Directive} {line : Nat}

theorem accepts_opens (hrole : d.role = .opens) {gates : List Gate}
    (hgates : st.context.gatesOf d = gates)
    (hcontext : st'.context = ⟨Level.opened gates :: st.stack, st.locals⟩)
    (hout : st'.out = st.out) :
    Accepts st st' d := by
  refine ⟨?_, congrArg _ hout, ?_⟩
  · rw [Context.after_opens hrole, hgates]
    exact hcontext
  · rw [hrole]
    rintro (h | h) <;> cases h

theorem accepts_continues (hrole : d.role = .continues) {l : Level} {rest : List Level}
    {gates : List Gate} (hstack : st.stack = l :: rest) (hgates : st.context.gatesOf d = gates)
    (hcontext : st'.context = ⟨⟨l.flip.passed, gates⟩ :: rest, st.locals⟩)
    (hout : st'.out = st.out) :
    Accepts st st' d := by
  refine ⟨?_, congrArg _ hout, ?_⟩
  · rw [Context.after_continues hrole hstack, hgates]
    exact hcontext
  · intro _ hnil
    rw [hstack] at hnil
    cases hnil

theorem accepts_other (hrole : d.role = .other) {locals : List Text}
    (hlocals : (if d.name == ("define" : Text) then definedName d.body :: st.locals
      else st.locals) = locals)
    (hcontext : st'.context = ⟨st.stack, locals⟩) (hlines : st'.out.lines = st.out.lines) :
    Accepts st st' d := by
  refine ⟨?_, hlines, ?_⟩
  · rw [Context.after_other hrole, hcontext, ← hlocals]
    rfl
  · rw [hrole]
    rintro (h | h) <;> cases h

theorem directive_spec (h : directive st d line = (st', none)) : Accepts st st' d := by
  by_cases hname : d.name = "if"
  · rw [directive_if hname] at h
    rcases condition_spec rfl h with ⟨c, hparse, hout, hcontext⟩
    exact accepts_opens (role_of_name hname) (gatesOf_of_parse _ (Or.inl hname) hparse) hcontext
      hout
  · have hif : ¬ (d.name == ("if" : Text)) = true := by simpa using hname
    unfold directive at h
    rw [if_neg hif] at h
    split at h
    · rename_i hname
      have hname : d.name = "elif" := eq_of_beq hname
      cases hold : st.stack with
      | nil =>
          simp only [State.nextBranch?, hold] at h
          cases h
      | cons l rest =>
          simp only [State.nextBranch?, hold] at h
          rcases condition_spec rfl h with ⟨c, hparse, hout, hcontext⟩
          exact accepts_continues (role_of_name hname) hold
            (gatesOf_of_parse _ (Or.inr hname) hparse) hcontext hout
    · split at h
      · rename_i hname
        have hname : d.name = "ifdef" := eq_of_beq hname
        rcases ifDefined_spec h with ⟨hout, hcontext⟩
        refine accepts_opens (role_of_name hname) ?_ hcontext hout
        unfold Context.gatesOf testsOf
        rw [hname]
        rfl
      · split at h
        · rename_i hname
          have hname : d.name = "ifndef" := eq_of_beq hname
          rcases ifDefined_spec h with ⟨hout, hcontext⟩
          refine accepts_opens (role_of_name hname) ?_ hcontext hout
          unfold Context.gatesOf testsOf
          rw [hname]
          rfl
        · split at h
          · rename_i hname
            have hname : d.name = "else" := eq_of_beq hname
            cases hold : st.stack with
            | nil =>
                simp only [State.nextBranch?, hold] at h
                cases h
            | cons l rest =>
                simp only [State.nextBranch?, hold] at h
                cases h
                refine accepts_continues (role_of_name hname) hold ?_ rfl rfl
                unfold Context.gatesOf testsOf Directive.condition?
                rw [hname]
                rfl
          · split at h
            · rename_i hname
              have hname : d.name = "endif" := eq_of_beq hname
              split at h
              · cases h
              · rename_i hold
                cases h
                refine ⟨?_, rfl, fun _ hnil => by rw [hold] at hnil; cases hnil⟩
                rw [Context.after_closes (role_of_name hname)]
                exact congrArg₂ Context.mk (congrArg List.tail hold).symm rfl
            · rename_i helif hifdef hifndef helse hendif
              have hrole : d.role = .other :=
                role_eq_other hif helif hifdef hifndef helse hendif
              split at h
              · rename_i hname
                cases h
                exact accepts_other hrole (if_pos hname) rfl rfl
              · rename_i hname
                split at h
                · rcases pragma_frame h with ⟨hcontext, hlines⟩
                  exact accepts_other hrole (if_neg hname) hcontext hlines
                · cases h
                  exact accepts_other hrole (if_neg hname) rfl rfl

end Accepts

end Extractor

end EffectShader
