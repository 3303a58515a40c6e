import EffectShader.Proofs.Define.Consistency
import EffectShader.Proofs.Define.Soundness
import EffectShader.Proofs.Downgrade.Prelude
import EffectShader.Proofs.Preprocess
import EffectShader.Strict.Source

/-!
# Switches in strict sources

A strict source fixes every switch of a shader at zero.  So a branch that tests the
value of a switch is off.  A branch that tests whether the switch is defined is on.
-/

namespace EffectShader

/-!
# Tests of switches
-/

namespace Gating

open Preprocess (Reading Macros State isActive)

/-- The directive tests the value of a macro, and nothing else. -/
def TestsValue (d : Directive) (n : Text) : Prop :=
  d.condition? = some (.ident n)

/-- The directive tests whether a macro is defined, and nothing else. -/
def TestsDefined (d : Directive) (n : Text) : Prop :=
  d.name = "ifdef" ∧ d.operand = n ∨ d.condition? = some (.defined n)

theorem isMet_of_testsValue {macros : Environment} {d : Directive} {n : Text} (h : TestsValue d n)
    (hzero : macros n = none ∨ macros n = some (.int 0)) : d.isMet macros = false := by
  rw [Directive.isMet_of_condition? h, Condition.isMet, Condition.value]
  rcases hzero with hzero | hzero <;> rw [hzero] <;> rfl

theorem isMet_of_testsDefined {macros : Environment} {d : Directive} {n : Text}
    (h : TestsDefined d n) (hsome : (macros n).isSome = true) : d.isMet macros = true := by
  rcases h with ⟨hname, hoperand⟩ | h
  · unfold Directive.isMet
    rw [if_pos (by simp [hname]), hoperand, hsome]
  · rw [Directive.isMet_of_condition? h, Condition.isMet, Condition.value, hsome]
    rfl

/-- What is known of the branch of an open conditional: it is off if it tests the value of a macro
that is zero, and on if it is the first one and tests for a macro that is defined. -/
structure Decided (zero defined : Text -> Prop) (p : Preprocess.Level) (c : Conditional) :
    Prop where
  off : forall n, zero n -> TestsValue c.current n -> p.active = false
  on : c.earlier = [] -> forall n, defined n -> TestsDefined c.current n -> p.active = true

section Decided

variable {zero defined : Text -> Prop} {levels : List Preprocess.Level} {cs : List Conditional}

theorem isActive_eq_false (h : List.Forall₂ (Decided zero defined) levels cs) {c : Conditional}
    {n : Text} (hc : c ∈ cs) (htests : TestsValue c.current n) (hn : zero n) :
    isActive levels = false := by
  induction h with
  | nil => cases hc
  | cons hdecided _ ih =>
      unfold isActive at ih ⊢
      rw [List.all_cons]
      rcases List.mem_cons.mp hc with rfl | hc
      · rw [hdecided.off n hn htests, Bool.false_and]
      · rw [ih hc, Bool.and_false]

theorem isActive_eq_true (h : List.Forall₂ (Decided zero defined) levels cs)
    (hcs : forall c, c ∈ cs -> c.earlier = [] ∧ exists n, TestsDefined c.current n ∧ defined n) :
    isActive levels = true := by
  induction h with
  | nil => rfl
  | cons hdecided _ ih =>
      rcases List.forall_mem_cons.mp hcs with ⟨⟨hearlier, n, htests, hn⟩, hcs⟩
      unfold isActive at ih ⊢
      rw [List.all_cons, hdecided.on hearlier n hn htests, ih hcs, Bool.and_true]

end Decided

structure Knows (read : Reading) (zero defined : Text -> Prop) (s : State)
    (cs : List Conditional) : Prop where
  levels : List.Forall₂ (Decided zero defined) s.levels cs
  zero : forall n, zero n -> s.macros n = none ∨ s.macros n = some ("0" : Text)
  defined : forall n, defined n -> s.macros n = some ("0" : Text)

section Step

variable {read : Reading} {zero defined : Text -> Prop} {s : State} {cs : List Conditional}
  {d : Directive}

theorem Knows.decides (hread : forall m, read m "0" = .int 0) (h : Knows read zero defined s cs)
    {n : Text} :
    (zero n -> TestsValue d n -> d.isMet (s.macros.values read) = false) ∧
      (defined n -> TestsDefined d n -> d.isMet (s.macros.values read) = true) := by
  constructor
  · intro hn htests
    apply isMet_of_testsValue htests
    unfold Macros.values
    rcases h.zero n hn with heq | heq
    · rw [heq]
      exact Or.inl rfl
    · rw [heq, Option.map_some, hread]
      exact Or.inr rfl
  · intro hn htests
    apply isMet_of_testsDefined htests
    unfold Macros.values
    rw [h.defined n hn]
    rfl

theorem Knows.enter (hread : forall m, read m "0" = .int 0) (h : Knows read zero defined s cs) :
    List.Forall₂ (Decided zero defined) (Preprocess.enter (s.macros.values read) d s.levels)
      (follow cs d) := by
  have hlevels := h.levels
  unfold Preprocess.enter follow
  cases hrole : d.role with
  | opens =>
      exact List.Forall₂.cons ⟨fun _ => (h.decides hread).1, fun _ _ => (h.decides hread).2⟩ hlevels
  | continues =>
      generalize s.levels = levels at hlevels
      cases hlevels with
      | nil => exact List.Forall₂.nil
      | cons _ hrest =>
          refine List.Forall₂.cons ⟨?_, ?_⟩ hrest
          · intro n hn htests
            unfold Preprocess.Level.next
            rw [(h.decides hread).1 hn htests, Bool.and_false]
          · intro hearlier
            cases hearlier
  | closes =>
      generalize s.levels = levels at hlevels
      cases hlevels with
      | nil => exact List.Forall₂.nil
      | cons _ hrest => exact hrest
  | other => exact hlevels

theorem Knows.step (hread : forall m, read m "0" = .int 0) (h : Knows read zero defined s cs)
    (hzero : d.name = "define" -> forall n, zero n -> Extractor.definedName d.body ≠ n)
    (hdefined : d.name = "define" ∨ d.name = "undef" ->
      forall n, defined n -> Extractor.definedName d.body ≠ n) :
    Knows read zero defined (s.after read d) (follow cs d) := by
  refine ⟨?_, ?_, ?_⟩
  · by_cases hname : d.name = "define" ∨ d.name = "undef"
    · have hrole : d.role = .other := by
        rcases hname with hname | hname <;> exact Extractor.role_of_name hname
      unfold follow
      rw [State.levels_after_of_eq hname, hrole]
      exact h.levels
    · rw [State.after_of_ne hname]
      exact h.enter hread
  · intro n hn
    have hafter : (s.after read d).macros n = s.macros n ∨ (s.after read d).macros n = none :=
      State.macros_after_or fun hname => hzero hname n hn
    rcases hafter with heq | heq
    · rw [heq]
      exact h.zero n hn
    · exact Or.inl heq
  · intro n hn
    rw [State.macros_after fun hname => hdefined hname n hn]
    exact h.defined n hn

theorem Knows.afterAll {ds : List Directive} (hread : forall m, read m "0" = .int 0)
    (h : Knows read zero defined s cs)
    (hzero : forall d, d ∈ ds -> d.name = "define" ->
      forall n, zero n -> Extractor.definedName d.body ≠ n)
    (hdefined : forall d, d ∈ ds -> d.name = "define" ∨ d.name = "undef" ->
      forall n, defined n -> Extractor.definedName d.body ≠ n) :
    Knows read zero defined (s.afterAll read ds) (ds.foldl follow cs) := by
  induction ds generalizing s cs with
  | nil => exact h
  | cons d ds ih =>
      rcases List.forall_mem_cons.mp hzero with ⟨hzero, hzeros⟩
      rcases List.forall_mem_cons.mp hdefined with ⟨hdefined, hdefineds⟩
      exact ih (h.step hread hzero hdefined) hzeros hdefineds

end Step

end Gating

/-!
# Directives in front of a source
-/

namespace Lexer

open Preprocess (directivesBy directive)

def directivesOf (line : Nat) (xs : List Lexeme) : List Directive :=
  (xs.filter fun x => x.kind == .directive && x.line + x.text.newlines ≤ line).map directive

theorem directivesOf_cons (line : Nat) (x : Lexeme) (xs : List Lexeme) :
    directivesOf line (x :: xs) =
      (if x.kind == .directive && x.line + x.text.newlines ≤ line then [directive x] else []) ++
        directivesOf line xs := by
  unfold directivesOf
  rw [List.filter_cons]
  split <;> rfl

theorem directivesBy_eq (line : Nat) (ts : List Token) :
    directivesBy line ts = directivesOf line (lexemes ts) := by
  induction ts with
  | nil => rfl
  | cons t ts ih =>
      cases htrivia : t.isTrivia with
      | true =>
          have hkind : t.isDirective = false := by
            cases hkind : t.kind <;> simp_all [Token.isTrivia, Token.isDirective]
          rw [Preprocess.directivesBy_cons_of_neg (Or.inl hkind),
            lexemes_cons_of_trivia htrivia, ih]
      | false =>
          rw [lexemes_cons htrivia, directivesOf_cons, ← ih]
          split
          · rename_i hends
            rcases Bool.and_eq_true_iff.mp hends with ⟨hkind, hline⟩
            exact Preprocess.directivesBy_cons_of_pos hkind (of_decide_eq_true hline)
          · rename_i hends
            apply Preprocess.directivesBy_cons_of_neg
            cases hkind : t.isDirective with
            | false => exact Or.inl rfl
            | true =>
                refine Or.inr (Nat.lt_of_not_le fun hline => hends ?_)
                exact Bool.and_eq_true_iff.mpr ⟨hkind, decide_eq_true hline⟩

theorem directivesOf_lexemesFrom_add (line first k : Nat) (ws : List Piece) :
    directivesOf (line + k) (lexemesFrom (first + k) ws) =
      directivesOf line (lexemesFrom first ws) := by
  induction ws generalizing first with
  | nil => rfl
  | cons w ws ih =>
      have hnext := ih (first + w.text.newlines)
      rw [Nat.add_right_comm] at hnext
      rw [lexemesFrom, lexemesFrom]
      split
      · exact hnext
      · rw [directivesOf_cons, directivesOf_cons, hnext]
        have hline : first + k + w.text.newlines ≤ line + k ↔ first + w.text.newlines ≤ line := by
          omega
        simp only [hline]
        rfl

theorem exists_lexes_lines {es : List (Text × Directive)}
    (h : forall e, e ∈ es -> Fold.SpellsDirective e.1 e.2) {code : Text} {ws : List Piece}
    (hws : Lexes true code ws) :
    exists us, Lexes true ((es.map fun e => e.1 ++ [Byte.newline]).flatten ++ code) us ∧
      forall first line, first + es.length ≤ line + 1 ->
        directivesOf line (lexemesFrom first us) =
          es.map Prod.snd ++ directivesOf line (lexemesFrom (first + es.length) ws) := by
  induction es with
  | nil => exact ⟨ws, hws, fun _ _ _ => rfl⟩
  | cons e es ih =>
      rcases List.forall_mem_cons.mp h with ⟨he, hes⟩
      rcases ih hes with ⟨us, hus, hdirectives⟩
      rcases Downgrade.exists_lexes_directive (he.cuts _ (Or.inr rfl)) hus with ⟨vs, hvs, hlines⟩
      refine ⟨⟨.directive, e.1⟩ :: vs, by simpa using hvs, fun first line hline => ?_⟩
      rw [List.length_cons] at hline
      have hrest := hdirectives (first + 1) line (by omega)
      have hends : first + Text.newlines e.1 ≤ line := by
        rw [Text.newlines_of_not_mem he.line]
        omega
      have hdirective : directive ⟨.directive, e.1, first⟩ = e.2 := by
        unfold directive
        rw [he.parse]
        rfl
      have hkind : ((TokenKind.directive == .directive) && decide
          (first + Text.newlines e.1 ≤ line)) = true := by
        rw [decide_eq_true hends]
        rfl
      rw [lexemesFrom, if_neg (by simp), directivesOf_cons]
      dsimp only
      rw [if_pos hkind, hdirective, hlines, Text.newlines_of_not_mem he.line, Nat.add_zero, hrest,
        List.map_cons, List.length_cons, Nat.add_right_comm, Nat.add_assoc first]
      rfl

end Lexer

/-!
# The lines of a strict source
-/

namespace Strict

structure IsWritable (d : Define) : Prop where
  ne : d.name ≠ []
  word : forall b, b ∈ d.name -> Byte.isWord b = true
  value : forall v, restrictiveValue? d = some v -> v ≠ [] ∧
    (forall b, b ∈ v -> b ≠ Byte.newline ∧ b ≠ Byte.slash) ∧
    forall c, v.getLast? = some c -> Text.mayEndBlank c = false ∧ c ≠ Byte.backslash

def definition? (d : Define) : Option (Text × Directive) :=
  (restrictiveValue? d).map fun v =>
    ("#define " ++ d.name ++ " " ++ v, ⟨"define", d.name ++ Byte.space :: v⟩)

/-- The lines in front of the code. -/
def entries (defines : List Define) : List (Text × Directive) :=
  ("#version 100", ⟨"version", "100"⟩) :: defines.filterMap definition?

theorem source_eq (code : Text) (defines : List Define) :
    source code defines =
      ((entries defines).map fun e => e.1 ++ [Byte.newline]).flatten ++ code := by
  have hlines (ds : List Define) : ds.filterMap defineLine? =
      (ds.filterMap definition?).map fun e => e.1 ++ [Byte.newline] := by
    rw [List.map_filterMap]
    apply List.filterMap_congr
    intro d _
    unfold defineLine? definition?
    rw [Option.map_map]
    rfl
  unfold source entries
  rw [hlines, List.map_cons, List.flatten_cons]
  rfl

theorem spellsDirective_entries {defines : List Define}
    (h : forall d, d ∈ defines -> IsWritable d) :
    forall e, e ∈ entries defines -> Fold.SpellsDirective e.1 e.2 := by
  intro e he
  rcases List.mem_cons.mp he with rfl | he
  · exact Fold.spellsDirective (v := "version 100") (by decide) (by decide) (by decide +kernel)
  · rcases List.mem_filterMap.mp he with ⟨d, hd, hentry⟩
    rcases Option.map_eq_some_iff.mp hentry with ⟨v, hv, rfl⟩
    have hd := h d hd
    rcases hd.value v hv with ⟨hne, hbytes, hlast⟩
    have htext : ("#define " ++ d.name ++ " " ++ v : Text) =
        Byte.hash :: ("define" ++ Byte.space :: (d.name ++ Byte.space :: v)) := by
      rw [List.append_assoc, List.append_assoc]
      rfl
    dsimp only
    rw [htext]
    apply Fold.spellsDirective_named (w := "define") (by decide) (List.all_eq_true.mp (by decide))
      (List.append_ne_nil_of_left_ne_nil hd.ne _)
    · intro b hb
      rcases List.mem_append.mp hb with hb | hb
      · exact Directive.of_isWord (P := fun b => b ≠ Byte.newline ∧ b ≠ Byte.slash) (hd.word b hb)
          (by decide)
      · rcases List.mem_cons.mp hb with rfl | hb
        · decide
        · exact hbytes b hb
    · intro c hc
      rw [List.head?_append_of_ne_nil _ hd.ne] at hc
      exact Directive.graphic_of_isWord (hd.word c (List.mem_of_mem_head? hc))
    · rw [List.getLast?_append_of_ne_nil _ (List.cons_ne_nil _ _), List.getLast?_cons_of_ne_nil hne]
      exact hlast

/-!
# The state behind the lines in front
-/

open Preprocess (Macros Reading State)

theorem after_definition {read : Reading} {m : Macros} {d : Define} (hd : IsWritable d) {v : Text} :
    (State.mk [] m).after read ⟨"define", d.name ++ Byte.space :: v⟩ =
      ⟨[], m.set d.name (some (Text.trim (Byte.space :: v)))⟩ := by
  have hspace : Byte.isWord Byte.space = false := by decide
  have hname : Extractor.definedName (d.name ++ Byte.space :: v) = d.name := by
    unfold Extractor.definedName
    rw [List.takeWhile_append_of_pos hd.word, List.takeWhile_cons_of_neg (by simp [hspace]),
      List.append_nil]
  have hrest : (d.name ++ Byte.space :: v).dropWhile Byte.isWord = Byte.space :: v := by
    rw [List.dropWhile_append_of_pos hd.word, List.dropWhile_cons_of_neg (by simp [hspace])]
  have hgiven : State.given ⟨"define", d.name ++ Byte.space :: v⟩ =
      some (Text.trim (Byte.space :: v)) := by
    unfold State.given
    rw [hrest]
    rfl
  have hactive : Preprocess.isActive [] = true := rfl
  rw [State.after_of_eq (Or.inl rfl)]
  dsimp only
  rw [if_pos hactive, hname, hgiven]

theorem afterAll_defines (read : Reading) (m : Macros) {defines : List Define}
    (h : forall d, d ∈ defines -> IsWritable d) (hnodup : (defines.map Define.name).Nodup) :
    exists m',
      (State.mk [] m).afterAll read ((defines.filterMap definition?).map Prod.snd) = ⟨[], m'⟩ ∧
      (forall n, n ∉ defines.map Define.name -> m' n = m n) ∧
      forall d, d ∈ defines -> d.type = .boolean -> m' d.name = some ("0" : Text) := by
  induction defines generalizing m with
  | nil => exact ⟨m, rfl, fun _ _ => rfl, fun d hd => absurd hd List.not_mem_nil⟩
  | cons d ds ih =>
      rcases List.forall_mem_cons.mp h with ⟨hd, hds⟩
      rw [List.map_cons, List.nodup_cons] at hnodup
      cases hvalue : restrictiveValue? d with
      | none =>
          rcases ih m hds hnodup.2 with ⟨m', hrun, hother, hswitch⟩
          refine ⟨m', ?_, ?_, ?_⟩
          · rw [List.filterMap_cons_none (by rw [definition?, hvalue]; rfl)]
            exact hrun
          · intro n hn
            exact hother n fun hmem => hn (List.mem_cons_of_mem _ hmem)
          · intro e he htype
            rcases List.mem_cons.mp he with rfl | he
            · unfold restrictiveValue? at hvalue
              rw [htype] at hvalue
              cases hvalue
            · exact hswitch e he htype
      | some v =>
          rcases ih (m.set d.name (some (Text.trim (Byte.space :: v)))) hds hnodup.2 with
            ⟨m', hrun, hother, hswitch⟩
          refine ⟨m', ?_, ?_, ?_⟩
          · rw [List.filterMap_cons_some (by rw [definition?, hvalue]; rfl), List.map_cons,
              State.afterAll_cons, after_definition hd]
            exact hrun
          · intro n hn
            rw [List.map_cons, List.mem_cons, not_or] at hn
            rw [hother n hn.2, Macros.set_of_ne _ _ hn.1]
          · intro e he htype
            rcases List.mem_cons.mp he with rfl | he
            · unfold restrictiveValue? at hvalue
              rw [htype] at hvalue
              cases hvalue
              rw [hother _ hnodup.1, Macros.set_self]
              exact congrArg some (by decide +kernel)
            · exact hswitch e he htype

theorem exists_tokens {code : Text} {ts : List Token} {defines : List Define}
    (htokens : tokenize code = .ok ts) (h : forall d, d ∈ defines -> IsWritable d) :
    exists strict, tokenize (source code defines) = .ok strict ∧
      forall line, Preprocess.directivesBy (line + (entries defines).length) strict =
        (entries defines).map Prod.snd ++ Preprocess.directivesBy line ts := by
  rcases Lexer.tokenize_eq_ok_iff.mp htokens with ⟨ws, hws, rfl⟩
  rcases Lexer.exists_lexes_lines (spellsDirective_entries h) hws with ⟨us, hus, hdirectives⟩
  rw [← source_eq] at hus
  refine ⟨_, Lexer.tokenize_eq_ok_iff.mpr ⟨us, hus, rfl⟩, fun line => ?_⟩
  have hstart : Position.start.line = 1 := rfl
  rw [Lexer.directivesBy_eq, Lexer.lexemes_place, hstart, hdirectives 1 _ (by omega),
    Lexer.directivesOf_lexemesFrom_add, Lexer.directivesBy_eq, Lexer.lexemes_place, hstart]

/-!
# What is known behind the lines in front
-/

/-- A switch that no directive defines again. -/
def IsOff (defines : List Define) (ds : List Directive) (n : Text) : Prop :=
  (exists d, d ∈ defines ∧ d.type = .boolean ∧ d.name = n) ∧
    forall e, e ∈ ds -> e.name = "define" -> Extractor.definedName e.body ≠ n

/-- A switch that no directive defines again or makes undefined. -/
def IsFixed (defines : List Define) (ds : List Directive) (n : Text) : Prop :=
  IsOff defines ds n ∧ forall e, e ∈ ds -> e.name = "undef" -> Extractor.definedName e.body ≠ n

theorem forall₂_decided {read : Reading} (macros : Macros) {defines : List Define}
    (ds : List Directive) (hread : forall m, read m "0" = .int 0)
    (h : forall d, d ∈ defines -> IsWritable d) (hnodup : (defines.map Define.name).Nodup) :
    List.Forall₂ (Gating.Decided (IsOff defines ds) (IsFixed defines ds))
      ((State.mk [] macros).afterAll read ((entries defines).map Prod.snd ++ ds)).levels
      (ds.foldl Gating.follow []) := by
  rcases afterAll_defines read macros h hnodup with ⟨m, hrun, _, hswitch⟩
  have hheader : (State.mk [] macros).afterAll read ((entries defines).map Prod.snd) = ⟨[], m⟩ := by
    unfold entries
    rw [List.map_cons, State.afterAll_cons, State.after_of_ne (by decide)]
    exact hrun
  have hoff : forall n, IsOff defines ds n -> m n = some ("0" : Text) := by
    rintro n ⟨⟨d, hd, htype, rfl⟩, _⟩
    exact hswitch d hd htype
  rw [State.afterAll_append, hheader]
  refine (Gating.Knows.afterAll hread ⟨List.Forall₂.nil, ?_, ?_⟩ ?_ ?_).levels
  · exact fun n hn => Or.inr (hoff n hn)
  · exact fun n hn => hoff n hn.1
  · exact fun e he hname n hn => hn.2 e he hname
  · rintro e he (hname | hname) n hn
    · exact hn.1.2 e he hname
    · exact hn.2 e he hname

end Strict

open Preprocess (Macros Reading State directivesBy keepsLineDefining)

/-!
# A switch that is tested in both ways
-/

theorem extract_tests :
    exists ts, tokenize "#if A\n1\n#endif\n#ifdef A\n2\n#endif" = .ok ts ∧
      (extractDefines ts DefineSet.empty).1.list =
        [{ Define.new "A" with defines := some [], used := true }] ∧
      directivesBy 2 ts = [⟨"if", "A"⟩] ∧
      directivesBy 5 ts = [⟨"if", "A"⟩, ⟨"endif", []⟩, ⟨"ifdef", "A"⟩] := by
  have htokens : tokenize "#if A\n1\n#endif\n#ifdef A\n2\n#endif" = .ok
      [⟨.directive, "#if A", ⟨1, 1, 0⟩⟩, ⟨.whitespace, "\n", ⟨1, 6, 5⟩⟩,
        ⟨.integer, "1", ⟨2, 1, 6⟩⟩, ⟨.whitespace, "\n", ⟨2, 2, 7⟩⟩,
        ⟨.directive, "#endif", ⟨3, 1, 8⟩⟩, ⟨.whitespace, "\n", ⟨3, 7, 14⟩⟩,
        ⟨.directive, "#ifdef A", ⟨4, 1, 15⟩⟩, ⟨.whitespace, "\n", ⟨4, 9, 23⟩⟩,
        ⟨.integer, "2", ⟨5, 1, 24⟩⟩, ⟨.whitespace, "\n", ⟨5, 2, 25⟩⟩,
        ⟨.directive, "#endif", ⟨6, 1, 26⟩⟩, ⟨.eof, [], ⟨6, 7, 32⟩⟩] := by
    decide +kernel
  have hif : (Directive.parse? "#if A").getD ⟨[], []⟩ = ⟨"if", "A"⟩ := by decide +kernel
  have hifdef : (Directive.parse? "#ifdef A").getD ⟨[], []⟩ = ⟨"ifdef", "A"⟩ := by decide +kernel
  have hendif : (Directive.parse? "#endif").getD ⟨[], []⟩ = ⟨"endif", []⟩ := by decide +kernel
  have hfirst (st : Extractor.State) : Extractor.directive st
      ((Directive.parse? "#if A").getD ⟨[], []⟩) 1 = _ :=
    (congrArg (fun d => Extractor.directive st d 1) hif).trans
      ((Extractor.directive_if rfl).trans
        (Extractor.condition_of_parse Downgrade.parse_name _ 1))
  refine ⟨_, htokens, ?_, congrArg (fun d => [d]) hif, ?_⟩
  · rw [extractDefines, Extractor.walk_cons_of_step _ rfl (hfirst _)]
    simp only [Extractor.walk, Token.isDirective, hifdef, hendif]
    rfl
  · show [(Directive.parse? "#if A").getD ⟨[], []⟩, (Directive.parse? "#endif").getD ⟨[], []⟩,
      (Directive.parse? "#ifdef A").getD ⟨[], []⟩] = _
    rw [hif, hifdef, hendif]

theorem isWritable_switch {d : Define} (hname : d.name = "A") (htype : d.type = .boolean) :
    Strict.IsWritable d := by
  refine ⟨?_, ?_, ?_⟩
  · rw [hname]
    decide
  · rw [hname]
    exact List.all_eq_true.mp (by decide)
  · intro v hv
    unfold Strict.restrictiveValue? at hv
    rw [htype] at hv
    cases hv
    refine ⟨by decide, List.forall_mem_singleton.mpr (by decide), ?_⟩
    intro c hc
    cases hc
    decide

/-- In a strict source no line is kept in a branch that tests the value of a switch.  Where only
first branches stand around a line and each tests whether a switch is defined, the line is kept. -/
theorem strict_switches {code : Text} {ts : List Token} {found : DefineSet} (read : Reading)
    (macros : Macros) (htokens : tokenize code = .ok ts) (hfound : found.Consistent)
    (hread : forall m, read m "0" = .int 0)
    (hwritable : forall d, d ∈ (extractDefines ts found).1.list -> Strict.IsWritable d) :
    exists strict, tokenize (Strict.source code (extractDefines ts found).1.list) = .ok strict ∧
      forall line,
        ((exists c n, c ∈ (directivesBy line ts).foldl Gating.follow [] ∧
            Gating.TestsValue c.current n ∧
            Strict.IsOff (extractDefines ts found).1.list (directivesBy line ts) n) ->
          keepsLineDefining read macros strict
            (line + (Strict.entries (extractDefines ts found).1.list).length) = false) ∧
        ((forall c, c ∈ (directivesBy line ts).foldl Gating.follow [] ->
            c.earlier = [] ∧ exists n, Gating.TestsDefined c.current n ∧
              Strict.IsFixed (extractDefines ts found).1.list (directivesBy line ts) n) ->
          keepsLineDefining read macros strict
            (line + (Strict.entries (extractDefines ts found).1.list).length) = true) := by
  generalize hlist : (extractDefines ts found).1.list = defines at hwritable ⊢
  have hnodup : (defines.map Define.name).Nodup := hlist ▸ (hfound.extractDefines ts).nodup
  rcases Strict.exists_tokens htokens hwritable with ⟨strict, hstrict, hdirectives⟩
  refine ⟨strict, hstrict, fun line => ?_⟩
  have hdecided := Strict.forall₂_decided macros (directivesBy line ts) hread hwritable hnodup
  unfold keepsLineDefining
  rw [hdirectives]
  constructor
  · rintro ⟨c, n, hc, htests, hn⟩
    exact Gating.isActive_eq_false hdecided hc htests hn
  · intro hconditionals
    exact Gating.isActive_eq_true hdecided hconditionals

theorem strict_switches_tested :
    exists ts, tokenize "#if A\n1\n#endif\n#ifdef A\n2\n#endif" = .ok ts ∧
      DefineSet.empty.Consistent ∧
      (forall d, d ∈ (extractDefines ts DefineSet.empty).1.list -> Strict.IsWritable d) ∧
      exists strict, tokenize (Strict.source "#if A\n1\n#endif\n#ifdef A\n2\n#endif"
          (extractDefines ts DefineSet.empty).1.list) = .ok strict ∧
        keepsLineDefining (fun _ _ => .int 0) (fun _ => none) strict 4 = false ∧
        keepsLineDefining (fun _ _ => .int 0) (fun _ => none) strict 7 = true := by
  rcases extract_tests with ⟨ts, htokens, hlist, hvalue, hdefined⟩
  have hwritable : forall d, d ∈ (extractDefines ts DefineSet.empty).1.list ->
      Strict.IsWritable d := by
    rw [hlist]
    exact List.forall_mem_singleton.mpr (isWritable_switch rfl rfl)
  refine ⟨ts, htokens, DefineSet.consistent_empty, hwritable, ?_⟩
  rcases strict_switches (fun _ _ => .int 0) (fun _ => none) htokens DefineSet.consistent_empty
    (fun _ => rfl) hwritable with ⟨strict, hstrict, hkept⟩
  have hlength : (Strict.entries (extractDefines ts DefineSet.empty).1.list).length = 2 := by
    rw [hlist]
    rfl
  have hswitch (ds : List Directive) (hds : forall e, e ∈ ds -> e.name ≠ ("define" : Text)) :
      Strict.IsOff (extractDefines ts DefineSet.empty).1.list ds "A" := by
    rw [hlist]
    exact ⟨⟨_, List.mem_singleton.mpr rfl, rfl, rfl⟩, fun e he hname => absurd hname (hds e he)⟩
  have hoff := (hkept 2).1
  have hon := (hkept 5).2
  rw [hlength, hvalue] at hoff
  rw [hlength, hdefined] at hon
  refine ⟨strict, hstrict, hoff ?_, hon ?_⟩
  · exact ⟨⟨⟨"if", "A"⟩, []⟩, "A", List.mem_singleton.mpr rfl,
      Directive.condition?_of_parse (Or.inl rfl) Downgrade.parse_name,
      hswitch _ (by decide)⟩
  · intro c hc
    rcases List.mem_singleton.mp hc with rfl
    exact ⟨rfl, "A", Or.inl ⟨rfl, rfl⟩, hswitch _ (by decide), by decide⟩

theorem extract_ifdef :
    exists ts, tokenize "#ifdef A\n1\n#endif\n" = .ok ts ∧
      (extractDefines ts DefineSet.empty).1.list =
        [{ Define.new "A" with defines := some [], used := true }] ∧
      directivesBy 2 ts = [⟨"ifdef", "A"⟩] := by
  have htokens : tokenize "#ifdef A\n1\n#endif\n" = .ok
      [⟨.directive, "#ifdef A", ⟨1, 1, 0⟩⟩, ⟨.whitespace, "\n", ⟨1, 9, 8⟩⟩,
        ⟨.integer, "1", ⟨2, 1, 9⟩⟩, ⟨.whitespace, "\n", ⟨2, 2, 10⟩⟩,
        ⟨.directive, "#endif", ⟨3, 1, 11⟩⟩, ⟨.whitespace, "\n", ⟨3, 7, 17⟩⟩,
        ⟨.eof, [], ⟨4, 1, 18⟩⟩] := by
    decide +kernel
  have hifdef : (Directive.parse? "#ifdef A").getD ⟨[], []⟩ = ⟨"ifdef", "A"⟩ := by decide +kernel
  have hendif : (Directive.parse? "#endif").getD ⟨[], []⟩ = ⟨"endif", []⟩ := by decide +kernel
  refine ⟨_, htokens, ?_, congrArg (fun d => [d]) hifdef⟩
  simp only [extractDefines, Extractor.walk, Token.isDirective, hifdef, hendif]
  rfl

/-- A switch that is off is still defined, so a branch that tests for its definition is kept. -/
theorem off_switch_defined :
    exists ts strict, tokenize "#ifdef A\n1\n#endif\n" = .ok ts ∧
      (extractDefines ts DefineSet.empty).1.list.map (fun d => (d.name, d.type)) =
        [(("A" : Text), DefineType.boolean)] ∧
      tokenize (Strict.source "#ifdef A\n1\n#endif\n"
        (extractDefines ts DefineSet.empty).1.list) = .ok strict ∧
      (directivesBy 4 strict).foldl Gating.follow [] = [⟨⟨"ifdef", "A"⟩, []⟩] ∧
      forall read macros, keepsLineDefining read macros strict 4 = true := by
  rcases extract_ifdef with ⟨ts, htokens, hlist, hifdef⟩
  have hwritable : forall d, d ∈ (extractDefines ts DefineSet.empty).1.list ->
      Strict.IsWritable d := by
    rw [hlist]
    exact List.forall_mem_singleton.mpr (isWritable_switch rfl rfl)
  rcases Strict.exists_tokens htokens hwritable with ⟨strict, hstrict, hdirectives⟩
  have hlines : directivesBy 4 strict =
      [⟨"version", "100"⟩, ⟨"define", "A 0"⟩, ⟨"ifdef", "A"⟩] := by
    have h := hdirectives 2
    rw [hlist, hifdef] at h
    exact h
  refine ⟨ts, strict, htokens, ?_, hstrict, ?_, ?_⟩
  · rw [hlist]
    rfl
  · rw [hlines]
    rfl
  · intro read macros
    unfold keepsLineDefining
    rw [hlines]
    rfl

end EffectShader
