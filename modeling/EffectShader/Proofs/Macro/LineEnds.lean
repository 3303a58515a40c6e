import EffectShader.Proofs.Macro.CarriedCalls
import EffectShader.Proofs.Macro.Completion
import EffectShader.Proofs.Macro.KeptLines

/-!
# Expansion with other line ends

An expansion of a text with carriage returns goes step by step with that of the text with plain
newlines, as long as neither the definition of a macro that is expanded nor the text that takes the
place of the call has a backslash right in front of a newline.  Such a backslash and newline is
dropped at the start of a body and starts a new line inside it; with a carriage return between
the two it is left in the text.
-/

namespace EffectShader

namespace FunctionMacro

open Text (withCarriages withoutCarriages)

/-!
# One step
-/

def argumentText (call : Text) : Text :=
  (call.dropWhile (· != Byte.openParen)).drop 1

/-- The body with the arguments put in, before its lines are indented. -/
def replacement (m : FunctionMacro) (args : List Text) : Text :=
  Occurrence.substitute (bindings m.params args).get? m.body

/-- Neither the definition of a macro nor the text that takes the place of its call at an offset
has a backslash right in front of a newline. -/
structure IsUnbrokenCall (code : Text) (m : FunctionMacro) (offset : Nat) : Prop where
  definition : IsUnbroken (code.slice m.start m.stop)
  replacement : forall args after, splitArgs? 1 [] (argumentText (code.drop offset)) =
    some (args, after) -> IsUnbroken (replacement m args)

/-- The state of an expansion and that of the expansion of the text with carriage returns. -/
structure InStep (p p' : Progress) : Prop where
  code : p'.code = withCarriages p.code
  plain : Byte.carriage ∉ p.code
  lines : p'.lines = p.lines
  warnings : p'.warnings = p.warnings

theorem argumentText_withCarriages (call : Text) :
    argumentText (withCarriages call) = withCarriages (argumentText call) := by
  unfold argumentText
  rw [(Text.span_withCarriages rfl call).2]
  have hhead := List.head?_dropWhile_not (· != Byte.openParen) call
  cases hdrop : call.dropWhile (· != Byte.openParen) with
  | nil => rfl
  | cons b s =>
      rw [hdrop] at hhead
      have hb : b = Byte.openParen := by simpa using hhead
      rw [hb, Text.withCarriages_cons (by decide)]
      rfl

def argumentsFor (m : FunctionMacro) (args : List Text) : List Text :=
  if args == [[]] && m.params.isEmpty then [] else args

theorem bindings_argumentsFor (m : FunctionMacro) (args : List Text) :
    bindings m.params (argumentsFor m args) = bindings m.params args := by
  unfold argumentsFor
  split
  · rename_i h
    rw [Bool.and_eq_true, List.isEmpty_iff] at h
    rw [h.2]
    rfl
  · rfl

theorem argumentsFor_map {m m' : FunctionMacro} (h : m'.params = m.params) (args : List Text) :
    argumentsFor m' (args.map withCarriages) = (argumentsFor m args).map withCarriages := by
  have hempty : (args.map withCarriages == [[]]) = (args == [[]]) := by
    rw [Bool.eq_iff_iff, beq_iff_eq, beq_iff_eq]
    cases args with
    | nil => rfl
    | cons a args => simp [Text.withCarriages_eq_nil_iff]
  unfold argumentsFor
  rw [hempty, h]
  split
  · rfl
  · rfl

def replaced (p : Progress) (m : FunctionMacro) (u v : Text) (args : List Text) (after : Text) :
    Progress :=
  let p :=
    if (argumentsFor m args).length == m.params.length then p
    else p.warn (p.lines.relocate (arityWarning (u.newlines + 1) m (argumentsFor m args).length))
  { p with
    code := u ++ replacement m args ++ after
    lines := p.lines.splice (u.newlines + 1)
      (Text.newlines (v.take (v.length - after.length)) + 1) ((replacement m args).newlines + 1) }

theorem expandCall_eq {p : Progress} {m : FunctionMacro} {u v : Text} (hcode : p.code = u ++ v)
    (hkept : forall args after glue, splitArgs? 1 [] (argumentText v) = some (args, after) ->
      reindent glue false (replacement m args) = replacement m args) (inDefinition : Bool) :
    expandCall p m u.length inDefinition =
      match splitArgs? 1 [] (argumentText v) with
      | none => .error (Diagnostic.error (u.newlines + 1)
          ("unterminated call of macro '" ++ m.name ++ "'"))
      | some (args, after) => .ok (replaced p m u v args after) := by
  unfold expandCall
  rw [hcode, List.take_left, List.drop_left]
  dsimp only
  rw [show (v.dropWhile (· != Byte.openParen)).drop 1 = argumentText v from rfl]
  cases hsplit : splitArgs? 1 [] (argumentText v) with
  | none => rfl
  | some parts =>
      rcases parts with ⟨args, after⟩
      have hbody : Occurrence.substitute
          (bindings m.params (if args == [[]] && m.params.isEmpty then [] else args)).get? m.body =
          replacement m args := by
        rw [replacement, ← bindings_argumentsFor m args]
        rfl
      dsimp only
      rw [hbody, hkept args after _ hsplit]
      rfl

theorem replacement_withCarriages {m m' : FunctionMacro} (hparams : m'.params = m.params)
    (hbody : m'.body = withCarriages m.body) (args : List Text) :
    replacement m' (args.map withCarriages) = withCarriages (replacement m args) := by
  unfold replacement
  rw [hparams, hbody]
  exact substitute_withCarriages (get?_bindings_withCarriages m.params args) m.body

theorem newlines_take_withCarriages {v after : Text} (h : after <:+ v) :
    Text.newlines
    ((withCarriages v).take ((withCarriages v).length - (withCarriages after).length)) =
      Text.newlines (v.take (v.length - after.length)) := by
  rcases h with ⟨call, rfl⟩
  rw [Text.withCarriages_append, List.length_append, List.length_append, Nat.add_sub_cancel,
    Nat.add_sub_cancel, List.take_left, List.take_left, Text.newlines_withCarriages]

theorem inStep_replaced {p p' : Progress} (hp : InStep p p') {m m' : FunctionMacro}
    (hname : m'.name = m.name) (hparams : m'.params = m.params)
    (hbody : m'.body = withCarriages m.body) {u v after : Text} {args : List Text}
    (hafter : after <:+ v) (hplain : Byte.carriage ∉ u ++ replacement m args ++ after) :
    InStep (replaced p m u v args after)
      (replaced p' m' (withCarriages u) (withCarriages v) (args.map withCarriages)
        (withCarriages after)) := by
  have hwarning : arityWarning (u.newlines + 1) m' = arityWarning (u.newlines + 1) m := by
    funext count
    rw [arityWarning, arityWarning, hname, hparams]
  unfold replaced
  dsimp only
  rw [argumentsFor_map hparams, List.length_map, hparams, Text.newlines_withCarriages, hwarning,
    replacement_withCarriages hparams hbody, Text.newlines_withCarriages,
    newlines_take_withCarriages hafter, hp.lines]
  constructor
  · rw [Text.withCarriages_append, Text.withCarriages_append]
  · exact hplain
  · split
    · rw [hp.lines]
    · exact congrArg (fun lines => LineMap.splice lines _ _ _) hp.lines
  · split
    · exact hp.warnings
    · exact congrArg (· ++ _) hp.warnings

theorem mem_of_mem_replacement {m : FunctionMacro} {args : List Text} {after v : Text}
    (h : splitArgs? 1 [] (argumentText v) = some (args, after)) {b : UInt8}
    (hb : b ∈ replacement m args) : b ∈ m.body ∨ b ∈ v := by
  refine (mem_of_mem_substitute hb).imp_right ?_
  rintro ⟨name, r, hr, hbr⟩
  rcases exists_mem_of_get?_bindings hr hbr with ⟨a, ha, hba⟩
  rcases mem_of_mem_splitArgs? h ha hba with hmem | hmem
  · cases hmem
  · exact (List.dropWhile_suffix _).subset ((List.drop_suffix 1 _).subset hmem)

theorem expandCall_withCarriages {p p' : Progress} (hp : InStep p p') {m m' : FunctionMacro}
    {u v : Text} (hcode : p.code = u ++ v) (hm : Twin p.code m m')
    (hunbroken : IsUnbrokenCall p.code m u.length) (inDefinition inDefinition' : Bool) :
    Alike InStep (expandCall p m u.length inDefinition)
      (expandCall p' m' (withCarriages u).length inDefinition') := by
  have hargs := hunbroken.replacement
  rw [hcode, List.drop_left] at hargs
  rcases hm.reads.body with ⟨raw, hraw, hbody, hbody'⟩
  rw [(hunbroken.definition.of_infix hraw).dropContinuations] at hbody
  rw [← hbody] at hbody' hraw
  have hcode' : p'.code = withCarriages u ++ withCarriages v := by
    rw [hp.code, hcode, Text.withCarriages_append]
  have hsplit : splitArgs? 1 [] (argumentText (withCarriages v)) =
      (splitArgs? 1 [] (argumentText v)).map (Prod.map (List.map withCarriages) withCarriages) := by
    rw [argumentText_withCarriages]
    exact splitArgs?_withCarriages 1 [] (argumentText v)
  have hkept : forall args' after' glue,
      splitArgs? 1 [] (argumentText (withCarriages v)) = some (args', after') ->
        reindent glue false (replacement m' args') = replacement m' args' := by
    intro args' after' glue h
    rw [hsplit] at h
    rcases Option.map_eq_some_iff.mp h with ⟨⟨args, after⟩, _, heq⟩
    cases heq
    rw [replacement_withCarriages hm.reads.params hbody', reindent_withCarriages]
  rw [expandCall_eq hcode fun args after glue h => (hargs args after h).reindent glue,
    expandCall_eq hcode' hkept, hsplit]
  cases hparts : splitArgs? 1 [] (argumentText v) with
  | none =>
      rw [Text.newlines_withCarriages, hm.reads.name]
      exact Alike.error _
  | some parts =>
      rcases parts with ⟨args, after⟩
      have hafter : after <:+ v := (suffix_of_splitArgs? hparts).trans
        ((List.drop_suffix 1 _).trans (List.dropWhile_suffix _))
      have hplain : forall b, b ∈ u ++ replacement m args ++ after -> b ∈ p.code := by
        intro b hb
        rw [hcode]
        simp only [List.mem_append] at hb ⊢
        rcases hb with (hb | hb) | hb
        · exact Or.inl hb
        · rcases mem_of_mem_replacement hparts hb with hb | hb
          · have hmem := List.mem_of_mem_drop (List.mem_of_mem_take (hraw.subset hb))
            rwa [hcode, List.mem_append] at hmem
          · exact Or.inr hb
        · exact Or.inr (hafter.subset hb)
      exact Alike.ok (inStep_replaced hp hm.reads.name hm.reads.params hbody' hafter
        fun hmem => hp.plain (hplain _ hmem))

/-!
# All steps
-/

/-- What two expansions report: the same error or texts that differ by the line ends, and the same
lines and warnings. -/
structure SameReport (x x' : Expansion) : Prop where
  result : x'.result.map withoutCarriages = x.result
  lines : x'.lines = x.lines
  warnings : x'.warnings = x.warnings

theorem carries_blankLines {ls : List Text} (hne : ls ≠ [])
    (hls : forall l, l ∈ ls -> Byte.newline ∉ l) :
    Text.Carries (blankLines ls) (blankLines (Text.carriedLines ls)) := by
  fun_induction blankLines ls with
  | case1 => exact absurd rfl hne
  | case2 l ls hdef c ih =>
      rcases List.forall_mem_cons.mp hls with ⟨hl, hls'⟩
      have hc : continuations l ls = c := rfl
      rcases exists_carriedLines l hls (n := c) (continuations_le l ls) with
        ⟨l', z, hcarried, hl', _, hdrop, _⟩
      rcases isDefinition_of_carried hl hl' (Text.carriedLines ls) with ⟨hdef', hcontinued⟩
      rw [hcarried, blankLines_cons_of_isDefinition (hdef'.trans hdef), hcontinued,
        continuations_carriedLines, hc, hdrop]
      by_cases hnil : ls.drop c = []
      · rw [hnil, Text.carriedLines, blankLines, List.append_nil]
        exact Text.Carries.refl (List.cons_ne_nil _ _)
      · exact Text.Carries.append_left _ (ih hnil fun k hk => hls' k (List.mem_of_mem_drop hk))
  | case3 l ls hdef ih =>
      rcases List.forall_mem_cons.mp hls with ⟨hl, hls'⟩
      have hplain : isDefinition l = false := by simpa using hdef
      by_cases hnil : ls = []
      · subst hnil
        rw [Text.carriedLines, blankLines_cons_of_plain hplain, blankLines]
        exact Text.Carries.last l
      · rw [Text.carriedLines_cons hnil,
          blankLines_cons_of_plain ((isDefinition_carried hl).trans hplain)]
        exact Text.Carries.carried l (ih hnil hls')

theorem removeDefinitions_withCarriages {code : Text} (hplain : Byte.carriage ∉ code)
    {macros macros' : List FunctionMacro} (h : definitions code = .ok macros)
    (h' : definitions (withCarriages code) = .ok macros') :
    withoutCarriages (removeDefinitions (withCarriages code) macros') =
      removeDefinitions code macros := by
  have hcarries := carries_blankLines (Text.lines_ne_nil code) fun l hl =>
    Text.not_mem_of_mem_lines hl
  rw [removeDefinitions_eq h', removeDefinitions_eq h, Text.lines_withCarriages]
  apply hcarries.withoutCarriages
  intro l hl
  rcases (mem_blankLines hl).2 with rfl | hl
  · exact List.not_mem_nil
  · exact fun hmem => hplain (Text.subset_of_mem_lines hl hmem)

/-- The next calls that are expanded, no more than `budget`, are unbroken. -/
def StaysUnbroken (blocked : List Text) (budget : Nat) (p : Progress) : Prop :=
  forall n q macros m offset, n < budget -> Runs blocked n p q -> definitions q.code = .ok macros ->
    leftmostCall? q.code blocked macros = some (m, offset) -> IsUnbrokenCall q.code m offset

theorem expandLoop_withCarriages {blocked : List Text} {budget : Nat} {p p' : Progress}
    {macros macros' : List FunctionMacro} (hp : InStep p p')
    (hmacros : definitions p.code = .ok macros) (hmacros' : definitions p'.code = .ok macros')
    (hunbroken : StaysUnbroken blocked budget p) :
    SameReport (expandLoop blocked budget p macros) (expandLoop blocked budget p' macros') := by
  induction budget generalizing p p' macros macros' with
  | zero =>
      rw [hp.code] at hmacros'
      rw [expandLoop, expandLoop]
      refine ⟨?_, hp.lines, by rw [hp.warnings]⟩
      rw [hp.code]
      exact congrArg Except.ok (removeDefinitions_withCarriages hp.plain hmacros hmacros')
  | succ budget ih =>
      have htwins := definitions_withCarriages p.code
      rw [hp.code] at hmacros'
      rw [hmacros, hmacros'] at htwins
      cases htwins with
      | ok htwins =>
          have hleftmost := leftmostCall?_withCarriages htwins
            (fun m hm => isWord_of_mem_name macros hmacros m hm) blocked
          rw [expandLoop, expandLoop, hp.code]
          generalize leftmostCall? (withCarriages p.code) blocked macros' = call' at hleftmost ⊢
          cases hcall : leftmostCall? p.code blocked macros with
          | none =>
              rw [hcall] at hleftmost
              cases hleftmost
              exact ⟨congrArg Except.ok (removeDefinitions_withCarriages hp.plain hmacros hmacros'),
                hp.lines, hp.warnings⟩
          | some call =>
              rw [hcall] at hleftmost
              cases hleftmost with
              | @some u v m m' hcode htwin =>
                  have hstep := expandCall_withCarriages hp hcode htwin
                    (hunbroken 0 p macros m u.length (Nat.succ_pos budget) (Runs.stay p) hmacros
                      hcall)
                    (macros.any fun m => m.spans u.length)
                    (macros'.any fun m => m.spans (withCarriages u).length)
                  dsimp only
                  cases hnext : expandCall p m u.length (macros.any fun m => m.spans u.length) with
                  | error e =>
                      rw [hnext] at hstep
                      rw [hstep.of_error]
                      exact ⟨rfl, hp.lines, hp.warnings⟩
                  | ok q =>
                      rw [hnext] at hstep
                      rcases hstep.of_ok with ⟨q', hq', hq⟩
                      rw [hq']
                      have hread := definitions_withCarriages q.code
                      rw [← hq.code] at hread
                      dsimp only
                      cases hmore : definitions q.code with
                      | error e =>
                          rw [hmore] at hread
                          rw [hread.of_error]
                          exact ⟨rfl, hq.lines, hq.warnings⟩
                      | ok more =>
                          rw [hmore] at hread
                          rcases hread.of_ok with ⟨more', hmore', _⟩
                          rw [hmore']
                          refine ih hq hmore hmore' fun n r macros' m' offset hn hruns => ?_
                          exact hunbroken (n + 1) r macros' m' offset (Nat.succ_lt_succ hn)
                            (Runs.step (Step.expand hmacros hcall hnext) hruns)

/-!
# Checking the calls of an expansion
-/

instance (s : Text) : Decidable (IsUnbroken s) :=
  inferInstanceAs (Decidable (¬ _))

instance (code : Text) (m : FunctionMacro) (offset : Nat) :
    Decidable (IsUnbrokenCall code m offset) :=
  decidable_of_iff (IsUnbroken (code.slice m.start m.stop) ∧
    forall parts, parts ∈ splitArgs? 1 [] (argumentText (code.drop offset)) ->
      IsUnbroken (replacement m parts.1))
    ⟨fun h => ⟨h.1, fun args after hparts => h.2 (args, after) hparts⟩,
      fun h => ⟨h.definition, fun parts hparts => h.replacement parts.1 parts.2 hparts⟩⟩

def checkCalls (blocked : List Text) : (budget : Nat) -> Progress -> List FunctionMacro -> Bool
  | 0, _, _ => true
  | budget + 1, p, macros =>
      match leftmostCall? p.code blocked macros with
      | none => true
      | some (m, offset) =>
          decide (IsUnbrokenCall p.code m offset) &&
            match expandCall p m offset (macros.any fun m => m.spans offset) with
            | .error _ => true
            | .ok q =>
                match definitions q.code with
                | .error _ => true
                | .ok macros => checkCalls blocked budget q macros

theorem staysUnbroken_of_checkCalls {blocked : List Text} {budget : Nat} {p : Progress}
    {macros : List FunctionMacro} (hmacros : definitions p.code = .ok macros)
    (h : checkCalls blocked budget p macros = true) : StaysUnbroken blocked budget p := by
  intro n q macros' m offset hn hruns hmacros' hcall
  induction hruns generalizing budget macros with
  | stay p =>
      cases budget with
      | zero => cases hn
      | succ budget =>
          rw [hmacros] at hmacros'
          cases hmacros'
          rw [checkCalls, hcall] at h
          exact of_decide_eq_true (Bool.and_eq_true_iff.mp h).1
  | @step n p q r hstep hruns ih =>
      cases budget with
      | zero => cases hn
      | succ budget =>
          cases hstep with
          | expand hread hleftmost hexpand =>
              rw [hmacros] at hread
              cases hread
              rw [checkCalls, hleftmost] at h
              replace h := (Bool.and_eq_true_iff.mp h).2
              rw [hexpand] at h
              dsimp only at h
              cases hnext : definitions q.code with
              | ok next =>
                  rw [hnext] at h
                  exact ih hnext h (Nat.lt_of_succ_lt_succ hn) hmacros' hcall
              | error e =>
                  -- No step leads on from a text whose definitions cannot be read.
                  cases hruns with
                  | stay =>
                      rw [hnext] at hmacros'
                      cases hmacros'
                  | step hstep _ =>
                      cases hstep with
                      | expand hread _ _ =>
                          rw [hnext] at hread
                          cases hread

/-!
# Whole expansions
-/

theorem map_filter_isRecursive {α : Type} {f : FunctionMacro -> α} {code : Text}
    (hf : forall m m', Twin code m m' -> f m' = f m) {macros macros' : List FunctionMacro}
    (h : List.Forall₂ (Twin code) macros macros')
    (hnames : forall m, m ∈ macros -> forall b, b ∈ m.name -> Byte.isWord b = true) :
    (macros'.filter isRecursive).map f = (macros.filter isRecursive).map f := by
  induction h with
  | nil => rfl
  | @cons m m' macros macros' hm _ ih =>
      rcases List.forall_mem_cons.mp hnames with ⟨hname, hnames⟩
      rw [List.filter_cons, List.filter_cons, hm.isRecursive hname]
      split
      · rw [List.map_cons, List.map_cons, hf m m' hm, ih hnames]
      · exact ih hnames

/-- Expansion does not depend on the line ends if no call that is expanded is broken by a backslash
right in front of a newline: with carriage returns it fails alike or gives the same text but for the
line ends, with the same lines and warnings. -/
theorem expand_withCarriages (code : Text) (lines : LineMap) (hplain : Byte.carriage ∉ code)
    (hunbroken : StaysUnbroken (blocked code) maxExpansions (initial code lines)) :
    SameReport (expand code lines) (expand (withCarriages code) lines) := by
  have htwins := definitions_withCarriages code
  have hsame : (.ok (withoutCarriages (withCarriages code)) : Except Diagnostic Text) =
    .ok code := by
    rw [Text.withoutCarriages_withCarriages hplain]
  rw [expand_eq_ite, expand_eq_ite, Text.includes_withCarriages (by decide) (by decide +kernel)]
  split
  · unfold expandAll
    cases hmacros : definitions code with
    | error e =>
        rw [hmacros] at htwins
        rw [htwins.of_error]
        exact ⟨rfl, rfl, rfl⟩
    | ok macros =>
        rw [hmacros] at htwins
        rcases htwins.of_ok with ⟨macros', hmacros', htwins⟩
        have hnames := fun m hm => isWord_of_mem_name macros hmacros m hm
        have hblocked := map_filter_isRecursive (f := FunctionMacro.name)
          (fun m m' hm => hm.reads.name) htwins hnames
        have hwarnings := map_filter_isRecursive
          (f := fun m => lines.relocate (recursionWarning m))
          (fun m m' hm => by rw [recursionWarning, recursionWarning, hm.reads.name, hm.reads.line])
          htwins hnames
        have hempty : macros'.isEmpty = macros.isEmpty := by
          cases htwins with
          | nil => rfl
          | cons => rfl
        have hrecursive : recursive code = macros.filter isRecursive := by
          rw [recursive, hmacros]
          rfl
        rw [hmacros']
        dsimp only
        rw [hempty]
        split
        · exact ⟨hsame, rfl, rfl⟩
        · unfold blocked initial at hunbroken
          rw [hrecursive] at hunbroken
          rw [hblocked, hwarnings]
          exact expandLoop_withCarriages ⟨rfl, hplain, rfl, rfl⟩ hmacros hmacros' hunbroken
  · exact ⟨hsame, rfl, rfl⟩

/-- Two calls, one of them over two lines, beside a definition for the preprocessor that goes on on
a second line. -/
def twoLineSource : Text :=
  "#define N 2 \\\n  + 3\n#pragma define F(x, y) y+x\nF(, 1)\nF(2,\n  3)\n"

theorem expand_withCarriages_twoLines :
    Byte.carriage ∉ twoLineSource ∧
      StaysUnbroken (blocked twoLineSource) maxExpansions (initial twoLineSource .identity) ∧
      (expand twoLineSource .identity).result =
        .ok "#define N 2 \\\n  + 3\n\n1+\n3+2\n" ∧
      SameReport (expand twoLineSource .identity)
        (expand (withCarriages twoLineSource) .identity) := by
  have hplain : Byte.carriage ∉ twoLineSource := by
    decide +kernel
  have hmacros : definitions twoLineSource =
      .ok [⟨"F", ["x", "y"], "y+x", 3, 20, 46⟩] := by
    decide +kernel
  have hunbroken : StaysUnbroken (blocked twoLineSource) maxExpansions
      (initial twoLineSource .identity) :=
    staysUnbroken_of_checkCalls hmacros (by decide +kernel)
  exact ⟨hplain, hunbroken, by decide +kernel,
    expand_withCarriages twoLineSource .identity hplain hunbroken⟩

/-- A body on its own line starts with a backslash and a carriage return, which stay in the text. -/
theorem expand_carried_continuation :
    let code : Text := "#pragma define F(x) \\\n  x;\nF(1)\n"
    Byte.carriage ∉ code ∧
      (expand code .identity).result = .ok "\n\n1;\n" ∧
      (expand (withCarriages code) .identity).result = .ok "\n\n\\\r\n  1;\r\n" ∧
      (expand (withCarriages code) .identity).result.map withoutCarriages ≠
        (expand code .identity).result := by
  decide +kernel

end FunctionMacro

end EffectShader
