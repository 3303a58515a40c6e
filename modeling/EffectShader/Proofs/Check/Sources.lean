import EffectShader.Check.Source
import EffectShader.Proofs.Check.Statements
import EffectShader.Proofs.Token.Positions

/-!
# Runs of the whole check

All productions are local, so the check of a source is a row of local runs that ends at
the end marker or at the token where one of them fails.
-/

namespace EffectShader

namespace Grammar

open EffectShader.Stream (peek)

/-!
# Tokens of declarations
-/

theorem reads_qualifier (allowed : List Text) (st : List Bracket) :
    Reads (isQualifier allowed) st st := by
  apply Reads.of_kind
  intro t ht
  unfold isQualifier at ht
  rw [Bool.and_eq_true, beq_iff_eq] at ht
  rw [ht.1]
  decide

theorem reads_ident (st : List Bracket) : Reads (fun t => t.kind == .ident) st st := by
  apply Reads.of_kind
  intro t ht
  rw [eq_of_beq ht]
  decide

theorem reads_typeToken (st : List Bracket) : Reads isTypeToken st st := by
  apply Reads.of_kind
  intro t ht
  unfold isTypeToken isTypeKeyword at ht
  simp only [Bool.or_eq_true, Bool.and_eq_true, beq_iff_eq] at ht
  rcases ht with ⟨hkind, _⟩ | hkind <;> rw [hkind] <;> decide

theorem reads_jump (st : List Bracket) : Reads isJump st st := by
  apply Reads.of_kind
  intro t ht
  unfold isJump isKeyword at ht
  simp only [Bool.or_eq_true, Bool.and_eq_true, beq_iff_eq] at ht
  rcases ht with (⟨hkind, _⟩ | ⟨hkind, _⟩) | ⟨hkind, _⟩ <;> rw [hkind] <;> decide

theorem reads_precision (st : List Bracket) : Reads (fun t => Word.isPrecision t.text) st st := by
  apply Reads.of_not_isBracket
  intro t ht
  constructor
  · rintro ⟨_, htext⟩
    rw [htext] at ht
    cases ht
  · unfold Word.isPrecision at ht
    simp only [Bool.or_eq_true, beq_iff_eq] at ht
    unfold Bracket.isBracket
    rcases ht with (htext | htext) | htext <;> rw [htext] <;> exact Bool.and_false _

/-!
# Local declarations
-/

section Declarations

theorem local_typeName (ts : List Token) : Local (view typeName) [] ts := by
  rw [view_typeName]
  exact Local.token (reads_typeToken []) ts

theorem local_identifier (ts : List Token) : Local (view identifier) [] ts := by
  rw [view_identifier]
  exact Local.token (reads_name []) ts

theorem local_skips (allowed : List Text) (ts : List Token) : Local (skips allowed) [] ts := by
  induction ts with
  | nil =>
      rw [skips_eq]
      exact Local.onNext (reads_qualifier allowed []) (by rintro _ _ ⟨⟩) fun _ => Local.done []
  | cons t ts ih =>
      rw [skips_eq]
      refine Local.onNext (reads_qualifier allowed []) ?_ fun _ => Local.done (t :: ts)
      rintro _ _ ⟨⟩ _
      exact ih

theorem local_arrayLength (ts : List Token) : Local (viewAny arrayLength) [] ts := by
  rw [viewAny_arrayLength]
  refine Local.onNext (Reads.opening .square []) ?_ fun _ => Local.done ts
  rintro t rest rfl _
  refine Local.andThen (expressionsAt rest).expression ?_
  intro r _
  exact local_expectOp (Reads.closing .square []) r

theorem local_initializer (ts : List Token) : Local (viewAny initializer) [] ts := by
  rw [viewAny_initializer]
  refine Local.onNext (Reads.op (by decide) []) ?_ fun _ => Local.done ts
  rintro t rest rfl _
  exact (expressionsAt rest).assignment

theorem local_declaratorTail (ts : List Token) : Local (view declaratorTail) [] ts := by
  rw [view_declaratorTail]
  refine Local.andThen (local_arrayLength ts) ?_
  intro r1 h1
  refine Local.andThen (local_initializer r1) ?_
  intro r2 h2
  refine Local.onNext (Reads.op (by decide) []) ?_ fun _ =>
    local_expectOp (Reads.op (by decide) []) r2
  rintro t rest rfl _
  refine Local.andThen (local_identifier rest) ?_
  intro r3 h3
  have hle := Nat.le_trans (length_of_viewAny h2) (length_of_viewAny h1)
  have hlt := Nat.lt_of_lt_of_le (Nat.lt_succ_of_lt (length_of_view h3)) hle
  exact local_declaratorTail r3
  termination_by ts.length

theorem local_declarators (ts : List Token) : Local (view declarators) [] ts := by
  rw [view_declarators]
  refine Local.andThen (local_identifier ts) ?_
  intro r _
  exact local_declaratorTail r

theorem local_structMembers (ts : List Token) : Local (view structMembers) [.curly] ts := by
  rw [view_structMembers]
  refine Local.onNext (Reads.closing .curly []) (fun _ rest _ _ => Local.done rest) fun hnot => ?_
  refine Local.unlessEnd (fun _ => ?_) fun hend r hr => ?_
  · refine Local.andThen (local_skips declarationQualifiers ts) ?_
    intro r1 h1
    refine Local.andThen (local_typeName r1) ?_
    intro r2 h2
    refine Local.andThen (local_declarators r2) ?_
    intro r3 h3
    have hle := (local_skips declarationQualifiers ts).length_le h1
    have hlt := Nat.lt_of_lt_of_le (Nat.lt_trans (length_of_view h3) (length_of_view h2)) hle
    exact local_structMembers r3
  · apply length_of_view (f := structMembers)
    rw [view_structMembers, onNext, hnot, if_neg Bool.false_ne_true, unlessEnd, hend,
      if_neg Bool.false_ne_true]
    exact hr
  termination_by ts.length

theorem local_structBody (ts : List Token) : Local (view structBody) [] ts := by
  have hmembers (us : List Token) : Local bracedMembers [] us :=
    Local.onNext (Reads.opening .curly []) (fun _ rest _ _ => local_structMembers rest) fun _ =>
      Local.fail _ _ us
  rw [view_structBody]
  exact Local.onNext (reads_ident []) (fun _ rest _ _ => hmembers rest) fun _ => hmembers ts

theorem local_structDeclaration (ts : List Token) : Local (view structDeclaration) [] ts := by
  rw [view_structDeclaration]
  refine Local.andThen (local_structBody ts) ?_
  intro r _
  exact Local.onNext (Reads.op (by decide) []) (fun _ rest _ _ => Local.done rest) fun _ =>
    local_declarators r

theorem local_localDeclaration (ts : List Token) : Local (view localDeclaration) [] ts := by
  rw [view_localDeclaration]
  refine Local.andThen (local_skips declarationQualifiers ts) ?_
  intro r _
  refine Local.onNext (reads_keyword "struct" [])
    (fun _ rest _ _ => local_structDeclaration rest) fun _ => ?_
  refine Local.andThen (local_typeName r) ?_
  intro r2 _
  exact local_declarators r2

theorem local_declarationOr {g : Production} {ts : List Token} (hg : Local g [] ts)
    (hlength : forall r, g ts = .ok r -> r.length < ts.length) :
    Local (declarationOr g) [] ts :=
  Local.onNext (reads_qualifier declarationQualifiers [])
    (fun _ rest _ _ => local_localDeclaration rest) fun _ =>
  Local.onNext (reads_keyword "struct" []) (fun _ rest _ _ => local_structDeclaration rest) fun _ =>
  Local.onTwo (reads_typeToken []) (reads_ident [])
    (fun _ _ rest _ _ _ => local_declaratorTail rest) hg fun _ => hlength

end Declarations

/-!
# Local statements
-/

section Heads

variable {op : Text} {opened : List Bracket}

theorem local_expressionBefore (h : Reads (fun t => t.isOp op) opened []) (ts : List Token) :
    Local (view (expressionBefore op)) opened ts := by
  rw [view_expressionBefore]
  refine Local.andThen (expressionsAt ts).expression ?_
  intro r _
  exact local_expectOp h r

theorem local_optionalBefore (h : Reads (fun t => t.isOp op) opened []) (ts : List Token) :
    Local (view (optionalBefore op)) opened ts := by
  rw [view_optionalBefore]
  exact Local.onNext h (fun _ rest _ _ => Local.done rest) fun _ => local_expressionBefore h ts

theorem local_condition (ts : List Token) : Local (view condition) [] ts := by
  rw [view_condition]
  exact Local.onNext (Reads.opening .round [])
    (fun _ rest _ _ => local_expressionBefore (Reads.closing .round []) rest) fun _ =>
    Local.fail _ _ ts

theorem local_expressionOr (ts : List Token) :
    Local (declarationOr (view (expressionBefore ";"))) [] ts :=
  local_declarationOr (local_expressionBefore (Reads.op (by decide) []) ts)
    fun _ => length_of_view

theorem local_loopStart (ts : List Token) : Local (view loopStart) [] ts := by
  rw [view_loopStart]
  exact Local.onNext (Reads.op (by decide) []) (fun _ rest _ _ => Local.done rest) fun _ =>
    local_expressionOr ts

theorem local_loopHead (ts : List Token) : Local (view loopHead) [] ts := by
  rw [view_loopHead]
  refine Local.onNext (Reads.opening .round []) (fun _ rest _ _ => ?_) fun _ => Local.fail _ _ ts
  refine Local.andThen (local_loopStart rest) ?_
  intro r1 _
  refine Local.andThen (local_optionalBefore (Reads.op (by decide) []) r1) ?_
  intro r2 _
  exact local_optionalBefore (Reads.closing .round []) r2

end Heads

structure StatementsAt (ts : List Token) : Prop where
  statement : Local (view statement) [] ts
  guarded : Local (view guarded) [] ts
  statements : Local (view statements) [.curly] ts

section Shorter

variable {ts : List Token} (ih : forall r : List Token, r.length < ts.length -> StatementsAt r)

include ih

theorem local_guarded : Local (view guarded) [] ts := by
  rw [view_guarded]
  refine Local.andThen (local_condition ts) ?_
  intro r hr
  exact (ih r (length_of_view hr)).statement

theorem local_statement : Local (view statement) [] ts := by
  rw [view_statement]
  refine Local.onNext (Reads.opening .curly []) ?block fun _ =>
    Local.onNext (Reads.op (by decide) []) (fun _ rest _ _ => Local.done rest) fun _ =>
    Local.onNext (reads_keyword "if" []) ?choice fun _ =>
    Local.onNext (reads_keyword "for" []) ?loop fun _ =>
    Local.onNext (reads_keyword "while" []) ?guarded fun _ =>
    Local.onNext (reads_keyword "do" []) ?repeated fun _ =>
    Local.onNext (reads_keyword "return" [])
      (fun _ rest _ _ => local_optionalBefore (Reads.op (by decide) []) rest) fun _ =>
    Local.onNext (reads_jump [])
      (fun _ rest _ _ => local_expectOp (Reads.op (by decide) []) rest) fun _ =>
    local_expressionOr ts
  case block =>
    rintro t rest rfl _
    exact (ih rest (Nat.lt_succ_self _)).statements
  case choice =>
    rintro t rest rfl _
    refine Local.andThen (ih rest (Nat.lt_succ_self _)).guarded ?_
    intro r hr
    refine Local.onNext (reads_keyword "else" []) ?_ fun _ => Local.done r
    rintro u rest' rfl _
    exact (ih rest' (Nat.lt_succ_of_lt (Nat.lt_of_succ_lt (length_of_view hr)))).statement
  case loop =>
    rintro t rest rfl _
    refine Local.andThen (local_loopHead rest) ?_
    intro r hr
    exact (ih r (Nat.lt_succ_of_lt (length_of_view hr))).statement
  case guarded =>
    rintro t rest rfl _
    exact (ih rest (Nat.lt_succ_self _)).guarded
  case repeated =>
    rintro t rest rfl _
    refine Local.andThen (ih rest (Nat.lt_succ_self _)).statement ?_
    intro r1 _
    rw [view_expect rfl]
    refine Local.andThen (Local.token (reads_keyword "while" []) r1) ?_
    intro r2 _
    refine Local.andThen (local_condition r2) ?_
    intro r3 _
    exact local_expectOp (Reads.op (by decide) []) r3

theorem local_statements : Local (view statements) [.curly] ts := by
  rw [view_statements]
  refine Local.onNext (Reads.closing .curly []) (fun _ rest _ _ => Local.done rest) fun hnot => ?_
  refine Local.unlessEnd (fun _ => ?_) fun hend r hr => ?_
  · refine Local.andThen (local_statement ih) ?_
    intro r hr
    exact (ih r (length_of_view hr)).statements
  · apply length_of_view (f := statements)
    rw [view_statements, onNext, hnot, if_neg Bool.false_ne_true, unlessEnd, hend,
      if_neg Bool.false_ne_true]
    exact hr

end Shorter

theorem statementsAt (ts : List Token) : StatementsAt ts :=
  have ih : forall r : List Token, r.length < ts.length -> StatementsAt r :=
    fun r _ => statementsAt r
  ⟨local_statement ih, local_guarded ih, local_statements ih⟩
  termination_by ts.length

/-!
# Local functions and global declarations
-/

theorem local_parameter (ts : List Token) : Local (view parameter) [] ts := by
  rw [view_parameter]
  refine Local.andThen (local_skips parameterQualifiers ts) ?_
  intro r1 _
  refine Local.andThen (local_typeName r1) ?_
  intro r2 _
  exact Local.onNext (reads_name []) (fun _ rest _ _ => local_arrayLength rest) fun _ =>
    local_arrayLength r2

theorem local_parameterList (ts : List Token) : Local (view parameterList) [.round] ts := by
  rw [view_parameterList]
  refine Local.andThen (local_parameter ts) ?_
  intro r hr
  refine Local.onNext (Reads.op (by decide) [.round]) ?_ fun _ =>
    local_expectOp (Reads.closing .round []) r
  rintro t rest rfl _
  have hlt := Nat.lt_of_succ_lt (length_of_view hr)
  exact local_parameterList rest
  termination_by ts.length

theorem local_parameters (ts : List Token) : Local (view parameters) [.round] ts := by
  rw [view_parameters]
  refine Local.onNext (Reads.closing .round []) (fun _ rest _ _ => Local.done rest) fun _ =>
    Local.onTwo (reads_keyword "void" [.round]) (Reads.closing .round [])
      (fun _ _ rest _ _ _ => Local.done rest) (local_parameterList ts) ?_
  exact fun _ _ => length_of_view

theorem local_functionRest (ts : List Token) : Local (view functionRest) [.round] ts := by
  rw [view_functionRest]
  refine Local.closeThen (local_parameters ts) ?_
  intro r _
  exact Local.onNext (Reads.op (by decide) []) (fun _ rest _ _ => Local.done rest) fun _ =>
    Local.onNext (Reads.opening .curly []) (fun _ rest _ _ => (statementsAt rest).statements)
      fun _ => Local.fail _ _ r

theorem local_precisionRest (ts : List Token) : Local (view precisionRest) [] ts := by
  rw [view_precisionRest, view_expect rfl]
  refine Local.andThen (Local.token (reads_precision []) ts) ?_
  intro r1 _
  refine Local.andThen (local_typeName r1) ?_
  intro r2 _
  exact local_expectOp (Reads.op (by decide) []) r2

theorem local_unqualified (ts : List Token) : Local (view unqualified) [] ts := by
  rw [view_unqualified]
  refine Local.andThen (local_typeName ts) ?_
  intro r1 _
  refine Local.andThen (local_identifier r1) ?_
  intro r2 _
  exact Local.onNext (Reads.opening .round []) (fun _ rest _ _ => local_functionRest rest) fun _ =>
    local_declaratorTail r2

theorem local_external (ts : List Token) : Local (view external) [] ts := by
  rw [view_external]
  refine Local.onNext (reads_keyword "precision" [])
    (fun _ rest _ _ => local_precisionRest rest) fun _ => ?_
  refine Local.andThen (local_skips declarationQualifiers ts) ?_
  intro r _
  exact Local.onNext (reads_keyword "struct" []) (fun _ rest _ _ => local_structDeclaration rest)
    fun _ => local_unqualified r

/-!
# Whole sources
-/

/-- A global declaration, a function or an empty declaration. -/
def globalPart : Production :=
  onNext (fun t => t.isOp ";") (fun _ => done) (view external)

theorem bind_external (us : List Token) :
    (match external us with
      | .error e => .error e
      | .ok ⟨r, _⟩ => globalDeclarations r) = (view external us).bind globalDeclarations := by
  unfold view
  rcases external us with e | ⟨r, h⟩ <;> rfl

theorem globalDeclarations_eq (ts : List Token) :
    globalDeclarations ts =
      if Stream.atEnd ts then .ok () else (globalPart ts).bind globalDeclarations := by
  rw [globalDeclarations]
  split
  · rfl
  · unfold globalPart acceptOp?
    cases ts with
    | nil => exact bind_external []
    | cons t ts =>
        rw [accept?, onNext_cons]
        cases t.isOp ";" with
        | true => rfl
        | false => exact bind_external (t :: ts)

theorem local_globalPart (ts : List Token) : Local globalPart [] ts :=
  Local.onNext (Reads.op (by decide) []) (fun _ rest _ _ => Local.done rest) fun _ =>
    local_external ts

theorem length_of_globalPart {ts r : List Token} (h : globalPart ts = .ok r) :
    r.length < ts.length := by
  cases ts with
  | nil =>
      change view external [] = .ok r at h
      exact length_of_view h
  | cons t ts =>
      unfold globalPart at h
      rw [onNext_cons] at h
      split at h
      · cases h
        exact Nat.lt_succ_self _
      · exact length_of_view h

/-- The tokens up to the end marker are accepted, whatever comes behind it. -/
structure AcceptsUpTo (w r : List Token) : Prop where
  inside : forall t, t ∈ w -> ¬ IsEnd t
  atEnd : Stream.atEnd r = true
  brackets : Bracket.scan? [] w = some []
  run : forall us, Fits r us -> globalDeclarations (w ++ us) = .ok ()

/-- The check fails behind these tokens, whatever comes behind the next two, and if the source
is cut off there it does not fail before the cut. -/
structure FailsBehind (w r : List Token) (m : Mismatch) : Prop where
  inside : forall t, t ∈ w -> ¬ IsEnd t
  found : m.found = peek r
  run : forall us, Alike r us -> globalDeclarations (w ++ us) = .error m
  cut : forall us, IsEnd (peek us) -> globalDeclarations (w ++ us) = .ok () ∨
    exists x, globalDeclarations (w ++ us) = .error ⟨x, peek us⟩

section Parts

variable {v w r : List Token} (hinside : forall t, t ∈ v -> ¬ IsEnd t)
  (hnext : forall us, Fits (w ++ r) (w ++ us) ->
    globalDeclarations (v ++ (w ++ us)) = globalDeclarations (w ++ us))

include hinside hnext

theorem AcceptsUpTo.prepend (h : AcceptsUpTo w r) (hbrackets : Bracket.scan? [] v = some []) :
    AcceptsUpTo (v ++ w) r where
  inside t ht := (List.mem_append.mp ht).elim (hinside t) (h.inside t)
  atEnd := h.atEnd
  brackets := by
    rw [Bracket.scan?_append, hbrackets]
    exact h.brackets
  run us hus := by
    rw [List.append_assoc, hnext us (hus.append w)]
    exact h.run us hus

theorem FailsBehind.prepend {m : Mismatch} (h : FailsBehind w r m) :
    FailsBehind (v ++ w) r m where
  inside t ht := (List.mem_append.mp ht).elim (hinside t) (h.inside t)
  found := h.found
  run us hus := by
    rw [List.append_assoc, hnext us (hus.fits.append w)]
    exact h.run us hus
  cut us hus := by
    rw [List.append_assoc, hnext us ((fits_of_isEnd hus).append w)]
    exact h.cut us hus

end Parts

theorem globalDeclarations_cases (ts : List Token) :
    (exists w r, ts = w ++ r ∧ AcceptsUpTo w r) ∨
      exists w r m, ts = w ++ r ∧ FailsBehind w r m := by
  cases hend : Stream.atEnd ts with
  | true =>
      refine Or.inl ⟨[], ts, rfl, by simp, hend, rfl, ?_⟩
      intro us hus
      have hstop : Stream.atEnd us = true := by
        rcases hus with hus | hus
        · rw [Stream.atEnd, hus]
          exact hend
        · rw [Stream.atEnd, hus.1]
          rfl
      rw [List.nil_append, globalDeclarations_eq, if_pos hstop]
  | false =>
      have hpart (us : List Token) (hus : peek us = peek ts) :
          globalDeclarations us = (globalPart us).bind globalDeclarations := by
        rw [globalDeclarations_eq, Stream.atEnd, hus, ← Stream.atEnd, hend,
          if_neg Bool.false_ne_true]
      cases local_globalPart ts with
      | @error w r m hts hstops =>
          subst hts
          refine Or.inr ⟨w, r, m, rfl, hstops.inside, hstops.found, ?_, ?_⟩
          · intro us hus
            rw [hpart]
            · rw [hstops.run us hus]
              rfl
            · cases w with
              | nil => exact hus.1
              | cons t w => rfl
          · intro us hus
            cases w with
            | nil =>
                left
                rw [globalDeclarations_eq, if_pos]
                rw [List.nil_append, Stream.atEnd, hus.1]
                rfl
            | cons t w =>
                rcases hstops.cut us hus with ⟨x, hx⟩
                right
                refine ⟨x, ?_⟩
                rw [hpart (t :: w ++ us) rfl, hx]
                rfl
      | @ok w r hts hconsumes =>
          have hrun : globalPart ts = .ok r := hts ▸ hconsumes.run r (Fits.refl r)
          have hlt := length_of_globalPart hrun
          have hnext (us : List Token) (hus : Fits r us) :
              globalDeclarations (w ++ us) = globalDeclarations us := by
            have hsame : peek (w ++ us) = peek ts := by
              cases w with
              | nil =>
                  rw [hts] at hlt
                  exact absurd hlt (Nat.lt_irrefl _)
              | cons t w => rw [hts]; rfl
            rw [hpart _ hsame, hconsumes.run us hus]
            rfl
          rcases globalDeclarations_cases r with ⟨v, s, hr, haccepts⟩ | ⟨v, s, m, hr, hfails⟩
          · refine Or.inl ⟨w ++ v, s, by rw [hts, hr, List.append_assoc], ?_⟩
            subst hr
            exact haccepts.prepend hconsumes.inside (fun us => hnext (v ++ us))
              (hconsumes.brackets [])
          · refine Or.inr ⟨w ++ v, s, m, by rw [hts, hr, List.append_assoc], ?_⟩
            subst hr
            exact hfails.prepend hconsumes.inside fun us => hnext (v ++ us)
  termination_by ts.length

/-!
# Sources that end
-/

/-- The tokens of a source that the check looks at. -/
def syntaxTokens (ts : List Token) : List Token :=
  ts.filter fun t => !t.isTrivia && !t.isDirective

theorem syntaxTokens_append (ts us : List Token) :
    syntaxTokens (ts ++ us) = syntaxTokens ts ++ syntaxTokens us :=
  List.filter_append ts us

theorem exists_syntaxTokens {code : Text} {ts : List Token} (h : tokenize code = .ok ts) :
    exists init e, syntaxTokens ts = init ++ [e] ∧ IsEnd e ∧
      forall t, t ∈ init -> t.kind ≠ .eof := by
  rcases Lexer.tokenize_eq_ok_iff.mp h with ⟨ws, hlexes, rfl⟩
  rcases Lexer.ended_place hlexes Position.start with ⟨init, q, hplace, _, hinit⟩
  refine ⟨syntaxTokens init, Token.endAt q, ?_, ⟨rfl, rfl⟩, ?_⟩
  · rw [hplace, syntaxTokens_append]
    rfl
  · intro t ht
    exact (hinit t (List.mem_filter.mp ht).1).1

theorem exists_rest {init w r : List Token} {e : Token} (h : init ++ [e] = w ++ r) (he : IsEnd e)
    (hw : forall t, t ∈ w -> ¬ IsEnd t) : exists rest, r = rest ++ [e] ∧ init = w ++ rest := by
  rcases List.eq_nil_or_concat r with rfl | ⟨rest, u, rfl⟩
  · rw [List.append_nil] at h
    exact absurd he (hw e (h ▸ List.mem_append_right _ (List.mem_singleton_self e)))
  · rw [List.concat_eq_append, ← List.append_assoc] at h
    have hlast := List.append_inj' h rfl
    cases hlast.2
    exact ⟨rest, List.concat_eq_append, hlast.1⟩

theorem scan?_syntaxTokens (st : List Bracket) (ts : List Token) :
    Bracket.scan? st (syntaxTokens ts) = Bracket.scan? st ts := by
  apply Bracket.scan?_filter
  intro t _ ht
  unfold Bracket.isBracket
  by_cases hkind : t.kind = .operator
  · simp [Token.isTrivia, Token.isDirective, hkind] at ht
  · rw [beq_false_of_ne hkind]
    rfl

theorem Alike.append_right {r rest : List Token} {e : Token} (hr : r = rest ++ [e]) (he : IsEnd e)
    (us : List Token) : Alike r (r ++ us) := by
  subst hr
  match rest with
  | [] => exact ⟨rfl, Or.inl he⟩
  | [t] => exact ⟨rfl, Or.inr rfl⟩
  | t :: u :: rest => exact ⟨rfl, Or.inr rfl⟩

theorem peek_eq_of_head? {ts us : List Token} (h : us.head? = ts.head?) : peek us = peek ts := by
  cases ts <;> cases us <;> cases h <;> rfl

theorem checkGrammar_append (ts us : List Token) :
    checkGrammar (ts ++ us) = globalDeclarations (syntaxTokens ts ++ syntaxTokens us) :=
  congrArg globalDeclarations (syntaxTokens_append ts us)

theorem syntaxTokens_of_prefix {ts w r : List Token} (h : syntaxTokens ts = w ++ r) :
    syntaxTokens w = w := by
  apply List.filter_eq_self.mpr
  intro t ht
  have hmem : t ∈ syntaxTokens ts := h ▸ List.mem_append_left r ht
  exact (List.mem_filter.mp hmem).2

section Ended

variable {ts init w r : List Token} {e : Token} (hts : syntaxTokens ts = w ++ r)
  (hseen : syntaxTokens ts = init ++ [e]) (he : IsEnd e)

include hts hseen he

theorem AcceptsUpTo.eq_end (h : AcceptsUpTo w r) (hinit : forall t, t ∈ init -> t.kind ≠ .eof) :
    r = [e] := by
  rcases exists_rest (hseen.symm.trans hts) he h.inside with ⟨rest, hr, hrest⟩
  cases rest with
  | nil => exact hr
  | cons t rest =>
      have hkind := h.atEnd
      rw [hr] at hkind
      exact absurd (eq_of_beq hkind)
        (hinit t (hrest ▸ List.mem_append_right w List.mem_cons_self))

theorem AcceptsUpTo.checkGrammar_append (h : AcceptsUpTo w r) (us : List Token) :
    checkGrammar (ts ++ us) = .ok () := by
  rcases exists_rest (hseen.symm.trans hts) he h.inside with ⟨rest, hr, _⟩
  rw [Grammar.checkGrammar_append, hts, List.append_assoc]
  exact h.run _ (Alike.append_right hr he _).fits

theorem AcceptsUpTo.balanced (h : AcceptsUpTo w r) (hinit : forall t, t ∈ init -> t.kind ≠ .eof) :
    Bracket.Balanced ts := by
  have hend : Bracket.isBracket e = false := by
    unfold Bracket.isBracket
    rw [he.1]
    rfl
  apply Bracket.balanced_of_scan?
  rw [← scan?_syntaxTokens, hts, h.eq_end hts hseen he hinit, Bracket.scan?_append, h.brackets,
    Option.bind_some, Bracket.scan?_cons, Bracket.step?_of_not_isBracket hend]
  rfl

theorem FailsBehind.checkGrammar_append {m : Mismatch} (h : FailsBehind w r m) (us : List Token) :
    checkGrammar (ts ++ us) = .error m := by
  rcases exists_rest (hseen.symm.trans hts) he h.inside with ⟨rest, hr, _⟩
  rw [Grammar.checkGrammar_append, hts, List.append_assoc]
  exact h.run _ (Alike.append_right hr he _)

theorem FailsBehind.eq_found {m : Mismatch} (h : FailsBehind w r m) :
    exists after, r = m.found :: after := by
  rcases exists_rest (hseen.symm.trans hts) he h.inside with ⟨rest, hr, _⟩
  rw [h.found, hr]
  cases rest with
  | nil => exact ⟨[], rfl⟩
  | cons t rest => exact ⟨rest ++ [e], rfl⟩

end Ended

theorem isEnd_of_mem {ts init : List Token} {e t : Token} (hts : ts = init ++ [e]) (he : IsEnd e)
    (hinit : forall u, u ∈ init -> u.kind ≠ .eof) (ht : t ∈ ts) (hkind : t.kind = .eof) :
    IsEnd t := by
  rw [hts] at ht
  rcases List.mem_append.mp ht with ht | ht
  · exact absurd hkind (hinit t ht)
  · rw [List.mem_singleton.mp ht]
    exact he

end Grammar

theorem grammarError?_eq_some {ts : List Token} {m : Grammar.Mismatch}
    (h : checkGrammar ts = .error m) : Check.grammarError? ts = some m.toDiagnostic := by
  unfold Check.grammarError?
  rw [h]

theorem grammarError?_eq_none {ts : List Token} (h : checkGrammar ts = .ok ()) :
    Check.grammarError? ts = none := by
  unfold Check.grammarError?
  rw [h]

namespace Grammar

section Stopped

variable {ts w after : List Token} {m : Mismatch}
  (hts : syntaxTokens ts = w ++ m.found :: after) (h : FailsBehind w (m.found :: after) m)

include hts h

theorem FailsBehind.grammarError?_alike {us : List Token}
    (hus : IsEnd m.found ∨ (syntaxTokens us).head? = after.head?) :
    Check.grammarError? (w ++ m.found :: us) = some m.toDiagnostic := by
  apply grammarError?_eq_some
  rw [List.append_cons] at hts ⊢
  rw [Grammar.checkGrammar_append, syntaxTokens_of_prefix hts, ← List.append_cons]
  exact h.run _ ⟨rfl, hus.imp_right peek_eq_of_head?⟩

theorem FailsBehind.grammarError?_cut (p : Position) :
    Check.grammarError? (w ++ [Token.endAt p]) = none ∨
      exists d, Check.grammarError? (w ++ [Token.endAt p]) = some d ∧ d.line = p.line := by
  have hcut : checkGrammar (w ++ [Token.endAt p]) = globalDeclarations (w ++ [Token.endAt p]) := by
    rw [Grammar.checkGrammar_append, syntaxTokens_of_prefix hts]
    rfl
  rcases h.cut [Token.endAt p] ⟨rfl, rfl⟩ with hok | ⟨x, herror⟩
  · exact Or.inl (grammarError?_eq_none (hcut.trans hok))
  · exact Or.inr ⟨_, grammarError?_eq_some (hcut.trans herror), rfl⟩

end Stopped

end Grammar

open Grammar

/-- The check of a source never looks behind its end marker, and what it accepts has its brackets
balanced.  Every error names the token where the check stopped and carries its line: the tokens
up to that one and the next decide the error, and a source that ends before it fails at its end,
if at all. -/
theorem checkGrammar_balanced_or_located {code : Text} {ts : List Token}
    (htokens : tokenize code = .ok ts) :
    (forall us, checkGrammar (ts ++ us) = checkGrammar ts) ∧
      (checkGrammar ts = .ok () -> Bracket.Balanced ts) ∧
      forall d, Check.grammarError? ts = some d ->
        exists before t after x, syntaxTokens ts = before ++ t :: after ∧
          d = (Mismatch.mk x t).toDiagnostic ∧ d.line = t.line ∧
          (forall us, t.kind = .eof ∨ (syntaxTokens us).head? = after.head? ->
            Check.grammarError? (before ++ t :: us) = some d) ∧
          forall p, Check.grammarError? (before ++ [Token.endAt p]) = none ∨
            exists d', Check.grammarError? (before ++ [Token.endAt p]) = some d' ∧
              d'.line = p.line := by
  rcases exists_syntaxTokens htokens with ⟨init, e, hseen, he, hinit⟩
  rcases globalDeclarations_cases (syntaxTokens ts) with
    ⟨w, r, hts, haccepts⟩ | ⟨w, r, m, hts, hfails⟩
  · have hrun := haccepts.checkGrammar_append hts hseen he
    have hok : checkGrammar ts = .ok () := by
      have := hrun []
      rwa [List.append_nil] at this
    refine ⟨fun us => (hrun us).trans hok.symm, fun _ => haccepts.balanced hts hseen he hinit, ?_⟩
    intro d hd
    rw [grammarError?_eq_none hok] at hd
    cases hd
  · have hrun := hfails.checkGrammar_append hts hseen he
    have herror : checkGrammar ts = .error m := by
      have := hrun []
      rwa [List.append_nil] at this
    refine ⟨fun us => (hrun us).trans herror.symm, fun hok => ?_, fun d hd => ?_⟩
    · rw [herror] at hok
      cases hok
    · rw [grammarError?_eq_some herror] at hd
      cases hd
      rcases hfails.eq_found hts hseen he with ⟨after, rfl⟩
      refine ⟨w, m.found, after, m.expected, hts, rfl, rfl, ?_, hfails.grammarError?_cut hts⟩
      intro us hus
      have hmem : m.found ∈ syntaxTokens ts := by
        rw [hts]
        exact List.mem_append_right w List.mem_cons_self
      exact hfails.grammarError?_alike hts (hus.imp_left (isEnd_of_mem hseen he hinit hmem))

/-!
# A prototype and a number
-/

namespace Grammar

def prototype : List Token :=
  [⟨.keyword, "void", ⟨1, 1, 0⟩⟩, ⟨.whitespace, " ", ⟨1, 5, 4⟩⟩, ⟨.ident, "f", ⟨1, 6, 5⟩⟩,
   ⟨.operator, "(", ⟨1, 7, 6⟩⟩, ⟨.keyword, "void", ⟨1, 8, 7⟩⟩, ⟨.operator, ")", ⟨1, 12, 11⟩⟩,
   ⟨.operator, ";", ⟨1, 13, 12⟩⟩]

theorem checkGrammar_prototype_append (ts : List Token) :
    checkGrammar (prototype ++ ts) = globalDeclarations (syntaxTokens ts) := by
  have hpart : globalPart (syntaxTokens prototype ++ syntaxTokens ts) = .ok (syntaxTokens ts) := rfl
  rw [checkGrammar_append, globalDeclarations_eq, hpart]
  rfl

end Grammar

/-- The prototype is accepted; a number behind it is not. -/
theorem checkGrammar_balanced_or_located_prototype :
    exists ts us d, tokenize "void f(void);" = .ok ts ∧ checkGrammar ts = .ok () ∧
      Bracket.Balanced ts ∧ tokenize "void f(void);\n1" = .ok us ∧
      Check.grammarError? us = some d ∧ d.line = 2 ∧
      exists before t after, syntaxTokens us = before ++ t :: after ∧ d.line = t.line := by
  have hlexes : (tokenize "void f(void);").toOption =
        some (prototype ++ [Token.endAt ⟨1, 14, 13⟩]) ∧
      (tokenize "void f(void);\n1").toOption = some (prototype ++
        [⟨.whitespace, "\n", ⟨1, 14, 13⟩⟩, ⟨.integer, "1", ⟨2, 1, 14⟩⟩,
          Token.endAt ⟨2, 2, 15⟩]) := by
    decide +kernel
  have hok : checkGrammar (prototype ++ [Token.endAt ⟨1, 14, 13⟩]) = .ok () := by
    rw [checkGrammar_prototype_append, globalDeclarations_eq]
    rfl
  have herror : checkGrammar (prototype ++
      [⟨.whitespace, "\n", ⟨1, 14, 13⟩⟩, ⟨.integer, "1", ⟨2, 1, 14⟩⟩,
        Token.endAt ⟨2, 2, 15⟩]) = .error ⟨.type, ⟨.integer, "1", ⟨2, 1, 14⟩⟩⟩ := by
    rw [checkGrammar_prototype_append, globalDeclarations_eq]
    rfl
  have htokens := toOption_eq_some_iff.mp hlexes.1
  have htokens' := toOption_eq_some_iff.mp hlexes.2
  have hd := grammarError?_eq_some herror
  rcases (checkGrammar_balanced_or_located htokens').2.2 _ hd with ⟨before, t, after, x, hsplit, _,
    hline, _⟩
  exact ⟨_, _, _, htokens, hok, (checkGrammar_balanced_or_located htokens).2.1 hok, htokens', hd,
    rfl,
    before, t, after, hsplit, hline⟩

end EffectShader
