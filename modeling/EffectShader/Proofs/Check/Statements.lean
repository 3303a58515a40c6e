import EffectShader.Check.Grammar.Statement
import EffectShader.Proofs.Check.Expressions

/-!
# Runs of declarations and statements

The productions of declarations and statements are put together in the same way as those of
expressions, and are local.  What starts a declaration inside a function is seen from its first
two tokens, so that this is a choice of two tokens as well.
-/

namespace EffectShader

namespace Grammar

open EffectShader.Stream (peek)

/-!
# Productions without bounds
-/

def skips (allowed : List Text) : Production :=
  fun ts => .ok (qualifiers allowed ts).val

def isQualifier (allowed : List Text) (t : Token) : Bool :=
  t.kind == .keyword && allowed.contains t.text

theorem skips_eq (allowed : List Text) :
    skips allowed = onNext (isQualifier allowed) (fun _ => skips allowed) done := by
  funext ts
  cases ts with
  | nil => rfl
  | cons t ts =>
      change Except.ok (qualifiers allowed (t :: ts)).val =
        if t.kind == .keyword && allowed.contains t.text then skips allowed ts else done (t :: ts)
      rw [qualifiers]
      split <;> rfl

theorem skips_of_isQualifier {allowed : List Text} {t : Token} {ts : List Token}
    (h : isQualifier allowed t = true) : skips allowed (t :: ts) = skips allowed ts := by
  rw [skips_eq, onNext_cons, if_pos h, ← skips_eq]

theorem skips_of_not_isQualifier {allowed : List Text} {t : Token} {ts : List Token}
    (h : isQualifier allowed t = false) : skips allowed (t :: ts) = .ok (t :: ts) := by
  rw [skips_eq, onNext_cons, h]
  rfl

theorem andThen_skips (allowed : List Text) (g : Production) (ts : List Token) :
    andThen (skips allowed) g ts = g (qualifiers allowed ts).val := rfl

section Erase

variable {Q : List Token -> Prop} {us : List Token} {f g : Production}

theorem map_unlessEnd {x : Expected} {other : Recognized us} (h : other.map Subtype.val = g us) :
    Except.map Subtype.val (if Stream.atEnd us then mismatch x us else other) =
      unlessEnd x g us := by
  unfold unlessEnd
  split
  · rfl
  · exact h

theorem map_ite {c : Bool} {a b : Except Mismatch (Subtype Q)}
    {x y : Except Mismatch (List Token)} (ha : c = true -> a.map Subtype.val = x)
    (hb : c = false -> b.map Subtype.val = y) :
    Except.map Subtype.val (if c then a else b) = if c then x else y := by
  cases c with
  | true => exact ha rfl
  | false => exact hb rfl

end Erase

def isTypeToken (t : Token) : Bool :=
  isTypeKeyword t || t.kind == .ident

theorem view_typeName : view typeName = token .type isTypeToken :=
  view_expect rfl .type

theorem view_identifier : view identifier = token .identifier isName :=
  view_expect rfl .identifier

/-!
# Declarations
-/

theorem viewAny_arrayLength : viewAny arrayLength =
    onNext (fun t => t.isOp "[")
      (fun _ => andThen (view expression) (view (expectOp "]"))) done := by
  funext ts
  change (arrayLength ts).map Subtype.val = _
  rw [arrayLength]
  refine map_choice ?_ (fun _ _ => ?_) ?_
  · rfl
  · refine map_sequence fun _ _ => ?_
    exact map_last fun _ => rfl
  · rfl

theorem viewAny_initializer : viewAny initializer =
    onNext (fun t => t.isOp "=") (fun _ => view assignment) done := by
  funext ts
  change (initializer ts).map Subtype.val = _
  rw [initializer]
  refine map_choice ?_ (fun _ _ => ?_) ?_
  · rfl
  · exact map_last fun _ => rfl
  · rfl

theorem view_declaratorTail : view declaratorTail =
    andThen (viewAny arrayLength) (andThen (viewAny initializer)
      (onNext (fun t => t.isOp ",")
        (fun _ => andThen (view identifier) (view declaratorTail))
        (view (expectOp ";")))) := by
  funext ts
  change (declaratorTail ts).map Subtype.val = _
  rw [declaratorTail]
  refine map_sequenceAny fun _ _ => ?_
  refine map_sequenceAny fun _ _ => ?_
  refine map_choice ?_ (fun _ _ => ?_) ?_
  · rfl
  · refine map_sequence fun _ _ => ?_
    exact map_last fun _ => rfl
  · exact map_last fun _ => rfl

theorem view_declarators : view declarators =
    andThen (view identifier) (view declaratorTail) := by
  funext ts
  change (declarators ts).map Subtype.val = _
  rw [declarators]
  refine map_sequence fun _ _ => ?_
  exact map_last fun _ => rfl

theorem view_structMembers : view structMembers =
    onNext (fun t => t.isOp Op.closeBrace) (fun _ => done)
      (unlessEnd (.op Op.closeBrace)
        (andThen (skips declarationQualifiers)
          (andThen (view typeName) (andThen (view declarators) (view structMembers))))) := by
  funext ts
  change (structMembers ts).map Subtype.val = _
  rw [structMembers]
  refine map_accept ?_ (fun _ => ?_) ?_
  · rfl
  · rfl
  · refine map_unlessEnd ?_
    rw [andThen_skips]
    rcases qualifiers declarationQualifiers ts with ⟨r, h⟩
    refine map_sequence fun _ _ => ?_
    refine map_sequence fun _ _ => ?_
    exact map_last fun _ => rfl

def bracedMembers : Production :=
  onNext (fun t => t.isOp Op.openBrace) (fun _ => view structMembers) (fail (.op Op.openBrace))

theorem view_structBody : view structBody =
    onNext (fun t => t.kind == .ident) (fun _ => bracedMembers) bracedMembers := by
  funext ts
  change (structBody ts).map Subtype.val = _
  unfold bracedMembers
  rw [structBody, ← token_andThen, ← view_expectOp]
  cases ts with
  | nil => rfl
  | cons t ts =>
      rw [accept?]
      change _ = if t.kind == .ident then andThen _ _ ts else andThen _ _ (t :: ts)
      cases t.kind == .ident with
      | true =>
          refine map_sequence fun _ _ => ?_
          exact map_last fun _ => rfl
      | false =>
          refine map_sequence fun _ _ => ?_
          exact map_last fun _ => rfl

theorem view_structDeclaration : view structDeclaration =
    andThen (view structBody)
      (onNext (fun t => t.isOp ";") (fun _ => done) (view declarators)) := by
  funext ts
  change (structDeclaration ts).map Subtype.val = _
  rw [structDeclaration]
  refine map_sequence fun _ _ => ?_
  refine map_accept ?_ (fun _ => ?_) ?_
  · rfl
  · rfl
  · exact map_last fun _ => rfl

theorem view_localDeclaration : view localDeclaration =
    andThen (skips declarationQualifiers)
      (onNext (isKeyword "struct") (fun _ => view structDeclaration)
        (andThen (view typeName) (view declarators))) := by
  funext ts
  change (localDeclaration ts).map Subtype.val = _
  rw [localDeclaration]
  rw [andThen_skips]
  rcases qualifiers declarationQualifiers ts with ⟨r, h⟩
  refine map_branch ?_ (fun _ _ => ?_) ?_
  · rfl
  · exact map_last fun _ => rfl
  · refine map_sequence fun _ _ => ?_
    exact map_last fun _ => rfl

/-!
# Declarations inside functions
-/

def declarationOr (g : Production) : Production :=
  onNext (isQualifier declarationQualifiers) (fun _ => view localDeclaration)
    (onNext (isKeyword "struct") (fun _ => view structDeclaration)
      (onTwo isTypeToken (fun t => t.kind == .ident) (view declaratorTail) g))

theorem view_localDeclaration_qualifier {t : Token} {ts : List Token}
    (h : isQualifier declarationQualifiers t = true) :
    view localDeclaration (t :: ts) = view localDeclaration ts := by
  rw [view_localDeclaration, andThen, skips_of_isQualifier h]
  rfl

theorem view_localDeclaration_struct {t : Token} {ts : List Token}
    (hqualifier : isQualifier declarationQualifiers t = false)
    (hstruct : isKeyword "struct" t = true) :
    view localDeclaration (t :: ts) = view structDeclaration ts := by
  rw [view_localDeclaration, andThen, skips_of_not_isQualifier hqualifier, Except.bind, onNext_cons,
    if_pos hstruct]

theorem view_localDeclaration_name {t u : Token} {ts : List Token}
    (hqualifier : isQualifier declarationQualifiers t = false)
    (hstruct : isKeyword "struct" t = false) (htype : isTypeToken t = true)
    (hname : (u.kind == .ident) = true) :
    view localDeclaration (t :: u :: ts) = view declaratorTail ts := by
  have hidentifier : isName u = true := by
    unfold isName
    rw [hname, Bool.true_or]
  rw [view_localDeclaration, andThen, skips_of_not_isQualifier hqualifier, Except.bind, onNext_cons,
    if_neg (by simp [hstruct]), view_typeName, token_andThen, onNext_cons, if_pos htype,
    view_declarators, view_identifier, token_andThen, onNext_cons, if_pos hidentifier]

theorem startsDeclaration_cons (t : Token) (ts : List Token) :
    startsDeclaration (t :: ts) =
      (isQualifier declarationQualifiers t || isKeyword "struct" t ||
        isTypeToken t && (peek ts).kind == .ident) := by
  have hstruct : isKeyword "struct" t = (t.kind == .keyword && isKeyword "struct" t) := by
    unfold isKeyword
    rw [← Bool.and_assoc, Bool.and_self]
  unfold startsDeclaration isQualifier isTypeToken
  dsimp only
  rw [hstruct]
  generalize ((isTypeKeyword t || t.kind == .ident) && (peek ts).kind == .ident) = named
  cases t.kind == .keyword <;> cases declarationQualifiers.contains t.text <;>
    cases isKeyword "struct" t <;> rfl

theorem map_declaration {us : List Token} {other : Recognized us} {g : Production}
    (hother : other.map Subtype.val = g us) :
    Except.map Subtype.val (if startsDeclaration us then localDeclaration us else other) =
      declarationOr g us := by
  cases us with
  | nil => exact hother
  | cons t us =>
      change _ = if isQualifier declarationQualifiers t then view localDeclaration us else
        if isKeyword "struct" t then view structDeclaration us else
        if isTypeToken t && (peek us).kind == .ident then view declaratorTail us.tail
        else g (t :: us)
      rw [startsDeclaration_cons]
      cases hqualifier : isQualifier declarationQualifiers t with
      | true => exact view_localDeclaration_qualifier hqualifier
      | false =>
          cases hstruct : isKeyword "struct" t with
          | true => exact view_localDeclaration_struct hqualifier hstruct
          | false =>
              cases hname : isTypeToken t && (peek us).kind == .ident with
              | false => exact hother
              | true =>
                  rcases Bool.and_eq_true_iff.mp hname with ⟨htype, hident⟩
                  cases us with
                  | nil => cases hident
                  | cons u us => exact view_localDeclaration_name hqualifier hstruct htype hident

/-!
# Statements
-/

theorem view_expressionBefore (op : Text) : view (expressionBefore op) =
    andThen (view expression) (view (expectOp op)) := by
  funext ts
  change (expressionBefore op ts).map Subtype.val = _
  rw [expressionBefore]
  refine map_sequence fun _ _ => ?_
  exact map_last fun _ => rfl

theorem view_optionalBefore (op : Text) : view (optionalBefore op) =
    onNext (fun t => t.isOp op) (fun _ => done) (view (expressionBefore op)) := by
  funext ts
  change (optionalBefore op ts).map Subtype.val = _
  rw [optionalBefore]
  refine map_accept ?_ (fun _ => ?_) ?_
  · rfl
  · rfl
  · rfl

theorem view_condition : view condition =
    onNext (fun t => t.isOp "(") (fun _ => view (expressionBefore ")")) (fail (.op "(")) := by
  funext ts
  change (condition ts).map Subtype.val = _
  rw [condition, ← token_andThen, ← view_expectOp]
  refine map_sequence fun _ _ => ?_
  exact map_last fun _ => rfl

theorem view_loopStart : view loopStart =
    onNext (fun t => t.isOp ";") (fun _ => done)
      (declarationOr (view (expressionBefore ";"))) := by
  funext ts
  change (loopStart ts).map Subtype.val = _
  rw [loopStart]
  refine map_accept ?_ (fun _ => ?_) ?_
  · rfl
  · rfl
  · exact map_declaration rfl

theorem view_loopHead : view loopHead =
    onNext (fun t => t.isOp "(")
      (fun _ => andThen (view loopStart)
        (andThen (view (optionalBefore ";")) (view (optionalBefore ")"))))
      (fail (.op "(")) := by
  funext ts
  change (loopHead ts).map Subtype.val = _
  rw [loopHead, ← token_andThen, ← view_expectOp]
  refine map_sequence fun _ _ => ?_
  refine map_sequence fun _ _ => ?_
  refine map_sequence fun _ _ => ?_
  exact map_last fun _ => rfl

theorem view_guarded : view guarded = andThen (view condition) (view statement) := by
  funext ts
  change (guarded ts).map Subtype.val = _
  rw [guarded]
  refine map_sequence fun _ _ => ?_
  exact map_last fun _ => rfl

theorem view_statements : view statements =
    onNext (fun t => t.isOp Op.closeBrace) (fun _ => done)
      (unlessEnd (.op Op.closeBrace) (andThen (view statement) (view statements))) := by
  funext ts
  change (statements ts).map Subtype.val = _
  rw [statements]
  refine map_accept ?_ (fun _ => ?_) ?_
  · rfl
  · rfl
  · refine map_unlessEnd ?_
    refine map_sequence fun _ _ => ?_
    exact map_last fun _ => rfl

theorem view_statement : view statement =
    onNext (fun t => t.isOp Op.openBrace) (fun _ => view statements)
      (onNext (fun t => t.isOp ";") (fun _ => done)
      (onNext (isKeyword "if")
        (fun _ => andThen (view guarded)
          (onNext (isKeyword "else") (fun _ => view statement) done))
      (onNext (isKeyword "for") (fun _ => andThen (view loopHead) (view statement))
      (onNext (isKeyword "while") (fun _ => view guarded)
      (onNext (isKeyword "do")
        (fun _ => andThen (view statement)
          (andThen (view (expect .whileWord (isKeyword "while")))
            (andThen (view condition) (view (expectOp ";")))))
      (onNext (isKeyword "return") (fun _ => view (optionalBefore ";"))
      (onNext isJump (fun _ => view (expectOp ";"))
        (declarationOr (view (expressionBefore ";")))))))))) := by
  funext ts
  change (statement ts).map Subtype.val = _
  cases ts with
  | nil =>
      rw [statement]
      change _ = view (expressionBefore ";") []
      rw [view_expressionBefore, andThen, view_expression_nil]
      rfl
  | cons t rest =>
      rw [statement]
      refine map_ite (fun _ => ?_) fun _ => ?_
      · exact map_last fun _ => rfl
      refine map_ite (fun _ => ?_) fun _ => ?_
      · rfl
      refine map_ite (fun _ => ?_) fun _ => ?_
      · refine map_sequence fun _ _ => ?_
        refine map_choice ?_ (fun _ _ => ?_) ?_
        · rfl
        · exact map_last fun _ => rfl
        · rfl
      refine map_ite (fun _ => ?_) fun _ => ?_
      · refine map_sequence fun _ _ => ?_
        exact map_last fun _ => rfl
      refine map_ite (fun _ => ?_) fun _ => ?_
      · exact map_last fun _ => rfl
      refine map_ite (fun _ => ?_) fun _ => ?_
      · refine map_sequence fun _ _ => ?_
        refine map_sequence fun _ _ => ?_
        refine map_sequence fun _ _ => ?_
        exact map_last fun _ => rfl
      refine map_ite (fun _ => ?_) fun _ => ?_
      · exact map_last fun _ => rfl
      refine map_ite (fun _ => ?_) fun _ => ?_
      · exact map_last fun _ => rfl
      exact map_declaration rfl

/-!
# Global declarations
-/

theorem view_parameter : view parameter =
    andThen (skips parameterQualifiers) (andThen (view typeName)
      (onNext isName (fun _ => viewAny arrayLength) (viewAny arrayLength))) := by
  funext ts
  change (parameter ts).map Subtype.val = _
  rw [parameter, andThen_skips]
  rcases qualifiers parameterQualifiers ts with ⟨r, h⟩
  refine map_sequence fun us _ => ?_
  cases us with
  | nil => rfl
  | cons t us =>
      rw [accept?]
      change _ = if isName t then viewAny arrayLength us else viewAny arrayLength (t :: us)
      cases isName t with
      | true => exact map_lastAny fun _ => rfl
      | false => exact map_lastAny fun _ => rfl

theorem view_parameterList : view parameterList =
    andThen (view parameter)
      (onNext (fun t => t.isOp ",") (fun _ => view parameterList) (view (expectOp ")"))) := by
  funext ts
  change (parameterList ts).map Subtype.val = _
  rw [parameterList]
  refine map_sequence fun _ _ => ?_
  refine map_choice ?_ (fun _ _ => ?_) ?_
  · rfl
  · exact map_last fun _ => rfl
  · exact map_last fun _ => rfl

theorem view_parameters : view parameters =
    onNext (fun t => t.isOp ")") (fun _ => done)
      (onTwo (isKeyword "void") (fun t => t.isOp ")") done (view parameterList)) := by
  funext ts
  change (parameters ts).map Subtype.val = _
  rw [parameters]
  refine map_accept ?_ (fun _ => ?_) ?_
  · rfl
  · rfl
  · exact map_voidList rfl

theorem view_functionRest : view functionRest =
    andThen (view parameters)
      (onNext (fun t => t.isOp ";") (fun _ => done)
        (onNext (fun t => t.isOp Op.openBrace) (fun _ => view statements)
          (fail (.op Op.openBrace)))) := by
  funext ts
  change (functionRest ts).map Subtype.val = _
  rw [functionRest, ← token_andThen, ← view_expectOp]
  refine map_sequence fun _ _ => ?_
  refine map_accept ?_ (fun _ => ?_) ?_
  · rfl
  · rfl
  · refine map_sequence fun _ _ => ?_
    exact map_last fun _ => rfl

theorem view_precisionRest : view precisionRest =
    andThen (view (expect .precision fun t => Word.isPrecision t.text))
      (andThen (view typeName) (view (expectOp ";"))) := by
  funext ts
  change (precisionRest ts).map Subtype.val = _
  rw [precisionRest]
  refine map_sequence fun _ _ => ?_
  refine map_sequence fun _ _ => ?_
  exact map_last fun _ => rfl

theorem view_unqualified : view unqualified =
    andThen (view typeName) (andThen (view identifier)
      (onNext (fun t => t.isOp "(") (fun _ => view functionRest) (view declaratorTail))) := by
  funext ts
  change (unqualified ts).map Subtype.val = _
  rw [unqualified]
  refine map_sequence fun _ _ => ?_
  refine map_sequence fun _ _ => ?_
  refine map_branch ?_ (fun _ _ => ?_) ?_
  · rfl
  · exact map_last fun _ => rfl
  · exact map_last fun _ => rfl

theorem view_external : view external =
    onNext (isKeyword "precision") (fun _ => view precisionRest)
      (andThen (skips declarationQualifiers)
        (onNext (isKeyword "struct") (fun _ => view structDeclaration) (view unqualified))) := by
  funext ts
  change (external ts).map Subtype.val = _
  rw [external]
  refine map_branch ?_ (fun _ _ => ?_) ?_
  · rfl
  · exact map_last fun _ => rfl
  · rw [andThen_skips]
    rcases qualifiers declarationQualifiers ts with ⟨r, h⟩
    refine map_branch ?_ (fun _ _ => ?_) ?_
    · rfl
    · exact map_last fun _ => rfl
    · exact map_last fun _ => rfl

end Grammar

end EffectShader
