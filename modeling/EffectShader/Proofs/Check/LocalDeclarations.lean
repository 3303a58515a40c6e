import EffectShader.Proofs.Check.Sources

/-!
# Declarations inside functions

A declaration of variables is read by the same productions outside and inside a function,
and it ends at its semicolon whatever follows.  Inside a function two tokens decide
whether a statement is a declaration, and these two tell a type and a name only if the
name is no built-in one.  So this is the only difference between the two places.
-/

namespace EffectShader

namespace Grammar

open EffectShader.Stream (peek)

theorem andThen_eq_ok_iff {f g : Production} {ts s : List Token} :
    andThen f g ts = .ok s ↔ exists r, f ts = .ok r ∧ g r = .ok s := by
  unfold andThen
  cases f ts <;> simp [Except.bind]

theorem andThen_of_ok {f : Production} {ts r : List Token} (h : f ts = .ok r) (g : Production) :
    andThen f g ts = g r := by
  rw [andThen, h]
  rfl

theorem andThen_of_error {f : Production} {ts : List Token} {m : Mismatch} (h : f ts = .error m)
    (g : Production) : andThen f g ts = .error m := by
  rw [andThen, h]
  rfl

theorem onNext_of_false {p : Token -> Bool} {ts : List Token} (h : p (peek ts) = false)
    (f : Token -> Production) (g : Production) : onNext p f g ts = g ts :=
  if_neg (Bool.eq_false_iff.mp h)

/-!
# Productions that end in a semicolon
-/

def Finishes (f : Production) (ts r : List Token) : Prop :=
  exists w t, ts = w ++ t :: r ∧ t.isOp ";" = true ∧ (forall u, u ∈ w -> ¬ IsEnd u) ∧
    Bracket.scan? [] w = some [] ∧ forall us, f (w ++ t :: us) = .ok us

namespace Finishes

variable {f g : Production} {ts r s : List Token}

theorem semicolon {t : Token} (ht : t.isOp ";" = true) (hf : forall us, f (t :: us) = .ok us)
    (r : List Token) : Finishes f (t :: r) r :=
  ⟨[], t, rfl, ht, by simp, rfl, hf⟩

theorem of_peek (h : Finishes g ts r) (hfg : forall us, peek us = peek ts -> f us = g us) :
    Finishes f ts r := by
  rcases h with ⟨w, t, rfl, ht, hinside, hbrackets, hrun⟩
  refine ⟨w, t, rfl, ht, hinside, hbrackets, ?_⟩
  intro us
  rw [hfg _ (by cases w <;> rfl), hrun]

theorem cons {p : Token -> Bool} {t : Token} (hp : Reads p [] []) (ht : p t = true)
    (h : Finishes g ts r) (hfg : forall us, f (t :: us) = g us) : Finishes f (t :: ts) r := by
  rcases h with ⟨w, u, rfl, hu, hinside, hbrackets, hrun⟩
  refine ⟨t :: w, u, rfl, hu, Local.inside_cons (hp.inside t ht) hinside, ?_, ?_⟩
  · have hstep := hp.step t ht []
    rw [List.nil_append] at hstep
    rw [Bracket.scan?_cons, hstep, Option.bind_some, hbrackets]
  · intro us
    rw [List.cons_append, hfg, hrun]

theorem andThen (hlocal : Local f [] ts) (hf : f ts = .ok r) (hg : Finishes g r s) :
    Finishes (andThen f g) ts s := by
  cases hlocal with
  | @error v r' m hts hstops =>
      subst hts
      rw [hstops.run r' (Alike.refl r')] at hf
      cases hf
  | @ok v r' hts hconsumes =>
      subst hts
      have hr : r' = r := by
        rw [hconsumes.run r' (Fits.refl r')] at hf
        exact Except.ok.inj hf
      subst hr
      rcases hg with ⟨w, t, rfl, ht, hinside, hbrackets, hrun⟩
      refine ⟨v ++ w, t, by rw [List.append_assoc], ht, ?_, ?_, ?_⟩
      · exact fun u hu => (List.mem_append.mp hu).elim (hconsumes.inside u) (hinside u)
      · have hv := hconsumes.brackets []
        rw [List.nil_append] at hv
        rw [Bracket.scan?_append, hv, Option.bind_some, hbrackets]
      · intro us
        have hfits : Fits (w ++ t :: s) (w ++ t :: us) :=
          (show Fits (t :: s) (t :: us) from Or.inl rfl).append w
        rw [List.append_assoc, andThen_of_ok (hconsumes.run _ hfits), hrun]

end Finishes

theorem finishes_expectOp {ts r : List Token} (h : view (expectOp ";") ts = .ok r) :
    Finishes (view (expectOp ";")) ts r := by
  rw [view_expectOp] at h ⊢
  cases ts with
  | nil => cases h
  | cons t ts =>
      rw [token, onNext_cons] at h
      split at h
      · rename_i ht
        cases h
        exact Finishes.semicolon ht (fun _ => if_pos ht) _
      · cases h

theorem finishes_declaratorTail {ts r : List Token} (h : view declaratorTail ts = .ok r) :
    Finishes (view declaratorTail) ts r := by
  rw [view_declaratorTail] at h ⊢
  rcases andThen_eq_ok_iff.mp h with ⟨r1, h1, h⟩
  rcases andThen_eq_ok_iff.mp h with ⟨r2, h2, h⟩
  refine Finishes.andThen (local_arrayLength ts) h1 ?_
  refine Finishes.andThen (local_initializer r1) h2 ?_
  cases hcomma : (peek r2).isOp "," with
  | false =>
      have helse (us : List Token) (hus : peek us = peek r2) :
          onNext (fun t => t.isOp ",") (fun _ => andThen (view identifier) (view declaratorTail))
            (view (expectOp ";")) us = view (expectOp ";") us :=
        onNext_of_false (by rw [hus, hcomma]) _ _
      rw [helse r2 rfl] at h
      exact (finishes_expectOp h).of_peek helse
  | true =>
      cases r2 with
      | nil => cases hcomma
      | cons t r3 =>
          rw [onNext, if_pos hcomma] at h
          rcases andThen_eq_ok_iff.mp h with ⟨r4, h4, h⟩
          have hle := Nat.le_trans (length_of_viewAny h2) (length_of_viewAny h1)
          have hlt := Nat.lt_of_lt_of_le (Nat.lt_succ_of_lt (length_of_view h4)) hle
          refine Finishes.cons (Reads.op (s := ",") (by decide) []) hcomma
            (Finishes.andThen (local_identifier r3) h4 (finishes_declaratorTail h)) ?_
          exact fun us => if_pos hcomma
  termination_by ts.length

theorem finishes_declarators {ts r : List Token} (h : view declarators ts = .ok r) :
    Finishes (view declarators) ts r := by
  rw [view_declarators] at h ⊢
  rcases andThen_eq_ok_iff.mp h with ⟨r1, h1, h⟩
  exact Finishes.andThen (local_identifier ts) h1 (finishes_declaratorTail h)

theorem finishes_structDeclaration {ts r : List Token} (h : view structDeclaration ts = .ok r) :
    Finishes (view structDeclaration) ts r := by
  rw [view_structDeclaration] at h ⊢
  rcases andThen_eq_ok_iff.mp h with ⟨r1, h1, h⟩
  refine Finishes.andThen (local_structBody ts) h1 ?_
  cases hend : (peek r1).isOp ";" with
  | false =>
      have helse (us : List Token) (hus : peek us = peek r1) :
          onNext (fun t => t.isOp ";") (fun _ => done) (view declarators) us =
            view declarators us :=
        onNext_of_false (by rw [hus, hend]) _ _
      rw [helse r1 rfl] at h
      exact (finishes_declarators h).of_peek helse
  | true =>
      cases r1 with
      | nil => cases hend
      | cons t r1 =>
          rw [onNext, if_pos hend] at h
          cases h
          exact Finishes.semicolon hend (fun us => if_pos hend) _

theorem finishes_localDeclaration {ts r : List Token} (h : view localDeclaration ts = .ok r) :
    Finishes (view localDeclaration) ts r := by
  rw [view_localDeclaration] at h ⊢
  rcases andThen_eq_ok_iff.mp h with ⟨r1, h1, h⟩
  refine Finishes.andThen (local_skips declarationQualifiers ts) h1 ?_
  cases hstruct : isKeyword "struct" (peek r1) with
  | false =>
      have helse (us : List Token) (hus : peek us = peek r1) :
          onNext (isKeyword "struct") (fun _ => view structDeclaration)
            (andThen (view typeName) (view declarators)) us =
              andThen (view typeName) (view declarators) us :=
        onNext_of_false (by rw [hus, hstruct]) _ _
      rw [helse r1 rfl] at h
      rcases andThen_eq_ok_iff.mp h with ⟨r2, h2, h⟩
      exact (Finishes.andThen (local_typeName r1) h2 (finishes_declarators h)).of_peek helse
  | true =>
      cases r1 with
      | nil => cases hstruct
      | cons t r1 =>
          rw [onNext, if_pos hstruct] at h
          exact Finishes.cons (reads_keyword "struct" []) hstruct (finishes_structDeclaration h)
            fun us => if_pos hstruct

/-!
# How declarations start
-/

def startsVariables (t : Token) : Bool :=
  isQualifier declarationQualifiers t || isKeyword "struct" t || isTypeToken t

def otherStarts : List Text :=
  ["precision", "if", "for", "while", "do", "return", "break", "continue", "discard"]

theorem kind_of_startsVariables {t : Token} (h : startsVariables t = true) :
    t.kind = .keyword ∨ t.kind = .ident := by
  unfold startsVariables isQualifier isKeyword isTypeToken isTypeKeyword at h
  simp only [Bool.or_eq_true, Bool.and_eq_true, beq_iff_eq] at h
  rcases h with (⟨hkind, _⟩ | ⟨hkind, _⟩) | ⟨hkind, _⟩ | hkind
  all_goals simp [hkind]

theorem isOp_eq_false_of_kind {t : Token} (h : t.kind ≠ .operator) (op : Text) :
    t.isOp op = false := by
  unfold Token.isOp
  rw [beq_false_of_ne h, Bool.false_and]

theorem isOp_of_startsVariables {t : Token} (h : startsVariables t = true) (op : Text) :
    t.isOp op = false := by
  apply isOp_eq_false_of_kind
  rcases kind_of_startsVariables h with hkind | hkind <;> rw [hkind] <;> decide

theorem lookup?_isSome_eq_false {word : Text} (hword : word ∈ otherStarts ++
    (("struct" : Text) :: declarationQualifiers ++ (["true", "false"] : List Text))) :
    word ≠ "void" ∧ (GlslType.lookup? word).isSome = false := by
  revert word
  decide +kernel

theorem isKeyword_of_startsVariables {t : Token} (h : startsVariables t = true) {word : Text}
    (hword : word ∈ otherStarts) : isKeyword word t = false := by
  have hlookup := lookup?_isSome_eq_false (List.mem_append_left _ hword)
  have hfree : declarationQualifiers.contains word = false ∧ word ≠ "struct" := by
    revert word
    decide +kernel
  rw [Bool.eq_false_iff]
  intro hkeyword
  unfold isKeyword at hkeyword
  rw [Bool.and_eq_true, beq_iff_eq, beq_iff_eq] at hkeyword
  unfold startsVariables isQualifier isKeyword isTypeToken isTypeKeyword at h
  rw [hkeyword.1, hkeyword.2, hfree.1, hlookup.2, beq_false_of_ne hfree.2,
    beq_false_of_ne hlookup.1] at h
  cases h

theorem isJump_of_startsVariables {t : Token} (h : startsVariables t = true) :
    isJump t = false := by
  unfold isJump
  rw [isKeyword_of_startsVariables h (by decide), isKeyword_of_startsVariables h (by decide),
    isKeyword_of_startsVariables h (by decide)]
  rfl

theorem atEnd_of_startsVariables {t : Token} (h : startsVariables t = true) (ts : List Token) :
    Stream.atEnd (t :: ts) = false := by
  change (t.kind == .eof) = false
  rcases kind_of_startsVariables h with hkind | hkind <;> rw [hkind] <;> rfl

theorem statement_of_startsVariables {t : Token} (h : startsVariables t = true) (ts : List Token) :
    view statement (t :: ts) =
      if startsDeclaration (t :: ts) then view localDeclaration (t :: ts)
      else view (expressionBefore ";") (t :: ts) := by
  have hdeclaration : declarationOr (view (expressionBefore ";")) (t :: ts) =
      if startsDeclaration (t :: ts) then view localDeclaration (t :: ts)
      else view (expressionBefore ";") (t :: ts) := by
    have hother : (expressionBefore ";" (t :: ts)).map Subtype.val =
        view (expressionBefore ";") (t :: ts) := rfl
    rw [← map_declaration hother]
    split <;> rfl
  have hword (word : Text) (hword : word ∈ otherStarts) : isKeyword word t = false :=
    isKeyword_of_startsVariables h hword
  rw [← hdeclaration, view_statement]
  simp only [onNext_cons, isOp_of_startsVariables h, isJump_of_startsVariables h,
    hword "if" (by decide), hword "for" (by decide), hword "while" (by decide),
    hword "do" (by decide), hword "return" (by decide), Bool.false_eq_true, if_false]

theorem skips_append {allowed : List Text} {qs : List Token}
    (h : forall q, q ∈ qs -> isQualifier allowed q = true) (ts : List Token) :
    skips allowed (qs ++ ts) = skips allowed ts := by
  induction qs with
  | nil => rfl
  | cons q qs ih =>
      rw [List.cons_append, skips_of_isQualifier (h q List.mem_cons_self),
        ih fun u hu => h u (List.mem_cons_of_mem q hu)]

theorem isQualifier_of_isTypeToken {t : Token} (h : isTypeToken t = true) :
    isQualifier declarationQualifiers t = false ∧ isKeyword "struct" t = false := by
  have hnot (word : Text) (hword : word ∈ ("struct" : Text) :: declarationQualifiers) :
      ¬ (t.kind = .keyword ∧ t.text = word) := by
    rintro ⟨hkind, htext⟩
    have hlookup := lookup?_isSome_eq_false
      (List.mem_append_right otherStarts (List.mem_append_left _ hword))
    unfold isTypeToken isTypeKeyword at h
    rw [hkind, htext, beq_false_of_ne hlookup.1, hlookup.2] at h
    cases h
  constructor
  · rw [Bool.eq_false_iff]
    intro hqualifier
    unfold isQualifier at hqualifier
    rw [Bool.and_eq_true, beq_iff_eq, List.contains_iff_mem] at hqualifier
    exact hnot t.text (List.mem_cons_of_mem _ hqualifier.2) ⟨hqualifier.1, rfl⟩
  · rw [Bool.eq_false_iff]
    intro hstruct
    unfold isKeyword at hstruct
    rw [Bool.and_eq_true, beq_iff_eq, beq_iff_eq] at hstruct
    exact hnot "struct" List.mem_cons_self hstruct

/-!
# One declaration
-/

/-- The tokens have the shape of one declaration of variables: qualifiers, then a structure or a
type that no name and parameters of a function follow, and one semicolon outside brackets. -/
structure IsDeclaration (ds : List Token) : Prop where
  starts : exists qs t rest, ds = qs ++ t :: rest ∧
    (forall q, q ∈ qs -> isQualifier declarationQualifiers q = true) ∧
    (isKeyword "struct" t = true ∨ isTypeToken t = true ∧ nextIsOp "(" rest.tail = false)
  single : forall u t v, ds = u ++ t :: v -> t.isOp ";" = true -> Bracket.Balanced u -> v = []

/-- A type and a built-in name stand first. -/
def namesBuiltin (ds : List Token) : Bool :=
  isTypeToken (peek ds) && (peek ds.tail).kind == .builtin

theorem IsDeclaration.exists_cons {ds : List Token} (h : IsDeclaration ds) :
    exists t rest, ds = t :: rest ∧ startsVariables t = true := by
  rcases h.starts with ⟨qs, t, rest, rfl, hqs, ht⟩
  cases qs with
  | nil =>
      refine ⟨t, rest, rfl, ?_⟩
      unfold startsVariables
      rcases ht with ht | ⟨ht, _⟩ <;> simp [ht]
  | cons q qs =>
      refine ⟨q, qs ++ t :: rest, rfl, ?_⟩
      unfold startsVariables
      simp [hqs q List.mem_cons_self]

theorem nextIsOp_tail_append {op : Text} {ts us : List Token}
    (hts : nextIsOp op ts.tail = false) (hus : nextIsOp op us = false)
    (htail : nextIsOp op us.tail = false) : nextIsOp op (ts ++ us).tail = false := by
  match ts with
  | [] => exact htail
  | [t] => exact hus
  | t :: u :: ts => exact hts

theorem unqualified_eq {ts : List Token} (h : nextIsOp "(" ts.tail.tail = false) :
    view unqualified ts = andThen (view typeName) (view declarators) ts := by
  rw [view_unqualified, view_declarators, view_typeName, view_identifier, token_andThen,
    token_andThen, token_andThen, token_andThen]
  cases ts with
  | nil => rfl
  | cons t ts =>
      rw [onNext_cons, onNext_cons]
      split
      · cases ts with
        | nil => rfl
        | cons u ts =>
            rw [onNext_cons, onNext_cons]
            split
            · exact if_neg (Bool.eq_false_iff.mp h)
            · rfl
      · rfl

theorem IsDeclaration.external_eq {ds : List Token} (h : IsDeclaration ds) {us : List Token}
    (hus : nextIsOp "(" us = false) (htail : nextIsOp "(" us.tail = false) :
    view external (ds ++ us) = view localDeclaration (ds ++ us) := by
  rcases h.exists_cons with ⟨d, ds', hd, hstart⟩
  rcases h.starts with ⟨qs, t, rest, hds, hqs, ht⟩
  have hexternal : view external (ds ++ us) =
      andThen (skips declarationQualifiers)
        (onNext (isKeyword "struct") (fun _ => view structDeclaration) (view unqualified))
        (ds ++ us) := by
    rw [view_external, hd, List.cons_append, onNext_cons,
      isKeyword_of_startsVariables hstart (by decide), if_neg Bool.false_ne_true]
  have hplain : isQualifier declarationQualifiers t = false := by
    rcases ht with ht | ⟨ht, _⟩
    · unfold isKeyword at ht
      rw [Bool.and_eq_true, beq_iff_eq, beq_iff_eq] at ht
      unfold isQualifier
      rw [ht.2]
      exact Bool.and_false _
    · exact (isQualifier_of_isTypeToken ht).1
  have hskips : skips declarationQualifiers (ds ++ us) = .ok (t :: (rest ++ us)) := by
    rw [hds, List.append_assoc, List.cons_append, skips_append hqs,
      skips_of_not_isQualifier hplain]
  rw [hexternal, view_localDeclaration, andThen_of_ok hskips, andThen_of_ok hskips, onNext_cons,
    onNext_cons]
  cases hstruct : isKeyword "struct" t with
  | true => rfl
  | false =>
      rcases ht with ht | ⟨_, hround⟩
      · rw [ht] at hstruct
        cases hstruct
      · exact unqualified_eq (nextIsOp_tail_append hround hus htail)

/-!
# Declarations at the top level
-/

theorem IsDeclaration.local_of_global {ds : List Token} (h : IsDeclaration ds) {e : Token}
    (he : IsEnd e) (hok : globalDeclarations (ds ++ [e]) = .ok ()) (us : List Token) :
    view localDeclaration (ds ++ us) = .ok us := by
  rcases h.exists_cons with ⟨d, ds', hd, hstart⟩
  have hend : forall op : Text, e.isOp op = false :=
    isOp_eq_false_of_kind (by rw [he.1]; decide)
  have hexternal : view external (ds ++ [e]) = view localDeclaration (ds ++ [e]) :=
    h.external_eq (hend _) rfl
  have hpart : globalPart (ds ++ [e]) = view localDeclaration (ds ++ [e]) := by
    rw [← hexternal, globalPart, hd, List.cons_append, onNext_cons, isOp_of_startsVariables hstart,
      if_neg Bool.false_ne_true]
  rw [globalDeclarations_eq, hpart, hd, List.cons_append, atEnd_of_startsVariables hstart,
    if_neg Bool.false_ne_true, ← List.cons_append, ← hd] at hok
  cases hrun : view localDeclaration (ds ++ [e]) with
  | error m =>
      rw [hrun] at hok
      cases hok
  | ok r =>
      rcases finishes_localDeclaration hrun with ⟨w, t, hsplit, ht, hinside, hbrackets, hany⟩
      have hwt : forall u, u ∈ w ++ [t] -> ¬ IsEnd u := by
        intro u hu
        rcases List.mem_append.mp hu with hu | hu
        · exact hinside u hu
        · rw [List.mem_singleton.mp hu]
          exact Reads.not_isEnd_of_isOp ht
      rw [List.append_cons w t r] at hsplit
      rcases exists_rest hsplit he hwt with ⟨v, _, hds⟩
      rw [← List.append_cons] at hds
      have hv := h.single w t v hds ht (Bracket.balanced_of_scan? hbrackets)
      rw [hds, hv, ← hany us, List.append_assoc]
      rfl

/-!
# Built-in names
-/

theorem expression_of_ident {t u : Token} {ts : List Token} (ht : t.kind = .ident)
    (hu : u.kind ≠ .operator) : view expression (t :: u :: ts) = .ok (u :: ts) := by
  have hop : forall op, u.isOp op = false := isOp_eq_false_of_kind hu
  have hprefix : isPrefixOp t = false := by
    unfold isPrefixOp Token.isOp
    rw [ht]
    rfl
  have hkeyword : isTypeKeyword t = false := by
    unfold isTypeKeyword
    rw [ht]
    rfl
  have hatom : isAtom t = true := by
    unfold isAtom isName
    rw [ht]
    rfl
  have htail : viewAny postfixTail (u :: ts) = .ok (u :: ts) := by
    rw [viewAny_postfixTail]
    simp only [onNext_cons, hop, Bool.or_self, Bool.false_eq_true, if_false]
    rfl
  have hpostfixed : view postfixed (t :: u :: ts) = .ok (u :: ts) := by
    have hoperand : operand (t :: u :: ts) = .ok (u :: ts) := by
      rw [operand, onNext_cons, if_pos hatom]
      rfl
    rw [view_postfixed]
    unfold onTwo
    change (if isTypeKeyword t && _ then _ else andThen operand _ _) = _
    rw [hkeyword, Bool.false_and, if_neg Bool.false_ne_true, andThen_of_ok hoperand, htail]
  have hunary : view unary (t :: u :: ts) = .ok (u :: ts) := by
    rw [view_unary, onNext_cons, hprefix, if_neg Bool.false_ne_true, hpostfixed]
  have hbinary : view (binary 1) (t :: u :: ts) = .ok (u :: ts) := by
    have hclimbs : climbs 1 u = false := by
      unfold climbs precedence?
      rw [beq_false_of_ne hu]
      rfl
    rw [view_binary, andThen_of_ok hunary, viewAny_binaryTail, onNext_of_false hclimbs]
    rfl
  have hconditional : view conditional (t :: u :: ts) = .ok (u :: ts) := by
    rw [view_conditional, andThen_of_ok hbinary, onNext_of_false (hop _)]
    rfl
  have hassignment : view assignment (t :: u :: ts) = .ok (u :: ts) := by
    have hequals : isAssignmentOp u = false := by
      unfold isAssignmentOp
      rw [beq_false_of_ne hu]
      rfl
    rw [view_assignment, andThen_of_ok hconditional, onNext_of_false hequals]
    rfl
  rw [view_expression, andThen_of_ok hassignment, onNext_of_false (hop _)]
  rfl

theorem expression_of_typeKeyword {t u : Token} {ts : List Token} (ht : isTypeKeyword t = true)
    (hu : u.isOp "(" = false) :
    view expression (t :: u :: ts) = .error ⟨.expression, t⟩ := by
  have hkind : t.kind = .keyword ∧ t.text ≠ "true" ∧ t.text ≠ "false" := by
    unfold isTypeKeyword at ht
    rw [Bool.and_eq_true, beq_iff_eq] at ht
    refine ⟨ht.1, ?_, ?_⟩
    all_goals
      intro htext
      rw [htext, (lookup?_isSome_eq_false (List.mem_append_right otherStarts
        (List.mem_append_right _ (by simp)))).2] at ht
      cases ht.2
  have hop : forall op, t.isOp op = false :=
    isOp_eq_false_of_kind (by rw [hkind.1]; decide)
  have hprefix : isPrefixOp t = false := by
    unfold isPrefixOp Token.isOp
    rw [hkind.1]
    rfl
  have hatom : isAtom t = false := by
    unfold isAtom isName isKeyword
    rw [hkind.1, beq_false_of_ne hkind.2.1, beq_false_of_ne hkind.2.2]
    rfl
  have hoperand : operand (t :: u :: ts) = .error ⟨.expression, t⟩ := by
    rw [operand, onNext_of_false hatom, onNext_of_false (hop _)]
    rfl
  have hunary : view unary (t :: u :: ts) = .error ⟨.expression, t⟩ := by
    rw [view_unary, onNext_of_false hprefix, view_postfixed]
    unfold onTwo
    change (if _ && u.isOp "(" then _ else andThen operand _ _) = _
    rw [hu, Bool.and_false, if_neg Bool.false_ne_true, andThen_of_error hoperand]
  rw [view_expression, view_assignment, view_conditional, view_binary]
  exact andThen_of_error (andThen_of_error (andThen_of_error (andThen_of_error hunary _) _) _) _

theorem expressionBefore_of_namesBuiltin {t u : Token} {ts : List Token}
    (ht : isTypeToken t = true) (hu : u.kind = .builtin) :
    exists m, view (expressionBefore ";") (t :: u :: ts) = .error m := by
  have hoperator : u.kind ≠ .operator := by
    rw [hu]
    decide
  rw [view_expressionBefore]
  cases hkeyword : isTypeKeyword t with
  | true =>
      exact ⟨_, andThen_of_error
        (expression_of_typeKeyword hkeyword (isOp_eq_false_of_kind hoperator _)) _⟩
  | false =>
      have hident : t.kind = .ident := by
        unfold isTypeToken at ht
        rw [hkeyword, Bool.false_or] at ht
        exact eq_of_beq ht
      rw [andThen_of_ok (expression_of_ident hident hoperator), view_expectOp, token,
        onNext_of_false (isOp_eq_false_of_kind hoperator _)]
      exact ⟨_, rfl⟩

theorem exists_name_of_localDeclaration {t : Token} {ts r : List Token}
    (ht : isTypeToken t = true) (h : view localDeclaration (t :: ts) = .ok r) :
    exists u us, ts = u :: us ∧ isName u = true := by
  rcases isQualifier_of_isTypeToken ht with ⟨hqualifier, hstruct⟩
  rw [view_localDeclaration, andThen_of_ok (skips_of_not_isQualifier hqualifier),
    onNext_of_false hstruct, view_typeName, token_andThen, onNext_cons, if_pos ht,
    view_declarators, view_identifier, token_andThen] at h
  cases ts with
  | nil => cases h
  | cons u us =>
      rw [onNext_cons] at h
      split at h
      · rename_i hname
        exact ⟨u, us, rfl, hname⟩
      · cases h

section Accepted

variable {ds : List Token} (h : IsDeclaration ds) {e : Token} (he : IsEnd e)
  (hok : globalDeclarations (ds ++ [e]) = .ok ())

include h he hok

/-- A declaration that is accepted at the top level is a statement too, unless it names something
built in first. -/
theorem IsDeclaration.statement_of_global (hnames : namesBuiltin ds = false) (us : List Token) :
    view statement (ds ++ us) = .ok us := by
  rcases h.exists_cons with ⟨t, rest, hd, hstart⟩
  have hstarts : startsDeclaration (ds ++ us) = true := by
    rw [hd, List.cons_append, startsDeclaration_cons]
    cases htype : isTypeToken t with
    | false =>
        unfold startsVariables at hstart
        rw [htype, Bool.or_false] at hstart
        rw [hstart, Bool.true_or]
    | true =>
        have hlocal := h.local_of_global he hok []
        rw [List.append_nil, hd] at hlocal
        rcases exists_name_of_localDeclaration htype hlocal with ⟨u, vs, rfl, hname⟩
        have hbuiltin : (u.kind == .builtin) = false := by
          rw [hd] at hnames
          change (isTypeToken t && u.kind == .builtin) = false at hnames
          rwa [htype, Bool.true_and] at hnames
        unfold isName at hname
        rw [hbuiltin, Bool.or_false] at hname
        rw [List.cons_append, peek, hname, Bool.true_and, Bool.or_true]
  have hstatement := statement_of_startsVariables hstart (rest ++ us)
  rw [← List.cons_append, ← hd, if_pos hstarts] at hstatement
  rw [hstatement, h.local_of_global he hok]

omit he hok in
theorem IsDeclaration.statement_of_namesBuiltin (hnames : namesBuiltin ds = true)
    (us : List Token) : exists m, view statement (ds ++ us) = .error m := by
  rcases h.exists_cons with ⟨t, rest, hd, hstart⟩
  rw [hd] at hnames
  rcases Bool.and_eq_true_iff.mp hnames with ⟨htype, hbuiltin⟩
  cases rest with
  | nil => cases hbuiltin
  | cons u rest =>
      have hkind : u.kind = .builtin := eq_of_beq hbuiltin
      rcases isQualifier_of_isTypeToken (t := t) htype with ⟨hqualifier, hstruct⟩
      have hstarts : startsDeclaration (t :: u :: (rest ++ us)) = false := by
        rw [startsDeclaration_cons, hqualifier, hstruct, peek, hkind]
        exact Bool.and_false _
      rw [hd, List.cons_append, List.cons_append, statement_of_startsVariables hstart, hstarts,
        if_neg Bool.false_ne_true]
      exact expressionBefore_of_namesBuiltin htype hkind

end Accepted

/-!
# The body of a function
-/

/-- The tokens that the check looks at, without their places. -/
def spelling (ts : List Token) : List Lexer.Piece :=
  (syntaxTokens ts).map fun t => ⟨t.kind, t.text⟩

/-- The tokens start the function `f` without parameters. -/
def OpensFunction (ts : List Token) : Prop :=
  spelling ts = [⟨.keyword, "void"⟩, ⟨.ident, "f"⟩, ⟨.operator, "("⟩, ⟨.operator, ")"⟩,
    ⟨.operator, Op.openBrace⟩]

def ClosesFunction (ts : List Token) : Prop :=
  spelling ts = [⟨.operator, Op.closeBrace⟩]

theorem globalDeclarations_function {opening : List Token} (h : OpensFunction opening)
    (ts : List Token) :
    globalDeclarations (syntaxTokens opening ++ ts) =
      (view statements ts).bind globalDeclarations := by
  unfold OpensFunction spelling at h
  simp only [List.map_eq_cons_iff, List.map_eq_nil_iff, Lexer.Piece.mk.injEq] at h
  rcases h with ⟨⟨_, _, p⟩, _, hopening, ⟨rfl, rfl⟩, ⟨_, _, p1⟩, _, rfl, ⟨rfl, rfl⟩,
    ⟨_, _, p2⟩, _, rfl, ⟨rfl, rfl⟩, ⟨_, _, p3⟩, _, rfl, ⟨rfl, rfl⟩, ⟨_, _, p4⟩, _, rfl,
    ⟨rfl, rfl⟩, rfl⟩
  have hparameters (us : List Token) :
      view parameters (⟨.operator, ")", p3⟩ :: us) = .ok us := rfl
  have hrest (us : List Token) :
      view functionRest (⟨.operator, ")", p3⟩ :: ⟨.operator, Op.openBrace, p4⟩ :: us) =
        view statements us := by
    rw [view_functionRest, andThen_of_ok (hparameters _)]
    rfl
  have hpart : globalPart (syntaxTokens opening ++ ts) = view statements ts := by
    rw [hopening]
    change view external _ = _
    rw [view_external]
    change view unqualified _ = _
    rw [view_unqualified]
    exact hrest ts
  rw [globalDeclarations_eq, hpart, hopening]
  rfl

theorem statements_closed {closing : List Token} (h : ClosesFunction closing) (ts : List Token) :
    view statements (syntaxTokens closing ++ ts) = .ok ts := by
  unfold ClosesFunction spelling at h
  simp only [List.map_eq_cons_iff, List.map_eq_nil_iff, Lexer.Piece.mk.injEq] at h
  rcases h with ⟨⟨_, _, p⟩, _, hclosing, ⟨rfl, rfl⟩, rfl⟩
  rw [hclosing, view_statements]
  rfl

theorem IsDeclaration.checkGrammar_inside {opening ds : List Token}
    (hds : IsDeclaration (syntaxTokens ds)) (hopening : OpensFunction opening) (us : List Token) :
    checkGrammar (opening ++ ds ++ us) =
      ((view statement (syntaxTokens ds ++ syntaxTokens us)).bind (view statements)).bind
        globalDeclarations := by
  rcases hds.exists_cons with ⟨t, rest, hd, hstart⟩
  have hstatements (us : List Token) : view statements (syntaxTokens ds ++ us) =
      (view statement (syntaxTokens ds ++ us)).bind (view statements) := by
    rw [view_statements, hd, List.cons_append, onNext_of_false (isOp_of_startsVariables hstart _),
      unlessEnd, atEnd_of_startsVariables hstart, if_neg Bool.false_ne_true, ← view_statements]
    rfl
  rw [← hstatements, ← globalDeclarations_function hopening, List.append_assoc,
    Grammar.checkGrammar_append, syntaxTokens_append]

end Grammar

open Grammar

/-- A declaration of variables that is accepted at the top level is accepted inside a function
exactly when it does not start with a type and a built-in name. -/
theorem localDeclaration_accepted_iff {opening closing ds : List Token} {p q : Position}
    (hopening : OpensFunction opening) (hclosing : ClosesFunction closing)
    (hds : IsDeclaration (syntaxTokens ds))
    (hok : checkGrammar (ds ++ [Token.endAt p]) = .ok ()) :
    checkGrammar (opening ++ ds ++ (closing ++ [Token.endAt q])) = .ok () ↔
      namesBuiltin (syntaxTokens ds) = false := by
  have hglobal : globalDeclarations (syntaxTokens ds ++ [Token.endAt p]) = .ok () := by
    rw [← hok, Grammar.checkGrammar_append]
    rfl
  rw [hds.checkGrammar_inside hopening, syntaxTokens_append]
  cases hnames : namesBuiltin (syntaxTokens ds) with
  | false =>
      rw [hds.statement_of_global ⟨rfl, rfl⟩ hglobal hnames, Except.bind,
        statements_closed hclosing, Except.bind, globalDeclarations_eq]
      exact iff_of_true rfl rfl
  | true =>
      rcases hds.statement_of_namesBuiltin hnames
        (syntaxTokens closing ++ syntaxTokens [Token.endAt q]) with ⟨m, hm⟩
      rw [hm]
      exact iff_of_false (by rintro ⟨⟩) (by decide)

/-!
# Two declarations
-/

namespace Grammar

theorem single_of_dropLast {ds : List Token}
    (h : forall t, t ∈ ds.dropLast -> t.isOp ";" = false) {u v : List Token} {t : Token}
    (hds : ds = u ++ t :: v) (ht : t.isOp ";" = true) : v = [] := by
  cases v with
  | nil => rfl
  | cons x v =>
      have hmem : t ∈ ds.dropLast := by
        rw [hds, List.dropLast_append_of_ne_nil (by simp), List.dropLast_cons_cons]
        simp
      rw [h t hmem] at ht
      cases ht

def functionHead : List Token :=
  [⟨.keyword, "void", ⟨1, 1, 0⟩⟩, ⟨.whitespace, " ", ⟨1, 5, 4⟩⟩, ⟨.ident, "f", ⟨1, 6, 5⟩⟩,
   ⟨.operator, "(", ⟨1, 7, 6⟩⟩, ⟨.operator, ")", ⟨1, 8, 7⟩⟩, ⟨.whitespace, " ", ⟨1, 9, 8⟩⟩,
   ⟨.operator, Op.openBrace, ⟨1, 10, 9⟩⟩]

def functionEnd : List Token :=
  [⟨.operator, Op.closeBrace, ⟨2, 1, 12⟩⟩]

theorem opensFunction_functionHead : OpensFunction functionHead := rfl

theorem closesFunction_functionEnd : ClosesFunction functionEnd := rfl

def qualifiedDistance : List Token :=
  [⟨.keyword, "const", ⟨1, 1, 0⟩⟩, ⟨.whitespace, " ", ⟨1, 6, 5⟩⟩,
   ⟨.keyword, "float", ⟨1, 7, 6⟩⟩, ⟨.whitespace, " ", ⟨1, 12, 11⟩⟩,
   ⟨.builtin, "distance", ⟨1, 13, 12⟩⟩, ⟨.operator, ",", ⟨1, 21, 20⟩⟩,
   ⟨.whitespace, " ", ⟨1, 22, 21⟩⟩, ⟨.ident, "x", ⟨1, 23, 22⟩⟩, ⟨.operator, ";", ⟨1, 24, 23⟩⟩]

theorem isDeclaration_qualifiedDistance : IsDeclaration (syntaxTokens qualifiedDistance) := by
  constructor
  · exact ⟨[⟨.keyword, "const", ⟨1, 1, 0⟩⟩], _, _, rfl, by decide, Or.inr ⟨rfl, rfl⟩⟩
  · intro u t v hds ht _
    exact single_of_dropLast (by decide) hds ht

def plainDistance : List Token :=
  [⟨.keyword, "float", ⟨1, 1, 0⟩⟩, ⟨.whitespace, " ", ⟨1, 6, 5⟩⟩,
   ⟨.builtin, "distance", ⟨1, 7, 6⟩⟩, ⟨.operator, ";", ⟨1, 15, 14⟩⟩]

theorem isDeclaration_plainDistance : IsDeclaration (syntaxTokens plainDistance) := by
  constructor
  · exact ⟨[], _, _, rfl, by simp, Or.inr ⟨rfl, rfl⟩⟩
  · intro u t v hds ht _
    exact single_of_dropLast (by decide) hds ht

theorem checkGrammar_distances :
    (checkGrammar (qualifiedDistance ++ [Token.endAt ⟨1, 25, 24⟩]) = .ok () ∧
      namesBuiltin (syntaxTokens qualifiedDistance) = false) ∧
      tokenize "float distance;" = .ok (plainDistance ++ [Token.endAt ⟨1, 16, 15⟩]) ∧
      checkGrammar (plainDistance ++ [Token.endAt ⟨1, 16, 15⟩]) = .ok () := by
  simp only [← toOption_eq_some_iff]
  decide +kernel

end Grammar

/-- Behind a qualifier the name may be that of a built-in function. -/
theorem localDeclaration_accepted_iff_qualified :
    OpensFunction functionHead ∧ ClosesFunction functionEnd ∧
      IsDeclaration (syntaxTokens qualifiedDistance) ∧
      checkGrammar (qualifiedDistance ++ [Token.endAt ⟨1, 25, 24⟩]) = .ok () ∧
      checkGrammar (functionHead ++ qualifiedDistance ++
        (functionEnd ++ [Token.endAt ⟨2, 2, 13⟩])) = .ok () := by
  rcases checkGrammar_distances with ⟨⟨hqualified, hname⟩, _⟩
  refine ⟨opensFunction_functionHead, closesFunction_functionEnd, isDeclaration_qualifiedDistance,
    hqualified, ?_⟩
  exact (localDeclaration_accepted_iff opensFunction_functionHead closesFunction_functionEnd
    isDeclaration_qualifiedDistance hqualified).mpr hname

/-- A variable with the name of a built-in function is accepted at the top level only. -/
theorem builtin_name_not_local :
    tokenize "float distance;" = .ok (plainDistance ++ [Token.endAt ⟨1, 16, 15⟩]) ∧
      OpensFunction functionHead ∧ ClosesFunction functionEnd ∧
      IsDeclaration (syntaxTokens plainDistance) ∧
      checkGrammar (plainDistance ++ [Token.endAt ⟨1, 16, 15⟩]) = .ok () ∧
      checkGrammar (functionHead ++ plainDistance ++
        (functionEnd ++ [Token.endAt ⟨2, 2, 13⟩])) ≠ .ok () := by
  rcases checkGrammar_distances with ⟨_, htokens, hplain⟩
  refine ⟨htokens, opensFunction_functionHead, closesFunction_functionEnd,
    isDeclaration_plainDistance, hplain, ?_⟩
  rcases isDeclaration_plainDistance.statement_of_namesBuiltin rfl
    (syntaxTokens (functionEnd ++ [Token.endAt ⟨2, 2, 13⟩])) with ⟨m, hm⟩
  rw [isDeclaration_plainDistance.checkGrammar_inside opensFunction_functionHead, hm]
  rintro ⟨⟩

end EffectShader
