import EffectShader.Check.Grammar.Expression
import EffectShader.Proofs.Check.Runs

/-!
# Runs of expressions

The productions of expressions, without the bounds on what they leave, are put together
from the ways of reading.  Each of them is local: by induction on the tokens that are left,
since every production starts with a token or with one that stands before it in its level.
-/

namespace EffectShader

namespace Grammar

open EffectShader.Stream (peek)

/-!
# Productions without bounds
-/

section Erase

variable {Q : List Token -> Prop} {us : List Token} {f g : Production}

theorem map_sequence {x : Recognized us}
    {k : (r : List Token) -> r.length < us.length -> Except Mismatch (Subtype Q)}
    (hk : forall r h, (k r h).map Subtype.val = g r) :
    Except.map Subtype.val (match x with
      | .error e => .error e
      | .ok ⟨r, h⟩ => k r h) = (x.map Subtype.val).bind g := by
  rcases x with e | ⟨r, h⟩
  · rfl
  · exact hk r h

theorem map_sequenceAny {x : Continued us}
    {k : (r : List Token) -> r.length ≤ us.length -> Except Mismatch (Subtype Q)}
    (hk : forall r h, (k r h).map Subtype.val = g r) :
    Except.map Subtype.val (match x with
      | .error e => .error e
      | .ok ⟨r, h⟩ => k r h) = (x.map Subtype.val).bind g := by
  rcases x with e | ⟨r, h⟩
  · rfl
  · exact hk r h

theorem map_last {x : Recognized us} {k : Rest us -> Subtype Q} (hk : forall r, (k r).val = r.val) :
    Except.map Subtype.val (match x with
      | .error e => .error e
      | .ok r => .ok (k r)) = x.map Subtype.val := by
  rcases x with e | r
  · rfl
  · exact congrArg Except.ok (hk r)

theorem map_lastAny {x : Continued us} {k : RestOrAll us -> Subtype Q}
    (hk : forall r, (k r).val = r.val) :
    Except.map Subtype.val (match x with
      | .error e => .error e
      | .ok r => .ok (k r)) = x.map Subtype.val := by
  rcases x with e | r
  · rfl
  · exact congrArg Except.ok (hk r)

theorem map_branch {p : Token -> Bool} (hp : p (peek []) = false)
    {k : (r : List Token) -> r.length < us.length -> Except Mismatch (Subtype Q)}
    {other : Except Mismatch (Subtype Q)} (hk : forall r h, (k r h).map Subtype.val = f r)
    (hother : other.map Subtype.val = g us) :
    Except.map Subtype.val (match accept? p us with
      | some ⟨r, h⟩ => k r h
      | none => other) = onNext p (fun _ => f) g us := by
  cases us with
  | nil =>
      unfold onNext
      rw [hp]
      exact hother
  | cons t us =>
      rw [accept?]
      change _ = if p t then f us else g (t :: us)
      cases p t with
      | true => exact hk us (Nat.lt_succ_self _)
      | false => exact hother

theorem map_choice {p : Token -> Bool} (hp : p (peek []) = false)
    {k : (r : List Token) -> r.length < us.length -> Except Mismatch (Subtype Q)}
    {other : Except Mismatch (Subtype Q)} (hk : forall r h, (k r h).map Subtype.val = f r)
    (hother : other.map Subtype.val = g us) :
    Except.map Subtype.val (match accept? p us with
      | none => other
      | some ⟨r, h⟩ => k r h) = onNext p (fun _ => f) g us := by
  rw [← map_branch hp hk hother]
  rcases accept? p us with _ | ⟨r, h⟩ <;> rfl

theorem map_accept {p : Token -> Bool} (hp : p (peek []) = false)
    {k : Rest us -> Subtype Q} {other : Except Mismatch (Subtype Q)}
    (hk : forall r, (k r).val = r.val) (hother : other.map Subtype.val = g us) :
    Except.map Subtype.val (match accept? p us with
      | some r => .ok (k r)
      | none => other) = onNext p (fun _ => done) g us := by
  have hrun (r : List Token) (h : r.length < us.length) :
      Except.map Subtype.val (.ok (k ⟨r, h⟩) : Except Mismatch (Subtype Q)) = done r :=
    congrArg Except.ok (hk ⟨r, h⟩)
  rw [← map_branch hp hrun hother]
  rcases accept? p us with _ | ⟨r, h⟩ <;> rfl

theorem map_voidList {other : Recognized us} (hother : other.map Subtype.val = g us) :
    Except.map Subtype.val (match voidList? us with
      | some r => .ok r
      | none => other) =
      onTwo (isKeyword "void") (fun t => t.isOp ")") done g us := by
  unfold voidList? acceptOp?
  match us with
  | [] => exact hother
  | t :: us =>
      rw [accept?]
      change _ = if isKeyword "void" t && (peek us).isOp ")" then done us.tail else g (t :: us)
      cases isKeyword "void" t with
      | false => exact hother
      | true =>
          cases us with
          | nil => exact hother
          | cons u us =>
              dsimp only [Rest.tail, Bool.true_and]
              rw [if_pos rfl]
              dsimp only
              rw [accept?]
              change _ = if u.isOp ")" then done us else g (t :: u :: us)
              cases u.isOp ")" with
              | false => exact hother
              | true => rfl

end Erase

theorem view_expect {p : Token -> Bool} (hp : p (peek []) = false) (x : Expected) :
    view (expect x p) = token x p := by
  funext ts
  change (expect x p ts).map Subtype.val = _
  rw [expect]
  refine map_accept hp ?_ ?_
  · exact fun _ => rfl
  · rfl

theorem view_expectOp (op : Text) : view (expectOp op) = token (.op op) fun t => t.isOp op :=
  view_expect rfl (.op op)

theorem token_andThen (x : Expected) (p : Token -> Bool) (g : Production) :
    andThen (token x p) g = onNext p (fun _ => g) (fail x) := by
  funext ts
  unfold andThen token onNext
  split <;> rfl

/-!
# Expressions
-/

theorem view_expression : view expression =
    andThen (view assignment)
      (onNext (fun t => t.isOp ",") (fun _ => view expression) done) := by
  funext ts
  change (expression ts).map Subtype.val = _
  rw [expression]
  refine map_sequence fun r _ => ?_
  refine map_choice ?_ (fun _ _ => ?_) ?_
  · rfl
  · exact map_last fun _ => rfl
  · rfl

theorem view_assignment : view assignment =
    andThen (view conditional) (onNext isAssignmentOp (fun _ => view assignment) done) := by
  funext ts
  change (assignment ts).map Subtype.val = _
  rw [assignment]
  refine map_sequence fun r _ => ?_
  refine map_choice ?_ (fun _ _ => ?_) ?_
  · rfl
  · exact map_last fun _ => rfl
  · rfl

theorem view_conditional : view conditional =
    andThen (view (binary 1))
      (onNext (fun t => t.isOp "?")
        (fun _ => andThen (view expression) (andThen (view (expectOp ":")) (view assignment)))
        done) := by
  funext ts
  change (conditional ts).map Subtype.val = _
  rw [conditional]
  refine map_sequence fun r _ => ?_
  refine map_choice ?_ (fun _ _ => ?_) ?_
  · rfl
  · refine map_sequence fun _ _ => ?_
    refine map_sequence fun _ _ => ?_
    exact map_last fun _ => rfl
  · rfl

theorem view_binary (least : Nat) : view (binary least) =
    andThen (view unary) (viewAny (binaryTail least)) := by
  funext ts
  change (binary least ts).map Subtype.val = _
  rw [binary]
  refine map_sequence fun _ _ => ?_
  exact map_lastAny fun _ => rfl

/-- The token is an operator that binds at least as tightly as `least`. -/
def climbs (least : Nat) (t : Token) : Bool :=
  (precedence? t).any fun p => least ≤ p

theorem viewAny_binaryTail (least : Nat) : viewAny (binaryTail least) =
    onNext (climbs least)
      (fun t => andThen (view (binary ((precedence? t).getD 0 + 1))) (viewAny (binaryTail least)))
      done := by
  funext ts
  unfold viewAny
  cases ts with
  | nil =>
      rw [binaryTail]
      rfl
  | cons t rest =>
      rw [binaryTail]
      change _ = if (precedence? t).any fun p => least ≤ p then _ else done (t :: rest)
      cases hprecedence : precedence? t with
      | none => rfl
      | some p =>
          dsimp only
          by_cases hless : p < least
          · rw [if_pos hless, if_neg (by simpa using hless)]
            rfl
          · rw [if_neg hless, if_pos (by simpa using hless)]
            change _ = andThen (view (binary ((precedence? t).getD 0 + 1))) _ rest
            rw [hprecedence]
            refine map_sequence fun _ _ => ?_
            exact map_lastAny fun _ => rfl

theorem view_unary : view unary =
    onNext isPrefixOp (fun _ => view unary) (view postfixed) := by
  funext ts
  change (unary ts).map Subtype.val = _
  rw [unary]
  refine map_branch ?_ (fun _ _ => ?_) ?_
  · rfl
  · exact map_last fun _ => rfl
  · rfl

/-- A name, a literal or a parenthesised expression. -/
def operand : Production :=
  onNext isAtom (fun _ => done)
    (onNext (fun t => t.isOp "(") (fun _ => andThen (view expression) (view (expectOp ")")))
      (fail .expression))

theorem viewAny_postfixTail : viewAny postfixTail =
    onNext (fun t => t.isOp "[")
      (fun _ => andThen (view expression) (andThen (view (expectOp "]")) (viewAny postfixTail)))
      (onNext (fun t => t.isOp "(")
        (fun _ => andThen (view arguments) (viewAny postfixTail))
        (onNext (fun t => t.isOp ".")
          (fun _ => andThen (view (expect .fieldName Token.isWord)) (viewAny postfixTail))
          (onNext (fun t => t.isOp "++" || t.isOp "--") (fun _ => viewAny postfixTail)
            done))) := by
  funext ts
  change (postfixTail ts).map Subtype.val = _
  cases ts with
  | nil =>
      rw [postfixTail]
      rfl
  | cons t rest =>
      rw [postfixTail]
      change _ = if t.isOp "[" then _ else if t.isOp "(" then _ else if t.isOp "." then _ else
        if t.isOp "++" || t.isOp "--" then _ else _
      by_cases hsquare : t.isOp "[" = true
      · rw [if_pos hsquare, if_pos hsquare]
        change _ = andThen (view expression)
          (andThen (view (expectOp "]")) (viewAny postfixTail)) rest
        unfold andThen view
        rcases expression rest with e | ⟨r1, h1⟩
        · rfl
        · dsimp only [Except.map, Except.bind]
          rcases expectOp "]" r1 with e | ⟨r2, h2⟩
          · rfl
          · exact map_lastAny fun _ => rfl
      · rw [if_neg hsquare, if_neg hsquare]
        by_cases hround : t.isOp "(" = true
        · rw [if_pos hround, if_pos hround]
          change _ = andThen (view arguments) (viewAny postfixTail) rest
          unfold andThen view
          rcases arguments rest with e | ⟨r1, h1⟩
          · rfl
          · exact map_lastAny fun _ => rfl
        · rw [if_neg hround, if_neg hround]
          by_cases hfield : t.isOp "." = true
          · rw [if_pos hfield, if_pos hfield]
            change _ = andThen (view (expect .fieldName Token.isWord)) (viewAny postfixTail) rest
            unfold andThen view
            rcases expect .fieldName Token.isWord rest with e | ⟨r1, h1⟩
            · rfl
            · exact map_lastAny fun _ => rfl
          · rw [if_neg hfield, if_neg hfield]
            cases hstep : t.isOp "++" || t.isOp "--" with
            | true => exact map_lastAny fun _ => rfl
            | false => rfl

theorem view_arguments : view arguments =
    onNext (fun t => t.isOp ")") (fun _ => done)
      (onTwo (isKeyword "void") (fun t => t.isOp ")") done (view argumentList)) := by
  funext ts
  change (arguments ts).map Subtype.val = _
  rw [arguments]
  refine map_accept ?_ ?_ ?_
  · rfl
  · exact fun _ => rfl
  · exact map_voidList rfl

theorem view_argumentList : view argumentList =
    andThen (view assignment)
      (onNext (fun t => t.isOp ",") (fun _ => view argumentList) (view (expectOp ")"))) := by
  funext ts
  change (argumentList ts).map Subtype.val = _
  rw [argumentList]
  refine map_sequence fun r _ => ?_
  refine map_choice ?_ (fun _ _ => ?_) ?_
  · rfl
  · exact map_last fun _ => rfl
  · exact map_last fun _ => rfl

/-- A keyword of a type is followed by the arguments of a constructor; anything else that starts an
expression is an operand. -/
theorem view_primary {ts : List Token}
    (h : (isTypeKeyword (peek ts) && (peek ts.tail).isOp "(") = false) :
    view primary ts = operand ts := by
  cases ts with
  | nil =>
      change (primary []).map Subtype.val = _
      rw [primary]
      rfl
  | cons t rest =>
      change (isTypeKeyword t && nextIsOp "(" rest) = false at h
      change (primary (t :: rest)).map Subtype.val = if isAtom t then done rest else
        if t.isOp "(" then andThen (view expression) (view (expectOp ")")) rest
        else fail .expression (t :: rest)
      rw [primary, h, Bool.or_false]
      by_cases hatom : isAtom t = true
      · rw [if_pos hatom, if_pos hatom]
        rfl
      · rw [if_neg hatom, if_neg hatom]
        by_cases hround : t.isOp "(" = true
        · rw [if_pos hround, if_pos hround]
          refine map_sequence fun _ _ => ?_
          exact map_last fun _ => rfl
        · rw [if_neg hround, if_neg hround]
          rfl

theorem view_primary_constructor {ts : List Token} (h : isTypeKeyword (peek ts) = true)
    (hround : (peek ts.tail).isOp "(" = true) : view primary ts = .ok ts.tail := by
  cases ts with
  | nil => cases h
  | cons t rest =>
      change (primary (t :: rest)).map Subtype.val = done rest
      have hnext : (isAtom t || (isTypeKeyword t && nextIsOp "(" rest)) = true := by
        rw [show isTypeKeyword t = true from h, show nextIsOp "(" rest = true from hround]
        exact Bool.or_true _
      rw [primary, if_pos hnext]
      rfl

theorem view_postfixed : view postfixed =
    onTwo isTypeKeyword (fun t => t.isOp "(") (andThen (view arguments) (viewAny postfixTail))
      (andThen operand (viewAny postfixTail)) := by
  have hparts : view postfixed = andThen (view primary) (viewAny postfixTail) := by
    funext ts
    change (postfixed ts).map Subtype.val = _
    rw [postfixed]
    refine map_sequence fun _ _ => ?_
    exact map_lastAny fun _ => rfl
  funext ts
  rw [hparts]
  unfold onTwo
  by_cases h : (isTypeKeyword (peek ts) && (peek ts.tail).isOp "(") = true
  · rw [if_pos h]
    rcases Bool.and_eq_true_iff.mp h with ⟨hkeyword, hround⟩
    have hsquare : (peek ts.tail).isOp "[" = false := by
      unfold Token.isOp at hround ⊢
      rw [Bool.and_eq_true, beq_iff_eq, beq_iff_eq] at hround
      rw [hround.2]
      exact Bool.and_false _
    rw [andThen, view_primary_constructor hkeyword hround, Except.bind, viewAny_postfixTail, onNext,
      hsquare, if_neg Bool.false_ne_true, onNext, if_pos hround, ← viewAny_postfixTail]
  · rw [if_neg h, andThen, view_primary (Bool.eq_false_iff.mpr h)]
    rfl

theorem view_expression_nil : view expression [] = fail .expression [] := by
  rw [view_expression, andThen, view_assignment, andThen, view_conditional, andThen, view_binary,
    andThen, view_unary, view_postfixed]
  rfl

/-!
# Tokens of expressions
-/

theorem reads_keyword (word : Text) (st : List Bracket) : Reads (isKeyword word) st st := by
  apply Reads.of_kind
  intro t ht
  unfold isKeyword at ht
  rw [Bool.and_eq_true, beq_iff_eq] at ht
  rw [ht.1]
  decide

theorem reads_typeKeyword (st : List Bracket) : Reads isTypeKeyword st st := by
  apply Reads.of_kind
  intro t ht
  unfold isTypeKeyword at ht
  rw [Bool.and_eq_true, beq_iff_eq] at ht
  rw [ht.1]
  decide

theorem reads_name (st : List Bracket) : Reads isName st st := by
  apply Reads.of_kind
  intro t ht
  unfold isName at ht
  rw [Bool.or_eq_true, beq_iff_eq, beq_iff_eq] at ht
  rcases ht with hkind | hkind <;> rw [hkind] <;> decide

theorem reads_word (st : List Bracket) : Reads Token.isWord st st := by
  apply Reads.of_kind
  intro t ht
  unfold Token.isWord at ht
  simp only [Bool.or_eq_true, beq_iff_eq] at ht
  rcases ht with (hkind | hkind) | hkind <;> rw [hkind] <;> decide

theorem reads_atom (st : List Bracket) : Reads isAtom st st := by
  apply Reads.of_kind
  intro t ht
  unfold isAtom isName isKeyword at ht
  simp only [Bool.or_eq_true, Bool.and_eq_true, beq_iff_eq] at ht
  rcases ht with ((((hkind | hkind) | hkind) | hkind) | ⟨hkind, _⟩) | ⟨hkind, _⟩ <;>
    rw [hkind] <;> decide

theorem reads_operators (texts : List Text) {p : Token -> Bool}
    (htexts : forall s, s ∈ texts -> Bracket.isText s = false)
    (hp : forall t, p t = true -> t.kind = .operator ∧ t.text ∈ texts) (st : List Bracket) :
    Reads p st st := by
  apply Reads.of_not_isBracket
  intro t ht
  rcases hp t ht with ⟨hkind, htext⟩
  constructor
  · rintro ⟨hend, _⟩
    rw [hkind] at hend
    cases hend
  · unfold Bracket.isBracket
    rw [htexts t.text htext, Bool.and_false]

theorem reads_assignmentOp (st : List Bracket) : Reads isAssignmentOp st st := by
  apply reads_operators assignmentOps
  · decide
  · intro t ht
    unfold isAssignmentOp at ht
    simpa using ht

theorem reads_prefixOp (st : List Bracket) : Reads isPrefixOp st st := by
  apply reads_operators prefixOps
  · decide
  · intro t ht
    rcases List.any_eq_true.mp ht with ⟨op, hop, htext⟩
    unfold Token.isOp at htext
    rw [Bool.and_eq_true, beq_iff_eq, beq_iff_eq] at htext
    rw [htext.2]
    exact ⟨htext.1, hop⟩

theorem reads_increment (st : List Bracket) :
    Reads (fun t => t.isOp "++" || t.isOp "--") st st := by
  apply reads_operators ["++", "--"]
  · decide
  · intro t ht
    simp only [Token.isOp, Bool.or_eq_true, Bool.and_eq_true, beq_iff_eq] at ht
    rcases ht with ⟨hkind, htext⟩ | ⟨hkind, htext⟩ <;> simp [hkind, htext]

theorem reads_climbs (least : Nat) (st : List Bracket) : Reads (climbs least) st st := by
  apply reads_operators precedences.names
  · decide
  · intro t ht
    unfold climbs precedence? at ht
    split at ht
    · rename_i hkind
      rcases (Option.any_eq_true _ _).mp ht with ⟨level, hlevel, _⟩
      rcases Option.map_eq_some_iff.mp hlevel with ⟨entry, hfind, _⟩
      have htext := List.find?_some (p := fun e : Text × Nat => e.1 == t.text) hfind
      rw [← eq_of_beq htext]
      exact ⟨eq_of_beq hkind, List.mem_map_of_mem (List.mem_of_find?_eq_some hfind)⟩
    · cases ht

/-!
# Local expressions
-/

structure ExpressionsAt (ts : List Token) : Prop where
  expression : Local (view expression) [] ts
  assignment : Local (view assignment) [] ts
  conditional : Local (view conditional) [] ts
  binary : forall least, Local (view (binary least)) [] ts
  binaryTail : forall least, Local (viewAny (binaryTail least)) [] ts
  unary : Local (view unary) [] ts
  postfixed : Local (view postfixed) [] ts
  postfixTail : Local (viewAny postfixTail) [] ts
  arguments : Local (view arguments) [.round] ts
  argumentList : Local (view argumentList) [.round] ts

theorem local_expectOp {op : Text} {opened : List Bracket}
    (h : Reads (fun t => t.isOp op) opened []) (ts : List Token) :
    Local (view (expectOp op)) opened ts := by
  rw [view_expectOp]
  exact Local.token h ts

section Shorter

variable {ts : List Token} (ih : forall r : List Token, r.length < ts.length -> ExpressionsAt r)

include ih

theorem local_binaryTail (least : Nat) : Local (viewAny (binaryTail least)) [] ts := by
  rw [viewAny_binaryTail]
  refine Local.onNext (reads_climbs least []) ?_ fun _ => Local.done ts
  rintro t rest rfl _
  refine Local.andThen ((ih rest (Nat.lt_succ_self _)).binary _) ?_
  intro r hr
  exact (ih r (Nat.lt_succ_of_lt (length_of_view hr))).binaryTail least

theorem local_postfixTail : Local (viewAny postfixTail) [] ts := by
  rw [viewAny_postfixTail]
  refine Local.onNext (Reads.opening .square []) ?_ fun _ =>
    Local.onNext (Reads.opening .round []) ?_ fun _ =>
    Local.onNext (Reads.op (by decide) []) ?_ fun _ =>
    Local.onNext (reads_increment []) ?_ fun _ => Local.done ts
  · rintro t rest rfl _
    refine Local.andThen (ih rest (Nat.lt_succ_self _)).expression ?_
    intro r1 h1
    refine Local.closeThen (local_expectOp (Reads.closing .square []) r1) ?_
    intro r2 h2
    have hlt := Nat.lt_trans (length_of_view h2) (length_of_view h1)
    exact (ih r2 (Nat.lt_succ_of_lt hlt)).postfixTail
  · rintro t rest rfl _
    refine Local.closeThen (ih rest (Nat.lt_succ_self _)).arguments ?_
    intro r hr
    exact (ih r (Nat.lt_succ_of_lt (length_of_view hr))).postfixTail
  · rintro t rest rfl _
    rw [view_expect rfl]
    refine Local.andThen (Local.token (reads_word []) rest) ?_
    intro r hr
    rw [← view_expect rfl] at hr
    exact (ih r (Nat.lt_succ_of_lt (length_of_view hr))).postfixTail
  · rintro t rest rfl _
    exact (ih rest (Nat.lt_succ_self _)).postfixTail

theorem local_operand : Local operand [] ts := by
  refine Local.onNext (reads_atom []) (fun _ rest _ _ => Local.done rest) fun _ =>
    Local.onNext (Reads.opening .round []) ?_ fun _ => Local.fail .expression [] ts
  rintro t rest rfl _
  refine Local.andThen (ih rest (Nat.lt_succ_self _)).expression ?_
  intro r _
  exact local_expectOp (Reads.closing .round []) r

theorem local_postfixed : Local (view postfixed) [] ts := by
  rw [view_postfixed]
  refine Local.onTwo (reads_typeKeyword []) (Reads.opening .round []) ?_ ?_ ?_
  · rintro t u rest rfl _ _
    have hrest : rest.length < (t :: u :: rest).length := Nat.lt_add_of_pos_right Nat.two_pos
    refine Local.closeThen (ih rest hrest).arguments ?_
    intro r hr
    exact (ih r (Nat.lt_trans (length_of_view hr) hrest)).postfixTail
  · refine Local.andThen (local_operand ih) ?_
    intro r hr
    have hle := (local_operand ih).length_le hr
    exact local_postfixTail fun s hs => ih s (Nat.lt_of_lt_of_le hs hle)
  · intro hnot r hr
    apply length_of_view (f := postfixed)
    rw [view_postfixed, onTwo, hnot]
    exact hr

theorem local_unary : Local (view unary) [] ts := by
  rw [view_unary]
  refine Local.onNext (reads_prefixOp []) ?_ fun _ => local_postfixed ih
  rintro t rest rfl _
  exact (ih rest (Nat.lt_succ_self _)).unary

theorem local_binary (least : Nat) : Local (view (binary least)) [] ts := by
  rw [view_binary]
  refine Local.andThen (local_unary ih) ?_
  intro r hr
  exact (ih r (length_of_view hr)).binaryTail least

theorem local_conditional : Local (view conditional) [] ts := by
  rw [view_conditional]
  refine Local.andThen (local_binary ih 1) ?_
  intro r hr
  have hlt := length_of_view hr
  refine Local.onNext (Reads.op (by decide) []) ?_ fun _ => Local.done r
  rintro t rest rfl _
  refine Local.andThen (ih rest (Nat.lt_of_succ_lt hlt)).expression ?_
  intro r1 h1
  refine Local.andThen (local_expectOp (Reads.op (by decide) []) r1) ?_
  intro r2 h2
  have hlt2 := Nat.lt_trans (length_of_view h2) (length_of_view h1)
  exact (ih r2 (Nat.lt_trans hlt2 (Nat.lt_of_succ_lt hlt))).assignment

theorem local_assignment : Local (view assignment) [] ts := by
  rw [view_assignment]
  refine Local.andThen (local_conditional ih) ?_
  intro r hr
  have hlt := length_of_view hr
  refine Local.onNext (reads_assignmentOp []) ?_ fun _ => Local.done r
  rintro t rest rfl _
  exact (ih rest (Nat.lt_of_succ_lt hlt)).assignment

theorem local_expression : Local (view expression) [] ts := by
  rw [view_expression]
  refine Local.andThen (local_assignment ih) ?_
  intro r hr
  have hlt := length_of_view hr
  refine Local.onNext (Reads.op (by decide) []) ?_ fun _ => Local.done r
  rintro t rest rfl _
  exact (ih rest (Nat.lt_of_succ_lt hlt)).expression

theorem local_argumentList : Local (view argumentList) [.round] ts := by
  rw [view_argumentList]
  refine Local.andThen (local_assignment ih) ?_
  intro r hr
  have hlt := length_of_view hr
  refine Local.onNext (Reads.op (by decide) [.round]) ?_ fun _ =>
    local_expectOp (Reads.closing .round []) r
  rintro t rest rfl _
  exact (ih rest (Nat.lt_of_succ_lt hlt)).argumentList

theorem local_arguments : Local (view arguments) [.round] ts := by
  rw [view_arguments]
  refine Local.onNext (Reads.closing .round []) (fun _ rest _ _ => Local.done rest) fun _ =>
    Local.onTwo (reads_keyword "void" [.round]) (Reads.closing .round [])
      (fun _ _ rest _ _ _ => Local.done rest) (local_argumentList ih) ?_
  exact fun _ _ => length_of_view

theorem expressionsAt_of_shorter : ExpressionsAt ts where
  expression := local_expression ih
  assignment := local_assignment ih
  conditional := local_conditional ih
  binary := local_binary ih
  binaryTail := local_binaryTail ih
  unary := local_unary ih
  postfixed := local_postfixed ih
  postfixTail := local_postfixTail ih
  arguments := local_arguments ih
  argumentList := local_argumentList ih

end Shorter

theorem expressionsAt (ts : List Token) : ExpressionsAt ts :=
  expressionsAt_of_shorter fun r _ => expressionsAt r
  termination_by ts.length

end Grammar

end EffectShader
