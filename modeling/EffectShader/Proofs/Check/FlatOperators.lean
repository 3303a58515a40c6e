import EffectShader.Proofs.Check.Expressions

/-!
# Operators on one level

Climbing the precedences decides how an expression nests and nothing else.  The tokens
of the expression, and the token that does not fit, are those of one loop that knows no
precedences: an operand, and as long as an operator of the table follows, that operator
and the next operand.
-/

namespace EffectShader

namespace Grammar

open EffectShader.Stream (peek)

/-- The token is an operator of the table. -/
def isBinaryOp (t : Token) : Bool :=
  (precedence? t).isSome

/-- As long as an operator follows: that operator and its operand. -/
def operands (isOperator : Token -> Bool) (ts : List Token) : Continued ts :=
  match accept? isOperator ts with
  | none => .ok (RestOrAll.all ts)
  | some ⟨r1, h1⟩ =>
      match unary r1 with
      | .error e => .error e
      | .ok ⟨r2, h2⟩ =>
          match operands isOperator r2 with
          | .error e => .error e
          | .ok r3 => .ok (Rest.after h1 (RestOrAll.after h2 r3)).orAll
  termination_by ts.length

/-- Operands joined by operators, whatever these bind. -/
def joined (isOperator : Token -> Bool) (ts : List Token) : Recognized ts :=
  match unary ts with
  | .error e => .error e
  | .ok ⟨r1, h1⟩ =>
      match operands isOperator r1 with
      | .error e => .error e
      | .ok r2 => .ok (RestOrAll.after h1 r2)

/-!
# The loop as a production
-/

theorem viewAny_operands {p : Token -> Bool} (hp : p (peek []) = false) :
    viewAny (operands p) =
      onNext p (fun _ => andThen (view unary) (viewAny (operands p))) done := by
  funext ts
  change (operands p ts).map Subtype.val = _
  rw [operands]
  refine map_choice hp (fun r1 _ => ?_) ?_
  · refine map_sequence fun _ _ => ?_
    exact map_lastAny fun _ => rfl
  · rfl

theorem view_joined (p : Token -> Bool) :
    view (joined p) = andThen (view unary) (viewAny (operands p)) := by
  funext ts
  change (joined p ts).map Subtype.val = _
  rw [joined]
  refine map_sequence fun _ _ => ?_
  exact map_lastAny fun _ => rfl

theorem andThen_congr {f g g' : Production} {ts : List Token}
    (h : forall r, f ts = .ok r -> g r = g' r) : andThen f g ts = andThen f g' ts := by
  unfold andThen
  cases hf : f ts with
  | error m => rfl
  | ok r => exact h r hf

/-- A loop over some operators can be left early: the loop over more operators takes up where it
stopped. -/
theorem operands_operands {p q : Token -> Bool} (hp : p (peek []) = false)
    (hq : q (peek []) = false) (hpq : forall t, p t = true -> q t = true) (ts : List Token) :
    andThen (viewAny (operands p)) (viewAny (operands q)) ts = viewAny (operands q) ts := by
  cases hpeek : p (peek ts) with
  | false =>
      rw [andThen, viewAny_operands hp, onNext, hpeek, if_neg Bool.false_ne_true]
      rfl
  | true =>
      have hstep (r : List Token) (hr : view unary ts.tail = .ok r) :
          andThen (viewAny (operands p)) (viewAny (operands q)) r = viewAny (operands q) r :=
        have : r.length < ts.length := by
          have hless := length_of_view hr
          rw [List.length_tail] at hless
          omega
        operands_operands hp hq hpq r
      calc andThen (viewAny (operands p)) (viewAny (operands q)) ts
          = andThen (view unary) (andThen (viewAny (operands p)) (viewAny (operands q)))
              ts.tail := by
            rw [andThen, viewAny_operands hp, onNext, hpeek, if_pos rfl, ← viewAny_operands hp]
            unfold andThen
            rcases view unary ts.tail with m | r <;> rfl
        _ = andThen (view unary) (viewAny (operands q)) ts.tail := andThen_congr hstep
        _ = viewAny (operands q) ts := by
            rw [viewAny_operands hq, onNext, hpq _ hpeek, if_pos rfl, ← viewAny_operands hq]
  termination_by ts.length

/-!
# Climbing
-/

theorem climbs_of_le {least level : Nat} (h : least ≤ level) {t : Token}
    (ht : climbs level t = true) : climbs least t = true := by
  unfold climbs at ht ⊢
  cases hprecedence : precedence? t with
  | none =>
      rw [hprecedence] at ht
      cases ht
  | some p =>
      rw [hprecedence] at ht
      simp only [Option.any_some, decide_eq_true_eq] at ht ⊢
      omega

theorem viewAny_binaryTail_eq (least : Nat) (ts : List Token) :
    viewAny (binaryTail least) ts = viewAny (operands (climbs least)) ts := by
  rw [viewAny_binaryTail, viewAny_operands rfl, onNext, onNext]
  split
  · rename_i hclimbs
    have hlevel : least ≤ (precedence? (peek ts)).getD 0 + 1 := by
      unfold climbs at hclimbs
      cases hprecedence : precedence? (peek ts) with
      | none =>
          rw [hprecedence] at hclimbs
          cases hclimbs
      | some p =>
          rw [hprecedence] at hclimbs
          simp only [Option.any_some, decide_eq_true_eq] at hclimbs
          exact Nat.le_succ_of_le hclimbs
    generalize (precedence? (peek ts)).getD 0 + 1 = level at hlevel
    have hshorter {r : List Token} (hr : view unary ts.tail = .ok r) : r.length < ts.length := by
      have hless := length_of_view hr
      rw [List.length_tail] at hless
      omega
    calc andThen (view (binary level)) (viewAny (binaryTail least)) ts.tail
        = andThen (view unary) (andThen (viewAny (binaryTail level)) (viewAny (binaryTail least)))
            ts.tail := by
          rw [view_binary]
          unfold andThen
          rcases view unary ts.tail with m | r <;> rfl
      _ = andThen (view unary)
            (andThen (viewAny (operands (climbs level))) (viewAny (operands (climbs least))))
            ts.tail := by
          apply andThen_congr
          intro r hr
          have hr := hshorter hr
          have hinner : viewAny (binaryTail level) r = viewAny (operands (climbs level)) r :=
            viewAny_binaryTail_eq level r
          rw [andThen, andThen, hinner]
          apply andThen_congr
          intro s hs
          have hs : s.length < ts.length := Nat.lt_of_le_of_lt (length_of_viewAny hs) hr
          exact viewAny_binaryTail_eq least s
      _ = andThen (view unary) (viewAny (operands (climbs least))) ts.tail := by
          apply andThen_congr
          intro r _
          exact operands_operands rfl rfl (fun t => climbs_of_le hlevel) r
  · rfl
  termination_by ts.length

theorem view_binary_eq (least : Nat) : view (binary least) = view (joined (climbs least)) := by
  rw [view_binary, view_joined]
  funext ts
  exact andThen_congr fun r _ => viewAny_binaryTail_eq least r

theorem climbs_one : climbs 1 = isBinaryOp := by
  have hpositive : precedences.all (fun entry => decide (1 ≤ entry.2)) = true := by
    decide
  funext t
  unfold climbs isBinaryOp
  cases hprecedence : precedence? t with
  | none => rfl
  | some p =>
      unfold precedence? Table.get? at hprecedence
      split at hprecedence
      · rcases Option.map_eq_some_iff.mp hprecedence with ⟨entry, hentry, rfl⟩
        exact List.all_eq_true.mp hpositive entry (List.mem_of_find?_eq_some hentry)
      · cases hprecedence

theorem eq_of_view_eq {f g : (ts : List Token) -> Recognized ts} (h : view f = view g)
    (ts : List Token) : f ts = g ts := by
  have hts := congrFun h ts
  unfold view at hts
  rcases hf : f ts with m | r <;> rcases hg : g ts with m' | r' <;> rw [hf, hg] at hts
  · cases hts
    rfl
  · cases hts
  · cases hts
  · exact congrArg Except.ok (Subtype.ext (Except.ok.inj hts))

/-- Climbing the precedences and the loop over all operators come to the same end, and that end is
behind some of the given tokens: there both are done, or both fail at the token that stands
there. -/
theorem binary_eq_joined (ts : List Token) :
    binary 1 ts = joined isBinaryOp ts ∧
      ((exists w r, ts = w ++ r ∧ Consumes (view (joined isBinaryOp)) [] w r) ∨
        exists w r m, ts = w ++ r ∧ StopsAt (view (joined isBinaryOp)) w r m) := by
  have hview : view (binary 1) = view (joined isBinaryOp) := by
    rw [view_binary_eq, climbs_one]
  refine ⟨eq_of_view_eq hview ts, ?_⟩
  rw [← hview]
  cases (expressionsAt ts).binary 1 with
  | ok hsplit hconsumes => exact Or.inl ⟨_, _, hsplit, hconsumes⟩
  | error hsplit hstops => exact Or.inr ⟨_, _, _, hsplit, hstops⟩

end Grammar

end EffectShader
