import EffectShader.Proofs.Preprocess
import EffectShader.Table

/-!
# Conditions that are known in part

What a condition is known to be does not change when more macros are decided.
-/

namespace EffectShader

/-- Every macro that the first environment knows has the same value in the second. -/
def Environment.Extends (macros env : Environment) : Prop :=
  forall n v, env n = some v -> macros n = some v

namespace Condition

theorem applyBinary_some {op : BinaryOp} {l r : Option Value} {v : Value} (hand : op ≠ .and)
    (hor : op ≠ .or) (h : applyBinary op l r = .ok (some v)) :
    exists x y, l = some x ∧ r = some y ∧ arith op x y = .ok v := by
  unfold applyBinary at h
  cases op with
  | and => exact absurd rfl hand
  | or => exact absurd rfl hor
  | _ =>
      cases l with
      | none => cases h
      | some x =>
          cases r with
          | none => cases h
          | some y =>
              refine ⟨x, y, rfl, rfl, ?_⟩
              cases harith : arith _ x y with
              | error e =>
                  simp only [harith] at h
                  cases h
              | ok z =>
                  simp only [harith] at h
                  cases h
                  rfl

/-!
The left side of a conjunction or disjunction is `x` once every macro is
decided.  It settles the result, or leaves it to the right side `y`.
-/

section Connectives

variable {l r : Option Value} {x y v : Value} (hl : forall z, l = some z -> x = z)

include hl

theorem applyBinary_and_left (hx : x.truthy = false)
    (h : applyBinary .and l r = .ok (some v)) : v = .bool false := by
  cases l <;> cases r <;> grind [applyBinary, isFalse]

theorem applyBinary_and_right (hr : forall z, r = some z -> y = z) (hx : x.truthy = true)
    (h : applyBinary .and l r = .ok (some v)) : v = .bool y.truthy := by
  cases l <;> cases r <;> grind [applyBinary, isFalse]

theorem applyBinary_or_left (hx : x.truthy = true)
    (h : applyBinary .or l r = .ok (some v)) : v = .bool true := by
  cases l <;> cases r <;> grind [applyBinary, isTrue]

theorem applyBinary_or_right (hr : forall z, r = some z -> y = z) (hx : x.truthy = false)
    (h : applyBinary .or l r = .ok (some v)) : v = .bool y.truthy := by
  cases l <;> cases r <;> grind [applyBinary, isTrue]

end Connectives

theorem arith_ne_unknownName (op : BinaryOp) (l r : Value) (n : Text) :
    arith op l r ≠ .error (.unknownName n) := by
  unfold arith arithFloat arithInt
  cases op <;> grind

theorem value_ne_unknownName (macros : Environment) (c : Condition) (n : Text) :
    value macros c ≠ .error (.unknownName n) := by
  induction c with
  | literal v => simp [value]
  | ident m => simp [value]
  | defined m => simp [value]
  | unary op x ih =>
      rw [value]
      cases hx : value macros x with
      | error e =>
          rw [hx] at ih
          exact ih
      | ok v => simp
  | binary op left right ihl ihr =>
      rw [value]
      cases hl : value macros left with
      | error e =>
          rw [hl] at ihl
          exact ihl
      | ok l =>
          cases hr : value macros right with
          | error e =>
              rw [hr] at ihr
              cases op <;> grind
          | ok r => cases op <;> grind [arith_ne_unknownName]

theorem value_binary {macros : Environment} {op : BinaryOp} {left right : Condition} {w : Value}
    (h : value macros (.binary op left right) = .ok w) :
    exists x, value macros left = .ok x ∧
      ((op = .and ∧ x.truthy = false ∧ w = .bool false) ∨
        (op = .or ∧ x.truthy = true ∧ w = .bool true) ∨
        exists y, value macros right = .ok y ∧
          ((op = .and ∧ x.truthy = true ∧ w = .bool y.truthy) ∨
            (op = .or ∧ x.truthy = false ∧ w = .bool y.truthy) ∨
            (op ≠ .and ∧ op ≠ .or ∧ arith op x y = .ok w))) := by
  rw [value] at h
  cases hleft : value macros left with
  | error e =>
      rw [hleft] at h
      cases h
  | ok x =>
      refine ⟨x, rfl, ?_⟩
      simp only [hleft] at h
      cases hright : value macros right with
      | error e => cases op <;> grind
      | ok y => cases op <;> grind

theorem exists_value {macros : Environment} {c : Condition}
    (h : value macros c ≠ .error .divisionByZero) : exists v, value macros c = .ok v := by
  cases hvalue : value macros c with
  | ok v => exact ⟨v, rfl⟩
  | error e =>
      cases e with
      | unknownName n => exact absurd hvalue (value_ne_unknownName macros c n)
      | divisionByZero => exact absurd hvalue h

/-- A condition that is known has that value whatever the other macros are. -/
theorem value_of_known {macros env : Environment} (henv : macros.Extends env) {c : Condition}
    {v w : Value} (hknown : known env c = .ok (some v)) (hvalue : value macros c = .ok w) :
    w = v := by
  induction c generalizing v w with
  | literal x =>
      cases hknown
      cases hvalue
      rfl
  | ident n =>
      have hn : env n = some v := Except.ok.inj hknown
      rw [value, henv n v hn] at hvalue
      cases hvalue
      rfl
  | defined n =>
      rcases Option.map_eq_some_iff.mp (Except.ok.inj hknown) with ⟨u, hn, rfl⟩
      rw [value, henv n u hn] at hvalue
      cases hvalue
      rfl
  | unary op x ih =>
      rw [known] at hknown
      rw [value] at hvalue
      cases hx : known env x with
      | error e =>
          rw [hx] at hknown
          cases hknown
      | ok u =>
          rw [hx] at hknown
          rcases Option.map_eq_some_iff.mp (Except.ok.inj hknown) with ⟨z, rfl, rfl⟩
          cases hy : value macros x with
          | error e =>
              rw [hy] at hvalue
              cases hvalue
          | ok y =>
              rw [hy] at hvalue
              cases hvalue
              rw [ih hx hy]
  | binary op left right ihl ihr =>
      rw [known] at hknown
      cases hkl : known env left with
      | error e =>
          rw [hkl] at hknown
          cases hknown
      | ok l =>
          cases hkr : known env right with
          | error e =>
              simp only [hkl, hkr] at hknown
              cases hknown
          | ok r =>
              simp only [hkl, hkr] at hknown
              rcases value_binary hvalue with ⟨x, hx, hcases⟩
              have hl : forall z, l = some z -> x = z := by
                rintro z rfl
                exact ihl hkl hx
              rcases hcases with ⟨rfl, htruth, rfl⟩ | ⟨rfl, htruth, rfl⟩ | ⟨y, hy, hcases⟩
              · exact (applyBinary_and_left hl htruth hknown).symm
              · exact (applyBinary_or_left hl htruth hknown).symm
              · have hr : forall z, r = some z -> y = z := by
                  rintro z rfl
                  exact ihr hkr hy
                rcases hcases with ⟨rfl, htruth, rfl⟩ | ⟨rfl, htruth, rfl⟩ | ⟨hand, hor, harith⟩
                · exact (applyBinary_and_right hl hr htruth hknown).symm
                · exact (applyBinary_or_right hl hr htruth hknown).symm
                · rcases applyBinary_some hand hor hknown with ⟨a, b, rfl, rfl, hab⟩
                  rw [hl a rfl, hr b rfl, hab] at harith
                  exact (Except.ok.inj harith).symm

end Condition

/-!
# Knowing more macros

When more macros are known, what was unknown about a condition may be found, but
what was known is not revised.  Only a division by zero can come to light, because
both sides of a connective are evaluated even where one of them decides it.
-/

namespace Condition

/-- The second operand is known if the first one is, and is the same then. -/
def Fills (x y : Option Value) : Prop :=
  forall v, x = some v -> y = some v

theorem Fills.cases {x y : Option Value} (h : Fills x y) : x = y ∨ x = none := by
  cases x with
  | none => exact Or.inr rfl
  | some v => exact Or.inl (h v rfl).symm

theorem Fills.refl (x : Option Value) : Fills x x :=
  fun _ => id

theorem fills_none (y : Option Value) : Fills none y := by
  intro v h
  cases h

theorem Fills.map {x y : Option Value} (h : Fills x y) (f : Value -> Value) :
    Fills (x.map f) (y.map f) := by
  rcases h.cases with rfl | rfl
  · exact Fills.refl _
  · exact fills_none _

/-- How the result of a condition changes when more macros are known. -/
inductive Narrows : Except EvalError (Option Value) -> Except EvalError (Option Value) -> Prop where
  | fills {x y : Option Value} : Fills x y -> Narrows (.ok x) (.ok y)
  | fails (x : Option Value) : Narrows (.ok x) (.error .divisionByZero)
  | failed : Narrows (.error .divisionByZero) (.error .divisionByZero)

/-!
# Operators
-/

theorem applyBinary_of_ne {op : BinaryOp} (hand : op ≠ .and) (hor : op ≠ .or)
    (l r : Option Value) :
    applyBinary op l r =
      match l, r with
      | some x, some y => (arith op x y).map some
      | _, _ => .ok none := by
  cases op with
  | and => exact absurd rfl hand
  | or => exact absurd rfl hor
  | _ => rfl

theorem arith_error {op : BinaryOp} {l r : Value} {e : EvalError} (h : arith op l r = .error e) :
    e = .divisionByZero := by
  cases e with
  | unknownName n => exact absurd h (arith_ne_unknownName op l r n)
  | divisionByZero => rfl

theorem exists_applyBinary_connective {op : BinaryOp} (hop : op = .and ∨ op = .or)
    (l r : Option Value) : exists x, applyBinary op l r = .ok x := by
  rcases hop with rfl | rfl
  all_goals
    unfold applyBinary
    dsimp only
    repeat' split
    all_goals exact ⟨_, rfl⟩

theorem applyBinary_error {op : BinaryOp} {l r : Option Value} {e : EvalError}
    (h : applyBinary op l r = .error e) : e = .divisionByZero := by
  by_cases hop : op = .and ∨ op = .or
  · rcases exists_applyBinary_connective hop l r with ⟨x, hx⟩
    rw [hx] at h
    cases h
  · rw [not_or] at hop
    rw [applyBinary_of_ne hop.1 hop.2] at h
    split at h
    · rename_i x y
      cases harith : arith op x y with
      | ok z =>
          rw [harith] at h
          cases h
      | error e' =>
          rw [harith] at h
          cases h
          exact arith_error harith
    · cases h

theorem fills_applyBinary_connective {op : BinaryOp} (hop : op = .and ∨ op = .or)
    {l l' r r' x y : Option Value} (hl : Fills l l') (hr : Fills r r')
    (hx : applyBinary op l r = .ok x) (hy : applyBinary op l' r' = .ok y) : Fills x y := by
  rcases hl.cases with rfl | rfl <;> rcases hr.cases with rfl | rfl
  · rw [hx] at hy
    cases hy
    exact Fills.refl x
  · rcases hop with rfl | rfl <;> cases l <;> cases r' <;>
      grind [applyBinary, isFalse, isTrue, Fills]
  · rcases hop with rfl | rfl <;> cases l' <;> cases r <;>
      grind [applyBinary, isFalse, isTrue, Fills]
  · have hnone : x = none := by
      rcases hop with rfl | rfl <;> exact (Except.ok.inj hx).symm
    rw [hnone]
    exact fills_none y

theorem applyBinary_unknown {op : BinaryOp} (hand : op ≠ .and) (hor : op ≠ .or)
    {l r : Option Value} (h : l = none ∨ r = none) : applyBinary op l r = .ok none := by
  rw [applyBinary_of_ne hand hor]
  rcases h with rfl | rfl
  · rfl
  · cases l <;> rfl

theorem narrows_applyBinary (op : BinaryOp) {l l' r r' : Option Value} (hl : Fills l l')
    (hr : Fills r r') : Narrows (applyBinary op l r) (applyBinary op l' r') := by
  by_cases hop : op = .and ∨ op = .or
  · rcases exists_applyBinary_connective hop l r with ⟨x, hx⟩
    rcases exists_applyBinary_connective hop l' r' with ⟨y, hy⟩
    rw [hx, hy]
    exact Narrows.fills (fills_applyBinary_connective hop hl hr hx hy)
  · rw [not_or] at hop
    have hunknown : l = l' ∧ r = r' ∨ applyBinary op l r = .ok none := by
      rcases hl.cases with hl | hl
      · rcases hr.cases with hr | hr
        · exact Or.inl ⟨hl, hr⟩
        · exact Or.inr (applyBinary_unknown hop.1 hop.2 (Or.inr hr))
      · exact Or.inr (applyBinary_unknown hop.1 hop.2 (Or.inl hl))
    cases hresult : applyBinary op l' r' with
    | error e =>
        rw [applyBinary_error hresult]
        rcases hunknown with ⟨rfl, rfl⟩ | hunknown
        · rw [hresult, applyBinary_error hresult]
          exact Narrows.failed
        · rw [hunknown]
          exact Narrows.fails none
    | ok y =>
        rcases hunknown with ⟨rfl, rfl⟩ | hunknown
        · rw [hresult]
          exact Narrows.fills (Fills.refl y)
        · rw [hunknown]
          exact Narrows.fills (fills_none y)

theorem narrows_fails (op : BinaryOp) (l r : Option Value) :
    Narrows (applyBinary op l r) (.error .divisionByZero) := by
  cases hresult : applyBinary op l r with
  | error e =>
      rw [applyBinary_error hresult]
      exact Narrows.failed
  | ok x => exact Narrows.fails x

/-!
# Conditions
-/

theorem known_unary (env : Environment) (op : UnaryOp) (x : Condition) :
    known env (.unary op x) = (known env x).map (Option.map (applyUnary op)) := by
  rw [known]
  cases known env x <;> rfl

theorem known_binary (env : Environment) (op : BinaryOp) (left right : Condition) :
    known env (.binary op left right) =
      (known env left).bind fun l => (known env right).bind fun r => applyBinary op l r := by
  rw [known]
  cases known env left with
  | error e => rfl
  | ok l => cases known env right <;> rfl

theorem narrows_known {macros env : Environment} (henv : macros.Extends env) (c : Condition) :
    Narrows (known env c) (known macros c) := by
  induction c with
  | literal v => exact Narrows.fills (Fills.refl _)
  | ident n => exact Narrows.fills (henv n)
  | defined n =>
      have hfills : Fills (env n) (macros n) := henv n
      exact Narrows.fills (hfills.map _)
  | unary op x ih =>
      rw [known_unary, known_unary]
      generalize known env x = before at ih ⊢
      generalize known macros x = after at ih ⊢
      cases ih with
      | fills hx => exact Narrows.fills (hx.map _)
      | fails x => exact Narrows.fails _
      | failed => exact Narrows.failed
  | binary op left right ihl ihr =>
      rw [known_binary, known_binary]
      generalize known env left = l at ihl ⊢
      generalize known macros left = l' at ihl ⊢
      generalize known env right = r at ihr ⊢
      generalize known macros right = r' at ihr ⊢
      cases ihl with
      | failed => exact Narrows.failed
      | fails l =>
          cases ihr with
          | failed => exact Narrows.failed
          | fails r => exact narrows_fails op l r
          | fills _ => exact narrows_fails op l _
      | fills hl =>
          cases ihr with
          | failed => exact Narrows.failed
          | fails r => exact narrows_fails op _ r
          | fills hr => exact narrows_applyBinary op hl hr

theorem known_error {env : Environment} {c : Condition} {e : EvalError}
    (h : known env c = .error e) : e = .divisionByZero := by
  have hnarrows := narrows_known (fun _ _ => id : env.Extends env) c
  rw [h] at hnarrows
  cases hnarrows
  rfl

theorem known_error_of_extends {macros env : Environment} (henv : macros.Extends env)
    {c : Condition} {e : EvalError} (h : known env c = .error e) :
    known macros c = .error .divisionByZero := by
  have hnarrows := narrows_known henv c
  rw [h] at hnarrows
  generalize known macros c = after at hnarrows ⊢
  cases hnarrows with
  | failed => rfl

theorem eval_eq_ok_iff {env : Environment} {c : Condition} {v : Value} :
    eval env c = .ok v ↔ known env c = .ok (some v) := by
  unfold eval
  cases known env c with
  | error e => simp
  | ok x => cases x <;> simp

/-- What is known of a condition is not revised when more macros are known: the value stays or a
division by zero comes to light, a failure stays, and a complete evaluation gives the value. -/
theorem known_monotone {macros env : Environment} (henv : macros.Extends env) (c : Condition) :
    (forall v, known env c = .ok (some v) ->
      (known macros c = .ok (some v) ∨ known macros c = .error .divisionByZero) ∧
        forall w, eval macros c = .ok w -> w = v) ∧
      forall e, known env c = .error e -> known macros c = .error e := by
  have hnarrows := narrows_known henv c
  generalize hbefore : known env c = before at hnarrows
  generalize hafter : known macros c = after at hnarrows
  constructor
  · rintro v rfl
    have hstays : after = .ok (some v) ∨ after = .error .divisionByZero := by
      cases hnarrows with
      | fills h => exact Or.inl (congrArg Except.ok (h v rfl))
      | fails _ => exact Or.inr rfl
    refine ⟨hstays, ?_⟩
    intro w hw
    rw [eval_eq_ok_iff, hafter] at hw
    rcases hstays with rfl | rfl
    · exact (Option.some.inj (Except.ok.inj hw)).symm
    · cases hw
  · rintro e rfl
    cases hnarrows with
    | failed => rfl

/-- A conjunction that one side has decided fails when the other one turns out to divide by zero. -/
theorem known_monotone_quotient :
    let c : Condition := .binary .and (.ident "A") (.binary .div (.literal (.int 1)) (.ident "B"))
    let env : Environment := Table.get? [("A", .int 0)]
    let macros : Environment := Table.get? [("A", .int 0), ("B", .int 0)]
    macros.Extends env ∧ known env c = .ok (some (.bool false)) ∧
      (known macros c = .ok (some (.bool false)) ∨ known macros c = .error .divisionByZero) ∧
      known macros c ≠ .ok (some (.bool false)) ∧
      forall w, eval macros c = .ok w -> w = .bool false := by
  intro c env macros
  have henv : macros.Extends env := by
    intro n v hn
    have hname : n = "A" ∧ v = .int 0 := by
      unfold env at hn
      rw [Table.get?_cons] at hn
      split at hn
      · rename_i hn'
        exact ⟨(eq_of_beq hn').symm, (Option.some.inj hn).symm⟩
      · cases hn
    rw [hname.1, hname.2]
    rfl
  have hknown : known env c = .ok (some (.bool false)) := rfl
  have hzero : known macros c = .error .divisionByZero := rfl
  rcases (known_monotone henv c).1 _ hknown with ⟨hstays, heval⟩
  refine ⟨henv, hknown, hstays, ?_, heval⟩
  rw [hzero]
  exact fun h => nomatch h

end Condition

end EffectShader
