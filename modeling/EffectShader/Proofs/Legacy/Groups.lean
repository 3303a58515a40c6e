import EffectShader.Proofs.Legacy.Statements

/-!
# Where a group closes

The depth of a group grows with its opening operators and falls with the closing
ones, so a group that starts with one open level closes at the first closing operator
up to which both occur equally often.  A stream that skips a group and the split that
cuts off a layout qualifier both count the levels, each in its own way, and find the
same token.
-/

namespace EffectShader

/-!
# Counting operators
-/

def countOp (op : Text) (ts : List Token) : Nat :=
  ts.countP fun t => t.isOp op

theorem countOp_nil (op : Text) : countOp op [] = 0 := rfl

theorem countOp_cons_of_isOp {op : Text} {t : Token} (h : t.isOp op = true) (ts : List Token) :
    countOp op (t :: ts) = countOp op ts + 1 :=
  List.countP_cons_of_pos h

theorem countOp_cons_of_not_isOp {op : Text} {t : Token} (h : t.isOp op = false)
    (ts : List Token) : countOp op (t :: ts) = countOp op ts :=
  List.countP_cons_of_neg (by simp [h])

theorem isOp_eq_false {op op' : Text} (hne : op ≠ op') {t : Token} (h : t.isOp op = true) :
    t.isOp op' = false := by
  unfold Token.isOp at h ⊢
  rw [eq_of_beq (Bool.and_eq_true_iff.mp h).2, beq_false_of_ne hne, Bool.and_false]

theorem isOp_of_eof {t : Token} (h : t.kind = .eof) (op : Text) : t.isOp op = false := by
  unfold Token.isOp
  rw [h]
  rfl

namespace Legacy

/-!
# One token of a group
-/

section Levels

variable (opening closing : Text) (depth : Nat)

def closes (t : Token) : Bool :=
  !t.isOp opening && t.isOp closing && decide (depth ≤ 1)

def levels (t : Token) : Nat :=
  if t.isOp opening then depth + 1 else if t.isOp closing then depth - 1 else depth

theorem splitGroup_cons (t : Token) (ts : List Token) :
    splitGroup opening closing depth (t :: ts) =
      if closes opening closing depth t then ([t], ts)
      else (t :: (splitGroup opening closing (levels opening closing depth t) ts).1,
        (splitGroup opening closing (levels opening closing depth t) ts).2) := by
  rw [splitGroup, closes, levels]
  cases t.isOp opening <;> cases t.isOp closing <;> cases hdepth : decide (depth ≤ 1) <;> rfl

theorem closeGroup_cons {t : Token} (ht : t.kind ≠ .eof) (ts : List Token) :
    Stream.closeGroup opening closing depth (t :: ts) =
      if closes opening closing depth t then (t, ts)
      else Stream.closeGroup opening closing (levels opening closing depth t) ts := by
  rw [Stream.closeGroup, closes, levels, if_neg (by simpa using ht)]
  cases t.isOp opening <;> cases t.isOp closing <;> by_cases hdepth : depth ≤ 1 <;> simp [hdepth]

end Levels

theorem getLast?_splitGroup (opening closing : Text) (depth : Nat) {body : List Token} {e : Token}
    (he : e.kind = .eof) (hbody : forall t, t ∈ body -> t.kind ≠ .eof) :
    (splitGroup opening closing depth (body ++ [e])).1.getLast? =
      some (Stream.closeGroup opening closing depth (body ++ [e])).1 := by
  induction body generalizing depth with
  | nil =>
      rw [List.nil_append, splitGroup_cons, closes, isOp_of_eof he closing, Stream.closeGroup, he]
      simp [splitGroup]
  | cons t body ih =>
      rcases List.forall_mem_cons.mp hbody with ⟨ht, hbody⟩
      rw [List.cons_append, splitGroup_cons, closeGroup_cons _ _ _ ht]
      cases closes opening closing depth t with
      | true => rfl
      | false =>
          have hlast := ih (levels opening closing depth t) hbody
          simp only [Bool.false_eq_true, if_false]
          rw [List.getLast?_cons, hlast, Option.getD_some]

/-!
# The depth of a group
-/

/-- A group of which `depth` levels are open does not close before or with the last token. -/
def StaysOpen (opening closing : Text) (depth : Nat) (ts : List Token) : Prop :=
  forall us, us <+: ts -> countOp closing us < countOp opening us + depth

section Depth

variable {opening closing : Text} (hne : opening ≠ closing) {depth : Nat}

theorem staysOpen_nil (hdepth : 1 ≤ depth) : StaysOpen opening closing depth [] := by
  intro us hus
  rw [List.prefix_nil.mp hus, countOp_nil, countOp_nil]
  omega

include hne

theorem countOp_cons_levels (hdepth : 1 ≤ depth) {t : Token}
    (ht : closes opening closing depth t = false) :
    1 ≤ levels opening closing depth t ∧ forall ts,
      countOp closing (t :: ts) + levels opening closing depth t + countOp opening ts =
        countOp opening (t :: ts) + depth + countOp closing ts := by
  unfold closes at ht
  unfold levels
  cases hopen : t.isOp opening with
  | true =>
      have hclose := isOp_eq_false hne hopen
      refine ⟨by simp, fun ts => ?_⟩
      rw [countOp_cons_of_isOp hopen, countOp_cons_of_not_isOp hclose, if_pos rfl]
      omega
  | false =>
      cases hclose : t.isOp closing with
      | true =>
          have hdeep : 1 < depth := by simpa [hopen, hclose] using ht
          refine ⟨by simp; omega, fun ts => ?_⟩
          rw [countOp_cons_of_not_isOp hopen, countOp_cons_of_isOp hclose]
          simp only [Bool.false_eq_true, if_false, if_true]
          omega
      | false =>
          refine ⟨by simpa using hdepth, fun ts => ?_⟩
          rw [countOp_cons_of_not_isOp hopen, countOp_cons_of_not_isOp hclose]
          simp only [Bool.false_eq_true, if_false]
          omega

theorem StaysOpen.cons (hdepth : 1 ≤ depth) {t : Token} {ts : List Token}
    (ht : closes opening closing depth t = false)
    (h : StaysOpen opening closing (levels opening closing depth t) ts) :
    StaysOpen opening closing depth (t :: ts) := by
  intro us hus
  rcases List.prefix_cons_iff.mp hus with rfl | ⟨rest, rfl, hrest⟩
  · rw [countOp_nil, countOp_nil]
    omega
  · have hcount := (countOp_cons_levels hne hdepth ht).2 rest
    have hopen := h rest hrest
    omega

omit hne in
theorem StaysOpen.lt_take {ts us : List Token} (h : StaysOpen opening closing depth us)
    (hus : us <+: ts) {n : Nat} (hn : n ≤ us.length) :
    countOp closing (ts.take n) < countOp opening (ts.take n) + depth := by
  rcases hus with ⟨rest, rfl⟩
  rw [List.take_append_of_le_length hn]
  exact h _ (List.take_prefix n us)

theorem splitGroup_balance (hdepth : 1 ≤ depth) (ts : List Token) :
    (exists us t, (splitGroup opening closing depth ts).1 = us ++ [t] ∧
      t.isOp closing = true ∧ StaysOpen opening closing depth us ∧
      countOp closing (us ++ [t]) = countOp opening (us ++ [t]) + depth) ∨
    (splitGroup opening closing depth ts).1 = ts ∧ StaysOpen opening closing depth ts := by
  induction ts generalizing depth with
  | nil => exact Or.inr ⟨rfl, staysOpen_nil hdepth⟩
  | cons t ts ih =>
      rw [splitGroup_cons]
      cases ht : closes opening closing depth t with
      | true =>
          have hcases := ht
          simp only [closes, Bool.and_eq_true, Bool.not_eq_true', decide_eq_true_eq] at hcases
          rcases hcases with ⟨⟨hopen, hclose⟩, hone⟩
          refine Or.inl ⟨[], t, rfl, hclose, staysOpen_nil hdepth, ?_⟩
          rw [List.nil_append, countOp_cons_of_isOp hclose, countOp_cons_of_not_isOp hopen,
            countOp_nil, countOp_nil]
          omega
      | false =>
          rcases countOp_cons_levels hne hdepth ht with ⟨hlevels, hcount⟩
          rcases ih hlevels with ⟨us, u, hgroup, hclose, hstays, hbalance⟩ | ⟨hgroup, hstays⟩
          · refine Or.inl ⟨t :: us, u, ?_, hclose, hstays.cons hne hdepth ht, ?_⟩
            · simp [hgroup]
            · have hlast := hcount (us ++ [u])
              rw [List.cons_append]
              omega
          · exact Or.inr ⟨by simp [hgroup], hstays.cons hne hdepth ht⟩

end Depth

/-!
# Tokens by their index
-/

def closingIndex (opening closing : Text) (ts : List Token) (i : Nat) : Nat :=
  i + (splitGroup opening closing 0 (ts.drop i)).1.length - 1

/-- The token at index `j` is a closing operator, and from index `i` up to it there are as many
closing as opening operators. -/
structure Balances (opening closing : Text) (ts : List Token) (i j : Nat) : Prop where
  le : i ≤ j
  operator : ts[j]?.any (fun t => t.isOp closing) = true
  equal : countOp opening ((ts.take (j + 1)).drop i) = countOp closing ((ts.take (j + 1)).drop i)

section Index

variable {opening closing : Text} (hne : opening ≠ closing) {before after : List Token} {t : Token}
  (ht : t.isOp opening = true)

include ht

theorem closingIndex_append :
    closingIndex opening closing (before ++ t :: after) before.length =
      before.length + (splitGroup opening closing 1 after).1.length := by
  unfold closingIndex
  rw [List.drop_left, splitGroup_cons, closes, levels, ht]
  rfl

theorem getElem?_closingIndex {u : Token}
    (hu : (splitGroup opening closing 1 after).1.getLast? = some u) :
    (before ++ t :: after)[closingIndex opening closing (before ++ t :: after) before.length]? =
      some u := by
  have happend := splitGroup_append opening closing 1 after
  rcases List.getLast?_eq_some_iff.mp hu with ⟨us, hgroup⟩
  rw [closingIndex_append ht, List.getElem?_append_right (Nat.le_add_right _ _),
    Nat.add_sub_cancel_left, hgroup, List.length_append, List.length_singleton,
    List.getElem?_cons_succ]
  rw [hgroup, List.append_assoc, List.singleton_append] at happend
  rw [← happend, List.getElem?_append_right (Nat.le_refl _), Nat.sub_self, List.getElem?_cons_zero]

include hne

theorem balances_iff {j : Nat} :
    Balances opening closing (before ++ t :: after) before.length j ↔
      exists m, j = before.length + (m + 1) ∧ after[m]?.any (fun u => u.isOp closing) = true ∧
        countOp closing (after.take (m + 1)) = countOp opening (after.take (m + 1)) + 1 := by
  have hclose : t.isOp closing = false := isOp_eq_false hne ht
  have hoperator (n : Nat) :
      (before ++ t :: after)[before.length + n]? = (t :: after)[n]? := by
    rw [List.getElem?_append_right (Nat.le_add_right _ _), Nat.add_sub_cancel_left]
  have hbetween (n : Nat) :
      ((before ++ t :: after).take (before.length + n + 1)).drop before.length =
        t :: after.take n := by
    rw [List.drop_take, List.drop_left, Nat.add_assoc, Nat.add_sub_cancel_left, List.take_succ_cons]
  constructor
  · intro h
    rcases Nat.exists_eq_add_of_le h.le with ⟨n, rfl⟩
    have hop := h.operator
    have hequal := h.equal
    rw [hoperator] at hop
    rw [hbetween, countOp_cons_of_isOp ht, countOp_cons_of_not_isOp hclose] at hequal
    cases n with
    | zero =>
        rw [List.getElem?_cons_zero, Option.any_some, hclose] at hop
        cases hop
    | succ m => exact ⟨m, rfl, hop, hequal.symm⟩
  · intro h
    rcases h with ⟨m, rfl, hop, hequal⟩
    constructor
    · exact Nat.le_add_right _ _
    · rw [hoperator, List.getElem?_cons_succ]
      exact hop
    · rw [hbetween, countOp_cons_of_isOp ht, countOp_cons_of_not_isOp hclose, hequal]

/-- No operators balance within tokens behind which the group is still open. -/
theorem not_balances_of_staysOpen {us : List Token} (h : StaysOpen opening closing 1 us)
    (hus : us <+: after) {j : Nat} (hj : j ≤ before.length + us.length) :
    ¬ Balances opening closing (before ++ t :: after) before.length j := by
  intro hbalances
  rcases (balances_iff hne ht).mp hbalances with ⟨m, rfl, _, hequal⟩
  have hlt := h.lt_take hus (n := m + 1) (by omega)
  omega

theorem closingIndex_balances :
    let ts := before ++ t :: after
    let j := closingIndex opening closing ts before.length
    (Balances opening closing ts before.length j ∧
        forall k, k < j -> ¬ Balances opening closing ts before.length k) ∨
      (splitGroup opening closing 1 after).1 = after ∧
        forall k, ¬ Balances opening closing ts before.length k := by
  intro ts j
  have hj : j = before.length + (splitGroup opening closing 1 after).1.length :=
    closingIndex_append ht
  have happend := splitGroup_append opening closing 1 after
  rcases splitGroup_balance hne (Nat.le_refl 1) after with
    ⟨us, u, hgroup, hclose, hstays, hbalance⟩ | ⟨hgroup, hstays⟩
  · apply Or.inl
    rw [hgroup, List.length_append, List.length_singleton] at hj
    rw [hgroup] at happend
    constructor
    · rw [hj]
      apply (balances_iff hne ht).mpr
      refine ⟨us.length, rfl, ?_, ?_⟩
      · rw [← happend, List.append_assoc, List.getElem?_append_right (Nat.le_refl _), Nat.sub_self]
        exact hclose
      · rw [← happend, List.take_left' (by simp)]
        exact hbalance
    · intro k hk
      rw [List.append_assoc] at happend
      exact not_balances_of_staysOpen hne ht hstays ⟨_, happend⟩ (by omega)
  · apply Or.inr
    constructor
    · exact hgroup
    · intro k hbalances
      have hlt : k < (before ++ t :: after).length := by
        by_contra hle
        have hop := hbalances.operator
        rw [List.getElem?_eq_none (Nat.le_of_not_lt hle)] at hop
        cases hop
      rw [List.length_append, List.length_cons] at hlt
      exact not_balances_of_staysOpen hne ht hstays (List.prefix_refl _) (by omega) hbalances

end Index

theorem layoutTokens?_eq (ts : List Token) :
    layoutTokens? ts =
      (Stream.acceptOp? "(" ts).map fun _ =>
        let stop := closingIndex "(" ")" ts (ts.takeWhile Token.isTrivia).length + 1
        let onLine := fun (t : Token) => t.kind == .whitespace && Text.newlines t.text == 0
        (ts.take stop ++ (ts.drop stop).takeWhile onLine, (ts.drop stop).dropWhile onLine) := by
  unfold layoutTokens? Stream.acceptOp?
  by_cases hop : (Stream.peekSignificant ts).isOp "(" = true
  · have hkind : (Stream.peekSignificant ts).kind ≠ .eof := by
      rw [Declaration.kind_of_isOp hop]
      decide
    rcases Stream.exists_of_peekSignificant hkind with ⟨trivia, hsplit, hsolid, htrivia⟩
    rw [if_pos hop, Option.map_some]
    generalize Stream.peekSignificant ts = t at hop hsplit hsolid
    generalize Stream.tailSignificant ts = inner at hsplit
    subst hsplit
    have hskip : (trivia ++ t :: inner).takeWhile Token.isTrivia = trivia := by
      rw [List.takeWhile_append_of_pos htrivia, List.takeWhile_cons_of_neg (by simp [hsolid]),
        List.append_nil]
    have happend := splitGroup_append "(" ")" 1 inner
    rw [hskip, closingIndex_append hop]
    rcases hgroup : splitGroup "(" ")" 1 inner with ⟨group, rest⟩
    rw [hgroup] at happend
    dsimp only at happend ⊢
    have hlong : trivia ++ t :: inner = (trivia ++ [t] ++ group) ++ rest := by simp [← happend]
    have hopened : (trivia ++ t :: inner).length - inner.length = (trivia ++ [t]).length := by
      simp
      omega
    have hstop : trivia.length + group.length + 1 = (trivia ++ [t] ++ group).length := by
      simp
      omega
    rw [hopened, hstop, hlong, List.take_left, List.drop_left, List.append_assoc _ group rest,
      List.take_left, hgroup]
  · rw [if_neg hop]
    rfl

/-!
# The two matchers agree
-/

/-- Tokens that end in their only end marker, divided at one that is not the marker. -/
theorem exists_body_of_append {body before after : List Token} {e t : Token} (he : e.kind = .eof)
    (hbody : forall u, u ∈ body -> u.kind ≠ .eof) (ht : t.kind ≠ .eof)
    (h : body ++ [e] = before ++ t :: after) :
    exists rest, after = rest ++ [e] ∧ forall u, u ∈ rest -> u.kind ≠ .eof := by
  rcases List.eq_nil_or_concat after with rfl | ⟨rest, u, rfl⟩
  · have hlast : e = t := by simpa using (List.append_inj' h rfl).2
    exact absurd (hlast ▸ he) ht
  · rw [List.concat_eq_append] at h ⊢
    rw [← List.cons_append, ← List.append_assoc] at h
    rcases List.append_inj' h rfl with ⟨hbefore, hlast⟩
    cases hlast
    refine ⟨rest, rfl, fun u hu => hbody u ?_⟩
    rw [hbefore]
    exact List.mem_append_right before (List.mem_cons_of_mem t hu)

theorem rest_seek {before body : List Token} {e : Token} (he : e.kind = .eof) (t : Token) :
    ((Cursor.ofTokens (before ++ t :: (body ++ [e]))).seek (before.length + 1)).rest =
      body ++ [e] := by
  have hclosed : Cursor.closed (before ++ t :: (body ++ [e])) = before ++ t :: (body ++ [e]) := by
    unfold Cursor.closed
    rw [← List.cons_append, ← List.append_assoc, List.getLast?_concat]
    simp [he]
  have hpos : ((before.length : Int) + 1).toNat = before.length + 1 := by omega
  unfold Cursor.ofTokens Cursor.seek Cursor.rest
  rw [hclosed, hpos, Nat.min_eq_left (by simp), List.append_cons, List.drop_left' (by simp)]

/-- In tokens that end in their only end marker, the split of a group opened at an index and a
cursor just behind that index find the same token: the first closing operator up to which as many
groups are closed as opened, or the end marker if there is none. -/
theorem closingIndex_skipBalanced {opening closing : Text} (hne : opening ≠ closing)
    {ts body : List Token} {e : Token} (hts : ts = body ++ [e]) (he : e.kind = .eof)
    (hbody : forall t, t ∈ body -> t.kind ≠ .eof) {i : Nat}
    (hi : ts[i]?.any (fun t => t.isOp opening) = true) :
    let j := closingIndex opening closing ts i
    ts[j]? = some (((Cursor.ofTokens ts).seek (i + 1)).skipBalanced opening closing).1 ∧
      (Balances opening closing ts i j ∧ (forall k, k < j -> ¬ Balances opening closing ts i k) ∨
        ts[j]? = some e ∧ forall k, ¬ Balances opening closing ts i k) := by
  intro j
  rcases (Option.any_eq_true _ _).mp hi with ⟨t, hget, ht⟩
  rcases List.getElem?_eq_some_iff.mp hget with ⟨hlt, rfl⟩
  have hsplit : ts = ts.take i ++ ts[i] :: ts.drop (i + 1) := by
    rw [← List.drop_eq_getElem_cons hlt, List.take_append_drop]
  have hlength : (ts.take i).length = i := by
    rw [List.length_take]
    omega
  generalize ts[i] = t at ht hsplit
  generalize ts.take i = before at hsplit hlength
  generalize ts.drop (i + 1) = after at hsplit
  subst hsplit hlength
  have hkind : t.kind ≠ .eof := by
    rw [Declaration.kind_of_isOp ht]
    decide
  rcases exists_body_of_append he hbody hkind hts.symm with ⟨rest, rfl, hrest⟩
  have hskip : (((Cursor.ofTokens (before ++ t :: (rest ++ [e]))).seek
      (before.length + 1)).skipBalanced opening closing).1 =
      (Stream.closeGroup opening closing 1 (rest ++ [e])).1 := by
    unfold Cursor.skipBalanced Stream.skipBalanced
    rw [rest_seek he t]
  have hlast := getLast?_splitGroup opening closing 1 he hrest
  constructor
  · rw [hskip]
    exact getElem?_closingIndex ht hlast
  · rcases closingIndex_balances hne ht with hbalances | ⟨hgroup, hnone⟩
    · exact Or.inl hbalances
    · rw [hgroup, List.getLast?_concat] at hlast
      apply Or.inr
      constructor
      · apply getElem?_closingIndex ht
        rw [hgroup, List.getLast?_concat]
      · exact hnone

/-- A group with another one inside, and one that is never closed. -/
theorem closingIndex_skipBalanced_nested :
    let ts : List Token :=
      [⟨.operator, Op.openBrace, ⟨1, 1, 0⟩⟩, ⟨.ident, "a", ⟨1, 2, 1⟩⟩,
        ⟨.operator, Op.openBrace, ⟨1, 3, 2⟩⟩, ⟨.ident, "b", ⟨1, 4, 3⟩⟩,
        ⟨.operator, Op.closeBrace, ⟨1, 5, 4⟩⟩, ⟨.operator, Op.closeBrace, ⟨1, 6, 5⟩⟩,
        ⟨.operator, Op.openBrace, ⟨1, 7, 6⟩⟩, ⟨.eof, [], ⟨1, 8, 7⟩⟩]
    (closingIndex Op.openBrace Op.closeBrace ts 0 = 5 ∧
        ts[5]? =
          some (((Cursor.ofTokens ts).seek 1).skipBalanced Op.openBrace Op.closeBrace).1 ∧
        Balances Op.openBrace Op.closeBrace ts 0 5 ∧
        forall k, k < 5 -> ¬ Balances Op.openBrace Op.closeBrace ts 0 k) ∧
      closingIndex Op.openBrace Op.closeBrace ts 6 = 7 ∧
        ts[7]? =
          some (((Cursor.ofTokens ts).seek 7).skipBalanced Op.openBrace Op.closeBrace).1 ∧
        forall k, ¬ Balances Op.openBrace Op.closeBrace ts 6 k := by
  intro ts
  have hbraces : Op.openBrace ≠ Op.closeBrace := by decide
  have hts : ts = ts.dropLast ++ [Token.endAt ⟨1, 8, 7⟩] := rfl
  have hbody : forall t, t ∈ ts.dropLast -> t.kind ≠ .eof := by decide
  rcases closingIndex_skipBalanced hbraces hts rfl hbody (i := 0) (by decide) with
    ⟨hinner, hbalances | ⟨hend, _⟩⟩
  · rcases closingIndex_skipBalanced hbraces hts rfl hbody (i := 6) (by decide) with
      ⟨hopen, ⟨hbalances', _⟩ | ⟨_, hnone⟩⟩
    · exact absurd hbalances'.operator (by decide)
    · exact ⟨⟨by decide, hinner, hbalances⟩, by decide, hopen, hnone⟩
  · exact absurd hend (by decide)

end Legacy

end EffectShader
