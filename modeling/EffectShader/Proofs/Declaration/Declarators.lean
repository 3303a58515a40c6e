import EffectShader.Proofs.Declaration.Qualifiers

/-!
# Lists of declarators

A list of declarators is cut at the commas between them.  Each declarator stands
for itself: read alone it gives the same variable, and so does a copy of its
tokens at another place.
-/

namespace EffectShader

namespace Declaration

theorem isOp_eq_false {t : Token} {op op' : Text} (h : t.isOp op = true) (hne : op ≠ op') :
    t.isOp op' = false := by
  unfold Token.isOp at h ⊢
  rw [Bool.and_eq_true_iff] at h
  rw [eq_of_beq h.2, beq_false_of_ne hne, Bool.and_false]

/-!
# Brackets and initializers
-/

theorem exists_of_bracketed? {depth : Nat} {ts rest : List Token} {texts : List Text}
    (h : bracketed? depth ts = some (texts, rest)) :
    exists inner close after, ts = inner ++ close :: after ∧ inner.length = texts.length ∧
      forall after', exists rest',
        bracketed? depth (inner ++ close :: after') = some (texts, rest') := by
  induction ts generalizing depth texts with
  | nil => cases h
  | cons t ts ih =>
      rw [bracketed?] at h
      cases hclose : t.isOp "]" && decide (depth ≤ 1) with
      | true =>
          rw [if_pos hclose] at h
          cases h
          refine ⟨[], t, ts, rfl, rfl, fun after' => ⟨t :: after', ?_⟩⟩
          rw [List.nil_append, bracketed?, if_pos hclose]
      | false =>
          rw [if_neg (by simp [hclose])] at h
          rcases Option.map_eq_some_iff.mp h with ⟨⟨texts', rest'⟩, hread, heq⟩
          cases heq
          rcases ih hread with ⟨inner, close, after, rfl, hlen, hfree⟩
          refine ⟨t :: inner, close, after, rfl, by simp [hlen], fun after' => ?_⟩
          rcases hfree after' with ⟨rest'', hread'⟩
          refine ⟨rest'', ?_⟩
          rw [List.cons_append, bracketed?, if_neg (by simp [hclose])]
          dsimp only
          rw [hread']
          rfl

theorem initializerExtent_le (depth : Int) (ts : List Token) :
    initializerExtent depth ts ≤ ts.length := by
  induction ts generalizing depth with
  | nil => simp [initializerExtent]
  | cons t ts ih =>
      rw [initializerExtent]
      split
      · simp
      · exact Nat.succ_le_succ (ih _)

theorem initializerExtent_take {depth : Int} {ts : List Token} {n : Nat}
    (h : initializerExtent depth ts ≤ n) :
    initializerExtent depth (ts.take n) = initializerExtent depth ts := by
  induction ts generalizing depth n with
  | nil => simp [initializerExtent]
  | cons t ts ih =>
      rw [initializerExtent] at h ⊢
      split at h
      · rename_i hcomma
        rw [if_pos hcomma]
        cases n with
        | zero => rfl
        | succ n => rw [List.take_succ_cons, initializerExtent, if_pos hcomma]
      · rename_i hcomma
        rw [if_neg hcomma]
        cases n with
        | zero => exact absurd h (Nat.not_succ_le_zero _)
        | succ n =>
            rw [List.take_succ_cons, initializerExtent, if_neg hcomma]
            dsimp only
            rw [ih (Nat.le_of_succ_le_succ h)]

theorem initializer_cons (t : Token) (ts : List Token) :
    initializer (t :: ts) = if t.isOp "=" then initializerExtent 0 (t :: ts) else 0 := rfl

theorem initializer_le (ts : List Token) : initializer ts ≤ ts.length := by
  cases ts with
  | nil => simp [initializer]
  | cons t ts =>
      rw [initializer_cons]
      split
      · exact initializerExtent_le 0 (t :: ts)
      · simp

theorem initializer_take {ts : List Token} {n : Nat} (h : initializer ts ≤ n) :
    initializer (ts.take n) = initializer ts := by
  cases ts with
  | nil => simp [initializer]
  | cons t ts =>
      rw [initializer_cons] at h ⊢
      split at h
      · rename_i hequals
        have hcomma : t.isOp "," = false := isOp_eq_false hequals (by decide)
        rw [if_pos hequals, ← initializerExtent_take h]
        cases n with
        | zero =>
            rw [initializerExtent, if_neg (by simp [hcomma])] at h
            exact absurd h (Nat.not_succ_le_zero _)
        | succ n => rw [List.take_succ_cons, initializer_cons, if_pos hequals]
      · rename_i hequals
        rw [if_neg hequals]
        cases n with
        | zero => rfl
        | succ n => rw [List.take_succ_cons, initializer_cons, if_neg hequals]

theorem arrayExtent?_take {ts : List Token} {n : Nat} {length : Option Text}
    (h : arrayExtent? ts = some (n, length)) {m : Nat} (hm : n ≤ m) :
    n ≤ ts.length ∧ arrayExtent? (ts.take m) = some (n, length) := by
  cases ts with
  | nil =>
      cases h
      exact ⟨by simp, by simp [arrayExtent?]⟩
  | cons t ts =>
      unfold arrayExtent? at h
      dsimp only at h
      cases hopen : t.isOp "[" with
      | false =>
          rw [if_neg (by simp [hopen])] at h
          cases h
          refine ⟨by simp, ?_⟩
          cases m with
          | zero => rfl
          | succ m =>
              rw [List.take_succ_cons]
              unfold arrayExtent?
              dsimp only
              rw [if_neg (by simp [hopen])]
      | true =>
          rw [if_pos hopen] at h
          rcases Option.map_eq_some_iff.mp h with ⟨⟨texts, rest⟩, hread, heq⟩
          cases heq
          rcases exists_of_bracketed? hread with ⟨inner, close, after, rfl, hlen, hfree⟩
          refine ⟨by simp only [List.length_cons, List.length_append]; omega, ?_⟩
          have htake : (t :: (inner ++ close :: after)).take m =
              t :: (inner ++ close :: after.take (m - (inner.length + 2))) := by
            rcases Nat.exists_eq_add_of_le hm with ⟨k, rfl⟩
            rw [← hlen, show inner.length + 2 + k = (inner.length + (k + 1)) + 1 by omega,
              List.take_succ_cons, List.take_length_add_append, List.take_succ_cons]
            congr 4
            omega
          rcases hfree (after.take (m - (inner.length + 2))) with ⟨rest', hread'⟩
          rw [htake]
          unfold arrayExtent?
          dsimp only
          rw [if_pos hopen, hread']
          rfl

/-!
# Variables
-/

def SpellsVariable (ts : List Token) (v : Variable) : Prop :=
  exists name tail brackets, ts = name :: tail ∧ name.isWord = true ∧
    arrayExtent? tail = some (brackets, v.length) ∧
    brackets + initializer (tail.drop brackets) = tail.length ∧
    v = ⟨name.text, v.length, name.line, name.offset, (tail.getLast?.getD name).stop⟩

inductive SpellsVariables : List Token -> List Variable -> Prop where
  | nil : SpellsVariables [] []
  | single {ts : List Token} {v : Variable} : SpellsVariable ts v -> SpellsVariables ts [v]
  | cons {ts us : List Token} {comma : Token} {v : Variable} {vs : List Variable} :
      SpellsVariable ts v -> comma.isOp "," = true -> SpellsVariables us vs ->
      SpellsVariables (ts ++ comma :: us) (v :: vs)

theorem spellsVariable_take {name : Token} {ts : List Token} {brackets : Nat}
    {length : Option Text} (hname : name.isWord = true)
    (harray : arrayExtent? ts = some (brackets, length)) :
    let extent := brackets + initializer (ts.drop brackets)
    extent ≤ ts.length ∧
      SpellsVariable (name :: ts.take extent)
        ⟨name.text, length, name.line, name.offset,
        ((ts.take extent).getLast?.getD name).stop⟩ := by
  intro extent
  have hinit := initializer_le (ts.drop brackets)
  rcases arrayExtent?_take harray (Nat.le_add_right brackets (initializer (ts.drop brackets))) with
    ⟨hle, htake⟩
  rw [List.length_drop] at hinit
  have hextent : extent ≤ ts.length := by omega
  refine ⟨hextent, name, ts.take extent, brackets, rfl, hname, htake, ?_, rfl⟩
  rw [List.drop_take, show extent - brackets = initializer (ts.drop brackets) by omega,
    initializer_take (Nat.le_refl _), List.length_take_of_le hextent]

theorem SpellsVariable.parse {ts : List Token} {v : Variable} (h : SpellsVariable ts v) :
    parseDeclarators? ts = some [v] := by
  rcases h with ⟨name, tail, brackets, rfl, hname, harray, hextent, hv⟩
  rw [parseDeclarators?, if_neg (by simp [hname]), harray]
  dsimp only
  rw [hextent, List.drop_length, List.take_length, ← hv]

theorem SpellsVariable.ends {ts : List Token} {v : Variable} (h : SpellsVariable ts v) :
    exists first last, ts.head? = some first ∧ ts.getLast? = some last ∧
      (first.isWord = true ∧ v.name = first.text) ∧
      v.start = first.offset ∧ v.stop = last.stop := by
  rcases h with ⟨name, tail, brackets, rfl, hword, _, _, hv⟩
  refine ⟨name, tail.getLast?.getD name, rfl, ?_, ⟨hword, ?_⟩, ?_, ?_⟩
  · rw [List.getLast?_cons]
  · rw [hv]
  · rw [hv]
  · rw [hv]

theorem parseDeclarators?_cons_of_extent {name comma : Token} {ts names after : List Token}
    {brackets extent : Nat} {length : Option Text} {vs : List Variable} (hname : name.isWord = true)
    (harray : arrayExtent? ts = some (brackets, length))
    (hextent : brackets + initializer (ts.drop brackets) = extent)
    (hdrop : ts.drop extent = comma :: (names ++ after)) (hcomma : comma.isOp "," = true)
    (hnames : parseDeclarators? names = some vs) :
    parseDeclarators? (name :: ts.take extent ++ comma :: names) =
      some (⟨name.text, length, name.line, name.offset,
        ((ts.take extent).getLast?.getD name).stop⟩ :: vs) := by
  have hle : extent ≤ ts.length := by
    have hpos := congrArg List.length hdrop
    simp only [List.length_drop, List.length_cons] at hpos
    omega
  have hsplit := List.take_append_drop extent ts
  have htake : ts.take extent ++ comma :: names = ts.take (extent + (names.length + 1)) := by
    conv => rhs; rw [← hsplit, hdrop]
    rw [← List.cons_append, List.take_append, List.take_append]
    simp [List.length_take_of_le hle, List.take_take]
  have hbrackets : brackets ≤ extent + (names.length + 1) := by omega
  have hfound := (arrayExtent?_take harray hbrackets).2
  have hinit : brackets + initializer ((ts.take (extent + (names.length + 1))).drop brackets) =
      extent := by
    rw [List.drop_take, initializer_take (by omega), hextent]
  rw [List.cons_append, parseDeclarators?, if_neg (by simp [hname]), htake, hfound]
  dsimp only
  rw [hinit]
  have hrest : (ts.take (extent + (names.length + 1))).drop extent = comma :: names := by
    rw [← htake, List.drop_left' (List.length_take_of_le hle)]
  have hnext : (ts.take (extent + (names.length + 1))).drop (extent + 1) = names := by
    rw [← List.drop_drop, hrest]
    rfl
  rw [hrest, hnext, List.take_take, Nat.min_eq_left (Nat.le_add_right _ _)]
  dsimp only
  rw [if_pos hcomma, hnames]
  rfl

theorem exists_first_of_parse {name : Token} {ts : List Token} {vs : List Variable}
    (h : parseDeclarators? (name :: ts) = some vs) :
    exists used v, SpellsVariable used v ∧
      ((name :: ts = used ∧ vs = [v]) ∨
        exists comma rest vs', name :: ts = used ++ comma :: rest ∧ comma.isOp "," = true ∧
          parseDeclarators? rest = some vs' ∧ vs = v :: vs' ∧
          forall names after us, rest = names ++ after -> parseDeclarators? names = some us ->
            parseDeclarators? (used ++ comma :: names) = some (v :: us)) := by
  rw [parseDeclarators?] at h
  cases hname : name.isWord with
  | false => simp [hname] at h
  | true =>
      rw [if_neg (by simp [hname])] at h
      cases harray : arrayExtent? ts with
      | none =>
          rw [harray] at h
          cases h
      | some found =>
          rcases found with ⟨brackets, length⟩
          rw [harray] at h
          dsimp only at h
          have hspells := (spellsVariable_take hname harray).2
          generalize hextent : brackets + initializer (ts.drop brackets) = extent at h hspells
          have hsplit := List.take_append_drop extent ts
          refine ⟨_, _, hspells, ?_⟩
          split at h
          · rename_i hdrop
            rw [hdrop, List.append_nil] at hsplit
            exact Or.inl ⟨congrArg (name :: ·) hsplit.symm, (Option.some.inj h).symm⟩
          · rename_i comma rest hdrop
            split at h
            · rename_i hcomma
              rcases Option.map_eq_some_iff.mp h with ⟨vs', hread, rfl⟩
              have hrest : ts.drop (extent + 1) = rest := by
                rw [← List.drop_drop, hdrop]
                rfl
              rw [hrest] at hread
              refine Or.inr ⟨comma, rest, vs', ?_, hcomma, hread, rfl, ?_⟩
              · rw [← hdrop, List.cons_append, hsplit]
              · intro names after us heq hnames
                rw [heq] at hdrop
                exact parseDeclarators?_cons_of_extent hname harray hextent hdrop hcomma hnames
            · cases h

theorem spellsVariables_of_parse {ts : List Token} {vs : List Variable}
    (h : parseDeclarators? ts = some vs) : SpellsVariables ts vs := by
  induction hn : ts.length using Nat.strong_induction_on generalizing ts vs with
  | _ n ih =>
      subst hn
      cases ts with
      | nil =>
          rw [parseDeclarators?] at h
          cases h
          exact SpellsVariables.nil
      | cons name ts =>
          rcases exists_first_of_parse h with
            ⟨used, v, hused, ⟨rfl, rfl⟩ | ⟨comma, rest, vs', hsplit, hcomma, hrest, rfl, _⟩⟩
          · exact SpellsVariables.single hused
          · rw [hsplit] at ih ⊢
            refine SpellsVariables.cons hused hcomma (ih rest.length ?_ hrest rfl)
            simp only [List.length_append, List.length_cons]
            omega

theorem spellsVariables_of_declarators? {names : List Token} {vs : List Variable}
    (h : declarators? names = some vs) : SpellsVariables names vs := by
  rcases Option.bind_eq_some_iff.mp h with ⟨vs', hparse, hvs⟩
  split at hvs
  · cases hvs
  · rw [← Option.some.inj hvs]
    exact spellsVariables_of_parse hparse

theorem exists_names_of_parse {ts : List Token} {vs : List Variable}
    (h : parseDeclarators? ts = some vs) (hne : vs ≠ []) :
    exists names after first last v w, ts = names ++ after ∧ parseDeclarators? names = some vs ∧
      names.head? = some first ∧ names.getLast? = some last ∧
      vs.head? = some v ∧ vs.getLast? = some w ∧ v.start = first.offset ∧ w.stop = last.stop := by
  induction hn : ts.length using Nat.strong_induction_on generalizing ts vs with
  | _ n ih =>
      subst hn
      cases ts with
      | nil =>
          rw [parseDeclarators?] at h
          cases h
          exact absurd rfl hne
      | cons name ts =>
          rcases exists_first_of_parse h with ⟨used, v, hused, hrest⟩
          rcases hused.ends with ⟨first, last, hfirst, hlast, _, hstart, hstop⟩
          rcases hrest with ⟨rfl, rfl⟩ | ⟨comma, rest, vs', hsplit, _, hread, rfl, hcons⟩
          · exact ⟨_, [], first, last, v, v, (List.append_nil _).symm, hused.parse, hfirst, hlast,
              rfl,
              rfl, hstart, hstop⟩
          · rw [hsplit] at ih ⊢
            by_cases hvs' : vs' = []
            · subst hvs'
              exact ⟨used, _, first, last, v, v, rfl, hused.parse, hfirst, hlast, rfl, rfl, hstart,
                hstop⟩
            · have hlen : rest.length < (used ++ comma :: rest).length := by
                simp only [List.length_append, List.length_cons]
                omega
              rcases ih rest.length hlen hread hvs' rfl with
                ⟨names, after, _, last', _, w, rfl, hnames, _, hlast', _, hw, _, hstop'⟩
              refine ⟨used ++ comma :: names, after, first, last', v, w, by simp,
                hcons names after _ rfl hnames, ?_, ?_, rfl, ?_, hstart, hstop'⟩
              · rw [List.head?_append, hfirst]
                rfl
              · rw [List.getLast?_append, List.getLast?_cons, hlast']
                rfl
              · rw [List.getLast?_cons, hw]
                rfl

/-!
# Declarators at other places
-/

theorem bracketed?_alike {ts us : List Token} (h : us.map Token.piece = ts.map Token.piece)
    (depth : Nat) : (bracketed? depth us).map Prod.fst = (bracketed? depth ts).map Prod.fst := by
  induction ts generalizing us depth with
  | nil => rw [List.map_eq_nil_iff.mp h]
  | cons t ts ih =>
      rcases List.map_eq_cons_iff.mp h with ⟨u, us, rfl, hu, h⟩
      rw [bracketed?, bracketed?, isOp_congr hu, isOp_congr hu,
        show u.text = t.text from congrArg Lexer.Piece.text hu]
      split
      · rfl
      · dsimp only
        have hrest := ih h
          (if t.isOp "[" then depth + 1 else if t.isOp "]" then depth - 1 else depth)
        simp only [Option.map_map] at hrest ⊢
        have hcons := congrArg (Option.map fun texts : List Text => t.text :: texts) hrest
        simpa only [Option.map_map, Function.comp_def] using hcons

theorem arrayExtent?_alike {ts us : List Token} (h : us.map Token.piece = ts.map Token.piece) :
    arrayExtent? us = arrayExtent? ts := by
  cases ts with
  | nil => rw [List.map_eq_nil_iff.mp h]
  | cons t ts =>
      rcases List.map_eq_cons_iff.mp h with ⟨u, us, rfl, hu, h⟩
      unfold arrayExtent?
      dsimp only
      rw [isOp_congr hu]
      split
      · have hinner := congrArg
          (Option.map fun texts : List Text => (texts.length + 2, some (Text.joinWith " " texts)))
          (bracketed?_alike h 1)
        simpa only [Option.map_map, Function.comp_def] using hinner
      · rfl

theorem initializerExtent_alike {ts us : List Token} (h : us.map Token.piece = ts.map Token.piece)
    (depth : Int) : initializerExtent depth us = initializerExtent depth ts := by
  induction ts generalizing us depth with
  | nil => rw [List.map_eq_nil_iff.mp h]
  | cons t ts ih =>
      rcases List.map_eq_cons_iff.mp h with ⟨u, us, rfl, hu, h⟩
      rw [initializerExtent, initializerExtent]
      simp only [isOp_congr hu, ih h]

theorem initializer_alike {ts us : List Token} (h : us.map Token.piece = ts.map Token.piece) :
    initializer us = initializer ts := by
  cases ts with
  | nil => rw [List.map_eq_nil_iff.mp h]
  | cons t ts =>
      rcases List.map_eq_cons_iff.mp h with ⟨u, us, rfl, hu, h'⟩
      rw [initializer_cons, initializer_cons, isOp_congr hu, initializerExtent_alike h]

theorem isWord_congr {t u : Token} (h : t.piece = u.piece) : t.isWord = u.isWord := by
  unfold Token.isWord
  rw [show t.kind = u.kind from congrArg Lexer.Piece.kind h]

theorem parseDeclarators?_alike {ts us : List Token}
    (h : us.map Token.piece = ts.map Token.piece) :
    (parseDeclarators? us).map (List.map Variable.unplaced) =
      (parseDeclarators? ts).map (List.map Variable.unplaced) := by
  induction hn : ts.length using Nat.strong_induction_on generalizing ts us with
  | _ n ih =>
      subst hn
      cases ts with
      | nil => rw [List.map_eq_nil_iff.mp h]
      | cons name ts =>
          rcases List.map_eq_cons_iff.mp h with ⟨name', us, rfl, hname, h⟩
          rw [parseDeclarators?, parseDeclarators?, isWord_congr hname, arrayExtent?_alike h]
          split
          · rfl
          · cases harray : arrayExtent? ts with
            | none => rfl
            | some found =>
                rcases found with ⟨brackets, length⟩
                have hdrop (n : Nat) : (us.drop n).map Token.piece =
                  (ts.drop n).map Token.piece := by
                  rw [List.map_drop, List.map_drop, h]
                dsimp only
                rw [initializer_alike (hdrop brackets)]
                generalize brackets + initializer (ts.drop brackets) = extent
                have hend := hdrop extent
                cases hts : ts.drop extent with
                | nil =>
                    rw [hts] at hend
                    rw [List.map_eq_nil_iff.mp hend]
                    simp [Variable.unplaced, show name'.text = name.text from
                      congrArg Lexer.Piece.text hname]
                | cons comma rest =>
                    rw [hts] at hend
                    rcases List.map_eq_cons_iff.mp hend with ⟨comma', rest', hus, hcomma, _⟩
                    rw [hus]
                    dsimp only
                    rw [isOp_congr hcomma]
                    split
                    · have hlen : (ts.drop (extent + 1)).length < (name :: ts).length := by
                        simp only [List.length_drop, List.length_cons]
                        omega
                      have hrest := ih _ hlen (hdrop (extent + 1)) rfl
                      have htext : name'.text = name.text := congrArg Lexer.Piece.text hname
                      have hcons := congrArg (Option.map fun vs : List Variable =>
                        (⟨name.text, length, 0, 0, 0⟩ : Variable) :: vs) hrest
                      simpa only [Option.map_map, Function.comp_def, List.map_cons,
                        Variable.unplaced, htext] using hcons
                    · rfl

theorem declarators?_alike {ts us : List Token} (h : us.map Token.piece = ts.map Token.piece) :
    (declarators? us).map (List.map Variable.unplaced) =
      (declarators? ts).map (List.map Variable.unplaced) := by
  have hparse := parseDeclarators?_alike h
  unfold declarators?
  cases hts : parseDeclarators? ts with
  | none =>
      rw [hts, Option.map_none, Option.map_eq_none_iff] at hparse
      rw [hparse]
  | some vs =>
      rw [hts, Option.map_some] at hparse
      rcases Option.map_eq_some_iff.mp hparse with ⟨vs', hus, hvs⟩
      rw [hus]
      have hempty : vs'.isEmpty = vs.isEmpty := by
        rw [← List.isEmpty_map (f := Variable.unplaced), hvs, List.isEmpty_map]
      simp only [Option.bind_some, hempty]
      split
      · rfl
      · simp [hvs]

theorem SpellsVariable.alike {ts us : List Token} {v : Variable} (h : SpellsVariable ts v)
    (hus : us.map Token.piece = ts.map Token.piece) :
    exists v', declarators? us = some [v'] ∧ v'.unplaced = v.unplaced := by
  have hparse := declarators?_alike hus
  have hts : declarators? ts = some [v] := by
    unfold declarators?
    rw [h.parse]
    rfl
  rw [hts] at hparse
  rcases Option.map_eq_some_iff.mp hparse with ⟨vs, hvs, hunplaced⟩
  rcases List.map_eq_singleton_iff.mp hunplaced with ⟨v', rfl, hv'⟩
  exact ⟨v', hvs, hv'⟩

end Declaration

/-!
# Statements that declare variables

A statement declares variables if it consists of qualifiers, one of them a
storage qualifier, of a type and of declarators.
-/

namespace Declaration

theorem ofStatement?_cons (first : Token) (st : List Token) (semi : Token) :
    ofStatement? (first :: st) semi =
      match parseQualifiers Qualifiers.none (first :: st) with
      | .error e => .error e
      | .ok (q, rest) =>
          match q.storage, rest with
          | some storage, type :: names =>
              if type.isWord then
                .ok ((declarators? names).map fun vars =>
                  { storage
                    layout := q.layout
                    qualifiers := q.others
                    precision := q.precision
                    type := type.text
                    typeOffset := type.offset
                    body := .variables vars
                    start := first.offset
                    stop := semi.stop
                    line := first.line })
              else .ok none
          | _, _ => .ok none := rfl

structure Parts (st : List Token) (semi : Token) (d : Declaration) where
  quals : List Token
  q : Qualifiers
  type : Token
  names : List Token
  vars : List Variable
  first : Token
  split : st = quals ++ type :: names
  head : st.head? = some first
  qualifies : Qualifies Qualifiers.none quals q
  notQualifier : isQualifier type = false
  isWord : type.isWord = true
  storage : q.storage = some d.storage
  declares : declarators? names = some vars
  eq : d = ⟨d.storage, q.layout, q.others, q.precision, type.text, type.offset, .variables vars,
    first.offset, semi.stop, first.line⟩

theorem parts_of_ofStatement? {st : List Token} {semi : Token} {d : Declaration}
    (h : ofStatement? st semi = .ok (some d)) : Nonempty (Parts st semi d) := by
  cases st with
  | nil => cases h
  | cons first st =>
      rw [ofStatement?_cons] at h
      cases hparse : parseQualifiers Qualifiers.none (first :: st) with
      | error e =>
          rw [hparse] at h
          cases h
      | ok read =>
          rcases read with ⟨q, rest⟩
          rw [hparse] at h
          dsimp only at h
          rcases exists_of_parseQualifiers hparse with ⟨quals, hsplit, hquals, hrest⟩
          cases hstorage : q.storage with
          | none =>
              rw [hstorage] at h
              cases h
          | some storage =>
              rw [hstorage] at h
              cases rest with
              | nil => cases h
              | cons type names =>
                  dsimp only at h
                  split at h
                  · rename_i hword
                    rcases Option.map_eq_some_iff.mp (Except.ok.inj h) with ⟨vars, hvars, rfl⟩
                    exact ⟨⟨quals, q, type, names, vars, first, hsplit, rfl, hquals,
                      hrest type rfl, hword, hstorage, hvars, rfl⟩⟩
                  · cases h

theorem ofStatement?_of_qualifies {quals names : List Token} {q : Qualifiers} {type first : Token}
    {storage : Storage} {vars : List Variable} (hquals : Qualifies Qualifiers.none quals q)
    (htype : isQualifier type = false) (hword : type.isWord = true)
    (hstorage : q.storage = some storage) (hvars : declarators? names = some vars)
    (hfirst : (quals ++ type :: names).head? = some first) (semi : Token) :
    ofStatement? (quals ++ type :: names) semi =
    .ok (some ⟨storage, q.layout, q.others, q.precision,
      type.text, type.offset, .variables vars, first.offset, semi.stop, first.line⟩) := by
  have hparse : parseQualifiers Qualifiers.none (quals ++ type :: names) =
      .ok (q, type :: names) := by
    apply hquals.parseQualifiers_eq
    intro t ht
    rw [← Option.some.inj ht]
    exact htype
  cases hst : quals ++ type :: names with
  | nil => simp at hst
  | cons t st =>
      rw [hst] at hparse hfirst
      rw [← Option.some.inj hfirst, ofStatement?_cons, hparse]
      dsimp only
      rw [hstorage]
      dsimp only
      rw [if_pos hword, hvars]
      rfl

theorem ofStatement?_alike {st st' : List Token} {semi semi' : Token} {d : Option Declaration}
    (h : ofStatement? st semi = .ok d) (hst : st'.map Token.piece = st.map Token.piece) :
    exists d', ofStatement? st' semi' = .ok d' ∧
      d'.map Declaration.unplaced = d.map Declaration.unplaced := by
  cases st with
  | nil =>
      rw [List.map_eq_nil_iff.mp hst]
      cases h
      exact ⟨none, rfl, rfl⟩
  | cons first st =>
      rcases List.map_eq_cons_iff.mp hst with ⟨first', st', rfl, _, _⟩
      rw [ofStatement?_cons] at h
      rw [ofStatement?_cons]
      cases hparse : parseQualifiers Qualifiers.none (first :: st) with
      | error e =>
          rw [hparse] at h
          cases h
      | ok read =>
          rcases read with ⟨q, rest⟩
          rcases parseQualifiers_alike hparse hst with ⟨q', rest', hparse', hunplaced, hrest'⟩
          rcases Qualifiers.parts_of_unplaced hunplaced with
            ⟨hstorage, hlayout, hothers, hprecision⟩
          rw [hparse] at h
          rw [hparse']
          dsimp only at h ⊢
          rw [hstorage]
          cases hq : q.storage with
          | none =>
              rw [hq] at h
              cases h
              exact ⟨none, rfl, rfl⟩
          | some storage =>
              rw [hq] at h
              cases rest with
              | nil =>
                  rw [List.map_eq_nil_iff.mp hrest']
                  cases h
                  exact ⟨none, rfl, rfl⟩
              | cons type names =>
                  rcases List.map_eq_cons_iff.mp hrest' with ⟨type', names', rfl, htype, hnames⟩
                  dsimp only at h ⊢
                  rw [isWord_congr htype]
                  split
                  · rename_i hword
                    rw [if_pos hword] at h
                    cases h
                    have hvars := declarators?_alike hnames
                    refine ⟨_, rfl, ?_⟩
                    have hmapped := congrArg (Option.map fun vars : List Variable =>
                      (⟨storage, q.layout.map Layout.unplaced, q.others, q.precision, type.text, 0,
                        .variables vars, 0, 0, 0⟩ : Declaration)) hvars
                    simpa only [Option.map_map, Function.comp_def, unplaced, hlayout, hothers,
                      hprecision, DeclarationBody.unplaced,
                      show type'.text = type.text from
                        congrArg Lexer.Piece.text htype] using hmapped
                  · rename_i hword
                    rw [if_neg hword] at h
                    cases h
                    exact ⟨none, rfl, rfl⟩

end Declaration

end EffectShader
