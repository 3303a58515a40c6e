import EffectShader.Proofs.Text.Lines
import EffectShader.Proofs.Token.Cuts
import EffectShader.Proofs.Token.Positions

/-!
# Reading a source line by line

A source may be cut into tokens one line after the other.  From one line to the
next it is enough to know whether the line starts in a block comment, in a
directive that the line before continues, or in neither.
-/

namespace EffectShader

/-- The tokens other than white space and the end marker. -/
def visible (ts : List Token) : List Lexeme :=
  (ts.filter fun t => t.kind != .whitespace && t.kind != .eof).map Token.lexeme

namespace Lexer

/-- Puts a token in front of those that follow it, unless it is white space. -/
def emit (x : Lexeme) (xs : List Lexeme) : List Lexeme :=
  if x.kind == .whitespace then xs else x :: xs

/-- The tokens of a text other than white space, if every comment is closed. -/
def visible? (fresh : Bool) (line : Nat) : Text -> Option (List Lexeme)
  | [] => some []
  | b :: s =>
      match extent? fresh b s with
      | none => none
      | some (kind, n) =>
          let text := b :: s.take n
          (visible? (staysFresh fresh kind text) (line + Text.newlines text) (s.drop n)).map
            (emit ⟨kind, text, line⟩)
  termination_by s => s.length
  decreasing_by simp only [List.length_drop, List.length_cons]; omega

theorem visible?_scan (p : Position) (fresh : Bool) (s : Text) :
    visible? fresh p.line s = (scan p fresh s).toOption.map visible := by
  induction p, fresh, s using scan.induct with
  | case1 p fresh =>
      rw [scan, visible?]
      rfl
  | case2 p fresh b s hnone =>
      rw [scan, visible?, hnone]
      rfl
  | case3 p fresh b s kind n hextent text ih =>
      rw [Position.line_advance] at ih
      rw [scan, visible?, hextent]
      simp only [show b :: s.take n = text from rfl, ih]
      cases scan (p.advance text) (staysFresh fresh kind text) (s.drop n) with
      | error e => rfl
      | ok rest =>
          have heof : kind ≠ .eof := kind_ne_eof_of_extent? hextent
          show some (emit ⟨kind, text, p.line⟩ (visible rest)) =
            some (visible (⟨kind, text, p⟩ :: rest))
          unfold emit visible
          by_cases hspace : kind = .whitespace
          · simp [hspace]
          · simp [hspace, heof]
            rfl

theorem visible?_eq_some_iff {s : Text} {xs : List Lexeme} :
    visible? true 1 s = some xs ↔ exists ts, tokenize s = .ok ts ∧ visible ts = xs := by
  rw [show (1 : Nat) = Position.start.line from rfl, visible?_scan]
  show (tokenize s).toOption.map visible = some xs ↔ _
  cases tokenize s with
  | error e => simp [Except.toOption]
  | ok ts => simp [Except.toOption]

/-!
# Lines
-/

/-- What a line starts in: the part of a comment or directive on the lines before, and the line
where that started. -/
inductive Opening where
  | outside
  | comment (line : Nat) (text : Text)
  | directive (line : Nat) (text : Text)

def scanLine (line : Nat) (fresh : Bool) : Text -> List Lexeme × Opening
  | [] => ([], .outside)
  | b :: s =>
      match extent? fresh b s with
      | none => ([], .comment line (b :: s))
      | some (kind, n) =>
          if kind == .directive then
            if endsOpen s then ([], .directive line (b :: s))
            else ([⟨.directive, b :: s, line⟩], .outside)
          else
            let text := b :: s.take n
            let rest := scanLine line (staysFresh fresh kind text) (s.drop n)
            (emit ⟨kind, text, line⟩ rest.1, rest.2)
  termination_by s => s.length
  decreasing_by simp only [List.length_drop, List.length_cons]; omega

def Opening.read (line : Nat) (l : Text) : Opening -> List Lexeme × Opening
  | .outside => scanLine line true l
  | .comment start text =>
      match Text.cut? "*/" l with
      | none => ([], .comment start (text ++ Byte.newline :: l))
      | some (before, after) =>
          let rest := scanLine line true after
          (⟨.blockComment, text ++ Byte.newline :: (before ++ "*/"), start⟩ :: rest.1, rest.2)
  | .directive start text =>
      if endsOpen l then ([], .directive start (text ++ Byte.newline :: l))
      else ([⟨.directive, text ++ Byte.newline :: l, start⟩], .outside)

def Opening.close : Opening -> Option (List Lexeme)
  | .outside => some []
  | .comment _ _ => none
  | .directive start text => some [⟨.directive, text, start⟩]

def lexLines (line : Nat) (o : Opening) : List Text -> Option (List Lexeme)
  | [] => o.close
  | l :: ls =>
      let (xs, o) := o.read line l
      (lexLines (line + 1) o ls).map (xs ++ ·)

/-!
# White space
-/

theorem extent?_separator {c : UInt8} (hc : isSeparator c = true) (fresh : Bool) (s : Text) :
    extent? fresh c s = some (.whitespace, run isSeparator s) := by
  unfold extent?
  rw [if_pos hc]

theorem emit_whitespace (text : Text) (line : Nat) : emit ⟨.whitespace, text, line⟩ = id := rfl

theorem contains_newline_cons (fresh : Bool) (c : UInt8) (s : Text) :
    staysFresh fresh .whitespace (c :: s) =
      (fresh || c == Byte.newline || List.contains s Byte.newline) := by
  show (fresh || List.contains (c :: s) Byte.newline) = _
  rw [List.contains_cons, BEq.comm, Bool.or_assoc]

theorem run_separator (d : UInt8) (s : Text) :
    run isSeparator (d :: s) = if isSeparator d then run isSeparator s + 1 else 0 := by
  cases hd : isSeparator d <;> simp [run, hd]

theorem visible?_separator {c : UInt8} (hc : isSeparator c = true) (fresh : Bool) (line : Nat)
    (s : Text) :
    visible? fresh line (c :: s) =
      visible? (fresh || c == Byte.newline) (line + Text.newlines [c]) s := by
  rw [visible?, extent?_separator hc]
  simp only [emit_whitespace, Option.map_id, id]
  cases s with
  | nil => simp only [List.drop_nil, visible?]
  | cons d s =>
      rw [run_separator]
      cases hd : isSeparator d with
      | false => simp [contains_newline_cons]
      | true =>
          have hsplit (x : Text) : Text.newlines (c :: d :: x) =
              Text.newlines [c] + Text.newlines (d :: x) := Text.newlines_append [c] (d :: x)
          rw [visible?, extent?_separator hd]
          simp only [emit_whitespace, Option.map_id, id, if_true, List.take_succ_cons,
            List.drop_succ_cons, hsplit, Nat.add_assoc, contains_newline_cons,
            List.contains_cons, Bool.or_assoc, BEq.comm]

theorem scanLine_separator {c : UInt8} (hc : isSeparator c = true) {l : Text}
    (hl : Byte.newline ∉ c :: l) (line : Nat) (fresh : Bool) :
    scanLine line fresh (c :: l) = scanLine line fresh l := by
  have hfresh {text : Text} (h : Byte.newline ∉ text) :
      staysFresh fresh .whitespace text = fresh := by
    simp [staysFresh, h]
  have htake (n : Nat) : Byte.newline ∉ c :: l.take n :=
    fun hmem => hl (((List.take_sublist n l).cons_cons c).subset hmem)
  rw [scanLine, extent?_separator hc]
  simp only [emit_whitespace, id, hfresh (htake _),
    show (TokenKind.whitespace == .directive) = false from rfl, Bool.false_eq_true, if_false]
  cases l with
  | nil => rfl
  | cons d l =>
      rw [run_separator]
      cases hd : isSeparator d with
      | false => rfl
      | true =>
          have htake' : Byte.newline ∉ d :: l.take (run isSeparator l) := fun hmem =>
            htake (run isSeparator l + 1) (List.mem_cons_of_mem c hmem)
          rw [scanLine, extent?_separator hd]
          simp only [emit_whitespace, id, hfresh htake', if_true, List.drop_succ_cons,
            show (TokenKind.whitespace == .directive) = false from rfl, Bool.false_eq_true,
              if_false]

/-!
# Comments and directives at a line end
-/

theorem afterPrefix?_append_stop {p : Text} {c : UInt8} (hp : c ∉ p) (s r : Text) :
    Text.afterPrefix? p (s ++ c :: r) = (Text.afterPrefix? p s).map (· ++ c :: r) := by
  induction p generalizing s with
  | nil => simp [Text.afterPrefix?]
  | cons a p ih =>
      rcases not_or.mp (mt List.mem_cons.mpr hp) with ⟨ha, hp⟩
      cases s with
      | nil => simp [Text.afterPrefix?, Ne.symm ha]
      | cons b s =>
          simp only [List.cons_append, Text.afterPrefix?]
          split
          · exact ih hp s
          · rfl

theorem cut?_line {sep : Text} (hsep : Byte.newline ∉ sep) (hne : sep ≠ []) (l s : Text) :
    Text.cut? sep (l ++ Byte.newline :: s) =
      match Text.cut? sep l with
      | some (before, after) => some (before, after ++ Byte.newline :: s)
      | none => (Text.cut? sep s).map fun (before, after) =>
          (l ++ Byte.newline :: before, after) := by
  induction l with
  | nil =>
      have hnone : Text.afterPrefix? sep (Byte.newline :: s) = none := by
        rw [← List.nil_append (Byte.newline :: s), afterPrefix?_append_stop hsep]
        cases sep with
        | nil => exact absurd rfl hne
        | cons a sep => rfl
      have hempty : Text.cut? sep [] = none := by
        rw [Text.cut?, if_neg (by simpa using hne)]
      rw [hempty, List.nil_append, Text.cut?, hnone]
      rfl
  | cons b l ih =>
      rw [List.cons_append, Text.cut?, ← List.cons_append, afterPrefix?_append_stop hsep, Text.cut?]
      cases Text.afterPrefix? sep (b :: l) with
      | some after => rfl
      | none =>
          simp only [Option.map_none, ih]
          cases Text.cut? sep l with
          | some parts => rfl
          | none =>
              cases Text.cut? sep s with
              | some parts => rfl
              | none => rfl

theorem directiveExtent_line {l : Text} (hl : Byte.newline ∉ l) (s : Text) :
    directiveExtent (l ++ Byte.newline :: s) =
      if endsOpen l then l.length + 1 + directiveExtent s else l.length := by
  cases hopen : endsOpen l with
  | false => exact directiveExtent_of_continued (continued_of_not_mem hl) (Or.inr ⟨rfl, hopen⟩)
  | true =>
      rw [if_pos rfl]
      fun_induction endsOpen l with
      | case1 => cases hopen
      | case2 b =>
          rw [beq_iff_eq.mp hopen]
          show 2 + directiveExtent s = _
          rfl
      | case3 b c =>
          simp only [List.mem_cons, List.not_mem_nil, or_false, not_or] at hl
          simp only [Bool.or_eq_true, Bool.and_eq_true, beq_iff_eq] at hopen
          rcases hopen with rfl | ⟨rfl, rfl⟩
          · show directiveExtent (b :: Byte.backslash :: Byte.newline :: s) = _
            rw [directiveExtent_byte (Ne.symm hl.1)]
            · show 1 + (2 + directiveExtent s) = 2 + 1 + directiveExtent s
              omega
            · exact fun _ => (by decide : some Byte.backslash ≠ some Byte.newline)
            · exact fun _ => (by decide : [Byte.backslash, Byte.newline] ≠ _)
          · show 3 + directiveExtent s = _
            rfl
      | case4 b l hone htwo ih =>
          rcases not_or.mp (mt List.mem_cons.mpr hl) with ⟨hb, hl⟩
          match l, hone, htwo with
          | [], hone, _ => exact absurd rfl hone
          | [c], _, htwo => exact absurd rfl (htwo c)
          | c :: d :: l, _, _ =>
              simp only [List.mem_cons, not_or] at hl
              rw [List.cons_append, directiveExtent_byte (Ne.symm hb), ih (by simp [hl]) hopen]
              · simp only [List.length_cons]
                omega
              · exact fun _ hhead => hl.1 (Option.some.inj hhead).symm
              · intro _ htake
                simp only [List.cons_append, List.take_succ_cons, List.cons.injEq] at htake
                exact hl.2.1 htake.2.1.symm

theorem directiveExtent_of_not_mem {l : Text} (hl : Byte.newline ∉ l) :
    directiveExtent l = l.length := by
  have hend := directiveExtent_of_continued (continued_of_not_mem hl) (Or.inl rfl)
  rwa [List.append_nil] at hend

theorem splitAt_directiveExtent {l : Text} (hl : Byte.newline ∉ l) (hopen : endsOpen l = true)
    (s : Text) :
    (l ++ Byte.newline :: s).take (directiveExtent (l ++ Byte.newline :: s)) =
      l ++ Byte.newline :: s.take (directiveExtent s) ∧
    (l ++ Byte.newline :: s).drop (directiveExtent (l ++ Byte.newline :: s)) =
      s.drop (directiveExtent s) := by
  rw [directiveExtent_line hl, hopen, if_pos rfl, Nat.add_assoc, List.take_length_add_append,
    List.drop_length_add_append, Nat.add_comm 1, List.take_succ_cons, List.drop_succ_cons]
  exact ⟨rfl, rfl⟩

theorem newlines_line {l : Text} (hl : Byte.newline ∉ l) (s : Text) :
    Text.newlines (l ++ Byte.newline :: s) = 1 + Text.newlines s := by
  rw [Text.newlines_append, Text.newlines_of_not_mem hl, Text.newlines_cons, if_pos rfl]
  omega

/-!
# The whole source

The lines behind a point are read as the text behind it.  That is shown from the
last line backwards, and inside a line from the left.
-/

/-- From its start on the text is read line by line, whatever it starts in. -/
structure ByLines (s : Text) : Prop where
  outside : forall line, lexLines line .outside (Text.lines s) = visible? true line s
  comment : forall line start text, lexLines line (.comment start text) (Text.lines s) =
    (Text.cut? "*/" s).bind fun (before, after) =>
      (visible? true (line + Text.newlines before) after).map
        (⟨.blockComment, text ++ Byte.newline :: (before ++ "*/"), start⟩ :: ·)
  directive : forall line start text, lexLines line (.directive start text) (Text.lines s) =
    (visible? false (line + Text.newlines (s.take (directiveExtent s)))
      (s.drop (directiveExtent s))).map
        (⟨.directive, text ++ Byte.newline :: s.take (directiveExtent s), start⟩ :: ·)

inductive Tail : Text -> List Text -> Prop where
  | done : Tail [] []
  | more {s : Text} : ByLines s -> Tail (Byte.newline :: s) (Text.lines s)

theorem Tail.visible?_eq {r : Text} {ls : List Text} (h : Tail r ls) (fresh : Bool) (line : Nat) :
    visible? fresh line r = lexLines (line + 1) .outside ls := by
  cases h with
  | done =>
      rw [visible?]
      rfl
  | @more s hs =>
      rw [visible?_separator (by decide), hs.outside]
      cases fresh <;> rfl

theorem visible?_cons {fresh : Bool} {b : UInt8} {w r : Text} {kind : TokenKind}
    (h : extent? fresh b (w ++ r) = some (kind, w.length)) (line : Nat) :
    visible? fresh line (b :: (w ++ r)) =
      (visible? (staysFresh fresh kind (b :: w)) (line + Text.newlines (b :: w)) r).map
        (emit ⟨kind, b :: w, line⟩) := by
  rw [visible?, h]
  simp only [List.take_left, List.drop_left]

theorem scanLine_cons {fresh : Bool} {b : UInt8} {w r : Text} {kind : TokenKind}
    (h : extent? fresh b (w ++ r) = some (kind, w.length)) (hkind : kind ≠ .directive)
    (line : Nat) :
    scanLine line fresh (b :: (w ++ r)) =
      (emit ⟨kind, b :: w, line⟩ (scanLine line (staysFresh fresh kind (b :: w)) r).1,
        (scanLine line (staysFresh fresh kind (b :: w)) r).2) := by
  rw [scanLine, h]
  simp only [List.take_left, List.drop_left, beq_eq_false_iff_ne.mpr hkind, Bool.false_eq_true,
    if_false]

theorem extent?_closed {before after : Text} (h : Text.cut? "*/" (before ++ ("*/" ++ after)) =
    some (before, after)) (fresh : Bool) (r : Text) :
    extent? fresh Byte.slash ((Byte.star :: (before ++ ("*/" : Text))) ++ r) =
      some (.blockComment, (Byte.star :: (before ++ ("*/" : Text))).length) := by
  have hafter : extent? fresh Byte.slash ((Byte.star :: (before ++ ("*/" : Text))) ++ after) =
      some (.blockComment, (Byte.star :: (before ++ ("*/" : Text))).length) := by
    rw [List.cons_append, List.append_assoc, extent?_comment, Text.indexOf?, h]
    simp
    rfl
  exact extent?_blockComment hafter r

/-!
A token's first bytes decide how the rest of its line is read.
-/

theorem scanLine_directive {fresh : Bool} {b : UInt8} {l : Text}
    (hform : form fresh b l.head? = .directive) (line : Nat) :
    scanLine line fresh (b :: l) =
      if endsOpen l then ([], .directive line (b :: l))
      else ([⟨.directive, b :: l, line⟩], .outside) := by
  rw [scanLine, extent?_eq, hform]
  rfl

theorem extent?_lineComment {fresh : Bool} {b : UInt8} {l r : Text} (hl : Byte.newline ∉ l)
    (hr : forall c, r.head? = some c -> c = Byte.newline)
    (hform : form fresh b (l ++ r).head? = .lineComment) :
    extent? fresh b (l ++ r) = some (.lineComment, l.length) := by
  have hrun : run (· != Byte.newline) (l ++ r) = l.length := by
    rw [run_append_eq_length_iff]
    refine ⟨fun c hc => bne_iff_ne.mpr fun heq => hl (heq ▸ hc), ?_⟩
    intro c hc
    rw [hr c hc]
    rfl
  rw [extent?_eq, hform]
  simp only [hrun]

theorem scanLine_lineComment {fresh : Bool} {b : UInt8} {l : Text} (hl : Byte.newline ∉ l)
    (hform : form fresh b l.head? = .lineComment) (line : Nat) :
    scanLine line fresh (b :: l) = ([⟨.lineComment, b :: l, line⟩], .outside) := by
  have hextent := extent?_lineComment (r := []) hl (by simp) (by rwa [List.append_nil])
  have hline := scanLine_cons hextent (by decide) line
  rw [List.append_nil, scanLine] at hline
  exact hline

theorem scanLine_blockComment (fresh : Bool) (l : Text) (line : Nat) :
    scanLine line fresh (Byte.slash :: Byte.star :: l) =
      match Text.cut? "*/" l with
      | none => ([], .comment line (Byte.slash :: Byte.star :: l))
      | some (before, after) =>
          let text := Byte.slash :: Byte.star :: (before ++ "*/")
          let rest := scanLine line (staysFresh fresh .blockComment text) after
          (emit ⟨.blockComment, text, line⟩ rest.1, rest.2) := by
  cases hcut : Text.cut? "*/" l with
  | none =>
      rw [scanLine, extent?_comment, Text.indexOf?, hcut]
      rfl
  | some parts =>
      rcases parts with ⟨before, after⟩
      have hsplit := Text.eq_append_of_cut? hcut
      subst hsplit
      have hline := scanLine_cons (extent?_closed hcut fresh after) (by decide) line
      rw [List.cons_append, List.append_assoc] at hline
      exact hline

theorem scanLine_plain {fresh : Bool} {b : UInt8} {l : Text}
    (hform : form fresh b l.head? = .plain) (line : Nat) :
    scanLine line fresh (b :: l) =
      let (kind, n) := plainExtent b l
      let rest := scanLine line (staysFresh fresh kind (b :: l.take n)) (l.drop n)
      (emit ⟨kind, b :: l.take n, line⟩ rest.1, rest.2) := by
  have hmem := plainExtent_mem_plainKinds b l
  have hkind : ((plainExtent b l).1 == .directive) = false := by
    rw [beq_eq_false_iff_ne]
    intro heq
    rw [heq] at hmem
    simp [plainKinds] at hmem
  rw [scanLine, extent?_eq, hform]
  simp only [hkind, Bool.false_eq_true, if_false]

theorem Tail.form_eq {r : Text} {ls : List Text} (h : Tail r ls) (fresh : Bool) (b : UInt8)
    (l : Text) : form fresh b (l ++ r).head? = form fresh b l.head? := by
  cases h with
  | done => rw [List.append_nil]
  | more _ => exact form_barrier isBarrier_newline (by decide) fresh b l _

theorem Tail.plainExtent_eq {r : Text} {ls : List Text} (h : Tail r ls) (b : UInt8) (l : Text) :
    plainExtent b (l ++ r) = plainExtent b l := by
  cases h with
  | done => rw [List.append_nil]
  | more _ => exact plainExtent_barrier isBarrier_newline b l _

theorem emit_append (x : Lexeme) (xs ys : List Lexeme) : emit x (xs ++ ys) = emit x xs ++ ys := by
  unfold emit
  split <;> rfl

def onLine (line : Nat) (ls : List Text) (scanned : List Lexeme × Opening) :
    Option (List Lexeme) :=
  (lexLines (line + 1) scanned.2 ls).map (scanned.1 ++ ·)

theorem onLine_emit (line : Nat) (ls : List Text) (x : Lexeme) (scanned : List Lexeme × Opening) :
    onLine line ls (emit x scanned.1, scanned.2) = (onLine line ls scanned).map (emit x) := by
  unfold onLine
  rw [Option.map_map]
  congr 1
  funext ys
  exact (emit_append x scanned.1 ys).symm

theorem newlines_take {b : UInt8} {l : Text} (hl : Byte.newline ∉ b :: l) (w : Text)
    (hw : w <+: l) : Text.newlines (b :: w) = 0 := by
  apply Text.newlines_of_not_mem
  intro hmem
  exact hl ((hw.sublist.cons_cons b).subset hmem)

theorem onLine_directive {r : Text} {ls : List Text} (hr : Tail r ls) {fresh : Bool} {b : UInt8}
    {l : Text} (hl : Byte.newline ∉ b :: l) (hform : form fresh b l.head? = .directive)
    (line : Nat) :
    visible? fresh line (b :: (l ++ r)) = onLine line ls (scanLine line fresh (b :: l)) := by
  have hl' : Byte.newline ∉ l := fun hmem => hl (List.mem_cons_of_mem b hmem)
  have hwhole : extent? fresh b (l ++ r) = some (.directive, directiveExtent (l ++ r)) := by
    rw [extent?_eq, hr.form_eq, hform]
  have hzero : Text.newlines (b :: l) = 0 := newlines_take hl l List.prefix_rfl
  rw [scanLine_directive hform]
  cases hr with
  | done =>
      rw [List.append_nil] at hwhole ⊢
      rw [visible?, hwhole, directiveExtent_of_not_mem hl']
      simp only [List.take_length, List.drop_length, visible?]
      cases endsOpen l <;> rfl
  | @more s hs =>
      cases hopen : endsOpen l with
      | true =>
          rcases splitAt_directiveExtent hl' hopen s with ⟨htake, hdrop⟩
          have hcount (x : Text) : Text.newlines (b :: (l ++ Byte.newline :: x)) =
              1 + Text.newlines x := newlines_line hl x
          show _ = onLine line _ ([], .directive line (b :: l))
          unfold onLine
          rw [visible?, hwhole, hs.directive]
          simp only [htake, hdrop, hcount, Option.map_map]
          rw [← Nat.add_assoc]
          rfl
      | false =>
          rw [directiveExtent_line hl', hopen] at hwhole
          have hcons := visible?_cons (w := l) (r := Byte.newline :: s) hwhole line
          rw [hcons, hzero, (Tail.more hs).visible?_eq]
          rfl

theorem onLine_comment {r : Text} {ls : List Text} (hr : Tail r ls) {l : Text}
    (hl : Byte.newline ∉ Byte.slash :: Byte.star :: l) (fresh : Bool) (line : Nat)
    (ih : forall after, after.length ≤ l.length -> Byte.newline ∉ after -> forall fresh,
      visible? fresh line (after ++ r) = onLine line ls (scanLine line fresh after)) :
    visible? fresh line (Byte.slash :: Byte.star :: (l ++ r)) =
      onLine line ls (scanLine line fresh (Byte.slash :: Byte.star :: l)) := by
  cases hcut : Text.cut? "*/" l with
  | some parts =>
      -- the comment is closed on its line
      rcases parts with ⟨before, after⟩
      have hsplit := Text.eq_append_of_cut? hcut
      subst hsplit
      have hextent := extent?_closed hcut fresh
      generalize hw : Byte.star :: (before ++ ("*/" : Text)) = w at hextent
      have hline : Byte.star :: (before ++ ("*/" ++ after)) = w ++ after := by
        rw [← hw, List.cons_append, List.append_assoc]
      have hwhole : Byte.star :: (before ++ ("*/" ++ after) ++ r) = w ++ (after ++ r) := by
        rw [← List.cons_append, hline, List.append_assoc]
      rw [hline] at hl
      rw [hwhole, hline, visible?_cons (hextent _), scanLine_cons (hextent after) (by decide),
        newlines_take hl w (List.prefix_append w after), onLine_emit, Nat.add_zero, ih]
      · simp only [List.length_append]
        omega
      · exact fun hmem => hl (List.mem_cons_of_mem _ (List.mem_append_right w hmem))
  | none =>
      rw [scanLine_blockComment, hcut]
      cases hr with
      | done =>
          rw [visible?, List.append_nil, extent?_comment, Text.indexOf?, hcut]
          rfl
      | @more s hs =>
          have hfound := cut?_line (show Byte.newline ∉ ("*/" : Text) by decide) (by decide) l s
          rw [hcut] at hfound
          show _ = (lexLines (line + 1) (.comment line (Byte.slash :: Byte.star :: l))
            (Text.lines s)).map ([] ++ ·)
          rw [hs.comment]
          cases hrest : Text.cut? "*/" s with
          | none =>
              rw [hrest] at hfound
              rw [visible?, extent?_comment, Text.indexOf?, hfound]
              rfl
          | some parts =>
              rcases parts with ⟨before, after⟩
              rw [hrest] at hfound
              have hsplit := Text.eq_append_of_cut? hfound
              rw [hsplit] at hfound
              have hextent := extent?_closed hfound fresh after
              have hwhole : Byte.star :: (l ++ Byte.newline :: s) =
                  (Byte.star :: (l ++ Byte.newline :: before ++ "*/")) ++ after := by
                rw [hsplit]
                simp
              have hzero : Text.newlines (Byte.slash :: Byte.star :: l) = 0 :=
                Text.newlines_of_not_mem hl
              have hcount : Text.newlines (Byte.slash :: Byte.star ::
                (l ++ Byte.newline :: before ++
                  ("*/" : Text))) = 1 + Text.newlines before := by
                rw [← List.cons_append, ← List.cons_append, ← List.cons_append, ← List.cons_append,
                  Text.newlines_append, Text.newlines_append, hzero, Text.newlines_cons, if_pos rfl]
                show 0 + (Text.newlines before + 1) + 0 = _
                omega
              have hfresh : staysFresh fresh .blockComment (Byte.slash :: Byte.star ::
                  (l ++ Byte.newline :: before ++ ("*/" : Text))) = true := by
                simp [staysFresh]
              rw [hwhole, visible?_cons hextent, hfresh, hcount, ← Nat.add_assoc]
              simp only [Option.bind_some, Option.map_map, List.append_assoc, List.cons_append]
              rfl

theorem onLine_scanLine {r : Text} {ls : List Text} (hr : Tail r ls) (line : Nat) {l : Text}
    (hl : Byte.newline ∉ l) (fresh : Bool) :
    visible? fresh line (l ++ r) = onLine line ls (scanLine line fresh l) := by
  induction hn : l.length using Nat.strong_induction_on generalizing l fresh with
  | _ n ih =>
      subst hn
      cases l with
      | nil =>
          rw [List.nil_append, hr.visible?_eq, scanLine]
          simp [onLine]
      | cons b l =>
          have hb : b ≠ Byte.newline := fun heq => hl (heq ▸ List.mem_cons_self)
          have hl' : Byte.newline ∉ l := fun hmem => hl (List.mem_cons_of_mem b hmem)
          have hform := hr.form_eq fresh b l
          have hspec := form_spec fresh b l.head?
          cases hkind : form fresh b l.head? with
          | space =>
              simp only [hkind] at hspec
              have hcount : Text.newlines [b] = 0 := by simp [Text.newlines_cons, hb]
              rw [List.cons_append, visible?_separator hspec, scanLine_separator hspec hl, hcount,
                beq_eq_false_iff_ne.mpr hb, Bool.or_false, Nat.add_zero]
              exact ih l.length (Nat.lt_succ_self _) hl' fresh rfl
          | directive => exact onLine_directive hr hl hkind line
          | lineComment =>
              have hstop : forall c, r.head? = some c -> c = Byte.newline := by
                cases hr with
                | done => simp
                | more _ =>
                    intro c hc
                    exact (Option.some.inj hc).symm
              rw [List.cons_append, visible?_cons
                (extent?_lineComment hl' hstop (hform.trans hkind)),
                scanLine_lineComment hl' hkind, newlines_take hl l List.prefix_rfl, hr.visible?_eq]
              rfl
          | blockComment =>
              simp only [hkind] at hspec
              rcases hspec with ⟨rfl, hstar⟩
              rcases List.head?_eq_some_iff.mp hstar with ⟨l, rfl⟩
              apply onLine_comment hr hl
              intro after hlen hafter fresh
              exact ih after.length (by simp only [List.length_cons]; omega) hafter fresh rfl
          | plain =>
              have hle := plainExtent_le b l
              rcases hextent : plainExtent b l with ⟨kind, n⟩
              rw [hextent] at hle
              have hlen : (l.take n).length = n := List.length_take_of_le hle
              have hsplit : l.take n ++ l.drop n = l := List.take_append_drop n l
              have hplain : kind ≠ .directive := by
                have hmem := plainExtent_mem_plainKinds b l
                rw [hextent] at hmem
                intro heq
                subst heq
                simp [plainKinds] at hmem
              have hline : extent? fresh b (l.take n ++ l.drop n) =
                  some (kind, (l.take n).length) := by
                rw [hsplit, hlen, extent?_eq, hkind]
                exact congrArg some hextent
              have hwhole : extent? fresh b (l.take n ++ (l.drop n ++ r)) =
                  some (kind, (l.take n).length) := by
                rw [← List.append_assoc, hsplit, hlen, extent?_eq, hform, hkind]
                exact congrArg some ((hr.plainExtent_eq b l).trans hextent)
              have hcons := visible?_cons hwhole line
              have hscan := scanLine_cons hline hplain line
              rw [← List.append_assoc, hsplit] at hcons
              rw [hsplit] at hscan
              rw [List.cons_append, hcons, hscan, onLine_emit,
                newlines_take hl (l.take n) (List.take_prefix n l), Nat.add_zero,
                ih (l.drop n).length (by simp only [List.length_drop, List.length_cons]; omega)
                  (fun hmem => hl' (List.mem_of_mem_drop hmem)) _ rfl]

theorem exists_line (s : Text) : exists l r, s = l ++ r ∧ Byte.newline ∉ l ∧
    ((r = [] ∧ Text.lines s = [l]) ∨
      exists t, r = Byte.newline :: t ∧ Text.lines s = l :: Text.lines t) := by
  have hs := Text.unlines_lines s
  have hline : forall l, l ∈ Text.lines s -> Byte.newline ∉ l := fun l => Text.not_mem_of_mem_lines
  cases hlines : Text.lines s with
  | nil => exact absurd hlines (Text.lines_ne_nil s)
  | cons l ls =>
      rw [hlines] at hs hline
      rcases List.forall_mem_cons.mp hline with ⟨hl, hls⟩
      cases ls with
      | nil =>
          rw [Text.unlines_singleton] at hs
          exact ⟨l, [], by rw [hs, List.append_nil], hl, Or.inl ⟨rfl, rfl⟩⟩
      | cons k ls =>
          rw [Text.unlines_cons (List.cons_ne_nil k ls)] at hs
          refine ⟨l, _, hs.symm, hl, Or.inr ⟨_, rfl, ?_⟩⟩
          rw [Text.lines_unlines (List.cons_ne_nil k ls) hls]

theorem lexLines_cons (line : Nat) (o : Opening) (l : Text) (ls : List Text) :
    lexLines line o (l :: ls) = onLine line ls (o.read line l) := rfl

theorem byLines_comment {l r : Text} {ls : List Text} (hl : Byte.newline ∉ l) (hr : Tail r ls)
    (line start : Nat) (text : Text) :
    lexLines line (.comment start text) (l :: ls) =
      (Text.cut? "*/" (l ++ r)).bind fun (before, after) =>
        (visible? true (line + Text.newlines before) after).map
          (⟨.blockComment, text ++ Byte.newline :: (before ++ "*/"), start⟩ :: ·) := by
  rw [lexLines_cons, Opening.read]
  cases hcut : Text.cut? "*/" l with
  | some parts =>
      rcases parts with ⟨before, after⟩
      have hsplit := Text.eq_append_of_cut? hcut
      have hwhole : Text.cut? "*/" (l ++ r) = some (before, after ++ r) := by
        rw [hsplit, List.append_assoc, List.append_assoc]
        exact Text.cut?_append_of_cut? (by decide) hcut (after ++ r)
      have hbefore : Byte.newline ∉ before ∧ Byte.newline ∉ after := by
        rw [hsplit, List.mem_append, List.mem_append] at hl
        exact ⟨fun h => hl (Or.inl h), fun h => hl (Or.inr (Or.inr h))⟩
      rw [hwhole, Option.bind_some]
      dsimp only
      rw [Text.newlines_of_not_mem hbefore.1, Nat.add_zero, onLine_scanLine hr line hbefore.2]
      unfold onLine
      rw [Option.map_map]
      rfl
  | none =>
      cases hr with
      | done =>
          rw [List.append_nil, hcut]
          rfl
      | @more s hs =>
          rw [cut?_line (by decide) (by decide), hcut]
          show (lexLines (line + 1) (.comment start (text ++ Byte.newline :: l)) _).map ([] ++ ·) =
            _
          rw [hs.comment]
          cases Text.cut? "*/" s with
          | none => rfl
          | some parts =>
              simp only [Option.bind_some, Option.map_some, Option.map_map, newlines_line hl,
                List.append_assoc, List.cons_append, ← Nat.add_assoc]
              rfl

theorem byLines_directive {l r : Text} {ls : List Text} (hl : Byte.newline ∉ l) (hr : Tail r ls)
    (line start : Nat) (text : Text) :
    lexLines line (.directive start text) (l :: ls) =
      (visible? false (line + Text.newlines ((l ++ r).take (directiveExtent (l ++ r))))
        ((l ++ r).drop (directiveExtent (l ++ r)))).map
          (⟨.directive, text ++ Byte.newline :: (l ++ r).take (directiveExtent (l ++ r)),
            start⟩ :: ·)
    := by
  rw [lexLines_cons, Opening.read]
  cases hr with
  | done =>
      rw [List.append_nil, directiveExtent_of_not_mem hl, List.take_length, List.drop_length,
        visible?]
      cases endsOpen l <;> rfl
  | @more s hs =>
      cases hopen : endsOpen l with
      | true =>
          rcases splitAt_directiveExtent hl hopen s with ⟨htake, hdrop⟩
          show (lexLines (line + 1) (.directive start (text ++ Byte.newline :: l)) _).map
            ([] ++ ·) = _
          rw [hs.directive, htake, hdrop, newlines_line hl, ← Nat.add_assoc]
          simp only [Option.map_map, List.append_assoc, List.cons_append]
          rfl
      | false =>
          rw [directiveExtent_line hl, hopen]
          simp only [Bool.false_eq_true, if_false, List.take_left, List.drop_left]
          rw [Text.newlines_of_not_mem hl, (Tail.more hs).visible?_eq]
          rfl

theorem byLines_of_tail {l r : Text} {ls : List Text} (hl : Byte.newline ∉ l) (hr : Tail r ls)
    (hlines : Text.lines (l ++ r) = l :: ls) : ByLines (l ++ r) := by
  constructor
  · intro line
    rw [hlines, onLine_scanLine hr line hl]
    rfl
  · intro line start text
    rw [hlines]
    exact byLines_comment hl hr line start text
  · intro line start text
    rw [hlines]
    exact byLines_directive hl hr line start text

theorem byLines (s : Text) : ByLines s := by
  induction hn : s.length using Nat.strong_induction_on generalizing s with
  | _ n ih =>
      rcases exists_line s with ⟨l, r, rfl, hl, ⟨rfl, hlines⟩ | ⟨t, rfl, hlines⟩⟩
      · exact byLines_of_tail hl Tail.done hlines
      · have hlt : t.length < n := by
          simp only [← hn, List.length_append, List.length_cons]
          omega
        exact byLines_of_tail hl (Tail.more (ih t.length hlt t rfl)) hlines

theorem lexLines_eq_some_iff {s : Text} {xs : List Lexeme} :
    lexLines 1 .outside (Text.lines s) = some xs ↔
      exists ts, tokenize s = .ok ts ∧ visible ts = xs := by
  rw [(byLines s).outside]
  exact visible?_eq_some_iff

end Lexer

end EffectShader
