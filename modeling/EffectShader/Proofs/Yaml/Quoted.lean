import EffectShader.Proofs.Text.Runes
import EffectShader.Yaml.Value
import Mathlib.Data.FinEnum
import Mathlib.Data.List.Basic

/-!
# Texts in double quotes

A printable text between double quotes, without quotes and backslashes in it, is the
value it spells.  Without the closing quote it is no value.
-/

namespace EffectShader

namespace Yaml

/-!
# Places in a line
-/

namespace Cursor

@[simp] theorem advanceBy_zero (c : Cursor) : advanceBy 0 c = c := rfl

theorem advanceBy_succ (n : Nat) (c : Cursor) : advanceBy (n + 1) c = advanceBy n c.advance := rfl

theorem advanceBy_add (m n : Nat) (c : Cursor) :
    advanceBy n (advanceBy m c) = advanceBy (m + n) c := by
  induction m generalizing c with
  | zero => rw [advanceBy_zero, Nat.zero_add]
  | succ m ih => rw [Nat.succ_add, advanceBy_succ, advanceBy_succ, ih]

@[simp] theorem rest_advance (c : Cursor) : c.advance.rest = c.rest.drop 1 := rfl

@[simp] theorem rest_advanceBy (n : Nat) (c : Cursor) : (advanceBy n c).rest = c.rest.drop n := by
  induction n generalizing c with
  | zero => rfl
  | succ n ih => rw [advanceBy_succ, ih, rest_advance, List.drop_drop, Nat.add_comm]

theorem rest_advanceBy_of_append {c : Cursor} {w r : List Char} (h : c.rest = w ++ r) :
    (advanceBy w.length c).rest = r := by
  rw [rest_advanceBy, h, List.drop_left]

theorem le_column_advanceBy (n : Nat) (c : Cursor) : c.column ≤ (advanceBy n c).column := by
  induction n generalizing c with
  | zero => exact Nat.le_refl _
  | succ n ih => exact Nat.le_trans (Nat.le_succ _) (ih c.advance)

theorem advanceWhile_of_head {p : Char -> Bool} {c : Cursor}
    (h : forall b, c.rest.head? = some b -> p b = false) : c.advanceWhile p = c := by
  unfold advanceWhile
  cases hrest : c.rest with
  | nil => rfl
  | cons b rest =>
      rw [List.takeWhile_cons_of_neg (by rw [h b (by rw [hrest]; rfl)]; exact Bool.false_ne_true)]
      rfl

theorem skipLineComment_of_rest {c : Cursor} (h : c.rest = []) : c.skipLineComment = c := by
  unfold skipLineComment
  rw [h, if_neg (by simp)]

theorem isAtDocumentMark_of_column {c : Cursor} (h : 0 < c.column) :
    c.isAtDocumentMark = false := by
  unfold isAtDocumentMark isAtMark
  rw [beq_false_of_ne (Nat.ne_of_gt h)]
  rfl

end Cursor

/-!
# Reading between quotes

Words and gaps take turns.  None of them holds a line end, so a gap stands for itself.
-/

/-- Characters that stand for themselves between double quotes. -/
def IsPlain (x : Char) : Prop :=
  isBreak x = false ∧ x ≠ '"' ∧ x ≠ '\\'

theorem quotedPart?_eq {w r : List Char} {c : Cursor} (hc : c.rest = w ++ r)
    (hw : forall x, x ∈ w -> IsPlain x ∧ isSpace x = false)
    (hr : forall x, r.head? = some x -> isSpace x = true ∨ x = '"') {count : Nat}
    (hcount : w.length ≤ count) (text : List Char) :
    quotedPart? '"' count text c = some (text ++ w, .none, c.advanceBy w.length) := by
  induction w generalizing c count text with
  | nil =>
      rw [List.nil_append] at hc
      cases count with
      | zero => simp [quotedPart?]
      | succ count =>
          rw [quotedPart?, hc]
          cases r with
          | nil => simp
          | cons x r =>
              rcases hr x rfl with hspace | rfl
              · simp [hspace]
              · simp [show isSpace '"' = false by decide]
  | cons x w ih =>
      cases count with
      | zero => exact absurd hcount (Nat.not_succ_le_zero _)
      | succ count =>
          rcases hw x List.mem_cons_self with ⟨⟨_, hquote, hslash⟩, hspace⟩
          have hrest : c.advance.rest = w ++ r := by
            rw [Cursor.rest_advance, hc]
            rfl
          have htail := ih hrest (fun y hy => hw y (List.mem_cons_of_mem x hy))
            (Nat.le_of_succ_le_succ hcount) (text ++ [x])
          rw [quotedPart?, hc]
          simp only [List.cons_append, hspace, Bool.false_eq_true, if_false, beq_false_of_ne hquote,
            beq_false_of_ne hslash, Bool.false_and]
          rw [htail, List.append_assoc, List.length_cons, Cursor.advanceBy_succ]
          rfl

theorem Gap.read?_eq {g r : List Char} {c : Cursor} (hc : c.rest = g ++ r)
    (hg : forall x, x ∈ g -> isBlank x = true ∧ isBreak x = false)
    (hr : forall x, r.head? = some x -> isSpace x = false) {count : Nat} (hcount : g.length ≤ count)
    {gap : Gap} (hgap : gap.broken = false) :
    gap.read? 0 count c =
      some ({ gap with blanks := gap.blanks ++ g }, c.advanceBy g.length) := by
  induction g generalizing c count gap with
  | nil =>
      rw [List.nil_append] at hc
      cases count with
      | zero => simp [Gap.read?]
      | succ count =>
          rw [Gap.read?, Cursor.next?, hc]
          cases r with
          | nil => simp
          | cons x r =>
              have hspace : isBlank x = false ∧ isBreak x = false := by
                simpa [isSpace] using hr x rfl
              simp [hspace]
  | cons x g ih =>
      cases count with
      | zero => exact absurd hcount (Nat.not_succ_le_zero _)
      | succ count =>
          rcases hg x List.mem_cons_self with ⟨hblank, hbreak⟩
          have hrest : c.advance.rest = g ++ r := by
            rw [Cursor.rest_advance, hc]
            rfl
          have hgap' : ({ gap with blanks := gap.blanks ++ [x] } : Gap).broken = false := hgap
          have htail := ih hrest (fun y hy => hg y (List.mem_cons_of_mem x hy))
            (Nat.le_of_succ_le_succ hcount) hgap'
          rw [Gap.read?, Cursor.next?, hc]
          simp only [List.cons_append, List.head?_cons, hbreak, hblank, hgap, Bool.false_eq_true,
            if_false, if_true, Bool.not_false]
          rw [← hgap, htail, List.append_assoc, List.length_cons, Cursor.advanceBy_succ]
          rfl

theorem isSpace_of_isPlain {x : Char} (hx : IsPlain x) (hspace : isSpace x = true) :
    isBlank x = true := by
  unfold isSpace at hspace
  rwa [hx.1, Bool.or_false] at hspace

theorem exists_word_gap (v : List Char) :
    exists w g r, v = w ++ (g ++ r) ∧ (forall x, x ∈ w -> isSpace x = false) ∧
      (forall x, x ∈ g -> isSpace x = true) ∧ (forall x, r.head? = some x -> isSpace x = false) ∧
      (g = [] -> r = []) := by
  refine ⟨v.takeWhile fun x => !isSpace x, (v.dropWhile fun x => !isSpace x).takeWhile isSpace,
    (v.dropWhile fun x => !isSpace x).dropWhile isSpace, ?_, ?_, ?_, ?_, ?_⟩
  · rw [List.takeWhile_append_dropWhile, List.takeWhile_append_dropWhile]
  · intro x hx
    simpa using List.mem_takeWhile_imp hx
  · intro x hx
    exact List.mem_takeWhile_imp hx
  · intro x hx
    have hnot := List.head?_dropWhile_not isSpace (v.dropWhile fun x => !isSpace x)
    rw [hx] at hnot
    exact hnot
  · intro hgap
    have hnot := List.head?_dropWhile_not (fun x => !isSpace x) v
    cases hrest : v.dropWhile fun x => !isSpace x with
    | nil => rfl
    | cons x rest =>
        -- The rest starts with white space, so the gap is not empty.
        rw [hrest] at hnot hgap
        have hspace : isSpace x = true := by simpa using hnot
        rw [List.takeWhile_cons_of_pos hspace] at hgap
        exact absurd hgap (List.cons_ne_nil _ _)

theorem quoted?_gap {w g r : List Char} {c : Cursor} (hc : c.rest = w ++ (g ++ r))
    (hw : forall x, x ∈ w -> IsPlain x ∧ isSpace x = false)
    (hg : forall x, x ∈ g -> IsPlain x ∧ isSpace x = true)
    (hr : forall x, r.head? = some x -> isSpace x = false) (hgap : g = [] -> r = [])
    (hne : c.rest ≠ []) (hcolumn : 0 < c.column) (count : Nat) (text : List Char) :
    quoted? '"' (count + 1) text c =
      quoted? '"' count (text ++ (w ++ g)) (c.advanceBy (w ++ g).length) := by
  have hhead : forall x, (g ++ r).head? = some x -> isSpace x = true := by
    intro x hx
    cases g with
    | nil =>
        rw [hgap rfl] at hx
        cases hx
    | cons y g =>
        cases hx
        exact (hg x List.mem_cons_self).2
  have hword : w.length ≤ c.rest.length := by
    rw [hc, List.length_append]
    exact Nat.le_add_right _ _
  have hpart := quotedPart?_eq hc hw (fun x hx => .inl (hhead x hx)) hword text
  have hrest := Cursor.rest_advanceBy_of_append hc
  have hquote : (c.advanceBy w.length).isAt '"' = false := by
    apply beq_false_of_ne
    rw [Cursor.next?, hrest]
    intro hquote
    exact absurd (hhead '"' hquote) (by decide)
  have hlength : g.length ≤ (c.advanceBy w.length).rest.length := by
    rw [hrest, List.length_append]
    exact Nat.le_add_right _ _
  have hunbroken : Gap.none.broken = false := rfl
  have hread := Gap.read?_eq hrest
    (fun x hx => ⟨isSpace_of_isPlain (hg x hx).1 (hg x hx).2, (hg x hx).1.1⟩) hr hlength hunbroken
  have hempty : c.rest.isEmpty = false := by simpa using hne
  rw [quoted?, Cursor.isAtDocumentMark_of_column hcolumn, hempty, hpart]
  simp only [Bool.or_self, Bool.false_eq_true, if_false, hquote, hread]
  rw [Cursor.advanceBy_add, ← List.length_append, List.append_assoc]
  rfl

theorem quoted?_eq {v r : List Char} {c : Cursor} (hc : c.rest = v ++ '"' :: r)
    (hv : forall x, x ∈ v -> IsPlain x) (hcolumn : 0 < c.column) {count : Nat}
    (hcount : v.length < count) (text : List Char) :
    quoted? '"' count text c = some (text ++ v, c.advanceBy (v.length + 1)) := by
  induction count generalizing v c text with
  | zero => exact absurd hcount (Nat.not_lt_zero _)
  | succ count ih =>
      rcases exists_word_gap v with ⟨w, g, u, rfl, hw, hg, hu, hgap⟩
      have hword : forall x, x ∈ w -> IsPlain x ∧ isSpace x = false :=
        fun x hx => ⟨hv x (by simp [hx]), hw x hx⟩
      have hne : c.rest ≠ [] := by simp [hc]
      by_cases hlast : g = []
      · -- The word ends at the quote.
        obtain rfl := hlast
        obtain rfl := hgap rfl
        simp only [List.append_nil] at hc hcount ⊢
        have hlength : w.length ≤ c.rest.length := by
          rw [hc, List.length_append]
          exact Nat.le_add_right _ _
        have hpart := quotedPart?_eq hc hword (r := '"' :: r) (by simp) hlength text
        have hquote : (c.advanceBy w.length).isAt '"' = true := by
          rw [Cursor.isAt, Cursor.next?, Cursor.rest_advanceBy_of_append hc]
          rfl
        have hempty : c.rest.isEmpty = false := by simpa using hne
        rw [quoted?, Cursor.isAtDocumentMark_of_column hcolumn, hempty, hpart]
        simp only [Bool.or_self, Bool.false_eq_true, if_false, hquote, if_true]
        rw [← Cursor.advanceBy_add]
        rfl
      · have hsplit : c.rest = w ++ (g ++ (u ++ '"' :: r)) := by
          simpa only [List.append_assoc] using hc
        have hfollows : forall x, (u ++ '"' :: r).head? = some x -> isSpace x = false := by
          intro x hx
          cases u with
          | nil =>
              cases hx
              decide
          | cons y u => exact hu x hx
        have hlength : u.length < count := by
          have := List.length_pos_of_ne_nil hlast
          simp only [List.length_append] at hcount
          omega
        rw [quoted?_gap hsplit hword (fun x hx => ⟨hv x (by simp [hx]), hg x hx⟩) hfollows
          (fun h => absurd h hlast) hne hcolumn]
        have hrest : (c.advanceBy (w ++ g).length).rest = u ++ '"' :: r :=
          Cursor.rest_advanceBy_of_append (by rw [hsplit, List.append_assoc])
        rw [ih hrest (fun x hx => hv x (by simp [hx]))
          (Nat.lt_of_lt_of_le hcolumn (Cursor.le_column_advanceBy _ _)) hlength]
        rw [Cursor.advanceBy_add, List.append_assoc, List.append_assoc, ← List.append_assoc w,
          @List.length_append _ (w ++ g), Nat.add_assoc]

theorem quoted?_open {c : Cursor} (hc : forall x, x ∈ c.rest -> IsPlain x) (hcolumn : 0 < c.column)
    (count : Nat) (text : List Char) : quoted? '"' count text c = none := by
  induction count generalizing c text with
  | zero => rfl
  | succ count ih =>
      by_cases hne : c.rest = []
      · rw [quoted?, hne]
        simp
      · rcases exists_word_gap c.rest with ⟨w, g, r, hrest, hw, hg, hr, hgap⟩
        have hplain : forall x, x ∈ w ++ (g ++ r) -> IsPlain x := by rwa [← hrest]
        rw [quoted?_gap hrest (fun x hx => ⟨hplain x (by simp [hx]), hw x hx⟩)
          (fun x hx => ⟨hplain x (by simp [hx]), hg x hx⟩) hr hgap hne hcolumn]
        refine ih ?_ (Nat.lt_of_lt_of_le hcolumn (Cursor.le_column_advanceBy _ _)) _
        intro x hx
        rw [Cursor.rest_advanceBy, ] at hx
        exact hc x (List.mem_of_mem_drop hx)

/-!
# The end of a text

Behind the last token every further one is the end of the text.
-/

namespace Tokens

/-- Nothing is left to read, no collection is open and no key has to follow. -/
structure IsEnded (s : Tokens) : Prop where
  rest : s.cursor.rest = []
  indent : s.indent = -1
  outer : s.outer = []
  keys : exists start, s.keys = [start] ∧ forall k, start = some k -> k.required = false

theorem closeBlocks_of_outer {s : Tokens} (h : s.outer = []) (column : Int) :
    s.closeBlocks column = s := by
  unfold closeBlocks
  rw [h]
  split
  · rfl
  · cases s
    simp_all [leave]

theorem skipSpace_of_rest {s : Tokens}
    (h : forall b, s.cursor.rest.head? = some b -> isSpace b = false ∧ b ≠ '#') (count : Nat) :
    s.skipSpace count = s := by
  cases count with
  | zero => rfl
  | succ count =>
      have hstay : (s.cursor.advanceWhile fun b =>
          b == ' ' || ((s.inside || !s.keyAllowed) && b == '\t')) = s.cursor := by
        apply Cursor.advanceWhile_of_head
        intro b hb
        have hblank : isBlank b = false := (Bool.or_eq_false_iff.mp (h b hb).1).1
        rcases Bool.or_eq_false_iff.mp hblank with ⟨hspace, htab⟩
        rw [hspace, htab, Bool.and_false, Bool.or_false]
      have hcomment : s.cursor.isAt '#' = false :=
        beq_false_of_ne fun hb => (h '#' hb).2 rfl
      have hbreak : s.cursor.sees isBreak = false := by
        cases hb : s.cursor.rest.head? with
        | none => rw [Cursor.sees, Cursor.next?, hb, Option.any_none]
        | some b =>
            rw [Cursor.sees, Cursor.next?, hb, Option.any_some]
            exact (Bool.or_eq_false_iff.mp (h b hb).1).2
      simp only [skipSpace, hstay, hcomment, hbreak, Bool.false_eq_true, if_false]

namespace IsEnded

theorem outermost?_eq {s : Tokens} (h : s.IsEnded) :
    s.outermost? = some { s with keys := [none], keyAllowed := false } := by
  rcases h.keys with ⟨start, hkeys, hstart⟩
  have hdrop : s.dropKey? = some { s with keys := [none] } := by
    cases start with
    | none =>
        simp only [dropKey?, hkeys]
        rw [← hkeys]
    | some k =>
        simp only [dropKey?, hkeys, hstart k rfl, Bool.false_eq_true, if_false]
  rw [outermost?, closeBlocks_of_outer h.outer, hdrop]
  rfl

theorem next?_eq {s : Tokens} (h : s.IsEnded) :
    exists s', s.next? = some s' ∧ s'.IsEnded ∧ s'.queue = s.queue ++ [.finish] := by
  have hskip : s.skipSpace (s.cursor.rest.length + 1) = s := by
    apply skipSpace_of_rest
    rw [h.rest]
    simp
  have hnone : s.cursor.next? = none := by
    rw [Cursor.next?, h.rest]
    rfl
  have hmoved : forall c : Cursor, c.rest = [] -> IsEnded { s with cursor := c } :=
    fun c hc => ⟨hc, h.indent, h.outer, h.keys⟩
  simp only [next?, hskip, closeBlocks_of_outer h.outer, hnone, finish?]
  rw [(hmoved _ ?_).outermost?_eq]
  · refine ⟨_, rfl, ⟨?_, h.indent, h.outer, none, rfl, fun k hk => by cases hk⟩, rfl⟩
    change Cursor.rest (if _ then _ else _) = []
    split <;> exact h.rest
  · split <;> exact h.rest

theorem fill?_eq {s : Tokens} (h : s.IsEnded) (count : Nat) :
    exists s', s.fill? count = some s' ∧ s'.IsEnded ∧
      exists more, s'.queue = s.queue ++ List.replicate more .finish := by
  induction count generalizing s with
  | zero => exact ⟨s, rfl, h, 0, (List.append_nil _).symm⟩
  | succ count ih =>
      rcases h.next?_eq with ⟨next, hnext, hended, hqueue⟩
      have hmore : exists s', (s.next?).bind (fill? count) = some s' ∧ s'.IsEnded ∧
          exists more, s'.queue = s.queue ++ List.replicate more .finish := by
        rcases ih hended with ⟨s', hs', hended', more, hmore⟩
        refine ⟨s', ?_, hended', more + 1, ?_⟩
        · rw [hnext]
          exact hs'
        · rw [hmore, hqueue, List.append_assoc]
          rfl
      rw [fill?]
      split
      · exact hmore
      · split
        · exact ⟨s, rfl, h, 0, (List.append_nil _).symm⟩
        · rename_i k hk
          split
          · exact hmore
          · have hforget : (s.forget k).IsEnded := by
              refine ⟨h.rest, h.indent, h.outer, ?_⟩
              rcases h.keys with ⟨start, hkeys, hstart⟩
              refine ⟨if start == some k then none else start, by rw [forget, hkeys]; rfl, ?_⟩
              intro k' hk'
              split at hk'
              · cases hk'
              · exact hstart k' hk'
            have hrequired : k.required = false := by
              rcases h.keys with ⟨start, hkeys, hstart⟩
              have hmem := List.mem_of_find?_eq_some hk
              rw [hkeys] at hmem
              exact hstart k (by simpa [eq_comm] using hmem)
            rw [if_neg (by rw [hrequired]; exact Bool.false_ne_true)]
            exact ⟨_, rfl, hforget, 0, (List.append_nil _).symm⟩

theorem peek?_eq {s : Tokens} (h : s.IsEnded) {t : Token} {q : List Token}
    (hqueue : s.queue = t :: q) :
    exists s', s.peek? = some (t, s') ∧ s'.IsEnded ∧
      exists more, s'.queue = t :: q ++ List.replicate more .finish := by
  rcases h.fill?_eq (s.cursor.rest.length + 4) with ⟨s', hfill, hended, more, hmore⟩
  refine ⟨s', ?_, hended, more, by rw [hmore, hqueue]⟩
  rw [peek?, hfill]
  simp only [Option.bind_eq_bind, Option.bind_some, hmore, hqueue]
  rfl

end IsEnded

theorem next?_ofText (z : List Char) :
    (ofText ('"' :: z)).next? = ((ofText ('"' :: z)).quoted? '"').map (·.skipLineComment) := by
  have hskip : (ofText ('"' :: z)).skipSpace ((ofText ('"' :: z)).cursor.rest.length + 1) =
      ofText ('"' :: z) := by
    apply skipSpace_of_rest
    intro b hb
    cases hb
    exact ⟨by decide, by decide⟩
  have hclose : (ofText ('"' :: z)).closeBlocks (ofText ('"' :: z)).cursor.column =
      ofText ('"' :: z) := closeBlocks_of_outer rfl _
  simp only [next?, hskip, hclose]
  rfl

theorem quoted?_ofText (z : List Char) :
    (ofText ('"' :: z)).quoted? '"' =
      (Yaml.quoted? '"' (z.length + 2) [] (Cursor.start ('"' :: z)).advance).map fun (text, c) =>
        { cursor := c
          queue := [.start, .scalar (textOf text) true]
          taken := 0
          indent := -1
          outer := []
          keys := [some ⟨1, 0, 0, 0, false⟩]
          keyAllowed := false } := by
  have hsave : (ofText ('"' :: z)).saveKey? =
      some { ofText ('"' :: z) with keys := [some ⟨1, 0, 0, 0, false⟩] } := rfl
  rw [quoted?, word?, hsave]
  cases hread : Yaml.quoted? '"' (z.length + 2) [] (Cursor.start ('"' :: z)).advance with
  | none =>
      change Option.bind (Option.map _ (Yaml.quoted? '"' (z.length + 2) []
        (Cursor.start ('"' :: z)).advance)) _ = _
      rw [hread]
      rfl
  | some read =>
      change Option.bind (Option.map _ (Yaml.quoted? '"' (z.length + 2) []
        (Cursor.start ('"' :: z)).advance)) _ = _
      rw [hread]
      rfl

theorem next?_ofText_closed {v : List Char} (hv : forall x, x ∈ v -> IsPlain x) :
    exists s, (ofText ('"' :: (v ++ ['"']))).next? = some s ∧ s.IsEnded ∧
      s.queue = [.start, .scalar (textOf v) true] := by
  have hlength : v.length < (v ++ ['"']).length + 2 := by
    rw [List.length_append]
    omega
  have hread := quoted?_eq (c := (Cursor.start ('"' :: (v ++ ['"']))).advance) rfl hv
    Nat.zero_lt_one hlength []
  have hrest :
      ((Cursor.start ('"' :: (v ++ ['"']))).advance.advanceBy (v.length + 1)).rest = [] := by
    have hlength : v.length + 1 = (v ++ ['"']).length := by simp
    rw [hlength]
    exact Cursor.rest_advanceBy_of_append (List.append_nil _).symm
  rw [next?_ofText, quoted?_ofText, hread]
  refine ⟨_, rfl, ⟨?_, rfl, rfl, _, rfl, fun k hk => by cases hk; rfl⟩, rfl⟩
  change Cursor.rest (Cursor.skipLineComment _) = []
  rw [Cursor.skipLineComment_of_rest hrest, hrest]

theorem next?_ofText_open {z : List Char} (hz : forall x, x ∈ z -> IsPlain x) :
    (ofText ('"' :: z)).next? = none := by
  rw [next?_ofText, quoted?_ofText, quoted?_open hz Nat.zero_lt_one]
  rfl

end Tokens

/-!
# Documents and values
-/

namespace Reader

open Tokens (fill? peek?)

/-- The next token where the text ends; reading it makes only ends of the text. -/
theorem peek_eq {r : Reading} (h : r.tokens.IsEnded) {t : Token} {q : List Token}
    (hqueue : r.tokens.queue = t :: q) :
    exists r', peek.run r = some (t, r') ∧ r'.tokens.IsEnded ∧
      exists more, r'.tokens.queue = t :: q ++ List.replicate more .finish := by
  rcases h.peek?_eq hqueue with ⟨s, hpeek, hended, hmore⟩
  refine ⟨{ r with tokens := s }, ?_, hended, hmore⟩
  simp [peek, hpeek]

theorem skip_isEnded {r : Reading} (h : r.tokens.IsEnded) : r.tokens.skip.IsEnded :=
  ⟨h.rest, h.indent, h.outer, h.keys⟩

/-- The first token of a text; the tokens ahead of it are made, too. -/
theorem peek_first {r : Reading} {s : Tokens} (hnext : r.tokens.next? = some s)
    (hfirst : r.tokens.queue.length < 3) (hended : s.IsEnded) {t : Token} {q : List Token}
    (hqueue : s.queue = t :: q) :
    exists r', peek.run r = some (t, r') ∧ r'.tokens.IsEnded ∧
      exists more, r'.tokens.queue = t :: q ++ List.replicate more .finish := by
  rcases hended.fill?_eq (r.tokens.cursor.rest.length + 3) with ⟨u, hfill, hended, more, hmore⟩
  rw [hqueue] at hmore
  refine ⟨{ r with tokens := u }, ?_, hended, more, hmore⟩
  have hstart : r.tokens.fill? (r.tokens.cursor.rest.length + 4) = some u := by
    rw [fill?, if_pos hfirst, hnext]
    exact hfill
  simp [peek, peek?, hstart, hmore]

theorem exists_peek {r : Reading} (h : r.tokens.IsEnded) :
    exists t r', peek.run r = some (t, r') := by
  cases hqueue : r.tokens.queue with
  | nil =>
      rcases h.next?_eq with ⟨s, hnext, hended, hfinish⟩
      rw [hqueue] at hfinish
      rcases peek_first hnext (by simp [hqueue]) hended hfinish with ⟨r', hpeek, _⟩
      exact ⟨_, r', hpeek⟩
  | cons t q =>
      rcases peek_eq h hqueue with ⟨r', hpeek, _⟩
      exact ⟨t, r', hpeek⟩

theorem node_scalar {r : Reading} (h : r.tokens.IsEnded) {text : Text} {quoted : Bool}
    {q : List Token} (hqueue : r.tokens.queue = .scalar text quoted :: q) (block hanging : Bool)
    (fuel : Nat) :
    exists r', (node block hanging (fuel + 2)).run r = some (.ofScalar [] text quoted, r') ∧
      r'.tokens.IsEnded := by
  rcases peek_eq h hqueue with ⟨r₁, hpeek₁, hended₁, more₁, hqueue₁⟩
  rcases peek_eq hended₁ hqueue₁ with ⟨r₂, hpeek₂, hended₂, _⟩
  refine ⟨{ r₂ with tokens := r₂.tokens.skip }, ?_, skip_isEnded hended₂⟩
  simp [node, properties, openAnchor, content, closeAnchor, skip, hpeek₁, hpeek₂]

theorem document_scalar {r : Reading} {s : Tokens} (hnext : r.tokens.next? = some s)
    (hfirst : r.tokens.queue.length < 3) (hended : s.IsEnded) {text : Text} {quoted : Bool}
    (hqueue : s.queue = [.start, .scalar text quoted]) (fuel : Nat) :
    exists r', (document (fuel + 2)).run r = some (.ofScalar [] text quoted, r') := by
  rcases peek_first hnext hfirst hended hqueue with ⟨r₁, hpeek₁, hended₁, more₁, hqueue₁⟩
  have hskip : ({ r₁ with tokens := r₁.tokens.skip } : Reading).tokens.queue =
      .scalar text quoted :: List.replicate more₁ .finish := by
    change r₁.tokens.queue.drop 1 = _
    rw [hqueue₁]
    rfl
  rcases peek_eq (skip_isEnded hended₁) hskip with ⟨r₂, hpeek₂, hended₂, more₂, hqueue₂⟩
  rcases node_scalar hended₂ hqueue₂ true false fuel with ⟨r₃, hnode, hended₃⟩
  rcases exists_peek hended₃ with ⟨t, r₄, hpeek₄⟩
  refine ⟨r₄, ?_⟩
  simp [document, skip, hpeek₁, hpeek₂, hnode, hpeek₄]

theorem document_none {r : Reading} (hnext : r.tokens.next? = none)
    (hfirst : r.tokens.queue.length < 3) (fuel : Nat) : (document fuel).run r = none := by
  have hpeek : peek.run r = none := by
    have hfill : r.tokens.fill? (r.tokens.cursor.rest.length + 4) = none := by
      rw [fill?, if_pos hfirst, hnext]
      rfl
    simp [peek, peek?, hfill]
  simp [document, hpeek]

end Reader

/-!
# Texts
-/

/-- A printable byte that is neither a quote nor a backslash. -/
def IsQuotable (b : UInt8) : Prop :=
  0x20 ≤ b ∧ b ≤ 0x7E ∧ b ≠ Byte.quote ∧ b ≠ Byte.backslash

instance : DecidablePred IsQuotable := fun _ => inferInstanceAs (Decidable (_ ∧ _))

def charOf (b : UInt8) : Char :=
  Char.ofNat b.toNat

theorem runes_of_isAscii {s : Text} (h : Lexer.IsAscii s) :
    s.runes = s.map fun b => ⟨charOf b, [b]⟩ := by
  induction s with
  | nil => exact Text.runes_nil
  | cons b s ih =>
      have hfirst : Rune.first b s = ⟨charOf b, [b]⟩ := by
        unfold Rune.first
        rw [if_pos (h b List.mem_cons_self)]
        rfl
      rw [Text.runes_cons, hfirst, List.map_cons, ← ih fun c hc => h c (List.mem_cons_of_mem b hc)]
      rfl

theorem textOf_map_charOf {s : Text} (h : Lexer.IsAscii s) : textOf (s.map charOf) = s := by
  have hbyte : forall b : UInt8, b < 0x80 -> Text.ofChar (charOf b) = [b] := by
    decide +kernel
  induction s with
  | nil => rfl
  | cons b s ih =>
      rw [textOf, List.map_cons, List.flatMap_cons, hbyte b (h b List.mem_cons_self)]
      exact congrArg (b :: ·) (ih fun c hc => h c (List.mem_cons_of_mem b hc))

theorem charOf_of_printable {b : UInt8} (hleast : 0x20 ≤ b) (hmost : b ≤ 0x7E) :
    isAllowed (charOf b) = true ∧ charOf b ≠ byteOrderMark ∧ charOf b ≠ Rune.replacement := by
  revert b
  decide +kernel

theorem isPlain_charOf {b : UInt8} (h : IsQuotable b) : IsPlain (charOf b) := by
  revert b
  unfold IsPlain
  decide +kernel

theorem characters?_eq {s : Text} (h : forall b, b ∈ s -> 0x20 ≤ b ∧ b ≤ 0x7E) :
    characters? s = some (s.map charOf) := by
  have hascii : Lexer.IsAscii s := fun b hb =>
    Nat.lt_of_le_of_lt (UInt8.le_iff_toNat_le.mp (h b hb).2) (by decide)
  have hallowed : (s.runes.all fun r => isAllowed r.char && !r.isStray) = true := by
    rw [runes_of_isAscii hascii, List.all_map, List.all_eq_true]
    intro b hb
    rcases charOf_of_printable (h b hb).1 (h b hb).2 with ⟨hallowed, _, hstray⟩
    simp [hallowed, Rune.isStray, hstray]
  have hchars : s.chars = s.map charOf := by
    rw [Text.chars, runes_of_isAscii hascii, List.map_map]
    rfl
  have hmark : ((s.map charOf).head? == some byteOrderMark) = false := by
    cases s with
    | nil => rfl
    | cons b s =>
        have hb := h b List.mem_cons_self
        simpa using (charOf_of_printable hb.1 hb.2).2.1
  simp only [characters?, hallowed, if_true, hchars, hmark, Bool.false_eq_true, if_false]

theorem parse?_quote {z : Text} (h : forall b, b ∈ z -> 0x20 ≤ b ∧ b ≤ 0x7E) :
    parse? (Byte.quote :: z) = ((Reader.document (6 * (z.length + 1) + 12)).run
      ⟨.ofText ('"' :: z.map charOf), [], [], 0, Reader.usualHandles⟩).map (·.1) := by
  have hchars : characters? (Byte.quote :: z) = some ('"' :: z.map charOf) := by
    apply characters?_eq
    intro b hb
    rcases List.mem_cons.mp hb with rfl | hb
    · decide
    · exact h b hb
  have hmark : (('"' :: z.map charOf).head? == some byteOrderMark) = false := by
    rw [List.head?_cons]
    decide
  simp only [parse?, hchars, Option.bind_eq_bind, Option.bind_some, hmark, Bool.false_eq_true,
    if_false, List.length_cons, List.length_map]
  cases (Reader.document (6 * (z.length + 1) + 12)).run
    ⟨.ofText ('"' :: z.map charOf), [], [], 0, Reader.usualHandles⟩ <;> rfl

theorem value?_quoted {v : Text} (hv : forall b, b ∈ v -> IsQuotable b) :
    value? (Byte.quote :: (v ++ [Byte.quote])) = some (.text v) := by
  have hascii : Lexer.IsAscii v := fun b hb =>
    Nat.lt_of_le_of_lt (UInt8.le_iff_toNat_le.mp (hv b hb).2.1) (by decide)
  have hplain : forall x, x ∈ v.map charOf -> IsPlain x := by
    intro x hx
    rcases List.mem_map.mp hx with ⟨b, hb, rfl⟩
    exact isPlain_charOf (hv b hb)
  rcases Tokens.next?_ofText_closed hplain with ⟨s, hnext, hended, hqueue⟩
  rw [textOf_map_charOf hascii] at hqueue
  rcases Reader.document_scalar
    (r := ⟨.ofText ('"' :: (v.map charOf ++ ['"'])), [], [], 0, Reader.usualHandles⟩) hnext
    (show 1 < 3 by decide) hended hqueue (6 * ((v ++ [Byte.quote]).length + 1) + 10)
    with ⟨r', hdocument⟩
  have hparse : parse? (Byte.quote :: (v ++ [Byte.quote])) = some (.ofScalar [] v true) := by
    rw [parse?_quote, List.map_append]
    · change Option.map _ ((Reader.document _).run
        ⟨.ofText ('"' :: (v.map charOf ++ ['"'])), [], [], 0, Reader.usualHandles⟩) = _
      rw [hdocument]
      rfl
    · intro b hb
      rcases List.mem_append.mp hb with hb | hb
      · exact ⟨(hv b hb).1, (hv b hb).2.1⟩
      · rw [List.mem_singleton.mp hb]
        decide
  rw [value?, hparse]
  rfl

theorem value?_open {z : Text} (hz : forall b, b ∈ z -> IsQuotable b) :
    value? (Byte.quote :: z) = none := by
  have hplain : forall x, x ∈ z.map charOf -> IsPlain x := by
    intro x hx
    rcases List.mem_map.mp hx with ⟨b, hb, rfl⟩
    exact isPlain_charOf (hz b hb)
  have hdocument := Reader.document_none
    (r := ⟨.ofText ('"' :: z.map charOf), [], [], 0, Reader.usualHandles⟩)
    (Tokens.next?_ofText_open hplain) (show 1 < 3 by decide) (6 * (z.length + 1) + 12)
  rw [value?, parse?_quote fun b hb => ⟨(hz b hb).1, (hz b hb).2.1⟩, hdocument]
  rfl

end Yaml

end EffectShader
