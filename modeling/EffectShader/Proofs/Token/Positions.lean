import EffectShader.Proofs.Text.Runes
import Mathlib.Data.List.Chain
import Mathlib.Data.List.DropRight

/-!
# Places of tokens

Counting runes token by token is counting the runes of the source.  With the texts of
the tokens making up the source, this gives the line and the column of every token from
the bytes before it, and the same for the only failure there is, a block comment without
an end.
-/

namespace EffectShader

/-!
# Counting columns
-/

namespace Position

open Text (Boundary)

theorem advance_append {w r : Text} (h : Boundary w r) (p : Position) :
    p.advance (w ++ r) = (p.advance w).advance r := by
  unfold advance
  rw [show (w ++ r).runes = w.runes ++ r.runes from h, List.foldl_append]

theorem column_advance_of_not_mem (p : Position) {s : Text} (h : Byte.newline ∉ s) :
    (p.advance s).column = p.column + s.runes.length := by
  unfold advance
  fun_induction Text.runes s generalizing p with
  | case1 => simp
  | case2 b s q ih =>
      have hb : b ≠ Byte.newline := by
        rintro rfl
        exact h List.mem_cons_self
      rcases Rune.bytes_first b s with ⟨cs, rest, hbytes, hs, _⟩
      have hne : (q.bytes == [Byte.newline]) = false := by
        rw [show q.bytes = b :: cs from hbytes]
        simp [hb]
      have hrest : Byte.newline ∉ s.drop (q.bytes.length - 1) := by
        intro hmem
        exact h (List.mem_cons_of_mem b (List.mem_of_mem_drop hmem))
      rw [List.foldl_cons, ih _ hrest, step, hne, List.length_cons]
      simp only [Bool.false_eq_true, if_false]
      omega

def lastLine (s : Text) : Text :=
  s.rtakeWhile (· != Byte.newline)

theorem not_mem_lastLine (s : Text) : Byte.newline ∉ lastLine s := by
  intro hmem
  have := List.mem_rtakeWhile_imp hmem
  simp at this

theorem eq_lastLine (s : Text) :
    s = lastLine s ∨ exists before, s = before ++ Byte.newline :: lastLine s := by
  have hsplit : s.rdropWhile (· != Byte.newline) ++ lastLine s = s :=
    List.rdropWhile_append_rtakeWhile ..
  rcases List.eq_nil_or_concat (s.rdropWhile (· != Byte.newline)) with hnil | ⟨before, c, hconcat⟩
  · left
    rw [hnil] at hsplit
    exact hsplit.symm
  · right
    have hc : c = Byte.newline := by
      have hlast := List.rdropWhile_last_not (· != Byte.newline) s (by rw [hconcat]; simp)
      simp only [hconcat] at hlast
      simpa using hlast
    refine ⟨before, ?_⟩
    rw [hconcat, hc] at hsplit
    simpa using hsplit.symm

theorem column_advance (s : Text) :
    (start.advance s).column = 1 + (lastLine s).runes.length := by
  have hlast := not_mem_lastLine s
  rcases eq_lastLine s with hs | ⟨before, hs⟩
  · rw [← hs] at hlast ⊢
    exact column_advance_of_not_mem start hlast
  · have hnewline : Boundary before (Byte.newline :: lastLine s) := by
      apply Text.boundary_of_head
      intro c hc
      cases hc
      decide
    have hline : forall p : Position, p.advance (Byte.newline :: lastLine s) =
        (Position.mk (p.line + 1) 1 (p.offset + 1)).advance (lastLine s) := by
      intro p
      unfold advance
      rw [Text.runes_cons, List.foldl_cons]
      rfl
    have hadvance := congrArg (fun u => (start.advance u).column) hs
    rw [hadvance, advance_append hnewline, hline, column_advance_of_not_mem _ hlast]

end Position

/-!
# Tokens and their source
-/

namespace Lexer

open Text (Boundary)

structure Places (source : Text) (p : Position) : Prop where
  runes : source.runes = Text.runes (source.take p.offset) ++ Text.runes (source.drop p.offset)
  line : p.line = 1 + Text.newlines (source.take p.offset)
  column : p.column = 1 + (Position.lastLine (source.take p.offset)).runes.length

/-- The tokens make up the source, one after the other, and say where they stand in it. -/
structure Covers (source : Text) (ts : List Token) : Prop where
  texts : (ts.map Token.text).flatten = source
  first : forall t, ts.head? = some t -> t.offset = 0
  adjacent : ts.IsChain fun t u => u.offset = t.stop
  ended : exists init p, ts = init ++ [Token.endAt p] ∧ p.offset = source.length ∧
    forall t, t ∈ init -> t.kind ≠ .eof ∧ t.text ≠ []
  places : forall t, t ∈ ts -> Places source t.start

theorem texts_place (p : Position) (ws : List Piece) :
    ((place p ws).map Token.text).flatten = spell ws := by
  induction ws generalizing p with
  | nil => rfl
  | cons w ws ih => rw [place_cons, List.map_cons, List.flatten_cons, ih, spell_cons]

theorem start_of_head?_place {p : Position} {ws : List Piece} {t : Token}
    (h : (place p ws).head? = some t) : t.start = p := by
  cases ws with
  | nil =>
      cases h
      rfl
  | cons w ws =>
      cases h
      rfl

theorem adjacent_place (p : Position) (ws : List Piece) :
    (place p ws).IsChain fun t u => u.offset = t.stop := by
  induction ws generalizing p with
  | nil => exact List.isChain_singleton _
  | cons w ws ih =>
      rw [place_cons, List.isChain_cons]
      refine ⟨?_, ih _⟩
      intro u hu
      unfold Token.offset Token.stop
      rw [start_of_head?_place hu, Position.offset_advance]

theorem ended_place {fresh : Bool} {s : Text} {ws : List Piece} (h : Lexes fresh s ws)
    (p : Position) :
    exists init q, place p ws = init ++ [Token.endAt q] ∧ q.offset = p.offset + s.length ∧
      forall t, t ∈ init -> t.kind ≠ .eof ∧ t.text ≠ [] := by
  induction h generalizing p with
  | nil => exact ⟨[], p, rfl, rfl, by simp⟩
  | @cons fresh kind b w rest ws hextent _ ih =>
      rcases ih (p.advance (b :: w)) with ⟨init, q, hplace, hoffset, hinit⟩
      refine ⟨⟨kind, b :: w, p⟩ :: init, q, ?_, ?_, ?_⟩
      · rw [place_cons, hplace, List.cons_append]
      · rw [hoffset, Position.offset_advance, List.length_cons, List.length_cons,
          List.length_append]
        omega
      · intro t ht
        rcases List.mem_cons.mp ht with rfl | ht
        · exact ⟨kind_ne_eof_of_extent? hextent, List.cons_ne_nil b w⟩
        · exact hinit t ht

theorem start_of_mem_place {fresh : Bool} {s : Text} {ws : List Piece} (h : Lexes fresh s ws)
    (p : Position) {t : Token} (ht : t ∈ place p ws) :
    exists u v, s = u ++ v ∧ Boundary u v ∧ t.start = p.advance u := by
  induction h generalizing p with
  | nil =>
      rw [place_nil] at ht
      rw [List.mem_singleton.mp ht]
      exact ⟨[], [], rfl, Text.nil_boundary [], by rw [Position.advance, Text.runes_nil]; rfl⟩
  | @cons fresh kind b w rest ws hextent _ ih =>
      rw [place_cons] at ht
      rcases List.mem_cons.mp ht with rfl | ht
      · exact ⟨[], _, rfl, Text.nil_boundary _, by rw [Position.advance, Text.runes_nil]; rfl⟩
      · rcases ih _ ht with ⟨u, v, hrest, hboundary, hstart⟩
        have hpiece : Boundary (b :: w) (u ++ v) := by
          rw [← hrest]
          exact boundary_of_extent? hextent
        refine ⟨(b :: w) ++ u, v, ?_, hpiece.append hboundary, ?_⟩
        · rw [hrest, List.append_assoc, List.cons_append]
        · rw [Position.advance_append hpiece.left]
          exact hstart

theorem places_of_boundary {u v : Text} (h : Boundary u v) :
    Places (u ++ v) (Position.start.advance u) := by
  have hoffset : (Position.start.advance u).offset = u.length := by
    rw [Position.offset_advance]
    exact Nat.zero_add _
  constructor
  case runes =>
    rw [hoffset, List.take_left, List.drop_left]
    exact h
  case line =>
    rw [hoffset, List.take_left, Position.line_advance]
    rfl
  case column => rw [hoffset, List.take_left, Position.column_advance]

theorem covers_of_tokenize {source : Text} {ts : List Token} (h : tokenize source = .ok ts) :
    Covers source ts := by
  rcases tokenize_eq_ok_iff.mp h with ⟨ws, hws, rfl⟩
  constructor
  case texts => rw [texts_place, hws.spell_eq]
  case first =>
    intro t ht
    rw [Token.offset, start_of_head?_place ht]
    rfl
  case adjacent => exact adjacent_place _ ws
  case ended =>
    rcases ended_place hws Position.start with ⟨init, q, hplace, hoffset, hinit⟩
    exact ⟨init, q, hplace, hoffset.trans (Nat.zero_add _), hinit⟩
  case places =>
    intro t ht
    rcases start_of_mem_place hws Position.start ht with ⟨u, v, rfl, hboundary, hstart⟩
    rw [hstart]
    exact places_of_boundary hboundary

/-!
# Comments that are never closed
-/

def after (p : Position) (us : List Piece) : Position :=
  us.foldl (fun p w => p.advance w.text) p

/-- A block comment starts as a token at the reported place, and no end follows it: with an end
appended, it is the last token of the source. -/
def Unclosed (source : Text) (e : Unterminated) : Prop :=
  exists (before rest : Text) (ts : List Token) (p q : Position),
    source = before ++ (("/*" : Text) ++ rest) ∧ Text.includes rest "*/" = false ∧
      tokenize (source ++ ("*/" : Text)) =
        .ok (ts ++ [⟨.blockComment, ("/*" : Text) ++ (rest ++ ("*/" : Text)), p⟩, Token.endAt q]) ∧
      p.offset = before.length ∧ e = ⟨p.line, p.column⟩

theorem form_comment (fresh : Bool) : form fresh Byte.slash (some Byte.star) = .blockComment := by
  cases fresh <;> decide

theorem extent?_comment (fresh : Bool) (s : Text) :
    extent? fresh Byte.slash (Byte.star :: s) =
      (Text.indexOf? "*/" s).map fun n => (.blockComment, n + 3) := by
  rw [extent?_eq, List.head?_cons, form_comment]
  unfold blockCommentExtent?
  rw [Option.map_map]
  rfl

theorem Cuts.before_slash {f g : Bool} {us : List Piece} {y : Text}
    (h : Cuts f us g (Byte.slash :: y)) (y' : Text) : Cuts f us g (Byte.slash :: y') := by
  generalize hr : Byte.slash :: y = r at h
  induction h with
  | nil fresh _ => exact Cuts.nil fresh _
  | @cons fresh after kind b v r us hextent _ ih =>
      refine Cuts.cons ?_ (ih hr)
      rw [← hr] at hextent
      apply extent?_of_head? hextent
      · cases hus : spell us with
        | nil => rfl
        | cons c s => rfl
      · intro _
        rw [← List.append_assoc, ← List.append_assoc, plainExtent_barrier (by rfl),
          plainExtent_barrier (by rfl)]

theorem cut?_close {rest : Text} (h : Text.cut? "*/" rest = none) :
    Text.cut? "*/" (rest ++ ("*/" : Text)) = some (rest, []) := by
  induction rest with
  | nil => rfl
  | cons b rest ih =>
      rw [Text.cut?] at h
      cases hstart : Text.afterPrefix? "*/" (b :: rest) with
      | some s =>
          rw [hstart] at h
          cases h
      | none =>
          rw [hstart] at h
          have hrest : Text.cut? "*/" rest = none := Option.map_eq_none_iff.mp h
          have hnone : Text.afterPrefix? "*/" (b :: (rest ++ ("*/" : Text))) = none := by
            cases rest with
            | nil =>
                by_cases hb : Byte.star = b
                · rw [← hb]
                  rfl
                · rw [List.nil_append, show ("*/" : Text) = [Byte.star, Byte.slash] from rfl,
                    Text.afterPrefix?, if_neg (by simpa using hb)]
            | cons c rest =>
                have hlong : (("*/" : Text)).length ≤ (b :: c :: rest).length :=
                  Nat.succ_le_succ (Nat.succ_le_succ (Nat.zero_le _))
                rw [← List.append_nil (b :: c :: rest)] at hstart
                exact Text.afterPrefix?_eq_none_of_append hlong hstart "*/"
          rw [List.cons_append, Text.cut?, hnone, ih hrest]
          rfl

theorem scan_error_of_cuts {f g : Bool} {us : List Piece} {r : Text} {e : Unterminated}
    (h : Cuts f us g r) (p : Position) (hr : scan (after p us) g r = .error e) :
    scan p f (spell us ++ r) = .error e := by
  induction h generalizing p with
  | nil fresh r => exact hr
  | @cons fresh after kind b v r us hextent _ ih =>
      have htake : (v ++ (spell us ++ r)).take v.length = v := List.take_left
      have hdrop : (v ++ (spell us ++ r)).drop v.length = spell us ++ r := List.drop_left
      rw [spell_cons, List.cons_append, List.cons_append, List.append_assoc, scan, hextent]
      simp only [htake, hdrop]
      rw [ih _ hr]
      rfl

theorem exists_cuts_of_scan_error {p : Position} {fresh : Bool} {s : Text} {e : Unterminated}
    (h : scan p fresh s = .error e) :
    exists us g rest, s = spell us ++ Byte.slash :: Byte.star :: rest ∧
      Cuts fresh us g (Byte.slash :: Byte.star :: rest) ∧ Text.cut? "*/" rest = none ∧
      e = ⟨(after p us).line, (after p us).column⟩ := by
  induction p, fresh, s using scan.induct with
  | case1 p fresh =>
      rw [scan] at h
      cases h
  | case2 p fresh b s hnone =>
      rw [scan, hnone] at h
      cases h
      -- Only a block comment has no extent.
      have hspec := form_spec fresh b s.head?
      have hextent := extent?_eq fresh b s
      rw [hnone] at hextent
      cases hform : form fresh b s.head? with
      | space | directive | lineComment | plain =>
          rw [hform] at hextent
          cases hextent
      | blockComment =>
          rw [hform] at hspec
          rcases hspec with ⟨rfl, hstar⟩
          rcases List.head?_eq_some_iff.mp hstar with ⟨rest, rfl⟩
          rw [extent?_comment] at hnone
          refine ⟨[], fresh, rest, rfl, Cuts.nil fresh _, ?_, rfl⟩
          exact Option.map_eq_none_iff.mp (Option.map_eq_none_iff.mp hnone)
  | case3 p fresh b s kind n hextent text =>
      rename_i ih
      rw [scan, hextent] at h
      cases hrest : scan (p.advance text) (staysFresh fresh kind text) (s.drop n) with
      | ok rest =>
          simp only [show b :: s.take n = text from rfl, hrest] at h
          cases h
      | error e' =>
          simp only [show b :: s.take n = text from rfl, hrest] at h
          cases h
          rcases ih hrest with ⟨us, g, rest, hs, hcuts, hcut, he⟩
          have hsplit : s.take n ++ s.drop n = s := List.take_append_drop n s
          have hlen : (s.take n).length = n := List.length_take_of_le (extent?_le hextent)
          refine ⟨⟨kind, text⟩ :: us, g, rest, ?_, ?_, hcut, he⟩
          · rw [spell_cons, List.append_assoc, ← hs, List.cons_append, hsplit]
          · apply Cuts.cons _ hcuts
            rw [← hs, hsplit, hlen]
            exact hextent

theorem exists_place_append (p : Position) (us ws : List Piece) :
    exists ts, place p (us ++ ws) = ts ++ place (after p us) ws := by
  induction us generalizing p with
  | nil => exact ⟨[], rfl⟩
  | cons u us ih =>
      rcases ih (p.advance u.text) with ⟨ts, hts⟩
      exact ⟨⟨u.kind, u.text, p⟩ :: ts, by rw [List.cons_append, place_cons, hts]; rfl⟩

theorem eq_append_of_place {p q : Position} {ws : List Piece} {ts : List Token} {t : Token}
    (h : place p ws = ts ++ [t, Token.endAt q]) :
    exists us, ws = us ++ [⟨t.kind, t.text⟩] ∧ t.start = after p us := by
  induction ts generalizing p ws with
  | nil =>
      cases ws with
      | nil => cases h
      | cons w ws =>
          rw [place_cons] at h
          cases ws with
          | nil =>
              rw [List.nil_append, List.cons.injEq] at h
              rw [← h.1]
              exact ⟨[], rfl, rfl⟩
          | cons v ws =>
              rw [place_cons] at h
              have := congrArg List.length h
              cases ws <;> simp at this
  | cons u ts ih =>
      cases ws with
      | nil =>
          have := congrArg List.length h
          simp at this
      | cons w ws =>
          rw [place_cons, List.cons_append, List.cons.injEq] at h
          rcases ih h.2 with ⟨us, rfl, hstart⟩
          exact ⟨w :: us, rfl, hstart⟩

theorem offset_after (p : Position) (us : List Piece) :
    (after p us).offset = p.offset + (spell us).length := by
  induction us generalizing p with
  | nil => rfl
  | cons u us ih =>
      have hstep : after p (u :: us) = after (p.advance u.text) us := rfl
      rw [hstep, ih, Position.offset_advance, spell_cons, List.length_append, Nat.add_assoc]

theorem tokenize_error_iff {source : Text} {e : Unterminated} :
    tokenize source = .error e ↔ Unclosed source e := by
  constructor
  · intro h
    rcases exists_cuts_of_scan_error h with ⟨us, g, rest, rfl, hcuts, hcut, he⟩
    have hclosed : Lexes g (Byte.slash :: (Byte.star :: (rest ++ ("*/" : Text)) ++ []))
        [⟨.blockComment, Byte.slash :: Byte.star :: (rest ++ ("*/" : Text))⟩] := by
      apply Lexes.cons _ (Lexes.nil _)
      rw [List.append_nil, extent?_comment, Text.indexOf?, cut?_close hcut]
      simp
      rfl
    have hlexes := (hcuts.before_slash _).lexes hclosed
    rcases exists_place_append Position.start us
      [⟨.blockComment, Byte.slash :: Byte.star :: (rest ++ ("*/" : Text))⟩] with ⟨ts, hts⟩
    refine ⟨spell us, rest, ts, after Position.start us,
      (after Position.start us).advance (Byte.slash :: Byte.star :: (rest ++ ("*/" : Text))),
      rfl, ?_, ?_, ?_, he⟩
    · rw [Text.includes, hcut]
      rfl
    · rw [tokenize_eq_ok_iff]
      refine ⟨_, ?_, hts.symm⟩
      rw [List.append_nil] at hlexes
      rw [List.append_assoc]
      exact hlexes
    · rw [offset_after]
      exact Nat.zero_add _
  · rintro ⟨before, rest, ts, p, q, rfl, hopen, htokens, hoffset, rfl⟩
    rcases tokenize_eq_ok_iff.mp htokens with ⟨ws, hws, hplace⟩
    rcases eq_append_of_place hplace.symm with ⟨us, rfl, hstart⟩
    rcases hws.cuts with ⟨g, r, hsource, hcuts, hlast⟩
    have hr : r = Byte.slash :: Byte.star :: (rest ++ ("*/" : Text)) := by
      rw [← hlast.spell_eq, spell_cons, spell_nil, List.append_nil]
      rfl
    rw [hr] at hcuts hsource
    have hspell : spell us = before := by
      have hboth : spell us ++ Byte.slash :: Byte.star :: (rest ++ ("*/" : Text)) =
          before ++ Byte.slash :: Byte.star :: (rest ++ ("*/" : Text)) := by
        rw [← hsource, List.append_assoc]
        rfl
      exact List.append_cancel_right hboth
    rw [← hspell]
    apply scan_error_of_cuts (hcuts.before_slash (Byte.star :: rest))
    have hnone : Text.cut? "*/" rest = none := by
      simpa [Text.includes] using hopen
    rw [scan, extent?_comment, Text.indexOf?, hnone, ← hstart]
    rfl

/-- Tokens lose nothing of their source and their places are exact; the only failure is a block
comment that is never closed. -/
theorem tokenize_exact (source : Text) :
    (forall ts, tokenize source = .ok ts -> Covers source ts) ∧
      forall e, tokenize source = .error e ↔ Unclosed source e := by
  constructor
  · intro ts h
    exact covers_of_tokenize h
  · intro e
    exact tokenize_error_iff

end Lexer

end EffectShader
