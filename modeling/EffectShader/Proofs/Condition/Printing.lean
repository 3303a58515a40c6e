import EffectShader.Proofs.Condition.Grammar
import EffectShader.Proofs.Declaration.Layout
import EffectShader.Proofs.Text.Runes

/-!
# Printed conditions read back

A condition is printed as its tokens with single spaces between them.
Parentheses stand around an operator only where a tighter one is expected.  What
is printed derives the condition it was printed from.
-/

namespace EffectShader

namespace Lexer

/-!
# Tokens between spaces
-/

def isName (s : Text) : Bool :=
  match s.chars with
  | [] => false
  | c :: cs => isWordStart c && cs.all isWordChar

def Piece.Stands (w : Piece) : Prop :=
  exists b v, w.text = b :: v ∧ form true b v.head? = .plain ∧
    plainExtent b v = (w.kind, v.length)

def gap : Piece :=
  ⟨.whitespace, [Byte.space]⟩

theorem Piece.Stands.extent? {kind : TokenKind} {b : UInt8} {v : Text}
    (h : Piece.Stands ⟨kind, b :: v⟩) (fresh : Bool) {r : Text}
    (hr : r = [] ∨ r.head? = some Byte.space) :
    extent? fresh b (v ++ r) = some (kind, v.length) := by
  rcases h with ⟨b', v', htext, hform, hextent⟩
  cases htext
  have hhash : (b == Byte.hash) = false := by
    have hspec := form_spec true b v.head?
    rw [hform] at hspec
    simpa using hspec.2
  have hplain : form fresh b v.head? = .plain := by
    rw [← hform]
    unfold form
    rw [hhash, Bool.false_and, Bool.false_and]
  rcases hr with rfl | hr
  · rw [List.append_nil, extent?_eq, hplain]
    exact congrArg some hextent
  · rcases List.head?_eq_some_iff.mp hr with ⟨y, rfl⟩
    rw [extent?_eq, form_barrier (by decide) (by decide), hplain]
    dsimp only
    rw [plainExtent_barrier (by decide), hextent]

theorem Piece.Stands.head? {w : Piece} (h : w.Stands) :
    exists b v, w.text = b :: v ∧ isSeparator b = false := by
  rcases h with ⟨b, v, htext, hform, _⟩
  have hspec := form_spec true b v.head?
  rw [hform] at hspec
  exact ⟨b, v, htext, hspec.1⟩

theorem lexes_joinWith {ws : List Piece} (h : forall w, w ∈ ws -> w.Stands) (fresh : Bool) :
    Lexes fresh (Text.joinWith " " (ws.map Piece.text)) (ws.intersperse gap) := by
  induction ws generalizing fresh with
  | nil => exact Lexes.nil fresh
  | cons w ws ih =>
      rcases List.forall_mem_cons.mp h with ⟨hw, hws⟩
      rcases w with ⟨kind, text⟩
      rcases hw.head? with ⟨b, v, rfl, _⟩
      cases ws with
      | nil =>
          have hextent := hw.extent? fresh (r := []) (Or.inl rfl)
          simpa [Text.joinWith, List.intercalate] using Lexes.cons hextent (Lexes.nil _)
      | cons u ws =>
          rcases (hws u List.mem_cons_self).head? with ⟨c, x, hu, hc⟩
          rcases Text.exists_joinWith_cons " " u.text (ws.map Piece.text) with ⟨y, hy⟩
          rw [List.map_cons, List.map_cons, Text.joinWith_cons_cons]
          apply Lexes.cons (hw.extent? fresh (Or.inr rfl))
          apply Lexes.cons (w := [])
          · rw [List.nil_append, ← List.map_cons, List.map_cons, hy, hu, extent?_eq]
            show some (TokenKind.whitespace, run isSeparator (c :: (x ++ y))) = some (_, 0)
            simp [run, hc]
          · exact ih hws _

theorem significant_cons {t : Token} (h : t.isTrivia = false) (ts : List Token) :
    significant (t :: ts) = t :: significant ts := by
  simp [significant, h]

theorem significant_place_intersperse {ws : List Piece}
    (h : forall w, w ∈ ws -> formOf w.kind = .plain) (p : Position) :
    exists us q, significant (place p (ws.intersperse gap)) = us ++ [Token.endAt q] ∧
      us.map Token.piece = ws := by
  induction ws generalizing p with
  | nil => exact ⟨[], p, rfl, rfl⟩
  | cons w ws ih =>
      rcases List.forall_mem_cons.mp h with ⟨hw, hws⟩
      have hsolid : Token.isTrivia ⟨w.kind, w.text, p⟩ = false := by
        cases hkind : w.kind <;> simp_all [formOf, Token.isTrivia]
      cases ws with
      | nil =>
          refine ⟨[⟨w.kind, w.text, p⟩], p.advance w.text, ?_, rfl⟩
          exact significant_cons hsolid [Token.endAt (p.advance w.text)]
      | cons u ws =>
          rcases ih hws ((p.advance w.text).advance gap.text) with ⟨us, q, hplace, hus⟩
          refine ⟨⟨w.kind, w.text, p⟩ :: us, q, ?_, by rw [List.map_cons, hus]; rfl⟩
          rw [List.cons_append, ← hplace]
          exact significant_cons hsolid _

/-!
# Operators, words and numbers
-/

theorem stands_operator {op : Text} (h : op ∈ Condition.symbols) :
    Piece.Stands ⟨.operator, op⟩ := by
  have hall : forall op, op ∈ Condition.symbols ->
      op ≠ [] ∧ form true (op.headD 0) op.tail.head? = .plain ∧
        plainExtent (op.headD 0) op.tail = (.operator, op.tail.length) := by
    decide
  have hop := hall op h
  cases op with
  | nil => exact absurd rfl hop.1
  | cons b v => exact ⟨b, v, rfl, hop.2⟩

theorem of_all_bytes {P : UInt8 -> Prop} [DecidablePred P]
    (h : (List.range 256).all (fun n => decide (P (UInt8.ofNat n))) = true) (b : UInt8) : P b := by
  have hall := of_decide_eq_true (List.all_eq_true.mp h _ (List.mem_range.mpr b.toNat_lt))
  rwa [UInt8.ofNat_toNat] at hall

theorem takeChars_eq_self {p : Char -> Bool} {s : Text} (h : s.chars.all p = true) :
    Text.takeChars p s = s := by
  fun_induction Text.takeChars p s with
  | case1 => rfl
  | case2 b s r hr ih =>
      unfold Text.chars at h ih
      rw [Text.runes_cons, List.map_cons, List.all_cons, Bool.and_eq_true] at h
      rw [ih h.2]
      rcases Rune.bytes_first b s with ⟨cs, rest, hbytes, hs, _⟩
      have hbytes : r.bytes = b :: cs := hbytes
      rw [hbytes, hs]
      simp
  | case3 b s r hr =>
      unfold Text.chars at h
      rw [Text.runes_cons, List.map_cons, List.all_cons, Bool.and_eq_true] at h
      exact absurd h.1 hr

theorem first_of_isWordStart {b : UInt8} {s : Text} (h : isWordStart (Rune.first b s).char = true) :
    b ∉ ([Byte.dot, Byte.hash, Byte.slash] : Text) ∧ isSeparator b = false ∧
      Byte.isDigit b = false := by
  have hall := of_all_bytes (P := fun b =>
    (decide (b < 0x80) && !isWordStart (Char.ofNat b.toNat) ||
      !List.contains ([Byte.dot, Byte.hash, Byte.slash] : Text) b && !isSeparator b &&
        !Byte.isDigit b) = true) (by decide +kernel) b
  have hstart : b < 0x80 -> isWordStart (Char.ofNat b.toNat) = true := by
    intro hsmall
    rwa [Rune.first, if_pos hsmall] at h
  by_cases hsmall : b < 0x80
  · simpa [hsmall, hstart hsmall, and_assoc] using hall
  · simpa [hsmall, and_assoc] using hall

theorem stands_word {s : Text} (h : isName s = true) : Piece.Stands ⟨classify s, s⟩ := by
  unfold isName Text.chars at h
  cases s with
  | nil =>
      rw [Text.runes_nil] at h
      cases h
  | cons b v =>
      rw [Text.runes_cons, List.map_cons] at h
      rw [Bool.and_eq_true] at h
      rcases h with ⟨hstart, hchars⟩
      rcases first_of_isWordStart hstart with ⟨hother, hsep, hdigit⟩
      simp only [List.mem_cons, List.not_mem_nil, or_false, not_or] at hother
      have hextent : wordExtent b v = v.length := by
        have hle := length_first_le b v
        unfold wordExtent
        rw [takeChars_eq_self hchars, List.length_drop]
        omega
      refine ⟨b, v, rfl, ?_, ?_⟩
      · unfold form
        simp [hsep, hother]
      · unfold plainExtent
        rw [if_neg (by simp [hdigit, hother]), if_pos hstart, hextent, List.take_length]

theorem isDigit_spec {b : UInt8} (h : Byte.isDigit b = true) :
    b ∉ ([Byte.dot, Byte.hash, Byte.slash, Byte.of 'x', Byte.of 'X'] : Text) ∧
      isSeparator b = false ∧ isU b = false := by
  have hall := of_all_bytes (P := fun b => (!Byte.isDigit b ||
    !List.contains ([Byte.dot, Byte.hash, Byte.slash, Byte.of 'x', Byte.of 'X'] : Text) b &&
      !isSeparator b && !isU b) = true) (by decide +kernel) b
  simpa [h, and_assoc] using hall

theorem numberExtent_digits {b : UInt8} {v : Text} (hb : Byte.isDigit b = true)
    (hv : forall c, c ∈ v -> Byte.isDigit c = true) : numberExtent b v = (.integer, v.length) := by
  have hdot : (b == Byte.dot) = false := by
    have hspec := (isDigit_spec hb).1
    simp only [List.mem_cons, not_or] at hspec
    simpa using hspec.1
  have hrun : run Byte.isDigit v = v.length := by
    have hall := (run_append_eq_length_iff (w := v) (r := [])).mpr ⟨hv, by simp⟩
    rwa [List.append_nil] at hall
  have hdecimal : decimalExtent b v = (.integer, v.length) := by
    unfold decimalExtent
    simp [hrun, hdot, exponentExtent, unsignedSuffixExtent]
  cases v with
  | nil => exact hdecimal
  | cons c v =>
      have hspec := (isDigit_spec (hv c List.mem_cons_self)).1
      simp only [List.mem_cons, not_or] at hspec
      have hmark : (c == Byte.of 'x' || c == Byte.of 'X') = false := by simp [hspec]
      unfold numberExtent
      dsimp only
      rw [hmark, Bool.and_false]
      exact hdecimal

theorem stands_ofNat (n : Nat) : Piece.Stands ⟨.integer, Text.ofNat n⟩ := by
  rcases Text.head?_ofNat n with ⟨b, v, htext, hb⟩
  have hdigits : forall c, c ∈ v -> Byte.isDigit c = true := by
    intro c hc
    exact Text.isDigit_of_mem_ofNat (n := n) (by rw [htext]; exact List.mem_cons_of_mem b hc)
  refine ⟨b, v, htext, ?_, ?_⟩
  · rcases isDigit_spec hb with ⟨hother, hsep, _⟩
    simp only [List.mem_cons, not_or] at hother
    unfold form
    simp [hsep, hother]
  · unfold plainExtent
    rw [hb, Bool.true_or, if_pos rfl]
    exact numberExtent_digits hb hdigits

end Lexer

/-!
# The value of a printed number
-/

theorem Text.head?_ofNat_ne_zero {n : Nat} (hn : 0 < n) :
    (Text.ofNat n).head? ≠ some Byte.zero := by
  fun_induction Text.ofNat n with
  | case1 n hlt =>
      intro hhead
      have hzero : forall d, d < 10 -> Byte.zero + d.toUInt8 = Byte.zero -> d = 0 := by decide
      exact absurd (hzero n hlt (Option.some.inj hhead)) (Nat.pos_iff_ne_zero.mp hn)
  | case2 n hlt ih =>
      rcases Text.head?_ofNat (n / 10) with ⟨b, s, hs, _⟩
      have hquot := ih (Nat.div_pos (Nat.le_of_not_lt hlt) (by decide))
      rw [hs] at hquot ⊢
      exact hquot

namespace Condition

open Lexer

theorem natural?_ofNat (n : Nat) : Numeral.natural? (Text.ofNat n) = some n := by
  rcases Nat.eq_zero_or_pos n with rfl | hn
  · rw [Text.ofNat]
    rfl
  · have hdigits := Numeral.digitsFrom?_ofNat n
    have hhead := Text.head?_ofNat_ne_zero hn
    rcases Text.head?_ofNat n with ⟨b, s, hs, _⟩
    rw [hs] at hdigits hhead ⊢
    have hbase : Numeral.splitBase (b :: s) = (10, b :: s) := by
      unfold Numeral.splitBase
      split
      · simp_all
      · simp_all
      · rfl
    unfold Numeral.natural?
    rw [hbase]
    exact hdigits

theorem dropEndWhile_eq_self {p : UInt8 -> Bool} {s : Text} (h : forall b, b ∈ s -> p b = false) :
    Text.dropEndWhile p s = s := by
  unfold Text.dropEndWhile
  cases hlast : s.getLast? with
  | none => rfl
  | some b =>
      rw [Option.any_some, h b (List.mem_of_getLast? hlast)]
      rfl

theorem integerValue?_render {n : Int64} (h : 0 ≤ n) :
    exists k, Value.render (.int n) = Text.ofNat k ∧
      integerValue? (Text.ofNat k) = some (.int n) := by
  have hn : 0 ≤ n.toInt := by simpa using Int64.le_iff_toInt_le.mp h
  have hlt : n.toInt < 2 ^ 63 := n.toInt_lt
  rcases Int.eq_ofNat_of_zero_le hn with ⟨k, hk⟩
  refine ⟨k, ?_, ?_⟩
  · show Text.ofInt n.toInt = Text.ofNat k
    rw [hk]
    rfl
  · have hsmall : k < Numeral.wordSize := by
      unfold Numeral.wordSize
      omega
    have hback : Int64.ofNat k = n := by
      rw [← Int64.ofInt_toInt n, hk]
      rfl
    unfold integerValue? Numeral.unsigned?
    rw [dropEndWhile_eq_self fun b hb => (isDigit_spec (Text.isDigit_of_mem_ofNat hb)).2.2,
      natural?_ofNat, Option.bind_some, if_pos hsmall, Option.map_some, hback]

/-!
# Phrases
-/

def operator (symbol : Text) : Piece :=
  ⟨.operator, symbol⟩

def word (s : Text) : Piece :=
  ⟨classify s, s⟩

def phrase : (level : Nat) -> Condition -> List Piece
  | _, .literal (.int n) => [⟨.integer, Value.render (.int n)⟩]
  | _, .literal (.float f) => [⟨.float, Value.render (.float f)⟩]
  | _, .literal (.bool b) => [word (Value.render (.bool b))]
  | _, .ident n => [word n]
  | _, .defined n => [word "defined", word n]
  | _, .unary op x => operator op.symbol :: phrase 6 x
  | level, .binary op l r =>
      let inner := phrase op.level l ++ operator op.symbol :: phrase (op.level + 1) r
      if op.level < level then operator "(" :: (inner ++ [operator ")"]) else inner

def print (c : Condition) : Text :=
  Text.joinWith " " ((phrase 0 c).map Piece.text)

/-- The literals are truth values and integers that are not negative, and the names are words. -/
def isPrintable : Condition -> Bool
  | .literal (.int n) => 0 ≤ n
  | .literal (.float _) => false
  | .literal (.bool _) => true
  | .ident n => isName n && !(["true", "false", "defined"] : List Text).contains n
  | .defined n => isName n
  | .unary _ x => x.isPrintable
  | .binary _ l r => l.isPrintable && r.isPrintable

theorem isName_reserved :
    isName "true" = true ∧ isName "false" = true ∧ isName "defined" = true := by
  decide +kernel

theorem stands_of_mem_phrase {c : Condition} (hc : c.isPrintable = true) {level : Nat} {w : Piece}
    (hw : w ∈ phrase level c) : w.Stands := by
  induction c generalizing level w with
  | literal v =>
      cases v with
      | int n =>
          rcases integerValue?_render (of_decide_eq_true hc) with ⟨k, hrender, _⟩
          rw [List.mem_singleton.mp hw, hrender]
          exact stands_ofNat k
      | float f => cases hc
      | bool b =>
          rw [List.mem_singleton.mp hw]
          cases b with
          | true => exact stands_word isName_reserved.1
          | false => exact stands_word isName_reserved.2.1
  | ident n =>
      rw [List.mem_singleton.mp hw]
      exact stands_word (Bool.and_eq_true_iff.mp hc).1
  | defined n =>
      rcases List.mem_cons.mp hw with rfl | hw
      · exact stands_word isName_reserved.2.2
      · rw [List.mem_singleton.mp hw]
        exact stands_word hc
  | unary op x ih =>
      rcases List.mem_cons.mp hw with rfl | hw
      · exact stands_operator (symbol_unary_mem op)
      · exact ih hc hw
  | binary op l r ihl ihr =>
      rw [isPrintable, Bool.and_eq_true] at hc
      have hinner : forall w, w ∈ phrase op.level l ++ operator op.symbol ::
          phrase (op.level + 1) r -> w.Stands := by
        intro w hw
        rcases List.mem_append.mp hw with hw | hw
        · exact ihl hc.1 hw
        · rcases List.mem_cons.mp hw with rfl | hw
          · exact stands_operator (symbol_binary_mem op)
          · exact ihr hc.2 hw
      rw [phrase] at hw
      split at hw
      · rcases List.mem_cons.mp hw with rfl | hw
        · exact stands_operator (by decide)
        · rcases List.mem_append.mp hw with hw | hw
          · exact hinner w hw
          · rw [List.mem_singleton.mp hw]
            exact stands_operator (by decide)
      · exact hinner w hw

theorem isWord_of_piece {t : Token} {s : Text} (h : t.piece = word s) : t.isWord = true := by
  have hkind : t.kind = classify s := congrArg Piece.kind h
  unfold classify at hkind
  unfold Token.isWord
  rw [hkind]
  split
  · rfl
  · split <;> rfl

theorem isReserved_of_piece {t : Token} {s : Text} (h : t.piece = word s)
    (hs : s ∉ (["true", "false", "defined"] : List Text)) : isReserved t = false := by
  have htext : t.text = s := congrArg Piece.text h
  simp only [List.mem_cons, List.not_mem_nil, or_false, not_or] at hs
  simp [isReserved, htext, hs]

theorem classify_reserved : classify "true" = .keyword ∧ classify "false" = .keyword ∧
    classify "defined" = .ident :=
  ⟨by decide, by decide, by decide⟩

theorem derives_of_phrase {c : Condition} (hc : c.isPrintable = true) {level : Nat}
    (hlevel : level ≤ 6) {ts : List Token} (hts : ts.map Token.piece = phrase level c) :
    Derives level ts c := by
  have hkeyword := classify_reserved
  induction c generalizing level ts with
  | literal v =>
      cases v with
      | int n =>
          rcases integerValue?_render (of_decide_eq_true hc) with ⟨k, hrender, hvalue⟩
          rcases List.map_eq_singleton_iff.mp hts with ⟨t, rfl, ht⟩
          have htext : t.text = Text.ofNat k := (congrArg Piece.text ht).trans hrender
          exact (Derives.integer (congrArg Piece.kind ht) (htext ▸ hvalue)).loosen (by omega)
      | float f => cases hc
      | bool b =>
          rcases List.map_eq_singleton_iff.mp hts with ⟨t, rfl, ht⟩
          have hkind : t.kind = classify (Value.render (.bool b)) := congrArg Piece.kind ht
          have htext : t.text = Value.render (.bool b) := congrArg Piece.text ht
          cases b with
          | true => exact (Derives.yes (hkind.trans hkeyword.1) htext).loosen (by omega)
          | false => exact (Derives.no (hkind.trans hkeyword.2.1) htext).loosen (by omega)
  | ident n =>
      rw [isPrintable, Bool.and_eq_true] at hc
      rcases List.map_eq_singleton_iff.mp hts with ⟨t, rfl, ht⟩
      have htext : t.text = n := congrArg Piece.text ht
      have hreserved := isReserved_of_piece ht (by simpa using hc.2)
      have hder := Derives.name (isWord_of_piece ht) hreserved
      rw [htext] at hder
      exact hder.loosen (by omega)
  | defined n =>
      rcases List.map_eq_cons_iff.mp hts with ⟨t, ts, rfl, ht, hts⟩
      rcases List.map_eq_singleton_iff.mp hts with ⟨name, rfl, hname⟩
      have hder := Derives.defined ((congrArg Piece.kind ht).trans hkeyword.2.2)
        (congrArg Piece.text ht) (isWord_of_piece hname)
      rw [show name.text = n from congrArg Piece.text hname] at hder
      exact hder.loosen (by omega)
  | unary op x ih =>
      rcases List.map_eq_cons_iff.mp hts with ⟨t, ts, rfl, ht, hts⟩
      have hder := Derives.unary (Declaration.isOp_of_piece ht) (ih hc (Nat.le_refl 6) hts)
      exact hder.loosen hlevel
  | binary op l r ihl ihr =>
      rw [isPrintable, Bool.and_eq_true] at hc
      have hop := op.level_lt
      have hinner {ts : List Token} (hts : ts.map Token.piece =
          phrase op.level l ++ operator op.symbol :: phrase (op.level + 1) r) :
          Derives op.level ts (.binary op l r) := by
        rcases List.map_eq_append_iff.mp hts with ⟨ls, rs, rfl, hls, hrs⟩
        rcases List.map_eq_cons_iff.mp hrs with ⟨t, rs, rfl, ht, hrs⟩
        exact Derives.binary (Declaration.isOp_of_piece ht) (ihl hc.1 (by omega) hls)
          (ihr hc.2 (by omega) hrs)
      rw [phrase] at hts
      split at hts
      · rcases List.map_eq_cons_iff.mp hts with ⟨opening, ts, rfl, hopen, hts⟩
        rcases List.map_eq_append_iff.mp hts with ⟨us, last, rfl, hus, hlast⟩
        rcases List.map_eq_singleton_iff.mp hlast with ⟨closing, rfl, hclose⟩
        have hder := Derives.paren (Declaration.isOp_of_piece hopen)
          ((hinner hus).loosen (Nat.zero_le _)) (Declaration.isOp_of_piece hclose)
        exact hder.loosen (by omega)
      · exact (hinner hts).loosen (by omega)

theorem parse_print {c : Condition} (hc : c.isPrintable = true) : parse c.print = .ok c := by
  have hstands : forall w, w ∈ phrase 0 c -> w.Stands := fun w hw => stands_of_mem_phrase hc hw
  have hplain : forall w, w ∈ phrase 0 c -> formOf w.kind = .plain := by
    intro w hw
    rcases hstands w hw with ⟨b, v, _, _, hextent⟩
    have hmem := plainExtent_mem_plainKinds b v
    rw [hextent] at hmem
    exact formOf_of_mem_plainKinds hmem
  have hlexes := lexes_joinWith hstands true
  rcases significant_place_intersperse hplain Position.start with ⟨us, q, hus, hpieces⟩
  refine parse_eq_ok_iff.mpr ⟨_, tokenize_eq_ok_iff.mpr ⟨_, hlexes, rfl⟩, ?_⟩
  rw [hus, List.dropLast_concat]
  exact derives_of_phrase hc (Nat.zero_le 6) hpieces

theorem parse_of_print {source : Text} {c : Condition} (hc : c.isPrintable = true)
    (hprint : c.print = source) : parse source = .ok c := by
  rw [← hprint]
  exact parse_print hc

/-- Reading recognises exactly the grammar, and a printed condition reads back as itself. -/
theorem parse_grammar_and_print (source : Text) (c : Condition) :
    (parse source = .ok c ↔
      exists ts, tokenize source = .ok ts ∧ Derives 0 (significant ts).dropLast c) ∧
    (c.isPrintable = true -> parse c.print = .ok c) :=
  ⟨parse_eq_ok_iff, parse_print⟩

/-- Subtraction nests to the left, so its right operand keeps the parentheses; a prefix operator
needs none. -/
theorem parse_grammar_and_print_subtractions :
    let c : Condition := .binary .sub (.binary .sub (.ident "A") (.literal (.int 2)))
      (.binary .sub (.unary .neg (.defined "B")) (.literal (.bool true)))
    c.isPrintable = true ∧ c.print = "A - 2 - ( - defined B - true )" ∧
      parse c.print = .ok c := by
  intro c
  have hprint : c.isPrintable = true ∧ c.print = "A - 2 - ( - defined B - true )" := by
    decide +kernel
  exact ⟨hprint.1, hprint.2, (parse_grammar_and_print c.print c).2 hprint.1⟩

end Condition

end EffectShader
