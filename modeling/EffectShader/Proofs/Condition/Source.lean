import EffectShader.Condition.Parser
import EffectShader.Proofs.Token.Barrier
import EffectShader.Proofs.Token.DirectiveText

/-!
# What a condition is read from

A text that reads as a condition consists of words, numbers and the operators
of conditions, and every macro of the condition is one of its words.
-/

namespace EffectShader

namespace Condition

/-- The operators of conditions and the parentheses. -/
def symbols : List Text :=
  Text.words "! - + || && == != < <= > >= * / % ( )"

def isPart (t : Token) : Bool :=
  t.isWord || t.kind == .integer || t.kind == .float ||
    (t.kind == .operator && symbols.contains t.text)

theorem isPart_of_isWord {t : Token} (h : t.isWord = true) : isPart t = true := by
  simp [isPart, h]

theorem isPart_of_isOp {t : Token} {op : Text} (hop : op ∈ symbols) (h : t.isOp op = true) :
    isPart t = true := by
  simp only [Token.isOp, Bool.and_eq_true, beq_iff_eq] at h
  simp [isPart, h.1, h.2, hop]

theorem symbol_unary_mem (op : UnaryOp) : op.symbol ∈ symbols := by
  cases op <;> decide

theorem symbol_binary_mem (op : BinaryOp) : op.symbol ∈ symbols := by
  cases op <;> decide

theorem isPart_of_unaryOf? {t : Token} {op : UnaryOp} (h : unaryOf? t = some op) :
    isPart t = true :=
  isPart_of_isOp (symbol_unary_mem op) (by simpa using List.find?_some h)

theorem isPart_of_binaryOf? {level : Nat} {t : Token} {op : BinaryOp}
    (h : binaryOf? level t = some op) : isPart t = true :=
  isPart_of_isOp (symbol_binary_mem op) (by simpa using List.find?_some h)

/-!
# Tokens read so far
-/

def Reads (ts rest : List Token) (names : List Text) : Prop :=
  exists used, ts = used ++ rest ∧ (forall t, t ∈ used -> isPart t = true) ∧
    forall n, n ∈ names -> exists t, t ∈ used ∧ t.isWord = true ∧ t.text = n

namespace Reads

theorem refl (ts : List Token) : Reads ts ts [] :=
  ⟨[], rfl, by simp, by simp⟩

theorem token {t : Token} (rest : List Token) (h : isPart t = true) :
    Reads (t :: rest) rest [] :=
  ⟨[t], rfl, by simpa using h, by simp⟩

theorem word {t : Token} (rest : List Token) (h : t.isWord = true) :
    Reads (t :: rest) rest [t.text] :=
  ⟨[t], rfl, by simpa using isPart_of_isWord h, by simpa using h⟩

theorem trans {ts us vs : List Token} {names names' : List Text} (h : Reads ts us names)
    (h' : Reads us vs names') : Reads ts vs (names ++ names') := by
  rcases h with ⟨used, rfl, hused, hnames⟩
  rcases h' with ⟨used', rfl, hused', hnames'⟩
  refine ⟨used ++ used', by simp, ?_, ?_⟩
  · intro t ht
    rcases List.mem_append.mp ht with ht | ht
    · exact hused t ht
    · exact hused' t ht
  · intro n hn
    rcases List.mem_append.mp hn with hn | hn
    · rcases hnames n hn with ⟨t, ht, hword⟩
      exact ⟨t, List.mem_append_left used' ht, hword⟩
    · rcases hnames' n hn with ⟨t, ht, hword⟩
      exact ⟨t, List.mem_append_right used ht, hword⟩

end Reads

/-!
# The grammar

The left operand of a chain has been read before the chain goes on, so the
statement about chains carries the point where that operand started.
-/

theorem reads_of_definedName {ts : List Token} {r : Extended ts}
    (h : definedName ts = .ok r) : Reads ts r.rest r.value.occurrences := by
  unfold definedName at h
  split at h
  · cases h
  · rename_i t rest
    split at h
    · rename_i hopen
      have hstart := Reads.token rest (isPart_of_isOp (by decide) hopen)
      split at h
      · cases h
      · rename_i name after
        split at h
        · cases h
        · rename_i hword
          have hname := Reads.word after (by simpa using hword)
          split at h
          · cases h
          · rename_i close after'
            split at h
            · rename_i hclose
              cases h
              have hend := Reads.token after' (isPart_of_isOp (by decide) hclose)
              exact hstart.trans (hname.trans hend)
            · cases h
    · split at h
      · rename_i hword
        cases h
        exact Reads.word rest hword
      · cases h

mutual

theorem reads_of_parseLevel (level : Nat) (ts : List Token) {r : Parsed ts}
    (h : parseLevel level ts = .ok r) : Reads ts r.rest r.value.occurrences := by
  rw [parseLevel] at h
  split at h
  · exact reads_of_parseUnary ts h
  · split at h
    · cases h
    · rename_i left rest hlt hleft
      have hread := reads_of_parseLevel (level + 1) ts hleft
      split at h
      · cases h
      · rename_i value rest' hle hchain
        cases h
        exact reads_of_parseChain level left rest hchain hread
  termination_by (ts.length, 6 - level + 2)

theorem reads_of_parseChain (level : Nat) (left : Condition) : (ts : List Token) ->
    {r : Extended ts} -> parseChain level left ts = .ok r -> {before : List Token} ->
    Reads before ts left.occurrences -> Reads before r.rest r.value.occurrences
  | [], _, h, _, hbefore => by
      rw [parseChain] at h
      cases h
      exact hbefore
  | t :: rest, _, h, _, hbefore => by
      rw [parseChain] at h
      split at h
      · cases h
        exact hbefore
      · rename_i op hop
        split at h
        · cases h
        · rename_i right rest' hlt hright
          have hread := (Reads.token rest (isPart_of_binaryOf? hop)).trans
            (reads_of_parseLevel (level + 1) rest hright)
          split at h
          · cases h
          · rename_i value rest'' hle hchain
            cases h
            exact reads_of_parseChain level (.binary op left right) rest' hchain
              (hbefore.trans hread)
  termination_by ts => (ts.length, 0)

theorem reads_of_parseUnary : (ts : List Token) -> {r : Parsed ts} -> parseUnary ts = .ok r ->
    Reads ts r.rest r.value.occurrences
  | [], _, h => by
      rw [parseUnary] at h
      cases h
  | t :: rest, _, h => by
      rw [parseUnary] at h
      split at h
      · rename_i op hop
        split at h
        · cases h
        · rename_i x rest' hlt hx
          cases h
          exact (Reads.token rest (isPart_of_unaryOf? hop)).trans (reads_of_parseUnary rest hx)
      · exact reads_of_parsePrimary t rest h
  termination_by ts => (ts.length, 1)

theorem reads_of_parsePrimary (t : Token) (rest : List Token) {r : Parsed (t :: rest)}
    (h : parsePrimary t rest = .ok r) : Reads (t :: rest) r.rest r.value.occurrences := by
  rw [parsePrimary] at h
  split at h
  · rename_i hnumber
    split at h
    · cases h
    · cases h
      exact Reads.token rest (by simp only [isPart, hnumber, Bool.or_assoc]; simp)
  · split at h
    · rename_i hword
      cases h
      exact Reads.token rest (isPart_of_isWord (by simp_all [Token.isWord]))
    · split at h
      · rename_i hword
        cases h
        exact Reads.token rest (isPart_of_isWord (by simp_all [Token.isWord]))
      · split at h
        · rename_i hword
          have hpart : isPart t = true := isPart_of_isWord (by simp_all [Token.isWord])
          split at h
          · cases h
          · rename_i value rest' hle hname
            cases h
            exact (Reads.token rest hpart).trans (reads_of_definedName hname)
        · split at h
          · rename_i hword
            cases h
            exact Reads.word rest hword
          · split at h
            · rename_i hopen
              have hstart := Reads.token rest (isPart_of_isOp (by decide) hopen)
              split at h
              · cases h
              · cases h
              · rename_i value close rest' hlt hvalue
                have hread := reads_of_parseLevel 0 rest hvalue
                split at h
                · rename_i hclose
                  cases h
                  have hend := Reads.token rest' (isPart_of_isOp (by decide) hclose)
                  simpa using (hstart.trans hread).trans hend
                · cases h
            · split at h
              · cases h
              · cases h
  termination_by (rest.length + 1, 0)

end

end Condition

/-!
# The source of a condition

Every piece of a text that reads as a condition is white space, a comment or a
part of the condition.  In particular the text does not end in a backslash, so
a newline may follow it in a directive.
-/

namespace Lexer

/-!
# Tokens before the end marker
-/

theorem exists_mem_place {ws : List Piece} {w : Piece} (h : w ∈ ws) (p : Position) :
    exists q, Token.mk w.kind w.text q ∈ place p ws := by
  induction ws generalizing p with
  | nil => cases h
  | cons v ws ih =>
      rcases List.mem_cons.mp h with rfl | h
      · exact ⟨p, List.mem_cons_self⟩
      · rcases ih h (p.advance v.text) with ⟨q, hq⟩
        exact ⟨q, List.mem_cons_of_mem _ hq⟩

theorem Lexes.place_eq {fresh : Bool} {s : Text} {ws : List Piece} (h : Lexes fresh s ws)
    (p : Position) :
    exists ts q, place p ws = ts ++ [Token.endAt q] ∧
      forall t, t ∈ ts -> t.kind ≠ .eof ∧ Piece.mk t.kind t.text ∈ ws := by
  induction h generalizing p with
  | nil fresh => exact ⟨[], p, rfl, by simp⟩
  | @cons fresh kind b w rest ws hextent _ ih =>
      rcases ih (p.advance (b :: w)) with ⟨ts, q, hplace, hts⟩
      refine ⟨⟨kind, b :: w, p⟩ :: ts, q, by rw [place_cons, hplace]; rfl, ?_⟩
      intro t ht
      rcases List.mem_cons.mp ht with rfl | ht
      · exact ⟨kind_ne_eof_of_extent? hextent, List.mem_cons_self⟩
      · exact ⟨(hts t ht).1, List.mem_cons_of_mem _ (hts t ht).2⟩

/-!
# Texts that end in a backslash
-/

theorem plainExtent_backslash (b : UInt8) (w : Text) :
    (plainExtent b (w ++ [Byte.backslash])).2 ≠ (w ++ [Byte.backslash]).length := by
  intro hlen
  have hle := plainExtent_le b w
  rw [plainExtent_barrier (by decide)] at hlen
  rw [List.length_append, List.length_singleton] at hlen
  omega

theorem piece_backslash {fresh : Bool} {b : UInt8} {w : Text} {kind : TokenKind}
    (hextent : extent? fresh b w = some (kind, w.length))
    (hbare : Directive.hasComment (b :: w) = false)
    (hlast : (b :: w).getLast? = some Byte.backslash) :
    kind = .directive ∨ kind = .operator ∧ b :: w = [Byte.backslash] := by
  have hform := form_of_extent? hextent
  have hstart := form_spec fresh b w.head?
  have hextent' := hextent
  rw [extent?_eq, hform] at hextent'
  cases hkind : formOf kind with
  | space =>
      simp only [hkind, Option.some.injEq, Prod.mk.injEq] at hextent'
      have hrun : run isSeparator (w ++ []) = w.length := by simpa using hextent'.2
      have hb : isSeparator b = true := by simpa only [hform, hkind] using hstart
      have hslash : Byte.backslash ∈ b :: w := List.mem_of_getLast? hlast
      rcases List.mem_cons.mp hslash with hslash | hslash
      · rw [← hslash] at hb
        exact absurd hb (by decide)
      · exact absurd ((run_append_eq_length_iff.mp hrun).1 _ hslash) (by decide)
  | directive =>
      left
      cases kind <;> simp_all [formOf]
  | lineComment | blockComment =>
      simp only [hform, hkind] at hstart
      rcases hstart with ⟨rfl, hhead⟩
      cases w with
      | nil => cases hhead
      | cons c w => simp_all [Directive.hasComment]
  | plain =>
      right
      simp only [hkind, Option.some.injEq] at hextent'
      rcases List.eq_nil_or_concat w with rfl | ⟨v, c, rfl⟩
      · have hb : b = Byte.backslash := by simpa using hlast
        subst hb
        have hvalue : plainExtent Byte.backslash [] = (.operator, 0) := by decide
        rw [hvalue] at hextent'
        exact ⟨(Prod.mk.inj hextent').1.symm, rfl⟩
      · rw [List.concat_eq_append, ← List.cons_append, List.getLast?_concat] at hlast
        have hc : c = Byte.backslash := Option.some.inj hlast
        subst hc
        exact absurd (congrArg Prod.snd hextent') (by simpa using plainExtent_backslash b v)

theorem Lexes.exists_backslash {fresh : Bool} {s : Text} {ws : List Piece}
    (h : Lexes fresh s ws) (hbare : Directive.hasComment s = false)
    (hlast : s.getLast? = some Byte.backslash) :
    exists w, w ∈ ws ∧
      (w.kind = .directive ∨ w.kind = .operator ∧ w.text = [Byte.backslash]) := by
  induction h with
  | nil fresh => cases hlast
  | @cons fresh kind b w rest ws hextent _ ih =>
      cases rest with
      | nil =>
          rw [List.append_nil] at hextent hbare hlast
          exact ⟨⟨kind, b :: w⟩, List.mem_cons_self, piece_backslash hextent hbare hlast⟩
      | cons c rest =>
          rw [← List.cons_append] at hbare hlast
          have hbare' := Directive.hasComment_of_suffix (List.suffix_append (b :: w) _) hbare
          have hlast' : (c :: rest).getLast? = some Byte.backslash := by
            rw [List.getLast?_append, List.getLast?_cons] at hlast
            rw [List.getLast?_cons]
            exact hlast
          rcases ih hbare' hlast' with ⟨v, hv, hkind⟩
          exact ⟨v, List.mem_cons_of_mem _ hv, hkind⟩

end Lexer

namespace Condition

open Lexer

theorem reads_of_parseTokens {ts : List Token} {c : Condition} (h : parseTokens ts = .ok c) :
    exists rest, Reads ts rest c.occurrences ∧ Stream.atEnd rest = true := by
  unfold parseTokens at h
  split at h
  · cases h
  · split at h
    · cases h
    · rename_i r hlevel
      split at h
      · rename_i hend
        cases h
        exact ⟨r.rest, reads_of_parseLevel 0 ts hlevel, hend⟩
      · cases h

theorem kind_ne_eof_of_isPart {t : Token} (h : isPart t = true) : t.kind ≠ .eof := by
  intro heof
  simp [isPart, Token.isWord, heof] at h

theorem used_eq_of_atEnd {ts used rest : List Token} {q : Position}
    (h : ts ++ [Token.endAt q] = used ++ rest) (hts : forall t, t ∈ ts -> t.kind ≠ .eof)
    (hused : forall t, t ∈ used -> t.kind ≠ .eof) (hend : Stream.atEnd rest = true) :
    ts = used := by
  have hleft : (ts ++ [Token.endAt q]).takeWhile (fun t => t.kind != .eof) = ts := by
    rw [List.takeWhile_append_of_pos (by simpa using hts)]
    simp [Token.endAt]
  have hright : (used ++ rest).takeWhile (fun t => t.kind != .eof) = used := by
    rw [List.takeWhile_append_of_pos (by simpa using hused)]
    cases rest with
    | nil => simp
    | cons e rest =>
        have he : e.kind = .eof := by simpa [Stream.atEnd, Stream.peek] using hend
        simp [he]
  rw [← hleft, h, hright]

theorem parse_of_tokenize {source : Text} {ts : List Token} {c : Condition}
    (htokens : tokenize source = .ok ts) (h : parseTokens (significant ts) = .ok c) :
    parse source = .ok c := by
  unfold parse
  rw [htokens]
  dsimp only
  rw [h]

theorem parts_of_parse {source : Text} {c : Condition} (h : parse source = .ok c) :
    exists ts, tokenize source = .ok ts ∧
      (forall t, t ∈ ts -> t.isTrivia = true ∨ isPart t = true ∨ t.kind = .eof) ∧
      forall n, n ∈ c.occurrences -> exists t, t ∈ ts ∧ t.isWord = true ∧ t.text = n := by
  unfold parse at h
  split at h
  · cases h
  · rename_i ts htokens
    split at h
    · cases h
    · rename_i c' hparse
      cases h
      rcases reads_of_parseTokens hparse with ⟨rest, ⟨used, hsplit, hused, hnames⟩, hend⟩
      rcases tokenize_eq_ok_iff.mp htokens with ⟨ws, hlexes, rfl⟩
      rcases hlexes.place_eq Position.start with ⟨ts, q, hplace, hts⟩
      have hsignificant : significant (ts ++ [Token.endAt q]) =
          significant ts ++ [Token.endAt q] := by
        rw [significant, List.filter_append]
        rfl
      have hread : significant ts = used := by
        rw [hplace, hsignificant] at hsplit
        apply used_eq_of_atEnd hsplit _ (fun t ht => kind_ne_eof_of_isPart (hused t ht)) hend
        intro t ht
        exact (hts t (List.mem_filter.mp ht).1).1
      refine ⟨_, htokens, ?_, ?_⟩
      · intro t ht
        rw [hplace] at ht
        rcases List.mem_append.mp ht with ht | ht
        · cases htrivia : t.isTrivia with
          | true => exact Or.inl rfl
          | false =>
              have hmem : t ∈ significant ts := List.mem_filter.mpr ⟨ht, by simp [htrivia]⟩
              exact Or.inr (Or.inl (hused t (hread ▸ hmem)))
        · rw [List.mem_singleton.mp ht]
          exact Or.inr (Or.inr rfl)
      · intro n hn
        rcases hnames n hn with ⟨t, ht, hword, htext⟩
        rw [← hread] at ht
        refine ⟨t, ?_, hword, htext⟩
        rw [hplace]
        exact List.mem_append_left _ (List.mem_filter.mp ht).1

theorem head?_ne_of_parse {source : Text} {c : Condition} (h : parse source = .ok c) {n : Text}
    (hn : n ∈ c.occurrences) : n.head? ≠ some (Byte.of '!') := by
  rcases parts_of_parse h with ⟨ts, htokens, _, hnames⟩
  rcases hnames n hn with ⟨t, ht, hword, rfl⟩
  rcases tokenize_eq_ok_iff.mp htokens with ⟨ws, hlexes, rfl⟩
  rcases hlexes.place_eq Position.start with ⟨ts, q, hplace, hts⟩
  rw [hplace] at ht
  rcases List.mem_append.mp ht with ht | ht
  · rcases hlexes.exists_extent? (hts t ht).2 with ⟨fresh, b, v, rest, htext, hextent⟩
    have htext : t.text = b :: v := htext
    have hstart := isWordStart_of_extent? hextent (by simpa [Token.isWord, or_assoc] using hword)
    rw [htext]
    intro hb
    have hb : b = Byte.of '!' := Option.some.inj hb
    subst hb
    have hrune : (Rune.first (Byte.of '!') (v ++ rest)).char = '!' := rfl
    rw [hrune] at hstart
    exact absurd hstart (by decide)
  · rw [List.mem_singleton.mp ht] at hword
    cases hword

theorem ne_nil_of_parse {source : Text} {c : Condition} (h : parse source = .ok c) :
    source ≠ [] := by
  intro hnil
  subst hnil
  have hempty : parse [] = .error (.malformed ⟨.empty, 1⟩) := by
    unfold parse tokenize
    rw [scan]
    rfl
  rw [hempty] at h
  cases h

theorem getLast?_ne_of_parse {source : Text} {c : Condition} (h : parse source = .ok c)
    (hbare : Directive.hasComment source = false) :
    source.getLast? ≠ some Byte.backslash := by
  intro hlast
  rcases parts_of_parse h with ⟨ts, htokens, hparts, _⟩
  rcases tokenize_eq_ok_iff.mp htokens with ⟨ws, hlexes, rfl⟩
  rcases hlexes.exists_backslash hbare hlast with ⟨w, hw, hkind⟩
  rcases exists_mem_place hw Position.start with ⟨q, hq⟩
  rcases hparts _ hq with htrivia | hpart | heof
  · rcases hkind with hkind | ⟨hkind, _⟩ <;> simp [Token.isTrivia, hkind] at htrivia
  · rcases hkind with hkind | ⟨hkind, htext⟩
    · simp [isPart, Token.isWord, hkind] at hpart
    · have hsymbol : symbols.contains [Byte.backslash] = false := by decide
      simp [isPart, Token.isWord, hkind, htext] at hpart
      simp_all
  · rcases hkind with hkind | ⟨hkind, _⟩ <;> simp [hkind] at heof

end Condition

end EffectShader
