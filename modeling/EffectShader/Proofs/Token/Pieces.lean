import EffectShader.Proofs.Text.Lines
import EffectShader.Token.Lexer

/-!
# Sources as sequences of pieces

A successful scan cuts a source into pieces; where a token starts follows from
the pieces before it.  Statements about rewritten sources are therefore made
about pieces first, and positions are put back at the end.
-/

namespace EffectShader

theorem toOption_eq_some_iff {ε α : Type} {x : Except ε α} {a : α} :
    x.toOption = some a ↔ x = .ok a := by
  cases x <;> simp [Except.toOption]

namespace Lexer

structure Piece where
  kind : TokenKind
  text : Text
  deriving DecidableEq, Repr

/-- The text is cut into these pieces; the flag says whether a directive may start it. -/
inductive Lexes : Bool -> Text -> List Piece -> Prop where
  | nil (fresh : Bool) : Lexes fresh [] []
  | cons {fresh : Bool} {kind : TokenKind} {b : UInt8} {w rest : Text} {ws : List Piece} :
      extent? fresh b (w ++ rest) = some (kind, w.length) ->
      Lexes (staysFresh fresh kind (b :: w)) rest ws ->
      Lexes fresh (b :: (w ++ rest)) (⟨kind, b :: w⟩ :: ws)

def place (p : Position) : List Piece -> List Token
  | [] => [Token.endAt p]
  | w :: ws => ⟨w.kind, w.text, p⟩ :: place (p.advance w.text) ws

@[simp] theorem place_nil (p : Position) : place p [] = [Token.endAt p] := rfl

@[simp] theorem place_cons (p : Position) (w : Piece) (ws : List Piece) :
    place p (w :: ws) = ⟨w.kind, w.text, p⟩ :: place (p.advance w.text) ws := rfl

/-!
# Extents stay inside the source

The scanners never answer more bytes than there are, so the text of a token and
the rest of the source make up the source.
-/

theorem run_le (p : UInt8 -> Bool) (s : Text) : run p s ≤ s.length :=
  (List.takeWhile_sublist p).length_le

theorem directiveExtent_le (s : Text) : directiveExtent s ≤ s.length := by
  fun_induction directiveExtent s with
  | case1 s ih =>
      simp only [List.length_cons]
      omega
  | case2 s ih =>
      simp only [List.length_cons]
      omega
  | case3 b s => simp
  | case4 b s _ _ _ ih =>
      simp only [List.length_cons]
      omega
  | case5 => simp

theorem blockCommentExtent?_le {s : Text} {n : Nat} (hs : s ≠ [])
    (h : blockCommentExtent? s = some n) : n ≤ s.length := by
  unfold blockCommentExtent? Text.indexOf? at h
  cases hc : Text.cut? "*/" (s.drop 1) with
  | none =>
      rw [hc] at h
      cases h
  | some parts =>
      rcases parts with ⟨before, after⟩
      rw [hc] at h
      have hn : before.length + 3 = n := by simpa using h
      have hlen := Text.length_of_cut? hc
      have hmark : (("*/" : Text)).length = 2 := rfl
      have hpos : 0 < s.length := List.length_pos_iff.mpr hs
      rw [List.length_drop, hmark] at hlen
      omega

theorem exponentExtent_le (s : Text) : exponentExtent s ≤ s.length := by
  unfold exponentExtent
  split
  · rename_i e sign s
    have := run_le Byte.isDigit s
    simp only [List.length_cons]
    split
    · split
      · omega
      · split <;> omega
    · omega
  · omega

theorem floatSuffixExtent_le (s : Text) : floatSuffixExtent s ≤ s.length := by
  unfold floatSuffixExtent
  split
  · simp
  · split <;> simp
  · simp only [List.length_cons]
    split
    · omega
    · split <;> omega

theorem unsignedSuffixExtent_le (s : Text) : unsignedSuffixExtent s ≤ s.length := by
  unfold unsignedSuffixExtent
  split
  · simp
  · split <;> simp

theorem hexExtent_le (s : Text) : hexExtent s ≤ s.length := by
  have hrun := run_le Byte.isHexDigit s
  have hsuffix := unsignedSuffixExtent_le (s.drop (run Byte.isHexDigit s))
  rw [List.length_drop] at hsuffix
  show run Byte.isHexDigit s + unsignedSuffixExtent (s.drop (run Byte.isHexDigit s)) ≤ s.length
  omega

def fractionExtent (first : UInt8) : Text -> Nat
  | Byte.dot :: r => if first == Byte.dot then 0 else 1 + run Byte.isDigit r
  | _ => 0

theorem fractionExtent_dot (first : UInt8) (r : Text) :
    fractionExtent first (Byte.dot :: r) =
      if first == Byte.dot then 0 else 1 + run Byte.isDigit r := rfl

def mantissaExtent (first : UInt8) (s : Text) : Nat :=
  run Byte.isDigit s + fractionExtent first (s.drop (run Byte.isDigit s))

def unsuffixedExtent (first : UInt8) (s : Text) : Nat :=
  mantissaExtent first s + exponentExtent (s.drop (mantissaExtent first s))

def isFloating (first : UInt8) (s : Text) : Bool :=
  first == Byte.dot || 0 < fractionExtent first (s.drop (run Byte.isDigit s)) ||
    0 < exponentExtent (s.drop (mantissaExtent first s))

theorem decimalExtent_eq (first : UInt8) (s : Text) :
    decimalExtent first s =
      if isFloating first s then
        (.float, unsuffixedExtent first s +
          floatSuffixExtent (s.drop (unsuffixedExtent first s)))
      else
        (.integer, unsuffixedExtent first s +
          unsignedSuffixExtent (s.drop (unsuffixedExtent first s))) := rfl

theorem fractionExtent_le (first : UInt8) (s : Text) : fractionExtent first s ≤ s.length := by
  unfold fractionExtent
  split
  · rename_i r
    have := run_le Byte.isDigit r
    simp only [List.length_cons]
    split <;> omega
  · omega

theorem mantissaExtent_le (first : UInt8) (s : Text) : mantissaExtent first s ≤ s.length := by
  have hrun := run_le Byte.isDigit s
  have hfraction := fractionExtent_le first (s.drop (run Byte.isDigit s))
  rw [List.length_drop] at hfraction
  unfold mantissaExtent
  omega

theorem unsuffixedExtent_le (first : UInt8) (s : Text) : unsuffixedExtent first s ≤ s.length := by
  have hmantissa := mantissaExtent_le first s
  have hexponent := exponentExtent_le (s.drop (mantissaExtent first s))
  rw [List.length_drop] at hexponent
  unfold unsuffixedExtent
  omega

theorem decimalExtent_le (first : UInt8) (s : Text) : (decimalExtent first s).2 ≤ s.length := by
  have hbare := unsuffixedExtent_le first s
  have hfloat := floatSuffixExtent_le (s.drop (unsuffixedExtent first s))
  have hunsigned := unsignedSuffixExtent_le (s.drop (unsuffixedExtent first s))
  rw [List.length_drop] at hfloat hunsigned
  rw [decimalExtent_eq]
  split
  · show unsuffixedExtent first s + floatSuffixExtent _ ≤ s.length
    omega
  · show unsuffixedExtent first s + unsignedSuffixExtent _ ≤ s.length
    omega

theorem numberExtent_le (first : UInt8) (s : Text) : (numberExtent first s).2 ≤ s.length := by
  unfold numberExtent
  split
  · rename_i x r
    split
    · have := hexExtent_le r
      simp only [List.length_cons]
      omega
    · exact decimalExtent_le first (x :: r)
  · exact decimalExtent_le first []

theorem length_first_le (b : UInt8) (s : Text) : (Rune.first b s).bytes.length - 1 ≤ s.length := by
  rcases Rune.bytes_first b s with ⟨cs, rest, hbytes, hs, _⟩
  rw [hbytes, hs]
  simp

theorem exists_takeChars_append (p : Char -> Bool) (s : Text) :
    exists rest, s = Text.takeChars p s ++ rest := by
  fun_induction Text.takeChars p s with
  | case1 => exact ⟨[], rfl⟩
  | case2 b s r hp ih =>
      rcases Rune.bytes_first b s with ⟨cs, rest, hbytes, hs, _⟩
      have hr : r.bytes = b :: cs := hbytes
      have hdrop : s.drop (r.bytes.length - 1) = rest := by
        rw [hr, hs]
        simp
      rcases ih with ⟨tail, htail⟩
      rw [hdrop] at htail
      refine ⟨tail, ?_⟩
      rw [hdrop, hr, List.append_assoc, ← htail, hs, List.cons_append]
  | case3 b s r hp => exact ⟨b :: s, rfl⟩

theorem length_takeChars_le (p : Char -> Bool) (s : Text) :
    (Text.takeChars p s).length ≤ s.length := by
  rcases exists_takeChars_append p s with ⟨rest, hs⟩
  have hlen := congrArg List.length hs
  rw [List.length_append] at hlen
  omega

theorem operatorExtent_le (b : UInt8) (s : Text) : operatorExtent b s ≤ s.length := by
  unfold operatorExtent
  cases hfind : operators.find? fun op => op.isPrefixOf (b :: s) with
  | none => exact length_first_le b s
  | some op =>
      have hprefix : op.isPrefixOf (b :: s) = true := by
        simpa using List.find?_some hfind
      have hlen := (List.isPrefixOf_iff_prefix.mp hprefix).length_le
      simp only [List.length_cons] at hlen
      show op.length - 1 ≤ s.length
      omega

/-!
# Forms of tokens

White space, directives and comments run on until something ends them; all other
tokens end by themselves.
-/

inductive Form where
  | space
  | directive
  | lineComment
  | blockComment
  | plain
  deriving DecidableEq, Repr

def form (fresh : Bool) (b : UInt8) (next : Option UInt8) : Form :=
  if isSeparator b then .space
  else if b == Byte.hash && fresh then .directive
  else if b == Byte.slash && next == some Byte.slash then .lineComment
  else if b == Byte.slash && next == some Byte.star then .blockComment
  else .plain

theorem form_spec (fresh : Bool) (b : UInt8) (next : Option UInt8) :
    match form fresh b next with
    | .space => isSeparator b = true
    | .directive => b = Byte.hash ∧ fresh = true
    | .lineComment => b = Byte.slash ∧ next = some Byte.slash
    | .blockComment => b = Byte.slash ∧ next = some Byte.star
    | .plain => isSeparator b = false ∧ (b = Byte.hash -> fresh = false) := by
  cases h : form fresh b next
  all_goals
    unfold form at h
    repeat' split at h
    all_goals simp_all

def wordExtent (b : UInt8) (s : Text) : Nat :=
  (Rune.first b s).bytes.length - 1 +
    (Text.takeChars isWordChar (s.drop ((Rune.first b s).bytes.length - 1))).length

def plainExtent (b : UInt8) (s : Text) : TokenKind × Nat :=
  if Byte.isDigit b || (b == Byte.dot && s.head?.any Byte.isDigit) then numberExtent b s
  else if isWordStart (Rune.first b s).char then
    (classify (b :: s.take (wordExtent b s)), wordExtent b s)
  else (.operator, operatorExtent b s)

theorem extent?_eq (fresh : Bool) (b : UInt8) (s : Text) :
    extent? fresh b s =
      match form fresh b s.head? with
      | .space => some (.whitespace, run isSeparator s)
      | .directive => some (.directive, directiveExtent s)
      | .lineComment => some (.lineComment, run (· != Byte.newline) s)
      | .blockComment => (blockCommentExtent? s).map fun n => (.blockComment, n)
      | .plain => some (plainExtent b s) := by
  unfold extent? form plainExtent wordExtent
  split
  · rfl
  · split
    · rfl
    · split
      · rfl
      · split
        · rfl
        · split
          · rfl
          · dsimp only
            split <;> rfl

theorem ne_nil_of_form_blockComment {fresh : Bool} {b : UInt8} {s : Text}
    (h : form fresh b s.head? = .blockComment) : s ≠ [] := by
  intro hs
  subst hs
  unfold form at h
  repeat' split at h
  all_goals simp_all

theorem wordExtent_le (b : UInt8) (s : Text) : wordExtent b s ≤ s.length := by
  have hfirst := length_first_le b s
  have hchars := length_takeChars_le isWordChar (s.drop ((Rune.first b s).bytes.length - 1))
  rw [List.length_drop] at hchars
  unfold wordExtent
  omega

theorem plainExtent_le (b : UInt8) (s : Text) : (plainExtent b s).2 ≤ s.length := by
  unfold plainExtent
  split
  · exact numberExtent_le b s
  · split
    · exact wordExtent_le b s
    · exact operatorExtent_le b s

theorem extent?_le {fresh : Bool} {b : UInt8} {s : Text} {kind : TokenKind} {n : Nat}
    (h : extent? fresh b s = some (kind, n)) : n ≤ s.length := by
  rw [extent?_eq] at h
  cases hform : form fresh b s.head? with
  | space =>
      rw [hform] at h
      cases h
      exact run_le isSeparator s
  | directive =>
      rw [hform] at h
      cases h
      exact directiveExtent_le s
  | lineComment =>
      rw [hform] at h
      cases h
      exact run_le _ s
  | blockComment =>
      rw [hform] at h
      rcases Option.map_eq_some_iff.mp h with ⟨m, hm, heq⟩
      cases heq
      exact blockCommentExtent?_le (ne_nil_of_form_blockComment hform) hm
  | plain =>
      rw [hform] at h
      have hplain : plainExtent b s = (kind, n) := Option.some.inj h
      have hle := plainExtent_le b s
      rwa [hplain] at hle

def formOf : TokenKind -> Form
  | .whitespace => .space
  | .directive => .directive
  | .lineComment => .lineComment
  | .blockComment => .blockComment
  | _ => .plain

def plainKinds : List TokenKind :=
  [.ident, .keyword, .builtin, .operator, .integer, .float]

theorem formOf_of_mem_plainKinds {kind : TokenKind} (h : kind ∈ plainKinds) :
    formOf kind = .plain := by
  revert kind
  decide

theorem decimalExtent_mem_plainKinds (first : UInt8) (s : Text) :
    (decimalExtent first s).1 ∈ plainKinds := by
  rw [decimalExtent_eq]
  split <;> simp [plainKinds]

theorem classify_mem_plainKinds (w : Text) : classify w ∈ plainKinds := by
  unfold classify
  split
  · decide
  · split <;> decide

theorem plainExtent_mem_plainKinds (b : UInt8) (s : Text) :
    (plainExtent b s).1 ∈ plainKinds := by
  unfold plainExtent
  split
  · unfold numberExtent
    split
    · split
      · simp [plainKinds]
      · exact decimalExtent_mem_plainKinds b _
    · exact decimalExtent_mem_plainKinds b []
  · split
    · exact classify_mem_plainKinds _
    · simp [plainKinds]

theorem form_of_extent? {fresh : Bool} {b : UInt8} {s : Text} {kind : TokenKind} {n : Nat}
    (h : extent? fresh b s = some (kind, n)) : form fresh b s.head? = formOf kind := by
  rw [extent?_eq] at h
  cases hform : form fresh b s.head? with
  | space | directive | lineComment =>
      rw [hform] at h
      cases h
      rfl
  | blockComment =>
      rw [hform] at h
      rcases Option.map_eq_some_iff.mp h with ⟨m, _, heq⟩
      cases heq
      rfl
  | plain =>
      rw [hform] at h
      have hplain : plainExtent b s = (kind, n) := Option.some.inj h
      have hkind := plainExtent_mem_plainKinds b s
      rw [hplain] at hkind
      exact (formOf_of_mem_plainKinds hkind).symm

theorem kind_ne_eof_of_extent? {fresh : Bool} {b : UInt8} {s : Text} {kind : TokenKind} {n : Nat}
    (h : extent? fresh b s = some (kind, n)) : kind ≠ .eof := by
  intro heof
  subst heof
  have hform : form fresh b s.head? = .plain := form_of_extent? h
  rw [extent?_eq, hform] at h
  have hplain : plainExtent b s = (.eof, n) := Option.some.inj h
  have hkind := plainExtent_mem_plainKinds b s
  rw [hplain] at hkind
  simp [plainKinds] at hkind

theorem decimalExtent_kind (first : UInt8) (s : Text) :
    (decimalExtent first s).1 = .float ∨ (decimalExtent first s).1 = .integer := by
  rw [decimalExtent_eq]
  split
  · exact Or.inl rfl
  · exact Or.inr rfl

theorem numberExtent_kind (first : UInt8) (s : Text) :
    (numberExtent first s).1 = .float ∨ (numberExtent first s).1 = .integer := by
  unfold numberExtent
  split
  · split
    · exact Or.inr rfl
    · exact decimalExtent_kind first _
  · exact decimalExtent_kind first []

theorem isWordStart_of_extent? {fresh : Bool} {b : UInt8} {s : Text} {kind : TokenKind} {n : Nat}
    (h : extent? fresh b s = some (kind, n))
    (hkind : kind = .ident ∨ kind = .keyword ∨ kind = .builtin) :
    isWordStart (Rune.first b s).char = true := by
  have hform : form fresh b s.head? = .plain := by
    rw [form_of_extent? h]
    rcases hkind with rfl | rfl | rfl <;> rfl
  rw [extent?_eq, hform] at h
  have hplain : plainExtent b s = (kind, n) := Option.some.inj h
  unfold plainExtent at hplain
  split at hplain
  · have hnumber := numberExtent_kind b s
    rw [hplain] at hnumber
    rcases hkind with rfl | rfl | rfl <;> simp at hnumber
  · split at hplain
    · assumption
    · rcases hkind with rfl | rfl | rfl <;> cases hplain

theorem staysFresh_eq_false {kind : TokenKind} {text : Text} (h : Byte.newline ∉ text) :
    staysFresh false kind text = false := by
  have hcontains : text.contains Byte.newline = false := by simpa using h
  unfold staysFresh
  rw [hcontains]
  split <;> rfl

/-!
# Scans and pieces
-/

theorem lexes_of_extent? {fresh : Bool} {b : UInt8} {s : Text} {kind : TokenKind} {n : Nat}
    {ws : List Piece} (h : extent? fresh b s = some (kind, n))
    (hrest : Lexes (staysFresh fresh kind (b :: s.take n)) (s.drop n) ws) :
    Lexes fresh (b :: s) (⟨kind, b :: s.take n⟩ :: ws) := by
  have hlen : (s.take n).length = n := List.length_take_of_le (extent?_le h)
  have hsplit : s.take n ++ s.drop n = s := List.take_append_drop n s
  have hextent : extent? fresh b (s.take n ++ s.drop n) = some (kind, (s.take n).length) := by
    rw [hsplit, hlen]
    exact h
  have hcons := Lexes.cons hextent hrest
  rwa [hsplit] at hcons

theorem exists_lexes_of_scan {p : Position} {fresh : Bool} {s : Text} {ts : List Token}
    (h : scan p fresh s = .ok ts) : exists ws, Lexes fresh s ws ∧ ts = place p ws := by
  induction p, fresh, s using scan.induct generalizing ts with
  | case1 p fresh =>
      rw [scan] at h
      cases h
      exact ⟨[], Lexes.nil fresh, rfl⟩
  | case2 p fresh b s hnone =>
      rw [scan, hnone] at h
      cases h
  | case3 p fresh b s kind n hextent text =>
      rename_i ih
      rw [scan, hextent] at h
      cases hrest : scan (p.advance text) (staysFresh fresh kind text) (s.drop n) with
      | error e =>
          simp only [show b :: s.take n = text from rfl, hrest] at h
          cases h
      | ok rest =>
          simp only [show b :: s.take n = text from rfl, hrest] at h
          cases h
          rcases ih hrest with ⟨ws, hws, hplace⟩
          exact ⟨⟨kind, text⟩ :: ws, lexes_of_extent? hextent hws, by rw [place_cons, ← hplace]⟩

theorem scan_of_lexes {fresh : Bool} {s : Text} {ws : List Piece} (h : Lexes fresh s ws)
    (p : Position) : scan p fresh s = .ok (place p ws) := by
  induction h generalizing p with
  | nil fresh => rw [scan, place_nil]
  | @cons fresh kind b w rest ws hextent _ ih =>
      have htake : (w ++ rest).take w.length = w := List.take_left
      have hdrop : (w ++ rest).drop w.length = rest := List.drop_left
      rw [scan, hextent]
      simp only [htake, hdrop, ih]
      rfl

theorem tokenize_eq_ok_iff {s : Text} {ts : List Token} :
    tokenize s = .ok ts ↔ exists ws, Lexes true s ws ∧ ts = place Position.start ws := by
  constructor
  · exact exists_lexes_of_scan
  · rintro ⟨ws, hws, rfl⟩
    exact scan_of_lexes hws Position.start

theorem Lexes.flatten_eq {fresh : Bool} {s : Text} {ws : List Piece} (h : Lexes fresh s ws) :
    (ws.map Piece.text).flatten = s := by
  induction h with
  | nil fresh => rfl
  | cons _ _ ih => simp [ih]

theorem Lexes.exists_extent? {fresh : Bool} {s : Text} {ws : List Piece} (h : Lexes fresh s ws)
    {w : Piece} (hw : w ∈ ws) :
    exists fresh' b v rest, w.text = b :: v ∧
      extent? fresh' b (v ++ rest) = some (w.kind, v.length) := by
  induction h with
  | nil fresh => cases hw
  | @cons fresh kind b v rest ws hextent _ ih =>
      rcases List.mem_cons.mp hw with rfl | hw
      · exact ⟨fresh, b, v, rest, rfl, hextent⟩
      · exact ih hw

end Lexer

end EffectShader
