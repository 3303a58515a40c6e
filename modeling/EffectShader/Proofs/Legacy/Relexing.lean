import EffectShader.Proofs.Condition.Printing
import EffectShader.Proofs.Legacy.Leaves

/-!
# The pieces that are left are the tokens of their text

When the tokens of a source can be taken apart, what stands behind a token after the
pass starts like what stood there before, or an operator is followed by a word.  No
token is cut off longer or shorter in front of it, so the text that the pass writes is
cut into the pieces that it leaves, up to white space.
-/

namespace EffectShader

namespace Lexer

/-!
# What ends a token
-/

theorem extent?_fresher {f f' : Bool} {b : UInt8} {v r : Text} {kind : TokenKind}
    (h : extent? f b (v ++ r) = some (kind, v.length))
    (hhash : (⟨kind, b :: v⟩ : Piece) ≠ strayHash)
    (hf : f = true -> f' = true) : extent? f' b (v ++ r) = some (kind, v.length) := by
  by_cases hb : b = Byte.hash
  · subst hb
    cases f with
    | true => rwa [hf rfl]
    | false =>
        have hform : form false Byte.hash (v ++ r).head? = .plain := rfl
        rw [extent?_eq, hform, plainExtent_single rfl] at h
        rcases Prod.mk.inj (Option.some.inj h) with ⟨rfl, hlen⟩
        rw [List.length_eq_zero_iff.mp hlen.symm] at hhash
        exact absurd rfl hhash
  · rwa [extent?_of_ne_hash hb f' f]

theorem staysFresh_mono {f f' : Bool} (hf : f = true -> f' = true) (kind : TokenKind)
    (text : Text) :
    staysFresh f kind text = true -> staysFresh f' kind text = true := by
  unfold staysFresh
  cases f with
  | true =>
      rw [hf rfl]
      exact id
  | false => cases kind <;> simp +contextual

theorem extent?_word {f f' : Bool} {b : UInt8} {v r r' : Text} {kind : TokenKind}
    (h : extent? f b (v ++ r) = some (kind, v.length))
    (hkind : kind = .ident ∨ kind = .keyword ∨ kind = .builtin)
    (hr : r'.head?.all endsWord = true) :
    extent? f' b (v ++ r') = some (kind, v.length) := by
  have hplain : formOf kind = .plain := by rcases hkind with rfl | rfl | rfl <;> rfl
  rcases first_of_isWordStart (isWordStart_of_extent? h hkind) with ⟨hother, hsep, _⟩
  simp only [List.mem_cons, List.not_mem_nil, or_false, not_or] at hother
  have hform : form f' b (v ++ r').head? = .plain := by
    unfold form
    simp [hsep, hother]
  have hextent := plainExtent_of_extent? h hplain
  have hbare : plainExtent b v = (kind, v.length) := by
    rw [plainExtent_of_append_le (Nat.le_of_eq (congrArg Prod.snd hextent)), hextent]
  rw [extent?_eq, hform]
  dsimp only
  cases r' with
  | nil => rw [List.append_nil, hbare]
  | cons c y =>
      have hc : endsWord c = true := by simpa using hr
      have hnumber : startsNumber b v = false := by
        rw [Bool.eq_false_iff]
        intro hn
        have hnumber := startsNumber_of_plainExtent hn
        rw [hbare] at hnumber
        rcases hkind with rfl | rfl | rfl <;> simp at hnumber
      have hword : isWordStart (Rune.first b v).char = true := by
        by_contra hnot
        rw [plainExtent_eq_operator hnumber (by simpa using hnot)] at hbare
        rcases hkind with rfl | rfl | rfl <;> cases congrArg Prod.fst hbare
      have hstart := (startsNumber_stop (isDigit_endsWord hc) b v y).trans hnumber
      rw [plainExtent_eq_word hnumber hword] at hbare
      rw [plainExtent_eq_word hstart (by rw [first_stop (lt_of_endsWord hc)]; exact hword),
        wordExtent_stop hc, List.take_append_of_le_length (wordExtent_le b v), hbare]

theorem endsOperator_of_lt {c : UInt8} (hc : c < 0x80)
    (h : isSeparator c = true ∨ isWordStart (Char.ofNat c.toNat) = true) : endsOperator c = true :=
  of_all_bytes (P := fun c => c < 0x80 ->
    isSeparator c = true ∨ isWordStart (Char.ofNat c.toNat) = true -> endsOperator c = true)
    (by decide +kernel) c hc h

theorem not_endsWord_of_extent? {f : Bool} {b : UInt8} {s : Text} {kind : TokenKind} {n : Nat}
    (h : extent? f b s = some (kind, n))
    (hkind : kind = .ident ∨ kind = .keyword ∨ kind = .builtin) : endsWord b = false := by
  rw [Bool.eq_false_iff]
  intro hb
  have hstart := isWordStart_of_extent? h hkind
  have hchar := isWordChar_endsWord hb s
  unfold isWordChar at hchar
  unfold isWordStart at hstart
  simp only [Bool.or_eq_false_iff] at hchar
  simp [hchar.1.1, hchar.2] at hstart

end Lexer

namespace Legacy

open Declaration Decorate Lexer Subpass

/-!
# Tokens and their text
-/

def piecesOf (ts : List Token) : List Piece :=
  (ts.map Token.piece).filter fun w => w.kind != .eof

def Reads (f : Bool) (ts : List Token) : Prop :=
  Lexes f (textOf ts) (piecesOf ts)

theorem Reads.cons {f : Bool} {t : Token} {ts : List Token} (h : Reads f (t :: ts))
    (ht : t.kind ≠ .eof) :
    exists b v, t.text = b :: v ∧ extent? f b (v ++ textOf ts) = some (t.kind, v.length) ∧
      Reads (staysFresh f t.kind t.text) ts := by
  have hpieces : piecesOf (t :: ts) = t.piece :: piecesOf ts := by
    unfold piecesOf
    rw [List.map_cons, List.filter_cons_of_pos (by simpa using ht)]
  unfold Reads at h
  rw [hpieces, textOf_cons] at h
  generalize hs : t.text ++ textOf ts = s at h
  generalize hw : t.piece = w at h
  cases h with
  | @cons _ kind b v rest _ hextent hrest =>
      have htext : t.text = b :: v := congrArg Piece.text hw
      have hkind : t.kind = kind := congrArg Piece.kind hw
      rw [htext, List.cons_append] at hs
      have hrest' : textOf ts = rest := List.append_cancel_left (List.cons.inj hs).2
      rw [← hrest', ← hkind] at hextent
      rw [← hrest', ← hkind, ← htext] at hrest
      exact ⟨b, v, htext, hextent, hrest⟩

theorem Reads.of_append {f : Bool} {us ts : List Token} (h : Reads f (us ++ ts))
    (hus : forall u, u ∈ us -> u.kind ≠ .eof) : exists g, Reads g ts := by
  induction us generalizing f with
  | nil => exact ⟨f, h⟩
  | cons u us ih =>
      rcases h.cons (hus u List.mem_cons_self) with ⟨_, _, _, _, hrest⟩
      exact ih hrest fun v hv => hus v (List.mem_cons_of_mem u hv)

theorem Reads.tail {f : Bool} {t : Token} {ts : List Token} (h : Reads f (t :: ts))
    (ht : t.kind ≠ .eof) (hplain : forall f, staysFresh f t.kind t.text = false) :
    Reads false ts := by
  rcases h.cons ht with ⟨_, _, _, _, hrest⟩
  rwa [hplain] at hrest

theorem Reads.behind_op {f : Bool} {us ts : List Token} {t : Token} {op : Text}
    (h : Reads f (us ++ t :: ts)) (hends : EndsOnce (us ++ t :: ts)) (ht : t.isOp op = true) :
    Reads false ts := by
  have hkind := kind_of_isOp ht
  rcases h.of_append (hends.kind_ne_eof (List.cons_ne_nil _ _)) with ⟨g, hg⟩
  exact hg.tail (by rw [hkind]; decide) (fun f => by rw [hkind]; rfl)

theorem Reads.of_blanks {us ts : List Token} (h : Reads false (us ++ ts))
    (hus : forall u, u ∈ us -> u.kind = .whitespace ∧ u.text.newlines = 0) : Reads false ts := by
  induction us with
  | nil => exact h
  | cons u us ih =>
      rcases List.forall_mem_cons.mp hus with ⟨⟨hkind, hlines⟩, hrest⟩
      rcases h.cons (by rw [hkind]; decide) with ⟨_, _, _, _, htail⟩
      rw [staysFresh_eq_false (List.count_eq_zero.mp hlines)] at htail
      exact ih htail hrest

theorem head?_textOf {t : Token} {b : UInt8} {v : Text} (h : t.text = b :: v) (ts : List Token) :
    (textOf (t :: ts)).head? = some b := by
  rw [textOf_cons, h]
  rfl

theorem head?_textOf_eq_some {f : Bool} {ts : List Token} {c : UInt8} (h : Reads f ts)
    (hends : EndsOnce ts) (hc : (textOf ts).head? = some c) :
    exists u, ts.head? = some u ∧ u.text.head? = some c := by
  cases ts with
  | nil => cases hc
  | cons u ts =>
      refine ⟨u, rfl, ?_⟩
      by_cases heof : u.kind = .eof
      · rcases hends [] u ts rfl heof with ⟨htext, rfl⟩
        rw [textOf_cons, htext] at hc
        cases hc
      · rcases h.cons heof with ⟨b, v, htext, _, _⟩
        rw [head?_textOf htext] at hc
        rw [htext]
        exact hc

/-- A token that is copied starts what is left as it started the source. -/
theorem Reads.head?_spell {f : Bool} {t : Token} {ts : List Token} (h : Reads f (t :: ts))
    (ht : t.kind ≠ .eof) (vs : List Piece) :
    (spell ([t.piece] ++ vs)).head? = (textOf (t :: ts)).head? := by
  rcases h.cons ht with ⟨b, v, htext, _, _⟩
  rw [spell_append, spell_cons, Token.text_piece, head?_textOf htext, htext]
  rfl

theorem adjoins_head? {f : Bool} {t : Token} {ts : List Token} {c : UInt8} (h : Reads f ts)
    (hends : EndsOnce ts) (htidy : isTidy (t :: ts) = true) (hc : (textOf ts).head? = some c) :
    c < 0x80 ∧ (t.isWord = true ∨ t.kind = .integer ∨ t.kind = .float -> endsWord c = true) := by
  rcases head?_textOf_eq_some h hends hc with ⟨u, hu, htext⟩
  have hadjoins := (Bool.and_eq_true_iff.mp ((isTidy_cons htidy).1 u hu)).1
  rw [htext] at hadjoins
  simp only [Option.all_some, Bool.and_eq_true, decide_eq_true_eq, Bool.or_eq_true] at hadjoins
  refine ⟨hadjoins.1, fun hword => ?_⟩
  rcases hadjoins.2 with hends | hother
  · exact hends
  · rcases hword with h | h | h <;> simp [h] at hother

/-- A word or number is no single byte that is always cut off. -/
theorem isLoose_of_isWord {f : Bool} {t : Token} {ts : List Token} (hreads : Reads f (t :: ts))
    (hword : t.isWord = true) : isLoose t = false := by
  have hkind := kind_of_isWord hword
  rcases hreads.cons (by rcases hkind with h | h | h <;> rw [h] <;> decide) with
    ⟨b, v, htext, hextent, _⟩
  have hends := not_endsWord_of_extent? hextent hkind
  have htrivia : t.isTrivia = false := by
    rcases hkind with h | h | h <;> simp [Token.isTrivia, h]
  unfold isLoose
  rw [htrivia, htext]
  cases v with
  | cons c v => rfl
  | nil =>
      rw [Bool.false_or]
      cases hsingle : isSingle b with
      | false => exact hsingle
      | true =>
          rw [endsWord_of_isBarrier (Bool.and_eq_true_iff.mp hsingle).1] at hends
          cases hends

theorem operator_of_isWord {f : Bool} {t u : Token} {us : List Token} (hreads : Reads f (u :: us))
    (htidy : isTidy (t :: u :: us) = true) (hu : u.isWord = true)
    (ht : (t.kind ∈ plainKinds ∧ isLoose t = false) ∨
      (textOf (u :: us)).head?.all isSeparator = true) :
    t.kind = .operator ∧ isRemoved u = false := by
  have hkind := kind_of_isWord hu
  rcases hreads.cons (by rcases hkind with h | h | h <;> rw [h] <;> decide) with
    ⟨b, v, htext, hextent, _⟩
  have hsep := (first_of_isWordStart (isWordStart_of_extent? hextent hkind)).2.1
  rw [head?_textOf htext] at ht
  rcases ht with ⟨hmem, hloose⟩ | hnext
  · rcases Bool.and_eq_true_iff.mp ((isTidy_cons htidy).1 u rfl) with ⟨hfirst, hremoved⟩
    rw [htext] at hfirst
    simp only [List.head?_cons, Option.all_some, not_endsWord_of_extent? hextent hkind,
      Bool.false_or, Bool.and_eq_true] at hfirst
    rw [hloose] at hremoved
    refine ⟨?_, by simpa using hremoved⟩
    have hother := hfirst.2
    simp only [plainKinds, List.mem_cons, List.not_mem_nil, or_false] at hmem
    rcases hmem with h | h | h | h | h | h <;> simp [Token.isWord, h] at hother ⊢
  · rw [show isSeparator b = true from hnext] at hsep
    cases hsep

/-!
# What stands behind a removed qualifier
-/

theorem splitGroup_closed (opening closing : Text) (depth : Nat) (ts : List Token) :
    (splitGroup opening closing depth ts).2 = [] ∨
      exists front close, (splitGroup opening closing depth ts).1 = front ++ [close] ∧
        close.isOp closing = true := by
  induction ts generalizing depth with
  | nil => exact Or.inl rfl
  | cons t ts ih =>
      have hcons : forall depth, (splitGroup opening closing depth ts).2 = [] ∨
          exists front close, t :: (splitGroup opening closing depth ts).1 = front ++ [close] ∧
            close.isOp closing = true := by
        intro depth
        refine (ih depth).imp_right ?_
        rintro ⟨front, close, hsplit, hclose⟩
        exact ⟨t :: front, close, congrArg (t :: ·) hsplit, hclose⟩
      rw [splitGroup]
      split
      · exact hcons _
      · split
        · rename_i hclose
          exact Or.inr ⟨[], t, rfl, (Bool.and_eq_true_iff.mp hclose).1⟩
        · exact hcons _

/-- A layout qualifier that is not closed takes everything; another one ends in its parenthesis and
blanks. -/
theorem closed_of_layoutTokens? {ts group rest : List Token}
    (h : layoutTokens? ts = some (group, rest)) :
    rest = [] ∨ exists front close blanks, group = front ++ close :: blanks ∧
      close.isOp ")" = true ∧
        forall u, u ∈ blanks -> u.kind = .whitespace ∧ u.text.newlines = 0 := by
  unfold layoutTokens? at h
  split at h
  · cases h
  · rename_i inner _
    cases h
    rcases splitGroup_closed "(" ")" 1 inner with hnil | ⟨front, close, hinside, hclose⟩
    · rw [hnil]
      exact Or.inl rfl
    · rw [hinside]
      generalize (splitGroup "(" ")" 1 inner).2 = behind
      refine Or.inr ⟨ts.take (ts.length - inner.length) ++ front, close,
        behind.takeWhile fun t => t.kind == .whitespace && Text.newlines t.text == 0, ?_, hclose,
        ?_⟩
      · simp only [List.append_assoc, List.singleton_append]
      · intro u hu
        simpa using List.all_eq_true.mp List.all_takeWhile u hu

theorem Reads.of_layoutTokens? {f : Bool} {ts group rest : List Token} (h : Reads f ts)
    (hends : EndsOnce ts) (hgroup : layoutTokens? ts = some (group, rest)) :
    rest = [] ∨ Reads false rest := by
  refine (closed_of_layoutTokens? hgroup).imp_right ?_
  rintro ⟨front, close, blanks, rfl, hclose, hblanks⟩
  rw [append_of_layoutTokens? hgroup, List.append_assoc, List.cons_append] at h hends
  exact (h.behind_op hends hclose).of_blanks hblanks

/-!
# How what is left starts
-/

theorem Target.endsOperator_head? {target : Text} {us : List Piece} (h : Target target us)
    (r : Text) :
    (spell us ++ r).head?.all endsOperator = true := by
  have hg : endsOperator (Byte.of 'g') = true := by decide +kernel
  cases h with
  | color => exact hg
  | data n => exact hg

theorem endsOperator_head?_sampling {name : Text} (h : name ∈ samplingNames) (r : Text) :
    (name ++ r).head?.all endsOperator = true := by
  have hspec := List.all_eq_true.mp samplingNames_spec name h
  simp only [Bool.and_eq_true] at hspec
  cases name with
  | nil => cases hspec.1.2
  | cons b v => exact hspec.1.1

theorem kind_of_selects {t : Token} {ts : List Token} (h : selects (t :: ts) = true) :
    t.kind = .whitespace ∨ t.kind = .ident ∨ t.kind = .builtin := by
  rcases Bool.or_eq_true_iff.mp (Bool.and_eq_true_iff.mp h).2 with hspace | hname
  · exact Or.inl (eq_of_beq hspace)
  · exact Or.inr (kind_of_isNamed hname)

theorem Leaves.head?_of_dot {names : Names} {dot : Token} {ts : List Token} {vs : List Piece}
    {q : Option Token} (h : Leaves names (some dot) ts vs q []) (hdot : dot.isOp "." = true)
    {f : Bool} (hreads : Reads f ts) (htidy : isTidy (dot :: ts) = true) :
    (spell vs).head?.all endsOperator = true := by
  rcases isTidy_cons htidy with ⟨hadjoins, hselects, _⟩
  generalize hts : ([] : List Token) = rest at h
  cases h with
  | nil => rfl
  | @cons _ p' _ _ ts' _ us vs hleaf hrest =>
      subst hts
      have hp : isDotted (some dot) = true := hdot
      have hkind : forall t us, ts = t :: us ->
          t.kind = .whitespace ∨ t.kind = .ident ∨ t.kind = .builtin :=
        fun t us heq => kind_of_selects (show selects (t :: us) = true from heq ▸ hselects hdot)
      cases hleaf with
      | finish heof =>
          rcases hkind _ _ rfl with h | h | h <;> rw [heof] at h <;> cases h
      | @copy t _ hne _ _ =>
          rcases hreads.cons hne with ⟨b, v, htext, hextent, _⟩
          have hsmall : b < 0x80 := by
            have hadj := (Bool.and_eq_true_iff.mp (hadjoins t rfl)).1
            rw [htext] at hadj
            simp only [List.head?_cons, Option.all_some, Bool.and_eq_true,
              decide_eq_true_eq] at hadj
            exact hadj.1
          rw [hreads.head?_spell hne, head?_textOf htext]
          apply endsOperator_of_lt hsmall
          rcases hkind _ _ rfl with h | h
          · rw [h] at hextent
            exact Or.inl (separators_of_extent? hextent b List.mem_cons_self)
          · have hstart := isWordStart_of_extent? hextent (by tauto)
            rw [Rune.first, if_pos hsmall] at hstart
            exact Or.inr hstart
      | bare hlayout | layout hlayout =>
          have hkeyword := kind_of_isLayoutWord hlayout
          rcases hkind _ _ rfl with h | h | h <;> rw [hkeyword] at h <;> cases h
      | interpolation hkeyword =>
          rcases hkind _ _ rfl with h | h | h <;> rw [hkeyword] at h <;> cases h
      | pragma hdirective =>
          rcases hkind _ _ rfl with h | h | h <;> rw [hdirective] at h <;> cases h
      | sampling _ hs hname =>
          rw [spell_append, spell_cons, spell_nil, List.append_nil]
          exact endsOperator_head?_sampling (mem_samplingNames hs hname) _
      | output _ hp' | access _ hp' =>
          rw [hp] at hp'
          cases hp'

theorem Leaves.head? {names : Names} {p q : Option Token} {t : Token} {ts : List Token}
    {vs : List Piece} (h : Leaves names p ts vs q []) (hreads : Reads false ts)
    (hends : EndsOnce ts) (htidy : isTidy (t :: ts) = true)
    (hnext : (t.kind ∈ plainKinds ∧ isLoose t = false) ∨
      (textOf ts).head?.all isSeparator = true) :
    (spell vs).head? = (textOf ts).head? ∨
      (t.kind = .operator ∧ (spell vs).head?.all endsOperator = true) := by
  generalize hts : ([] : List Token) = rest at h
  cases h with
  | nil =>
      subst hts
      exact Or.inl rfl
  | @cons _ p' _ _ ts' _ us vs hleaf hleaves =>
      subst hts
      -- a word stands behind an operator only, and nothing is taken out here
      have hword : forall {u : Token} {us : List Token}, ts = u :: us -> u.isWord = true ->
          t.kind = .operator ∧ isRemoved u = false := by
        rintro u us rfl hu
        exact operator_of_isWord hreads htidy hu hnext
      cases hleaf with
      | @finish u heof htext =>
          rw [hleaves.of_nil, textOf_cons, htext]
          exact Or.inl rfl
      | copy hne => exact Or.inl (hreads.head?_spell hne vs)
      | bare hlayout =>
          exact Or.inl (hreads.head?_spell (by rw [kind_of_isLayoutWord hlayout]; decide) vs)
      | @layout u _ _ _ hlayout =>
          have hremoved := (hword rfl (by simp [Token.isWord, kind_of_isLayoutWord hlayout])).2
          rw [isRemoved, hlayout] at hremoved
          cases hremoved
      | @interpolation u _ _ hkind _ hflat =>
          have hremoved := (hword rfl (by simp [Token.isWord, hkind])).2
          rw [isRemoved, hkind, hflat] at hremoved
          simp at hremoved
      | @pragma u _ hkind =>
          rcases hreads.cons (by rw [hkind]; decide) with ⟨b, v, _, hextent, _⟩
          have hform := form_of_extent? hextent
          have hspec := form_spec false b (v ++ textOf ts').head?
          rw [hform, hkind] at hspec
          cases hspec.2
      | @sampling u _ _ _ _ hkind hs hname =>
          refine Or.inr ⟨(hword rfl (by simp [Token.isWord, hkind])).1, ?_⟩
          rw [spell_append, spell_cons, spell_nil, List.append_nil]
          exact endsOperator_head?_sampling (mem_samplingNames hs hname) _
      | @output u _ _ _ hkind _ _ htarget =>
          refine Or.inr ⟨(hword rfl (by simp [Token.isWord, hkind])).1, ?_⟩
          rw [spell_append]
          exact htarget.endsOperator_head? _
      | @access i dot x _ hkind _ _ _ _ hdot =>
          refine Or.inr ⟨(hword rfl (by simp [Token.isWord, hkind])).1, ?_⟩
          rw [List.nil_append]
          have hsplit : i :: ((x ++ [dot]) ++ ts') = (i :: x) ++ dot :: ts' := by simp
          rw [hsplit] at hreads hends htidy
          exact hleaves.head?_of_dot hdot (hreads.behind_op hends hdot)
            (isTidy_of_append (isTidy_cons htidy).2.2)

/-!
# Pieces that are cut apart again
-/

def inked (ws : List Piece) : List Piece :=
  ws.filter fun w => w.kind != .whitespace

@[simp] theorem inked_append (us vs : List Piece) : inked (us ++ vs) = inked us ++ inked vs := by
  simp [inked]

theorem inked_cons_of_whitespace {w : Piece} (hw : w.kind = .whitespace) (ws : List Piece) :
    inked (w :: ws) = inked ws := by
  simp [inked, hw]

theorem inked_cons {w : Piece} (hw : w.kind ≠ .whitespace) (ws : List Piece) :
    inked (w :: ws) = w :: inked ws := by
  simp [inked, hw]

theorem inked_padding (w : Text) : inked (padding w) = [] := by
  cases w <;> rfl

/-- The text of the pieces is cut into them, up to white space. -/
def Relexes (f : Bool) (vs : List Piece) : Prop :=
  exists us, Lexes f (spell vs) us ∧ inked us = inked vs

theorem Relexes.nil (f : Bool) : Relexes f [] :=
  ⟨[], Lexes.nil f, rfl⟩

theorem Relexes.cuts {f g : Bool} {us vs : List Piece} (hus : Cuts f us g (spell vs))
    (h : Relexes g vs) : Relexes f (us ++ vs) := by
  rcases h with ⟨ws, hws, hinked⟩
  refine ⟨us ++ ws, ?_, by rw [inked_append, inked_append, hinked]⟩
  rw [spell_append]
  exact hus.lexes hws

theorem Relexes.padding {f : Bool} {w : Text} {vs : List Piece}
    (hw : forall c, c ∈ w -> isSeparator c = true) (h : Relexes (f || w.contains Byte.newline) vs) :
    Relexes f (padding w ++ vs) := by
  rcases h with ⟨ws, hws, hinked⟩
  rcases exists_lexes_separators hw hws with ⟨us, hus, hshape⟩
  refine ⟨us, by rwa [spell_append, spell_padding], ?_⟩
  rw [inked_append, inked_padding, List.nil_append, ← hinked]
  rcases hshape with ⟨_, rfl⟩ | rfl | ⟨v, vs, rfl, rfl⟩ <;> rfl

theorem Relexes.blank {f : Bool} {vs : List Piece} (h : forall f, Relexes f vs) (s : Text) :
    Relexes f (Lexer.padding (Edit.blank s) ++ vs) := by
  apply Relexes.padding _ (h _)
  intro c hc
  rw [List.eq_of_mem_replicate hc]
  rfl

theorem Reads.relexes_token {f f' : Bool} {t : Token} {ts : List Token} {vs : List Piece}
    (hreads : Reads f (t :: ts)) (hne : t.kind ≠ .eof) (hhash : t.piece ≠ strayHash)
    (hf : f = true -> f' = true)
    (hkept : forall {b : UInt8} {v : Text}, t.text = b :: v ->
      extent? f b (v ++ textOf ts) = some (t.kind, v.length) ->
      Reads (staysFresh f t.kind t.text) ts -> t.kind ≠ .whitespace ->
      extent? f b (v ++ spell vs) = some (t.kind, v.length))
    (hvs : forall {g g' : Bool}, (g = true -> g' = true) -> Reads g ts -> Relexes g' vs) :
    Relexes f' ([t.piece] ++ vs) := by
  rcases hreads.cons hne with ⟨b, v, htext, hextent, hrest⟩
  have hpiece : t.piece = ⟨t.kind, b :: v⟩ := by rw [← htext]; rfl
  have hflag := staysFresh_mono hf t.kind t.text
  by_cases hspace : t.kind = .whitespace
  · rw [hspace] at hextent hflag
    have hpad : padding (b :: v) = [t.piece] := by
      rw [hpiece, hspace]
      rfl
    rw [← hpad]
    apply Relexes.padding (separators_of_extent? hextent)
    refine hvs ?_ hrest
    rw [hspace, ← htext]
    exact hflag
  · have hextent' := hkept htext hextent hrest hspace
    rw [hpiece] at hhash ⊢
    refine Relexes.cuts (Cuts.cons ?_ (Cuts.nil _ _)) (hvs (htext ▸ hflag) hrest)
    rw [spell_nil, List.nil_append]
    exact extent?_fresher hextent' hhash hf

theorem cuts_word {s r : Text} (hs : isIdentifier s = true) (hr : r.head?.all endsWord = true)
    (f : Bool) : Cuts f [word s] false r := by
  rcases isCut_word hs with ⟨fresh, b, v, rest, htext, hextent⟩
  have hkind := kind_word s
  have hplain : formOf (word s).kind = .plain := eq_of_beq (isPlain_word s)
  have hcut : Cuts f [⟨(word s).kind, b :: v⟩] false r := by
    apply Cuts.cons
    · rw [spell_nil, List.nil_append]
      exact extent?_word hextent hkind hr
    · rw [staysFresh_of_plain hplain]
      exact Cuts.nil false r
  rwa [show (⟨(word s).kind, b :: v⟩ : Piece) = word s by rw [← htext]] at hcut

theorem isCut_ofNat (n : Nat) : IsCut ⟨.integer, Text.ofNat n⟩ := by
  rcases stands_ofNat n with ⟨b, v, htext, hform, hextent⟩
  have hstands : Piece.Stands ⟨.integer, b :: v⟩ := ⟨b, v, rfl, hform, hextent⟩
  exact ⟨true, b, v, [], htext, hstands.extent? true (Or.inl rfl)⟩

theorem cuts_onto {f g h : Bool} {w : Piece} {vs : List Piece} {r : Text}
    (hw : Cuts f [w] g (spell vs ++ r)) (hvs : Cuts g vs h r) : Cuts f (w :: vs) h r :=
  Cuts.append hw hvs

theorem Target.cuts {target r : Text} {us : List Piece} (h : Target target us)
    (hr : r.head?.all endsWord = true) (f : Bool) : Cuts f us false r := by
  cases h with
  | color => exact cuts_word (by decide) hr f
  | data n =>
      have hword : Cuts f [word "gl_FragData"] false
          (Byte.of '[' :: (Text.ofNat n ++ Byte.of ']' :: r)) :=
        cuts_word (by decide) rfl f
      have hopen : Cuts false [⟨.operator, [Byte.of '[']⟩] false
          (Text.ofNat n ++ Byte.of ']' :: r) := cuts_single rfl rfl
      have hnumber : Cuts false [⟨.integer, Text.ofNat n⟩] false (Byte.of ']' :: r) :=
        cuts_of_isCut (isCut_ofNat n) rfl (by simp [strayHash]) rfl false r
      have hclose : Cuts false [⟨.operator, [Byte.of ']']⟩] false r := cuts_single rfl rfl
      have hgroup := cuts_onto (by simpa [spell] using hopen) (cuts_onto hnumber hclose)
      have htext : (Text.ofString "[" : Text) = [Byte.of '['] ∧ Text.ofString "]" = [Byte.of ']'] :=
        ⟨rfl, rfl⟩
      rw [htext.1, htext.2]
      exact cuts_onto (by simpa [spell] using hword) hgroup

/-!
# Tokens that are copied
-/

section Kept

variable {names : Names} {p q : Option Token} {t : Token} {ts : List Token} {vs : List Piece}

/-- A word that is written for a word ends before what the pass leaves behind it. -/
theorem endsWord_behind {f : Bool} (h : Leaves names p ts vs q []) (hreads : Reads f (t :: ts))
    (hends : EndsOnce (t :: ts)) (htidy : isTidy (t :: ts) = true)
    (hkind : t.kind = .ident ∨ t.kind = .builtin) :
    Reads false ts ∧ (spell vs).head?.all endsWord = true := by
  have hword : t.isWord = true := by
    rcases hkind with h | h <;> simp [Token.isWord, h]
  have hrest : Reads false ts := hreads.tail
    (by rcases hkind with h | h <;> rw [h] <;> decide)
    (by rcases hkind with h | h <;> rw [h] <;> exact fun _ => rfl)
  have htail : EndsOnce ts := hends.tail
  refine ⟨hrest, ?_⟩
  rcases h.head? hrest htail htidy (Or.inl ⟨by rcases hkind with h | h <;> rw [h] <;> decide,
    isLoose_of_isWord hreads hword⟩) with hsame | ⟨hop, _⟩
  · rw [hsame]
    cases hc : (textOf ts).head? with
    | none => rfl
    | some c => exact (adjoins_head? hrest htail htidy hc).2 (Or.inl hword)
  · rcases hkind with h | h <;> rw [h] at hop <;> cases hop

theorem extent?_kept_plain {f : Bool} {b : UInt8} {v : Text} (h : Leaves names p ts vs q [])
    (hreads : Reads false ts) (hends : EndsOnce ts) (htidy : isTidy (t :: ts) = true)
    (htext : t.text = b :: v) (hextent : extent? f b (v ++ textOf ts) = some (t.kind, v.length))
    (hform : formOf t.kind = .plain) : extent? f b (v ++ spell vs) = some (t.kind, v.length) := by
  have hkinds : t.kind ∈ plainKinds := by
    have hmem := plainExtent_mem_plainKinds b (v ++ textOf ts)
    rwa [plainExtent_of_extent? hextent hform] at hmem
  have hnone : forall r : Text, r.head? = none ->
    extent? f b (v ++ r) = some (t.kind, v.length) := by
    intro r hr
    refine extent?_of_closes hextent ?_
    unfold Closes
    rw [hform]
    dsimp only
    rw [hr]
    exact Or.inr rfl
  cases hloose : isLoose t with
  | true =>
      have hsingle : exists c, t.text = [c] ∧ isSingle c = true := by
        have htrivia : t.isTrivia = false := by
          cases hk : t.kind <;> simp [hk, formOf] at hform <;> simp [Token.isTrivia, hk]
        unfold isLoose at hloose
        rw [htrivia, Bool.false_or] at hloose
        split at hloose
        · exact ⟨_, ‹_›, hloose⟩
        · cases hloose
      refine extent?_of_closes hextent ?_
      unfold Closes
      rw [hform]
      rw [htext] at hsingle
      exact Or.inl hsingle
  | false =>
      rcases h.head? hreads hends htidy (Or.inl ⟨hkinds, hloose⟩) with hsame | ⟨hop, hends⟩
      · cases hc : (textOf ts).head? with
        | none => exact hnone _ (hsame.trans hc)
        | some c =>
            rcases adjoins_head? hreads hends htidy hc with ⟨hsmall, hword⟩
            rw [hc] at hsame
            rcases List.head?_eq_some_iff.mp hc with ⟨y, hy⟩
            rcases List.head?_eq_some_iff.mp hsame with ⟨y', hy'⟩
            rw [hy] at hextent
            rw [hy']
            exact extent?_lookahead hextent hsmall (fun hn => hword (Or.inr hn.symm)) y'
      · cases hv : spell vs with
        | nil => exact hnone _ rfl
        | cons c y =>
            rw [hv] at hends
            rw [hop] at hextent ⊢
            exact extent?_operator hextent hends y

theorem extent?_kept {f : Bool} {b : UInt8} {v : Text} (h : Leaves names p ts vs q [])
    (hreads : Reads (staysFresh f t.kind t.text) ts) (hends : EndsOnce ts)
    (htidy : isTidy (t :: ts) = true) (htext : t.text = b :: v)
    (hextent : extent? f b (v ++ textOf ts) = some (t.kind, v.length))
    (hspace : t.kind ≠ .whitespace) :
    extent? f b (v ++ spell vs) = some (t.kind, v.length) := by
  cases hform : formOf t.kind with
  | space => exact absurd (eq_whitespace hform) hspace
  | blockComment =>
      have hkind : t.kind = .blockComment := by
        generalize t.kind = kind at hform
        cases kind <;> first | rfl | cases hform
      rw [hkind] at hextent ⊢
      exact extent?_blockComment hextent _
  | directive | lineComment =>
      have hsep : (textOf ts).head?.all isSeparator = true := by
        cases hc : (textOf ts).head? with
        | none => rfl
        | some c => exact isSeparator_after hextent (by simp [hform]) hc
      have hfresh : staysFresh f t.kind t.text = false := by
        generalize t.kind = kind at hform
        cases kind <;> first | rfl | cases hform
      rw [hfresh] at hreads
      rcases h.head? hreads hends htidy (Or.inr hsep) with hsame | ⟨hop, _⟩
      · exact extent?_of_head? hextent hsame (by simp [hform])
      · rw [hop] at hform
        cases hform
  | plain =>
      rw [staysFresh_of_plain hform] at hreads
      exact extent?_kept_plain h hreads hends htidy htext hextent hform

theorem relexes_kept {f f' : Bool} (h : Leaves names p ts vs q []) (hne : t.kind ≠ .eof)
    (hreads : Reads f (t :: ts)) (hends : EndsOnce (t :: ts)) (htidy : isTidy (t :: ts) = true)
    (hhash : t.piece ≠ strayHash) (hf : f = true -> f' = true)
    (ih : forall {g g' : Bool}, (g = true -> g' = true) -> Reads g ts -> Relexes g' vs) :
    Relexes f' ([t.piece] ++ vs) := by
  refine hreads.relexes_token hne hhash hf ?_ ih
  intro b v htext hextent hrest hspace
  exact extent?_kept h hrest hends.tail htidy htext hextent hspace

end Kept

/-!
# The whole run
-/

theorem Leaves.relexes {names : Names} {p q : Option Token} {ts : List Token} {vs : List Piece}
    (h : Leaves names p ts vs q []) {f f' : Bool} (hf : f = true -> f' = true)
    (hreads : Reads f ts) (hends : EndsOnce ts) (htidy : isTidy ts = true)
    (hhash : strayHash ∉ ts.map Token.piece) : Relexes f' vs := by
  generalize hrest : ([] : List Token) = rest at h
  induction h generalizing f f' with
  | nil => exact Relexes.nil f'
  | @cons p p' _ ts ts' _ us vs hleaf hleaves ih =>
      subst hrest
      -- behind a token that is taken out or replaced
      have hall : forall {x : List Token}, ts = x ++ ts' -> (ts' = [] ∨ Reads false ts') ->
          forall g, Relexes g vs := by
        rintro x rfl hbehind g
        rcases hbehind with rfl | hbehind
        · rw [hleaves.of_nil]
          exact Relexes.nil g
        · rw [List.map_append, List.mem_append, not_or] at hhash
          exact ih (by simp) hbehind hends.of_append (isTidy_of_append htidy) hhash.2 rfl
      have hcopied : forall {t : Token}, ts = t :: ts' -> t.kind ≠ .eof ->
          Relexes f' ([t.piece] ++ vs) := by
        rintro t rfl hne
        rw [List.map_cons, List.mem_cons, not_or] at hhash
        refine relexes_kept hleaves hne hreads hends htidy (Ne.symm hhash.1) hf ?_
        intro g g' hg hrest
        exact ih hg hrest hends.tail (isTidy_cons htidy).2.2 hhash.2 rfl
      cases hleaf with
      | finish =>
          rw [hleaves.of_nil]
          exact Relexes.nil f'
      | copy hne => exact hcopied rfl hne
      | bare hlayout => exact hcopied rfl (by rw [kind_of_isLayoutWord hlayout]; decide)
      | @layout t _ group _ hlayout hgroup =>
          have hsplit := append_of_layoutTokens? hgroup
          have hkind := kind_of_isLayoutWord hlayout
          have hbehind := (hreads.tail (by rw [hkind]; decide)
            (fun f => by rw [hkind]; rfl)).of_layoutTokens? hends.tail hgroup
          exact Relexes.blank (hall (x := t :: group) (by rw [hsplit]; rfl) hbehind) _
      | @interpolation t blanks _ hkind _ _ hblanks =>
          have hbehind : Reads false (blanks ++ ts') := hreads.tail
            (by rw [hkind]; decide) (fun f => by rw [hkind]; rfl)
          exact hall (x := t :: blanks) rfl (Or.inr (hbehind.of_blanks hblanks.blank)) f'
      | @pragma t _ hkind =>
          exact Relexes.blank (hall (x := [t]) rfl (Or.inr (hreads.tail
            (by rw [hkind]; decide) (fun f => by rw [hkind]; rfl)))) _
      | @sampling t _ s name lod hkind hs hname =>
          rcases endsWord_behind hleaves hreads hends htidy (Or.inr hkind) with ⟨hbehind, hword⟩
          have hspec := List.all_eq_true.mp samplingNames_spec name (mem_samplingNames hs hname)
          simp only [Bool.and_eq_true] at hspec
          exact Relexes.cuts (cuts_word hspec.1.2 hword f') (hall (x := [t]) rfl (Or.inr hbehind) _)
      | @output t _ _ _ hkind _ _ htarget =>
          rcases endsWord_behind hleaves hreads hends htidy (Or.inl hkind) with ⟨hbehind, hword⟩
          exact Relexes.cuts (htarget.cuts hword f') (hall (x := [t]) rfl (Or.inr hbehind) _)
      | @access i dot x _ hkind _ _ _ _ hdot =>
          have hsplit : i :: ((x ++ [dot]) ++ ts') = (i :: x) ++ dot :: ts' := by simp
          have hbehind : Reads false ts' := by
            rw [hsplit] at hreads hends
            exact hreads.behind_op hends hdot
          exact hall (x := i :: (x ++ [dot])) rfl (Or.inr hbehind) f'

end Legacy

end EffectShader
