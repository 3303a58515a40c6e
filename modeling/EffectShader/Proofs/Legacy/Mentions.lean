import EffectShader.Proofs.Legacy.Groups
import EffectShader.Proofs.Legacy.Relexing
import EffectShader.Proofs.Token.Positions

/-!
# Words among the pieces that are left

A word is mentioned where it is no member, that is, not behind a dot.  The mentions
among the pieces that a run leaves are those that the pass meets in its tokens: the
members that are read through an instance name, whose dot is taken out, and the words
that stand alone.
-/

namespace EffectShader

namespace Legacy

open Declaration Lexer Subpass

/-!
# Words that remain
-/

/-- The replacement text of a macro: what stands behind its name and its parameters. -/
def replacement : List Token -> List Token
  | _ :: t :: ts => if t.isOp "(" then (ts.dropWhile fun u => !u.isOp ")").drop 1 else t :: ts
  | _ => []

def behind (dotted : Bool) (w : Piece) : Bool :=
  if w.kind == .whitespace || w.kind == .lineComment || w.kind == .blockComment then dotted
  else w == ⟨.operator, "."⟩

def mentions (name : Text) : (dotted : Bool) -> List Piece -> Bool
  | _, [] => false
  | dotted, w :: ws => (w == word name && !dotted) || mentions name (behind dotted w) ws

def defines (name : Text) (w : Piece) : Bool :=
  w.kind == .directive && (Directive.parse? w.text).any fun d =>
    d.name == ("define" : Text) && (tokenize d.body).toOption.any fun ts =>
      mentions name false ((replacement ts).map Token.piece)

/-- What stands behind the name of a directive can be cut, so `defines` misses no macro. -/
theorem exists_tokenize_body {w : Text} {d : Directive} (h : Directive.parse? w = some d) :
    exists ts, tokenize d.body = .ok ts := by
  have hbare : Directive.hasComment d.body = false := by
    unfold Directive.parse? at h
    split at h
    · rename_i s _
      cases h
      have hpart : Text.trim ((Text.trim (Directive.withoutComments
          (Directive.joinContinuations s))).dropWhile Byte.isWord) <:+:
          Directive.withoutComments (Directive.joinContinuations s) :=
        (Text.trim_infix _).trans ((List.dropWhile_suffix _).isInfix.trans (Text.trim_infix _))
      rcases hpart with ⟨x, y, hsplit⟩
      have hwhole := Directive.hasComment_withoutComments (Directive.joinContinuations s)
      rw [← hsplit] at hwhole
      exact Directive.hasComment_of_suffix (List.suffix_append x _)
        (Directive.hasComment_of_isPrefix (List.prefix_append _ y) hwhole)
    · cases h
  cases htokens : tokenize d.body with
  | ok ts => exact ⟨ts, rfl⟩
  | error e =>
      rcases tokenize_error_iff.mp htokens with ⟨before, rest, _, _, _, hbody, _⟩
      rw [hbody] at hbare
      cases Directive.hasComment_of_suffix (List.suffix_append before _) hbare

/-- The word occurs other than behind a dot, or in the replacement text of a macro. -/
def remains (name : Text) (ws : List Piece) : Bool :=
  mentions name false ws || ws.any (defines name)

theorem beq_word_of_kind {w : Piece}
    (hw : w.kind ≠ .ident ∧ w.kind ≠ .keyword ∧ w.kind ≠ .builtin) (name : Text) :
    (w == word name) = false := by
  apply beq_false_of_ne
  rintro rfl
  rcases kind_word name with h | h | h
  · exact hw.1 h
  · exact hw.2.1 h
  · exact hw.2.2 h

theorem mentions_inked (name : Text) (dotted : Bool) (ws : List Piece) :
    mentions name dotted (inked ws) = mentions name dotted ws := by
  induction ws generalizing dotted with
  | nil => rfl
  | cons w ws ih =>
      by_cases hspace : w.kind = .whitespace
      · have hword : (w == word name) = false := beq_word_of_kind (by rw [hspace]; decide) name
        rw [inked_cons_of_whitespace hspace, mentions, hword, ih, behind, hspace]
        simp
      · rw [inked_cons hspace, mentions, mentions, ih]

theorem any_defines_inked (name : Text) (ws : List Piece) :
    (inked ws).any (defines name) = ws.any (defines name) := by
  induction ws with
  | nil => rfl
  | cons w ws ih =>
      by_cases hspace : w.kind = .whitespace
      · have hdefines : defines name w = false := by simp [defines, hspace]
        rw [inked_cons_of_whitespace hspace, List.any_cons, hdefines, ih, Bool.false_or]
      · rw [inked_cons hspace, List.any_cons, List.any_cons, ih]

theorem remains_congr {us ws : List Piece} (h : inked us = inked ws) (name : Text) :
    remains name us = remains name ws := by
  unfold remains
  rw [← mentions_inked, ← any_defines_inked, h, mentions_inked, any_defines_inked]

/-!
# Tokens that the pass meets
-/

/-- The pass over statements meets a token that passes a test; the test sees the last token with
syntax before it and the tokens behind it.  Layout qualifiers are not looked into. -/
def meets (test : Option Token -> Token -> List Token -> Bool) (previous : Option Token) :
    List Token -> Bool
  | [] => false
  | t :: ts =>
      if isLayoutWord t then
        match h : layoutTokens? ts with
        | none => meets test (some t) ts
        | some (layout, rest) =>
            have := length_of_layoutTokens? h
            meets test (significant (t :: layout)).getLast? rest
      else test previous t ts || meets test (passed previous [t]) ts
  termination_by ts => ts.length
  decreasing_by all_goals (simp only [List.length_cons]; omega)

section Meets

variable {test : Option Token -> Token -> List Token -> Bool} {p : Option Token} {t : Token}
  {ts : List Token}

@[simp] theorem meets_nil : meets test p [] = false := by
  rw [meets]

theorem meets_cons (ht : isLayoutWord t = false) :
    meets test p (t :: ts) = (test p t ts || meets test (passed p [t]) ts) := by
  rw [meets, if_neg (by simp [ht])]

theorem meets_cons_of_bare (ht : isLayoutWord t = true) (hts : layoutTokens? ts = none) :
    meets test p (t :: ts) = meets test (some t) ts := by
  rw [meets, if_pos ht]
  split
  · rfl
  · rename_i h
    rw [hts] at h
    cases h

theorem meets_cons_of_layout {layout rest : List Token} (ht : isLayoutWord t = true)
    (hts : layoutTokens? ts = some (layout, rest)) :
    meets test p (t :: ts) = meets test (significant (t :: layout)).getLast? rest := by
  rw [meets, if_pos ht]
  split
  · rename_i h
    rw [hts] at h
    cases h
  · rename_i h
    rw [hts] at h
    cases h
    rfl

theorem meets_inert (htest : forall {p t ts}, isInert t = true -> test p t ts = false)
    {xs : List Token} (hxs : forall x, x ∈ xs -> isInert x = true) :
    meets test p (xs ++ ts) = meets test (passed p xs) ts := by
  induction xs generalizing p with
  | nil => rfl
  | cons x xs ih =>
      rcases List.forall_mem_cons.mp hxs with ⟨hx, hrest⟩
      rw [List.cons_append, meets_cons (isLayoutWord_of_isInert hx), htest hx, Bool.false_or,
        ih hrest]
      rfl

theorem meets_or (test test' : Option Token -> Token -> List Token -> Bool) (p : Option Token)
    (ts : List Token) :
    meets (fun p t ts => test p t ts || test' p t ts) p ts =
      (meets test p ts || meets test' p ts) := by
  induction hn : ts.length using Nat.strong_induction_on generalizing p ts with
  | _ n ih =>
      subst hn
      cases ts with
      | nil => simp
      | cons t ts =>
          cases ht : isLayoutWord t with
          | true =>
              cases hgroup : layoutTokens? ts with
              | none =>
                  simp only [meets_cons_of_bare ht hgroup]
                  exact ih ts.length (by simp) _ _ rfl
              | some found =>
                  rcases found with ⟨group, rest⟩
                  have hle := length_of_layoutTokens? hgroup
                  simp only [meets_cons_of_layout ht hgroup]
                  exact ih rest.length (by simp only [List.length_cons]; omega) _ _ rfl
          | false =>
              simp only [meets_cons ht]
              rw [ih ts.length (by simp) _ _ rfl]
              ac_rfl

end Meets

def isDefinition (name : Text) (_ : Option Token) (t : Token) (_ : List Token) : Bool :=
  defines name t.piece

def readsMember (names : Names) (name : Text) (previous : Option Token) (t : Token)
    (ts : List Token) : Bool :=
  isAccess names previous t ts &&
    (Stream.peekSignificant (Stream.tailSignificant ts)).piece == word name

/-- The word stands for itself: it is neither a member, nor an output, nor does it select a
member of a block. -/
def standsAlone (names : Names) (name : Text) (previous : Option Token) (t : Token)
    (ts : List Token) : Bool :=
  t.piece == word name && !isDotted previous && (names.outputs.get? name).isNone &&
    !isAccess names previous t ts

/-!
# What a step leaves
-/

theorem isDotted_of_layoutTokens? {ts group rest : List Token}
    (h : layoutTokens? ts = some (group, rest)) (t : Token) :
    rest = [] ∨ isDotted (significant (t :: group)).getLast? = false := by
  refine (closed_of_layoutTokens? h).imp_right ?_
  rintro ⟨front, close, blanks, rfl, hclose, hblanks⟩
  have hnone : significant blanks = [] := by
    apply List.filter_eq_nil_iff.mpr
    intro u hu
    simp [Token.isTrivia, (hblanks u hu).1]
  have hlast : (significant (t :: (front ++ close :: blanks))).getLast? = some close := by
    rw [← List.cons_append]
    unfold significant at hnone ⊢
    have hclosed : (close :: blanks).filter (fun u => !u.isTrivia) = [close] := by
      rw [List.filter_cons_of_pos (by simp [isTrivia_of_isOp hclose]), hnone]
    rw [List.filter_append, hclosed, List.getLast?_concat]
  rw [hlast]
  exact isOp_eq_false (by decide) hclose

/-- The word that is looked for: the pass writes no such word, but for one function name. -/
structure IsSought (name : Text) : Prop where
  isIdent : classify name = .ident
  notWritten : name ≠ "texture2DProjLodEXT"

namespace IsSought

variable {name : Text} (h : IsSought name)

include h

theorem ne_word {s : Text} (hs : classify s = .ident -> s = "texture2DProjLodEXT") :
    (word s == word name) = false := by
  apply beq_false_of_ne
  intro heq
  have htext : s = name := congrArg Piece.text heq
  rw [htext] at hs
  exact h.notWritten (hs h.isIdent)

theorem ne_of_kind {w : Piece} (hw : w.kind ≠ .ident) : (w == word name) = false := by
  apply beq_false_of_ne
  rintro rfl
  exact hw h.isIdent

end IsSought

theorem behind_word (dotted : Bool) (s : Text) : behind dotted (word s) = false := by
  unfold behind
  rcases kind_word s with h | h | h
  all_goals
    rw [h]
    exact beq_false_of_ne (fun heq => by rw [heq] at h; cases h)

theorem mentions_padding (name : Text) (dotted : Bool) (w : Text) (vs : List Piece) :
    mentions name dotted (padding w ++ vs) = mentions name dotted vs := by
  rw [← mentions_inked, inked_append, inked_padding, List.nil_append, mentions_inked]

theorem mentions_target {name target : Text} {us : List Piece} (hname : IsSought name)
    (h : Target target us) (vs : List Piece) :
    mentions name false (us ++ vs) = mentions name false vs := by
  have hwritten : (classify "gl_FragColor" = .ident ->
    ("gl_FragColor" : Text) = "texture2DProjLodEXT") ∧
      (classify "gl_FragData" = .ident -> ("gl_FragData" : Text) = "texture2DProjLodEXT") := by
    decide +kernel
  cases h with
  | color =>
      rw [List.singleton_append, mentions, hname.ne_word hwritten.1, behind_word]
      rfl
  | data n =>
      rw [List.cons_append, mentions, hname.ne_word hwritten.2, behind_word]
      rw [List.cons_append, mentions, hname.ne_of_kind (by simp)]
      rw [List.cons_append, mentions, hname.ne_of_kind (by simp)]
      rw [List.cons_append, mentions, hname.ne_of_kind (by simp)]
      rfl

def mentionsMet (names : Names) (name : Text) (p : Option Token) (ts : List Token) : Bool :=
  meets (fun p t ts => readsMember names name p t ts || standsAlone names name p t ts) p ts

def isBared (name : Text) (dotted : Bool) (p : Option Token) (ts : List Token) : Bool :=
  isDotted p && !dotted && (Stream.peekSignificant ts).piece == word name

theorem test_of_kind {names : Names} {name : Text} (hname : IsSought name) {p : Option Token}
    {t : Token} {ts : List Token} (ht : t.kind ≠ .ident) :
    (readsMember names name p t ts || standsAlone names name p t ts) = false := by
  unfold readsMember standsAlone
  rw [isAccess_of_kind ht, hname.ne_of_kind (w := t.piece) ht]
  rfl

theorem test_of_output {names : Names} {name target : Text} {p : Option Token} {t : Token}
    {ts : List Token} (houtput : names.outputs.get? t.text = some target) :
    (readsMember names name p t ts || standsAlone names name p t ts) = false := by
  have haccess : isAccess names p t ts = false := by
    unfold isAccess
    rw [houtput]
    simp
  unfold readsMember standsAlone
  rw [haccess]
  cases hword : t.piece == word name with
  | false => rfl
  | true =>
      have htext : t.text = name := congrArg Piece.text (eq_of_beq hword)
      rw [← htext, houtput]
      simp

theorem test_of_access {names : Names} {name : Text} {p : Option Token} {i dot : Token}
    {x ts : List Token} (hkind : i.kind = .ident) (hp : isDotted p = false)
    (houtput : names.outputs.get? i.text = none)
    (hinstance : names.instances.contains i.text = true)
    (hx : forall t, t ∈ x -> t.isTrivia = true) (hdot : dot.isOp "." = true) :
    (readsMember names name p i ((x ++ [dot]) ++ ts) ||
      standsAlone names name p i ((x ++ [dot]) ++ ts)) =
        ((Stream.peekSignificant ts).piece == word name) := by
  have hpeek := Stream.peekSignificant_append ts hx (isTrivia_of_isOp hdot)
    (by rw [kind_of_isOp hdot]; decide)
  rw [List.append_cons] at hpeek
  have haccess : isAccess names p i ((x ++ [dot]) ++ ts) = true := by
    unfold isAccess
    rw [hkind, houtput, hinstance, hpeek.1, hdot, show (p.any fun q => q.isOp ".") = false from hp]
    rfl
  unfold readsMember standsAlone
  rw [haccess, hpeek.2]
  simp

theorem kind_ne_ident_of_isInert {t : Token} (h : isInert t = true) : t.kind ≠ .ident := by
  intro hident
  rw [isInert, Token.isTrivia, hident] at h
  cases h

theorem outputs_of_copied {names : Names} {p : Option Token} {t : Token} {ts : List Token}
    (h : tokenEdit? names p t ts = none) (hkind : t.kind = .ident) (hp : isDotted p = false) :
    names.outputs.get? t.text = none := by
  unfold tokenEdit? identifierEdit? at h
  rw [hkind] at h
  dsimp only at h
  rw [show (p.any fun q => q.isOp ".") = false from hp] at h
  cases houtput : names.outputs.get? t.text with
  | none => rfl
  | some target =>
      rw [houtput] at h
      cases h

theorem peekSignificant_cons_of_isTrivia {t : Token} (ht : t.isTrivia = true) (ts : List Token) :
    Stream.peekSignificant (t :: ts) = Stream.peekSignificant ts := by
  unfold Stream.peekSignificant Stream.skipTrivia
  rw [List.dropWhile_cons_of_pos ht]

theorem peekSignificant_cons {t : Token} (ht : t.isTrivia = false) (ts : List Token) :
    Stream.peekSignificant (t :: ts) = t := by
  unfold Stream.peekSignificant Stream.skipTrivia
  rw [List.dropWhile_cons_of_neg (by simp [ht])]
  rfl

theorem behind_piece_of_isTrivia {t : Token} (ht : t.isTrivia = true) (dotted : Bool) :
    behind dotted t.piece = dotted :=
  if_pos ht

theorem behind_piece {t : Token} (ht : t.isTrivia = false) (dotted : Bool) :
    behind dotted t.piece = t.isOp "." := by
  unfold behind
  rw [Token.kind_piece, show (t.kind == .whitespace || t.kind == .lineComment ||
    t.kind == .blockComment) = false from ht]
  cases hop : t.isOp "." with
  | true =>
      rw [piece_of_isOp hop]
      rfl
  | false =>
      apply beq_false_of_ne
      intro heq
      unfold Token.isOp at hop
      rw [show t.kind = .operator from congrArg Piece.kind heq,
        show t.text = "." from congrArg Piece.text heq] at hop
      cases hop

theorem mentions_copied {names : Names} {name : Text} (hname : IsSought name) {p : Option Token}
    {t : Token} {ts : List Token} {dotted : Bool} (hdotted : dotted = true -> isDotted p = true)
    (hsolid : t.isTrivia = false) (h : tokenEdit? names p t ts = none) :
    (t.piece == word name && !dotted) =
      ((readsMember names name p t ts || standsAlone names name p t ts) ||
        isBared name dotted p (t :: ts)) := by
  unfold readsMember standsAlone isBared
  rw [isAccess_of_copied h, peekSignificant_cons hsolid]
  cases hword : t.piece == word name with
  | false => simp
  | true =>
      have hpiece : t.piece = word name := eq_of_beq hword
      have hkind : t.kind = .ident := by rw [← Token.kind_piece, hpiece]; exact hname.isIdent
      have htext : t.text = name := congrArg Piece.text hpiece
      cases hp : isDotted p with
      | true => simp
      | false =>
          have hnone := outputs_of_copied h hkind hp
          rw [htext] at hnone
          rw [hnone]
          cases hd : dotted with
          | false => rfl
          | true => exact absurd (hdotted hd) (by simp [hp])

/-!
# What a run leaves
-/

theorem isNamed_of_isDotted {t : Token} {ts : List Token} (h : isTidy (t :: ts) = true)
    (ht : isDotted (some t) = true) : isNamed (Stream.peekSignificant ts) = true :=
  (Bool.and_eq_true_iff.mp ((isTidy_cons h).2.1 ht)).1

theorem isDotted_of_kind {t : Token} (h : t.kind ≠ .operator) : isDotted (some t) = false := by
  unfold isDotted Token.isOp
  rw [Option.any_some, beq_false_of_ne h]
  rfl

/-- The mentions among the pieces that are left are those that the pass meets in the tokens, and the
word behind a dot that has been taken out. -/
def Agrees (names : Names) (name : Text) (p : Option Token) (ts : List Token) (vs : List Piece) :
    Prop :=
  forall dotted, (dotted = true -> isDotted p = true) ->
    (isDotted p = true -> isNamed (Stream.peekSignificant ts) = true) ->
      mentions name dotted vs = (mentionsMet names name p ts || isBared name dotted p ts)

theorem isBared_of_undotted {name : Text} {dotted : Bool} {p : Option Token} {ts : List Token}
    (hp : isDotted p = false) : isBared name dotted p ts = false := by
  unfold isBared
  rw [hp]
  rfl

section Steps

variable {names : Names} {name : Text} {p p' : Option Token} {ts : List Token} {vs : List Piece}

theorem Agrees.undotted (h : Agrees names name p ts vs) (hp : isDotted p = false) :
    mentions name false vs = mentionsMet names name p ts := by
  rw [h false (fun hd => by cases hd) (fun hd => by rw [hp] at hd; cases hd),
    isBared_of_undotted hp, Bool.or_false]

theorem undotted_of_isNamed {t : Token} {dotted : Bool} (hsolid : t.isTrivia = false)
    (hnamed : isNamed t = false) (hdotted : dotted = true -> isDotted p = true)
    (hnext : isDotted p = true -> isNamed (Stream.peekSignificant (t :: ts)) = true) :
    isDotted p = false ∧ dotted = false := by
  rw [peekSignificant_cons hsolid, hnamed] at hnext
  have hp : isDotted p = false := Bool.eq_false_iff.mpr fun hp => Bool.false_ne_true (hnext hp)
  refine ⟨hp, Bool.eq_false_iff.mpr fun hd => ?_⟩
  rw [hdotted hd] at hp
  cases hp

theorem mentionsMet_cons {t : Token} (ht : isLayoutWord t = false) :
    mentionsMet names name p (t :: ts) =
      ((readsMember names name p t ts || standsAlone names name p t ts) ||
        mentionsMet names name (passed p [t]) ts) :=
  meets_cons ht

theorem mentionsMet_inert (hname : IsSought name) {xs : List Token}
    (hxs : forall x, x ∈ xs -> isInert x = true) :
    mentionsMet names name p (xs ++ ts) = mentionsMet names name (passed p xs) ts :=
  meets_inert (fun ht => test_of_kind hname (kind_ne_ident_of_isInert ht)) hxs

theorem Leaf.agrees (hname : IsSought name) {ts' : List Token} {us : List Piece}
    (h : Leaf names p ts us p' ts') (htidy : isTidy ts = true) (hend : ts' = [] -> vs = [])
    (hvs : Agrees names name p' ts' vs) : Agrees names name p ts (us ++ vs) := by
  intro dotted hdotted hnext
  cases h with
  | @finish t heof =>
      have hsolid : t.isTrivia = false := by simp [Token.isTrivia, heof]
      rw [hend rfl, mentionsMet_cons (isLayoutWord_of_kind (by rw [heof]; decide)),
        test_of_kind hname (by rw [heof]; decide)]
      unfold mentionsMet isBared
      rw [meets_nil, peekSignificant_cons hsolid,
        hname.ne_of_kind (w := t.piece) (by rw [Token.kind_piece, heof]; decide), Bool.and_false]
      rfl
  | @copy t _ hne hlayout hcopied =>
      rw [List.singleton_append, mentions, mentionsMet_cons hlayout]
      cases htrivia : t.isTrivia with
      | true =>
          have hkind := kind_ne_ident_of_isInert (isInert_of_isTrivia htrivia)
          have hp : passed p [t] = p := passed_trivia (List.forall_mem_singleton.mpr htrivia)
          rw [peekSignificant_cons_of_isTrivia htrivia] at hnext
          rw [hp] at hvs ⊢
          rw [behind_piece_of_isTrivia htrivia, hvs dotted hdotted hnext,
            hname.ne_of_kind (w := t.piece) hkind, test_of_kind hname hkind]
          unfold isBared
          rw [peekSignificant_cons_of_isTrivia htrivia]
          rfl
      | false =>
          rw [passed_solid htrivia] at hvs ⊢
          have hrest := hvs (t.isOp ".") id (isNamed_of_isDotted htidy)
          have hbared : isBared name (t.isOp ".") (some t) ts' = false := by
            unfold isBared
            rw [show isDotted (some t) = t.isOp "." from rfl]
            cases t.isOp "." <;> rfl
          rw [behind_piece htrivia, hrest, hbared, Bool.or_false,
            mentions_copied hname hdotted htrivia hcopied]
          ac_rfl
  | @bare t _ hlayout hgroup =>
      have hkind := kind_of_isLayoutWord hlayout
      have hsolid : t.isTrivia = false := by simp [Token.isTrivia, hkind]
      rcases undotted_of_isNamed hsolid (by simp [isNamed, hkind]) hdotted hnext with ⟨hp, rfl⟩
      have hdot : isDotted (some t) = false := isDotted_of_kind (by rw [hkind]; decide)
      have hmet : mentionsMet names name p (t :: ts') = mentionsMet names name (some t) ts' :=
        meets_cons_of_bare hlayout hgroup
      rw [List.singleton_append, mentions, behind_piece hsolid, hmet, isBared_of_undotted hp,
        hname.ne_of_kind (w := t.piece) (by rw [Token.kind_piece, hkind]; decide),
        show t.isOp "." = false from hdot, hvs.undotted hdot]
      simp
  | @layout t _ group _ hlayout hgroup =>
      have hkind := kind_of_isLayoutWord hlayout
      have hsolid : t.isTrivia = false := by simp [Token.isTrivia, hkind]
      rcases undotted_of_isNamed hsolid (by simp [isNamed, hkind]) hdotted hnext with ⟨hp, rfl⟩
      have hmet : mentionsMet names name p (t :: _) = mentionsMet names name _ ts' :=
        meets_cons_of_layout hlayout hgroup
      rw [mentions_padding, hmet, isBared_of_undotted hp, Bool.or_false]
      rcases isDotted_of_layoutTokens? hgroup t with rfl | hdot
      · rw [hend rfl]
        unfold mentionsMet
        rw [meets_nil]
        rfl
      · exact hvs.undotted hdot
  | @interpolation t blanks _ hkind hlayout _ hblanks =>
      have hsolid : t.isTrivia = false := by simp [Token.isTrivia, hkind]
      rcases undotted_of_isNamed hsolid (by simp [isNamed, hkind]) hdotted hnext with ⟨hp, rfl⟩
      have htrivia := hblanks.isTrivia
      rw [List.nil_append, mentionsMet_cons hlayout, test_of_kind hname (by rw [hkind]; decide),
        passed_solid hsolid, mentionsMet_inert hname fun u hu => isInert_of_isTrivia (htrivia u hu),
        passed_trivia htrivia, isBared_of_undotted hp,
        hvs.undotted (isDotted_of_kind (by rw [hkind]; decide))]
      simp
  | @pragma t _ hkind =>
      have hsolid : t.isTrivia = false := by simp [Token.isTrivia, hkind]
      rcases undotted_of_isNamed hsolid (by simp [isNamed, hkind]) hdotted hnext with ⟨hp, rfl⟩
      rw [mentions_padding, mentionsMet_cons (isLayoutWord_of_kind (by rw [hkind]; decide)),
        test_of_kind hname (by rw [hkind]; decide), passed_solid hsolid, isBared_of_undotted hp,
        hvs.undotted (isDotted_of_kind (by rw [hkind]; decide))]
      simp
  | @sampling t _ s written lod hkind hs hsampling =>
      have hsolid : t.isTrivia = false := by simp [Token.isTrivia, hkind]
      have hne : (word written == word name) = false := by
        have hspec := List.all_eq_true.mp samplingNames_spec written
          (mem_samplingNames hs hsampling)
        apply hname.ne_word
        intro hident
        simpa [hident] using (Bool.and_eq_true_iff.mp hspec).2
      have hbared : isBared name dotted p (t :: ts') = false := by
        unfold isBared
        rw [peekSignificant_cons hsolid,
          hname.ne_of_kind (w := t.piece) (by rw [Token.kind_piece, hkind]; decide), Bool.and_false]
      rw [List.singleton_append, mentions, hne, behind_word, hbared,
        mentionsMet_cons (isLayoutWord_of_kind (by rw [hkind]; decide)),
        test_of_kind hname (by rw [hkind]; decide), passed_solid hsolid,
        hvs.undotted (isDotted_of_kind (by rw [hkind]; decide))]
      simp
  | @output t _ target _ hkind hp houtput htarget =>
      have hsolid : t.isTrivia = false := by simp [Token.isTrivia, hkind]
      have hd : dotted = false := Bool.eq_false_iff.mpr fun hd => by
        rw [hdotted hd] at hp
        cases hp
      rw [hd, mentions_target hname htarget,
        mentionsMet_cons (isLayoutWord_of_kind (by rw [hkind]; decide)), test_of_output houtput,
        passed_solid hsolid, isBared_of_undotted hp,
        hvs.undotted (isDotted_of_kind (by rw [hkind]; decide))]
      simp
  | @access i dot x _ hkind hp houtput hinstance hx hdot =>
      have hsolid : i.isTrivia = false := by simp [Token.isTrivia, hkind]
      have hd : dotted = false := Bool.eq_false_iff.mpr fun hd => by
        rw [hdotted hd] at hp
        cases hp
      have hbehind : isTidy (dot :: ts') = true := by
        have hsplit : i :: ((x ++ [dot]) ++ ts') = (i :: x) ++ dot :: ts' := by simp
        rw [hsplit] at htidy
        exact isTidy_of_append htidy
      rw [hd, List.nil_append, mentionsMet_cons (isLayoutWord_of_kind (by rw [hkind]; decide)),
        test_of_access hkind hp houtput hinstance hx hdot, passed_solid hsolid,
        mentionsMet_inert hname (isInert_dotted hx hdot), passed_dotted hdot,
        isBared_of_undotted hp,
        hvs false (fun hd => by cases hd) (isNamed_of_isDotted hbehind), Bool.or_false,
        Bool.or_comm]
      unfold isBared
      rw [show isDotted (some dot) = true from hdot]
      simp

end Steps

theorem Leaves.agrees {names : Names} {name : Text} (hname : IsSought name)
    {p q : Option Token} {ts : List Token} {vs : List Piece} (h : Leaves names p ts vs q [])
    {o : Nat} (hplaced : Placed o ts) (hspaces : SpacesBlank ts)
    (htidy : isTidy ts = true) : Agrees names name p ts vs := by
  generalize hrest : ([] : List Token) = rest at h
  induction h generalizing o with
  | nil p ts =>
      subst hrest
      intro dotted _ _
      unfold mentionsMet isBared
      rw [meets_nil, hname.ne_of_kind (w := (Stream.peekSignificant []).piece) (by decide)]
      simp [mentions]
  | cons hleaf hleaves ih =>
      subst hrest
      rcases (hleaf.step hplaced).inversion hplaced hspaces with ⟨used, _, rfl, _⟩
      refine hleaf.agrees hname htidy ?_ (ih (placed_append.mp hplaced).2 hspaces.of_append
        (isTidy_of_append htidy) rfl)
      rintro rfl
      exact hleaves.of_nil

end Legacy

end EffectShader
