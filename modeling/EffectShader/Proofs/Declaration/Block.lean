import EffectShader.Proofs.Declaration.Declarators

/-!
# Blocks

The members of a block, its instance name and the semicolon after it are read
from the tokens up to that semicolon alone.  A copy of these tokens at another
place is read in the same way, whatever follows it.
-/

namespace EffectShader

namespace Stream

/-!
# The next token
-/

theorem isTrivia_congr {t u : Token} (h : t.piece = u.piece) : t.isTrivia = u.isTrivia := by
  unfold Token.isTrivia
  rw [show t.kind = u.kind from congrArg Lexer.Piece.kind h]

theorem skipTrivia_append {trivia : List Token} {t : Token} (rest : List Token)
    (htrivia : forall u, u ∈ trivia -> u.isTrivia = true) (ht : t.isTrivia = false) :
    skipTrivia (trivia ++ t :: rest) = t :: rest := by
  unfold skipTrivia
  rw [List.dropWhile_append_of_pos htrivia, List.dropWhile_cons_of_neg (by simp [ht])]

theorem exists_of_peekSignificant {ts : List Token} (h : (peekSignificant ts).kind ≠ .eof) :
    exists trivia, ts = trivia ++ peekSignificant ts :: tailSignificant ts ∧
      (peekSignificant ts).isTrivia = false ∧ forall u, u ∈ trivia -> u.isTrivia = true := by
  have hsplit : ts.takeWhile Token.isTrivia ++ skipTrivia ts = ts :=
    List.takeWhile_append_dropWhile
  unfold tailSignificant
  unfold peekSignificant at h ⊢
  cases hskip : skipTrivia ts with
  | nil =>
      rw [hskip] at h
      exact absurd rfl h
  | cons t rest =>
      rw [hskip] at h hsplit
      have hkind : (t.kind == .eof) = false := beq_false_of_ne h
      refine ⟨ts.takeWhile Token.isTrivia, ?_, ?_, List.all_eq_true.mp List.all_takeWhile⟩
      · simp only [peek, tail, hkind, Bool.false_eq_true, if_false]
        exact hsplit.symm
      · have hhead := List.head?_dropWhile_not Token.isTrivia ts
        unfold skipTrivia at hskip
        rw [hskip] at hhead
        simpa [peek] using hhead

theorem peekSignificant_append {trivia : List Token} {t : Token} (rest : List Token)
    (htrivia : forall u, u ∈ trivia -> u.isTrivia = true) (ht : t.isTrivia = false)
    (hkind : t.kind ≠ .eof) :
    peekSignificant (trivia ++ t :: rest) = t ∧ tailSignificant (trivia ++ t :: rest) = rest := by
  unfold peekSignificant tailSignificant
  rw [skipTrivia_append rest htrivia ht]
  simp [peek, tail, hkind]

/-!
# Groups
-/

/-- The token that closes a group is found whatever follows it. -/
theorem exists_of_closeGroup {opening closing : Text} {depth : Nat} {ts rest : List Token}
    {t : Token} (h : closeGroup opening closing depth ts = (t, rest)) (ht : t.kind ≠ .eof) :
    exists used, ts = used ++ t :: rest ∧
      forall used' t' rest', used'.map Token.piece = used.map Token.piece -> t'.piece = t.piece ->
        closeGroup opening closing depth (used' ++ t' :: rest') = (t', rest') := by
  induction ts generalizing depth with
  | nil =>
      cases h
      exact absurd rfl ht
  | cons u ts ih =>
      rw [closeGroup] at h
      cases heof : u.kind == .eof with
      | true =>
          rw [if_pos heof] at h
          cases h
          exact absurd (eq_of_beq heof) ht
      | false =>
          rw [if_neg (by simp [heof])] at h
          -- in all cases but one the group goes on behind the token
          have hgo : forall depth', closeGroup opening closing depth' ts = (t, rest) ->
              (forall u' rest', u'.piece = u.piece ->
                closeGroup opening closing depth (u' :: rest') =
                  closeGroup opening closing depth' rest') ->
              exists used, u :: ts = used ++ t :: rest ∧
                forall used' t' rest', used'.map Token.piece = used.map Token.piece ->
                  t'.piece = t.piece ->
                  closeGroup opening closing depth (used' ++ t' :: rest') = (t', rest') := by
            intro depth' hrest hstep
            rcases ih hrest with ⟨used, rfl, hfree⟩
            refine ⟨u :: used, rfl, ?_⟩
            intro used' t' rest' hused ht'
            rcases List.map_eq_cons_iff.mp hused with ⟨u', used', rfl, hu, hused⟩
            rw [List.cons_append, hstep u' _ hu]
            exact hfree used' t' rest' hused ht'
          have heof' : forall u' : Token, u'.piece = u.piece -> (u'.kind == .eof) = false := by
            intro u' hu
            rw [show u'.kind = u.kind from congrArg Lexer.Piece.kind hu]
            exact heof
          cases hopen : u.isOp opening with
          | true =>
              rw [if_pos hopen] at h
              refine hgo _ h ?_
              intro u' rest' hu
              rw [closeGroup, heof' u' hu, Declaration.isOp_congr hu, hopen]
              rfl
          | false =>
              rw [if_neg (by simp [hopen])] at h
              cases hclose : u.isOp closing with
              | false =>
                  rw [if_neg (by simp [hclose])] at h
                  refine hgo _ h ?_
                  intro u' rest' hu
                  rw [closeGroup, heof' u' hu, Declaration.isOp_congr hu, Declaration.isOp_congr hu,
                    hopen, hclose]
                  rfl
              | true =>
                  rw [if_pos hclose] at h
                  split at h
                  · rename_i hdepth
                    cases h
                    refine ⟨[], rfl, ?_⟩
                    intro used' t' rest' hused ht'
                    rw [List.map_eq_nil_iff.mp hused, List.nil_append, closeGroup, heof' t' ht',
                      Declaration.isOp_congr ht', Declaration.isOp_congr ht', hopen, hclose]
                    simp [hdepth]
                  · rename_i hdepth
                    refine hgo _ h ?_
                    intro u' rest' hu
                    rw [closeGroup, heof' u' hu, Declaration.isOp_congr hu,
                      Declaration.isOp_congr hu, hopen, hclose]
                    simp [hdepth]

theorem closeGroup_alike {opening closing : Text} {ts us : List Token} (depth : Nat)
    (h : us.map Token.piece = ts.map Token.piece) :
    (closeGroup opening closing depth us).2.map Token.piece =
      (closeGroup opening closing depth ts).2.map Token.piece := by
  induction ts generalizing us depth with
  | nil => rw [List.map_eq_nil_iff.mp h]
  | cons t ts ih =>
      rcases List.map_eq_cons_iff.mp h with ⟨u, us, rfl, hu, h'⟩
      rw [closeGroup, closeGroup, show u.kind = t.kind from congrArg Lexer.Piece.kind hu,
        Declaration.isOp_congr hu, Declaration.isOp_congr hu]
      split
      · exact h
      · split
        · exact ih _ h'
        · split
          · split
            · exact h'
            · exact ih _ h'
          · exact ih _ h'

theorem atEnd_alike {ts us : List Token} (h : us.map Token.piece = ts.map Token.piece) :
    atEnd us = atEnd ts := by
  cases ts with
  | nil => rw [List.map_eq_nil_iff.mp h]
  | cons t ts =>
      rcases List.map_eq_cons_iff.mp h with ⟨u, us, rfl, hu, _⟩
      show (u.kind == .eof) = (t.kind == .eof)
      rw [show u.kind = t.kind from congrArg Lexer.Piece.kind hu]

theorem atEnd_of_closeGroup {opening closing : Text} {depth : Nat} {ts : List Token}
    (h : (closeGroup opening closing depth ts).1.kind = .eof) :
    atEnd (closeGroup opening closing depth ts).2 = true := by
  induction ts generalizing depth with
  | nil => rfl
  | cons t ts ih =>
      rw [closeGroup] at h ⊢
      cases heof : t.kind == .eof with
      | true => exact heof
      | false =>
          simp only [heof, Bool.false_eq_true, if_false] at h ⊢
          split
          · rename_i hopen
            rw [if_pos hopen] at h
            exact ih h
          · rename_i hopen
            rw [if_neg hopen] at h
            split
            · rename_i hclose
              rw [if_pos hclose] at h
              split
              · rename_i hdepth
                rw [if_pos hdepth] at h
                rw [show t.kind = .eof from h] at heof
                cases heof
              · rename_i hdepth
                rw [if_neg hdepth] at h
                exact ih h
            · rename_i hclose
              rw [if_neg hclose] at h
              exact ih h

end Stream

namespace Declaration

/-!
# Members
-/

theorem memberQualifiers_alike {precision precision' : Text} {ts us rest : List Token}
    (h : memberQualifiers precision ts = .ok (precision', rest))
    (hus : us.map Token.piece = ts.map Token.piece) :
    exists rest', memberQualifiers precision us = .ok (precision', rest') ∧
      rest'.map Token.piece = rest.map Token.piece := by
  induction hn : ts.length using Nat.strong_induction_on generalizing precision ts us with
  | _ n ih =>
      subst hn
      cases ts with
      | nil =>
          rw [memberQualifiers] at h
          cases h
          rw [List.map_eq_nil_iff.mp hus, memberQualifiers]
          exact ⟨[], rfl, rfl⟩
      | cons t ts =>
          have hall := hus
          rcases List.map_eq_cons_iff.mp hus with ⟨u, us, rfl, hu, hus⟩
          rw [memberQualifiers] at h ⊢
          rw [show u.text = t.text from congrArg Lexer.Piece.text hu, isLayoutWord_congr hu]
          split
          · rename_i hprecision
            rw [if_pos hprecision] at h
            exact ih ts.length (by simp) h hus rfl
          · rename_i hprecision
            rw [if_neg hprecision] at h
            split
            · rename_i hother
              rw [if_pos hother] at h
              exact ih ts.length (by simp) h hus rfl
            · rename_i hother
              rw [if_neg hother] at h
              split
              · rename_i hword
                rw [if_pos hword] at h
                split at h
                · cases h
                · rename_i l after hlen hparse
                  rcases exists_of_parseLayout hword hparse with ⟨span, hspan, hspells⟩
                  rw [hspan, List.map_append] at hall
                  rcases List.map_eq_append_iff.mp hall with ⟨span', after', hus', hspan', hafter⟩
                  rcases hspells.alike hspan' with ⟨l', _, hspells'⟩
                  rcases hspells'.parseLayout_eq after' with ⟨word, us', hword', _, hlen', hparse'⟩
                  rw [← hus'] at hword'
                  rcases List.cons.inj hword' with ⟨rfl, rfl⟩
                  rw [hparse']
                  exact ih after.length (by simp only [List.length_cons]; omega) h hafter rfl
              · rename_i hword
                rw [if_neg hword] at h
                cases h
                exact ⟨u :: us, rfl, hall⟩

theorem parseMember_alike {block : Text} {ts us : List Token} {m : BlockMember}
    (h : parseMember block ts = .ok m) (hus : us.map Token.piece = ts.map Token.piece) :
    exists m', parseMember block us = .ok m' ∧ m'.unplaced = m.unplaced := by
  cases ts with
  | nil =>
      rw [List.map_eq_nil_iff.mp hus]
      cases h
      exact ⟨_, rfl, rfl⟩
  | cons first ts =>
      have hall := hus
      rcases List.map_eq_cons_iff.mp hus with ⟨first', us, rfl, _, _⟩
      unfold parseMember at h ⊢
      dsimp only at h ⊢
      cases hquals : memberQualifiers [] (first :: ts) with
      | error e =>
          rw [hquals] at h
          cases h
      | ok read =>
          rcases read with ⟨precision, rest⟩
          rcases memberQualifiers_alike hquals hall with ⟨rest', hquals', hrest⟩
          rw [hquals] at h
          rw [hquals']
          cases rest with
          | nil => cases h
          | cons type names =>
              rcases List.map_eq_cons_iff.mp hrest with ⟨type', names', rfl, htype, hnames⟩
              dsimp only at h ⊢
              rw [isWord_congr htype,
                show type'.kind = type.kind from congrArg Lexer.Piece.kind htype,
                show type'.text = type.text from congrArg Lexer.Piece.text htype]
              split
              · rename_i hword
                rw [if_pos hword] at h
                cases h
              · rename_i hword
                rw [if_neg hword] at h
                split
                · rename_i hstruct
                  rw [if_pos hstruct] at h
                  cases h
                · rename_i hstruct
                  rw [if_neg hstruct] at h
                  have hvars := declarators?_alike hnames
                  cases hdeclared : declarators? names with
                  | none =>
                      rw [hdeclared] at h
                      cases h
                  | some vars =>
                      rw [hdeclared] at h hvars
                      cases h
                      rcases Option.map_eq_some_iff.mp hvars with ⟨vars', hvars', hunplaced⟩
                      rw [hvars']
                      exact ⟨_, rfl, by simp [BlockMember.unplaced, hunplaced]⟩

/-- The tokens hold members of a block and its closing brace, wherever they stand and whatever
follows; `member` holds the tokens of the first member that have been read. -/
def SpellsMembers (block : Text) (member ts : List Token) (ms : List BlockMember) : Prop :=
  forall line member' ts' rest, member'.map Token.piece = member.map Token.piece ->
    ts'.map Token.piece = ts.map Token.piece ->
    exists ms' closing, parseMembers block line member' (ts' ++ rest) = .ok (ms', closing, rest) ∧
      ms'.map BlockMember.unplaced = ms.map BlockMember.unplaced

theorem SpellsMembers.cons {block : Text} {member ts : List Token} {t : Token}
    {ms : List BlockMember}
    (h : forall line member' t' ts' rest, t'.piece = t.piece ->
      member'.map Token.piece = member.map Token.piece ->
      ts'.map Token.piece = ts.map Token.piece ->
      exists ms' closing, parseMembers block line member' (t' :: (ts' ++ rest)) =
        .ok (ms', closing, rest) ∧ ms'.map BlockMember.unplaced = ms.map BlockMember.unplaced) :
    SpellsMembers block member (t :: ts) ms := by
  intro line member' ts' rest hmember hts
  rcases List.map_eq_cons_iff.mp hts with ⟨t', ts', rfl, ht, hts⟩
  exact h line member' t' ts' rest ht hmember hts

theorem parseMembers_copy {t t' : Token} (ht : t'.piece = t.piece) (htrivia : t.isTrivia = false)
    (heof : ¬ (t.kind == .eof) = true) (hdirective : ¬ t.isDirective = true)
    (hopen : ¬ t.isOp Op.openBrace = true) (block : Text) (line : Nat)
    (member rest : List Token) :
    parseMembers block line member (t' :: rest) =
      if t.isOp ";" then
        match parseMember block member with
        | .error e => .error e
        | .ok m =>
            match parseMembers block line [] rest with
            | .error e => .error e
            | .ok (ms, closing, rest) => .ok (m :: ms, closing, rest)
      else if t.isOp Op.closeBrace then
        if member.isEmpty then .ok ([], t', rest)
        else
          .error (Diagnostic.error t'.line
            ("missing ';' after member of block '" ++ block ++ "'"))
      else parseMembers block line (member ++ [t']) rest := by
  have hkind : t'.kind = t.kind := congrArg Lexer.Piece.kind ht
  have hdirective' : ¬ t'.isDirective = true := by
    unfold Token.isDirective at hdirective ⊢
    rw [hkind]
    exact hdirective
  have hmembers := parseMembers.eq_2 block line member t' rest
  rw [Stream.isTrivia_congr ht, if_neg (by simp [htrivia]), hkind, if_neg heof,
    if_neg hdirective', isOp_congr ht, if_neg hopen, isOp_congr ht, isOp_congr ht] at hmembers
  exact hmembers

theorem exists_of_parseMembers {block : Text} {line : Nat} {member ts rest : List Token}
    {ms : List BlockMember} {closing : Token}
    (h : parseMembers block line member ts = .ok (ms, closing, rest)) :
    exists used, ts = used ++ rest ∧ SpellsMembers block member used ms := by
  induction ts generalizing member ms with
  | nil => cases h
  | cons t ts ih =>
      rw [parseMembers] at h
      cases htrivia : t.isTrivia with
      | true =>
          rw [if_pos htrivia] at h
          rcases ih h with ⟨used, rfl, hspells⟩
          refine ⟨t :: used, rfl, SpellsMembers.cons ?_⟩
          intro line' member' t' used' rest' ht hmember hused
          rw [parseMembers, Stream.isTrivia_congr ht, if_pos htrivia]
          exact hspells line' member' used' rest' hmember hused
      | false =>
          rw [if_neg (by simp [htrivia])] at h
          split at h
          · cases h
          · rename_i heof
            split at h
            · cases h
            · rename_i hdirective
              split at h
              · cases h
              · rename_i hopen
                -- a copy of the token takes the same way through the first tests
                have hcopy := fun (t' : Token) (line' : Nat) (member' rest' : List Token)
                    (ht : t'.piece = t.piece) =>
                  parseMembers_copy ht htrivia heof hdirective hopen block line' member' rest'
                split at h
                · rename_i hsemi
                  cases hm : parseMember block member with
                  | error e =>
                      rw [hm] at h
                      cases h
                  | ok m =>
                      rw [hm] at h
                      dsimp only at h
                      split at h
                      · cases h
                      · rename_i ms' closing' rest' hrest
                        cases h
                        rcases ih hrest with ⟨used, rfl, hspells⟩
                        refine ⟨t :: used, rfl, SpellsMembers.cons ?_⟩
                        intro line' member' t' used' rest' ht hmember hused
                        rcases parseMember_alike hm hmember with ⟨m', hm', hunplaced⟩
                        rcases hspells line' [] used' rest' rfl hused with
                          ⟨ms'', closing'', hread, hms⟩
                        refine ⟨m' :: ms'', closing'', ?_, by simp [hunplaced, hms]⟩
                        rw [hcopy t' _ _ _ ht, if_pos hsemi, hm']
                        dsimp only
                        rw [hread]
                · rename_i hsemi
                  split at h
                  · rename_i hclose
                    split at h
                    · rename_i hempty
                      cases h
                      refine ⟨[closing], rfl, SpellsMembers.cons ?_⟩
                      intro line' member' t' used' rest' ht hmember hused
                      have hmember' : member' = [] := by
                        rw [List.isEmpty_iff.mp hempty] at hmember
                        exact List.map_eq_nil_iff.mp hmember
                      refine ⟨[], t', ?_, rfl⟩
                      rw [List.map_eq_nil_iff.mp hused, hcopy t' _ _ _ ht, if_neg hsemi,
                        if_pos hclose, hmember']
                      rfl
                    · cases h
                  · rename_i hclose
                    rcases ih h with ⟨used, rfl, hspells⟩
                    refine ⟨t :: used, rfl, SpellsMembers.cons ?_⟩
                    intro line' member' t' used' rest' ht hmember hused
                    rw [hcopy t' _ _ _ ht, if_neg hsemi, if_neg hclose]
                    exact hspells line' (member' ++ [t']) used' rest' (by simp [hmember, ht]) hused

/-!
# Instances
-/

theorem kind_of_isOp {t : Token} {op : Text} (h : t.isOp op = true) : t.kind = .operator := by
  unfold Token.isOp at h
  exact eq_of_beq (Bool.and_eq_true_iff.mp h).1

theorem isTrivia_of_isOp {t : Token} {op : Text} (h : t.isOp op = true) : t.isTrivia = false := by
  unfold Token.isTrivia
  rw [kind_of_isOp h]
  rfl

theorem isTrivia_of_alike {ts us : List Token} (h : us.map Token.piece = ts.map Token.piece)
    (hts : forall t, t ∈ ts -> t.isTrivia = true) : forall u, u ∈ us -> u.isTrivia = true := by
  intro u hu
  have hmem : u.piece ∈ ts.map Token.piece := h ▸ List.mem_map_of_mem hu
  rcases List.mem_map.mp hmem with ⟨t, ht, hpiece⟩
  rw [← Stream.isTrivia_congr hpiece]
  exact hts t ht

theorem exists_of_semicolon {ts : List Token}
    (h : (Stream.peekSignificant ts).isOp ";" = true) :
    exists trivia, ts = trivia ++ Stream.peekSignificant ts :: Stream.tailSignificant ts ∧
      forall trivia' semi rest, trivia'.map Token.piece = trivia.map Token.piece ->
        semi.isOp ";" = true ->
        Stream.peekSignificant (trivia' ++ semi :: rest) = semi ∧
          Stream.tailSignificant (trivia' ++ semi :: rest) = rest := by
  have hkind : (Stream.peekSignificant ts).kind ≠ .eof := by
    rw [kind_of_isOp h]
    decide
  rcases Stream.exists_of_peekSignificant hkind with ⟨trivia, hts, _, htrivia⟩
  refine ⟨trivia, hts, ?_⟩
  intro trivia' semi rest htrivia' hsemi
  apply Stream.peekSignificant_append rest (isTrivia_of_alike htrivia' htrivia)
    (isTrivia_of_isOp hsemi)
  rw [kind_of_isOp hsemi]
  decide

theorem not_semicolon_of_atEnd {ts : List Token} (h : Stream.atEnd ts = true) :
    ¬ (Stream.peekSignificant ts).isOp ";" = true := by
  intro hsemi
  have hkind := kind_of_isOp hsemi
  unfold Stream.peekSignificant Stream.skipTrivia at hkind
  cases ts with
  | nil => cases hkind
  | cons t ts =>
      have heof : t.kind = .eof := eq_of_beq h
      have htrivia : t.isTrivia = false := by
        unfold Token.isTrivia
        rw [heof]
        rfl
      rw [List.dropWhile_cons_of_neg (by simp [htrivia])] at hkind
      rw [show t.kind = .operator from hkind] at heof
      cases heof

theorem parseInstance_ident {trivia : List Token} {next : Token} {name : Text}
    (htrivia : forall t, t ∈ trivia -> t.isTrivia = true) (hkind : next.kind = .ident)
    (hname : next.text = name) (rest : List Token) :
    parseInstance (trivia ++ next :: rest) =
      match Stream.acceptOp? "[" rest with
      | some inside => (name, (Stream.skipBalanced "[" "]" inside).2)
      | none => (name, rest) := by
  have hsolid : next.isTrivia = false := by
    unfold Token.isTrivia
    rw [hkind]
    rfl
  rcases Stream.peekSignificant_append rest htrivia hsolid (by rw [hkind]; decide) with
    ⟨hpeek, htail⟩
  unfold parseInstance
  dsimp only
  rw [hpeek, htail, hkind, hname]
  exact if_pos (by decide)

theorem exists_of_brackets {ts after : List Token}
    (hopen : (Stream.peekSignificant ts).isOp "[" = true)
    (hafter : (Stream.skipBalanced "[" "]" (Stream.tailSignificant ts)).2 = after)
    (hsemi : (Stream.peekSignificant after).isOp ";" = true) :
    exists used, ts = used ++ Stream.peekSignificant after :: Stream.tailSignificant after ∧
      forall used' semi rest, used'.map Token.piece = used.map Token.piece ->
        semi.isOp ";" = true ->
        exists inside after', Stream.acceptOp? "[" (used' ++ semi :: rest) = some inside ∧
          (Stream.skipBalanced "[" "]" inside).2 = after' ∧
          Stream.peekSignificant after' = semi ∧ Stream.tailSignificant after' = rest := by
  rcases hgroup : Stream.skipBalanced "[" "]" (Stream.tailSignificant ts) with ⟨close, after'⟩
  rw [hgroup] at hafter
  have hsame : after' = after := hafter
  subst hsame
  have hgroup' : Stream.closeGroup "[" "]" 1 (Stream.tailSignificant ts) = (close, after') := hgroup
  have hclose : close.kind ≠ .eof := by
    intro heof
    have hend := Stream.atEnd_of_closeGroup (by rw [hgroup']; exact heof)
    rw [hgroup'] at hend
    exact not_semicolon_of_atEnd hend hsemi
  rcases Stream.exists_of_peekSignificant (by rw [kind_of_isOp hopen]; decide) with
    ⟨trivia, hts, _, htrivia⟩
  rcases Stream.exists_of_closeGroup hgroup' hclose with ⟨inner, hinner, hcloses⟩
  rcases exists_of_semicolon hsemi with ⟨blanks, hblanks, hfree⟩
  generalize Stream.peekSignificant ts = bracket at *
  refine ⟨trivia ++ bracket :: (inner ++ close :: blanks), ?_, ?_⟩
  · simp only [List.append_assoc, List.cons_append]
    rw [← hblanks, ← hinner]
    exact hts
  · intro used' semi rest hused hsemi'
    simp only [List.map_append, List.map_cons] at hused
    rcases List.map_eq_append_iff.mp hused with ⟨trivia', used', rfl, htrivia', hused⟩
    rcases List.map_eq_cons_iff.mp hused with ⟨bracket', used', rfl, hbracket', hused⟩
    rcases List.map_eq_append_iff.mp hused with ⟨inner', used', rfl, hinner', hused⟩
    rcases List.map_eq_cons_iff.mp hused with ⟨close', blanks', rfl, hclose', hblanks'⟩
    have hop : bracket'.isOp "[" = true := (isOp_congr hbracket' "[").trans hopen
    have hnext := Stream.peekSignificant_append (inner' ++ close' :: (blanks' ++ semi :: rest))
      (isTrivia_of_alike htrivia' htrivia) (isTrivia_of_isOp hop)
      (by rw [kind_of_isOp hop]; decide)
    have hskip : Stream.skipBalanced "[" "]" (inner' ++ close' :: (blanks' ++ semi :: rest)) =
        (close', blanks' ++ semi :: rest) := hcloses inner' close' _ hinner' hclose'
    rcases hfree blanks' semi rest hblanks' hsemi' with ⟨hpeek, htail⟩
    refine ⟨inner' ++ close' :: (blanks' ++ semi :: rest), blanks' ++ semi :: rest, ?_,
      congrArg Prod.snd hskip, hpeek, htail⟩
    unfold Stream.acceptOp?
    simp only [List.append_assoc, List.cons_append]
    rw [hnext.1, hnext.2, if_pos hop]

theorem exists_of_parseInstance {ts after : List Token} {name : Text}
    (h : parseInstance ts = (name, after))
    (hsemi : (Stream.peekSignificant after).isOp ";" = true) :
    exists used, ts = used ++ Stream.peekSignificant after :: Stream.tailSignificant after ∧
      forall used' semi rest, used'.map Token.piece = used.map Token.piece ->
        semi.isOp ";" = true ->
        exists after', parseInstance (used' ++ semi :: rest) = (name, after') ∧
          Stream.peekSignificant after' = semi ∧ Stream.tailSignificant after' = rest := by
  unfold parseInstance at h
  dsimp only at h
  cases hident : (Stream.peekSignificant ts).kind == .ident with
  | false =>
      rw [if_neg (by simp [hident])] at h
      cases h
      rcases exists_of_semicolon hsemi with ⟨trivia, hts, hfree⟩
      refine ⟨trivia, hts, ?_⟩
      intro used' semi rest hused hsemi'
      rcases hfree used' semi rest hused hsemi' with ⟨hpeek, htail⟩
      refine ⟨used' ++ semi :: rest, ?_, hpeek, htail⟩
      unfold parseInstance
      dsimp only
      rw [hpeek, kind_of_isOp hsemi']
      rfl
  | true =>
      rw [if_pos hident] at h
      have hkind : (Stream.peekSignificant ts).kind = .ident := eq_of_beq hident
      rcases Stream.exists_of_peekSignificant (by rw [hkind]; decide) with ⟨trivia, hts, _, htrivia⟩
      -- what a copy of the name in front of other tokens is read as
      have hcopy := fun (trivia' : List Token) (next : Token) (rest : List Token)
          (htrivia' : trivia'.map Token.piece = trivia.map Token.piece)
          (hnext : next.piece = (Stream.peekSignificant ts).piece) =>
        parseInstance_ident (isTrivia_of_alike htrivia' htrivia)
          ((congrArg Lexer.Piece.kind hnext).trans hkind)
          (show next.text = (Stream.peekSignificant ts).text from congrArg Lexer.Piece.text hnext)
          rest
      cases hbracket : (Stream.peekSignificant (Stream.tailSignificant ts)).isOp "[" with
      | false =>
          rw [Stream.acceptOp?, if_neg (by simp [hbracket])] at h
          cases h
          rcases exists_of_semicolon hsemi with ⟨blanks, hblanks, hfree⟩
          refine ⟨trivia ++ Stream.peekSignificant ts :: blanks, ?_, ?_⟩
          · rw [List.append_assoc, List.cons_append, ← hblanks]
            exact hts
          · intro used' semi rest hused hsemi'
            rw [List.map_append] at hused
            rcases List.map_eq_append_iff.mp hused with ⟨trivia', used', rfl, htrivia', hused⟩
            rcases List.map_eq_cons_iff.mp hused with ⟨next, blanks', rfl, hnext, hblanks'⟩
            rcases hfree blanks' semi rest hblanks' hsemi' with ⟨hpeek, htail⟩
            refine ⟨blanks' ++ semi :: rest, ?_, hpeek, htail⟩
            rw [List.append_assoc, List.cons_append, hcopy trivia' next _ htrivia' hnext,
              Stream.acceptOp?, hpeek, isOp_eq_false hsemi' (by decide)]
            rfl
      | true =>
          rw [Stream.acceptOp?, if_pos hbracket] at h
          rcases Prod.mk.inj h with ⟨rfl, hafter⟩
          rcases exists_of_brackets hbracket hafter hsemi with ⟨group, hgroup, hfree⟩
          refine ⟨trivia ++ Stream.peekSignificant ts :: group, ?_, ?_⟩
          · rw [List.append_assoc, List.cons_append, ← hgroup]
            exact hts
          · intro used' semi rest hused hsemi'
            rw [List.map_append] at hused
            rcases List.map_eq_append_iff.mp hused with ⟨trivia', used', rfl, htrivia', hused⟩
            rcases List.map_eq_cons_iff.mp hused with ⟨next, group', rfl, hnext, hgroup'⟩
            rcases hfree group' semi rest hgroup' hsemi' with
              ⟨inside, after', haccept, hskip, hpeek, htail⟩
            refine ⟨after', ?_, hpeek, htail⟩
            rw [List.append_assoc, List.cons_append, hcopy trivia' next _ htrivia' hnext, haccept]
            exact congrArg (Prod.mk _) hskip

/-!
# Block declarations
-/

theorem ofBlock?_cons (first : Token) (st ts : List Token) :
    ofBlock? (first :: st) ts =
      match parseQualifiers Qualifiers.none (first :: st) with
      | .error e => .error e
      | .ok (q, rest) =>
          match q.storage, rest with
          | some storage, [name] =>
              if (storage == .uniform || storage == .buffer) && name.isWord then
                match parseMembers name.text first.line [] ts with
                | .error e => .error e
                | .ok (members, closing, after) =>
                    let (instanceName, after) := parseInstance after
                    let semi := Stream.peekSignificant after
                    if semi.isOp ";" then
                      .ok (some (
                        { storage
                          layout := q.layout
                          qualifiers := q.others
                          precision := q.precision
                          type := name.text
                          typeOffset := name.offset
                          body := .block members instanceName
                          start := first.offset
                          stop := semi.stop
                          line := first.line },
                        Stream.tailSignificant after))
                    else
                      .error (Diagnostic.error closing.line
                        ("block '" ++ name.text ++
                          "' must be followed by ';' or an instance name and ';'"))
              else .ok none
          | _, _ => .ok none := rfl

/-- The parts of a block: the qualifiers and the name of the statement before the brace, and what
follows the brace up to the semicolon. -/
structure BlockParts (st ts : List Token) (d : Declaration) (after : List Token) where
  quals : List Token
  q : Qualifiers
  name : Token
  first : Token
  body : List Token
  semi : Token
  split : st = quals ++ [name]
  head : st.head? = some first
  qualifies : Qualifies Qualifiers.none quals q
  notQualifier : isQualifier name = false
  isWord : name.isWord = true
  tokens : ts = body ++ semi :: after
  isSemi : semi.isOp ";" = true
  isBlock : d.isBlock = true
  layout : d.layout = q.layout
  start : d.start = first.offset
  stop : d.stop = semi.stop
  typeOffset : d.typeOffset = name.offset
  reads : ofBlock? st ts = .ok (some (d, after))
  /-- A block with the same words as qualifiers and copies of the other tokens. -/
  copy : forall {quals' : List Token} {q' : Qualifiers} {name' semi' : Token}
    {body' : List Token} (after' : List Token), Qualifies Qualifiers.none quals' q' ->
    q'.storage = q.storage -> q'.others = q.others -> q'.precision = q.precision ->
    name'.piece = name.piece -> body'.map Token.piece = body.map Token.piece ->
    semi'.isOp ";" = true ->
    exists d', ofBlock? (quals' ++ [name']) (body' ++ semi' :: after') = .ok (some (d', after')) ∧
      d'.unplaced = Declaration.unplaced { d with layout := q'.layout }

theorem parts_of_ofBlock? {st ts after : List Token} {d : Declaration}
    (h : ofBlock? st ts = .ok (some (d, after))) : Nonempty (BlockParts st ts d after) := by
  have hreads := h
  cases st with
  | nil => cases h
  | cons first st =>
      rw [ofBlock?_cons] at h
      cases hparse : parseQualifiers Qualifiers.none (first :: st) with
      | error e =>
          rw [hparse] at h
          cases h
      | ok read =>
          rcases read with ⟨q, rest⟩
          rw [hparse] at h
          dsimp only at h
          rcases exists_of_parseQualifiers hparse with ⟨quals, hsplit, hquals, hrest⟩
          split at h
          · rename_i storage name hstorage
            split at h
            · rename_i hblock
              split at h
              · cases h
              · rename_i members closing after₀ hmembers
                rcases hinstance : parseInstance after₀ with ⟨instanceName, after₁⟩
                rw [hinstance] at h
                dsimp only at h
                split at h
                · rename_i hsemi
                  cases h
                  rcases exists_of_parseMembers hmembers with ⟨used, rfl, hspells⟩
                  rcases exists_of_parseInstance hinstance hsemi with ⟨used₂, rfl, hfree⟩
                  refine ⟨⟨quals, q, name, first, used ++ used₂, _, hsplit, rfl, hquals,
                    hrest name rfl, (Bool.and_eq_true_iff.mp hblock).2, by simp, hsemi, rfl, rfl,
                    rfl,
                    rfl, rfl, hreads, ?_⟩⟩
                  intro quals' q' name' semi' body' after' hquals' hstorage' hothers hprecision
                    hname hbody hsemi'
                  rw [List.map_append] at hbody
                  rcases List.map_eq_append_iff.mp hbody with ⟨used', used₂', rfl, hused, hused₂⟩
                  have htext : name'.text = name.text := congrArg Lexer.Piece.text hname
                  have hparse' : parseQualifiers Qualifiers.none (quals' ++ [name']) =
                      .ok (q', [name']) := by
                    apply hquals'.parseQualifiers_eq
                    intro t ht
                    rw [← Option.some.inj ht, isQualifier_congr hname]
                    exact hrest name rfl
                  rcases hfree used₂' semi' after' hused₂ hsemi' with
                    ⟨after₂, hinstance', hpeek, htail⟩
                  cases hst : quals' ++ [name'] with
                  | nil => simp at hst
                  | cons first' st' =>
                      rcases hspells first'.line [] used' (used₂' ++ semi' :: after') rfl hused with
                        ⟨members', closing', hmembers', hunplaced⟩
                      rw [hst] at hparse'
                      refine ⟨⟨storage, q'.layout, q'.others, q'.precision, name'.text,
                        name'.offset, .block members' instanceName, first'.offset, semi'.stop,
                        first'.line⟩, ?_, ?_⟩
                      · rw [ofBlock?_cons, hparse']
                        dsimp only
                        rw [hstorage', hstorage]
                        dsimp only
                        rw [isWord_congr hname, if_pos hblock, htext, List.append_assoc, hmembers']
                        dsimp only
                        rw [hinstance']
                        dsimp only
                        rw [hpeek, htail, if_pos hsemi']
                      · simp [unplaced, DeclarationBody.unplaced, hothers, hprecision, htext,
                          hunplaced]
                · cases h
            · cases h
          · cases h

theorem ofBlock?_none_alike {st st' ts ts' : List Token} (h : ofBlock? st ts = .ok none)
    (hst : st'.map Token.piece = st.map Token.piece) : ofBlock? st' ts' = .ok none := by
  cases st with
  | nil =>
      rw [List.map_eq_nil_iff.mp hst]
      rfl
  | cons first st =>
      rcases List.map_eq_cons_iff.mp hst with ⟨first', st', rfl, _, _⟩
      rw [ofBlock?_cons] at h
      rw [ofBlock?_cons]
      cases hparse : parseQualifiers Qualifiers.none (first :: st) with
      | error e =>
          rw [hparse] at h
          cases h
      | ok read =>
          rcases read with ⟨q, rest⟩
          rcases parseQualifiers_alike hparse hst with ⟨q', rest', hparse', hunplaced, hrest⟩
          rw [hparse] at h
          rw [hparse']
          dsimp only at h ⊢
          rw [(Qualifiers.parts_of_unplaced hunplaced).1]
          split
          · rename_i storage name hstorage
            rcases List.map_eq_singleton_iff.mp hrest.symm with ⟨name', rfl, hname⟩
            rw [hstorage] at h
            dsimp only at h
            split at h
            · split at h
              · cases h
              · split at h
                · cases h
                · cases h
            · rename_i hblock
              rw [← isWord_congr hname, if_neg hblock]
          · rfl

end Declaration

end EffectShader
