import EffectShader.Proofs.Declaration.Units

/-!
# Members where they stand

The members of a block are read from stretches of its body, each up to a semicolon.
A stretch is the beginning of a statement, so a member can be cut out of its block
and read as a statement of its own.
-/

namespace EffectShader

namespace Declaration

/-!
# Stretches of a body
-/

def HoldsMember (body : List Token) (m : BlockMember) : Prop :=
  exists block x raw semi y, body = x ++ (raw ++ semi :: y) ∧ IsOpen raw ∧ semi.isOp ";" = true ∧
    parseMember block (solidTokens raw) = .ok m

theorem HoldsMember.append_left {body : List Token} {m : BlockMember} (h : HoldsMember body m)
    (x : List Token) : HoldsMember (x ++ body) m := by
  rcases h with ⟨block, x', raw, semi, y, rfl, hopen, hsemi, hmember⟩
  exact ⟨block, x ++ x', raw, semi, y, by simp, hopen, hsemi, hmember⟩

theorem HoldsMember.append_right {body : List Token} {m : BlockMember} (h : HoldsMember body m)
    (y : List Token) : HoldsMember (body ++ y) m := by
  rcases h with ⟨block, x, raw, semi, y', rfl, hopen, hsemi, hmember⟩
  exact ⟨block, x, raw, semi, y' ++ y, by simp, hopen, hsemi, hmember⟩

/-- Trivia extends a member that has started, and is skipped otherwise. -/
theorem holdsMember_of_loose {raw used : List Token} {t : Token} {m : BlockMember}
    (hraw : IsOpen raw) (hplain : t.piece.isPlain = false)
    (h : forall raw', IsOpen raw' -> solidTokens raw' = solidTokens raw ->
      HoldsMember (raw' ++ used) m) : HoldsMember (raw ++ t :: used) m := by
  cases raw with
  | nil => exact (h [] IsOpen.nil rfl).append_left [t]
  | cons u raw =>
      have hopen : IsOpen ((u :: raw) ++ [t]) :=
        hraw.append (isBoundary_of_not_isPlain hplain) (Or.inl (List.cons_ne_nil u raw))
      have hsolid : solidTokens ((u :: raw) ++ [t]) = solidTokens (u :: raw) := by
        rw [solidTokens_append, show solidTokens [t] = [] from by simp [solidTokens, hplain],
          List.append_nil]
      have hmember := h _ hopen hsolid
      rw [List.append_assoc] at hmember
      exact hmember

/-- Every member that is read stands in what is used up; `raw` has been read of the first one. -/
theorem holdsMember_of_parseMembers {block : Text} {line : Nat} {raw ts rest : List Token}
    {ms : List BlockMember} {closing : Token} (hraw : IsOpen raw)
    (h : parseMembers block line (solidTokens raw) ts = .ok (ms, closing, rest)) :
    exists used, ts = used ++ rest ∧
      forall raw', IsOpen raw' -> solidTokens raw' = solidTokens raw ->
        forall m, m ∈ ms -> HoldsMember (raw' ++ used) m := by
  induction ts generalizing raw ms with
  | nil => cases h
  | cons t ts ih =>
      rw [parseMembers] at h
      split at h
      · rename_i htrivia
        have hplain : t.piece.isPlain = false := by simp [isPlain_eq, htrivia]
        rcases ih hraw h with ⟨used, rfl, hmembers⟩
        refine ⟨t :: used, rfl, ?_⟩
        intro raw' hraw' hsolid m hm
        refine holdsMember_of_loose hraw' hplain fun raw'' hraw'' hsolid' => ?_
        exact hmembers raw'' hraw'' (hsolid'.trans hsolid) m hm
      · rename_i htrivia
        split at h
        · cases h
        · rename_i heof
          split at h
          · cases h
          · rename_i hdirective
            have hplain : t.piece.isPlain = true := by simp [isPlain_eq, htrivia, hdirective]
            split at h
            · cases h
            · rename_i hbrace
              split at h
              · rename_i hsemi
                cases hfirst : parseMember block (solidTokens raw) with
                | error e =>
                    rw [hfirst] at h
                    cases h
                | ok first =>
                    rw [hfirst] at h
                    dsimp only at h
                    split at h
                    · cases h
                    · rename_i hrest
                      cases h
                      rcases ih IsOpen.nil hrest with ⟨used, rfl, hmembers⟩
                      refine ⟨t :: used, rfl, ?_⟩
                      intro raw' hraw' hsolid m hm
                      rcases List.mem_cons.mp hm with rfl | hm
                      · rw [← hsolid] at hfirst
                        exact ⟨block, [], raw', t, used, rfl, hraw', hsemi, hfirst⟩
                      · have hmember := hmembers [] IsOpen.nil rfl m hm
                        have htail := hmember.append_left (raw' ++ [t])
                        rw [List.append_assoc] at htail
                        exact htail
              · rename_i hsemi
                split at h
                · split at h
                  · cases h
                    exact ⟨[closing], rfl, by simp⟩
                  · cases h
                · rename_i hclose
                  have hinner : t.piece.isBoundary = false := by
                    simp [isBoundary_eq, heof, hsemi, hbrace, hclose]
                  have hone : solidTokens [t] = [t] := by simp [solidTokens, hplain]
                  have hread : parseMembers block line (solidTokens (raw ++ [t])) ts =
                      .ok (ms, closing, rest) := by
                    rw [solidTokens_append, hone]
                    exact h
                  rcases ih (hraw.append hinner (Or.inr hplain)) hread with ⟨used, rfl, hmembers⟩
                  refine ⟨t :: used, rfl, ?_⟩
                  intro raw' hraw' hsolid m hm
                  have hmember := hmembers (raw' ++ [t]) (hraw'.append hinner (Or.inr hplain))
                    (by rw [solidTokens_append, solidTokens_append, hsolid]) m hm
                  rw [List.append_assoc] at hmember
                  exact hmember

theorem BlockParts.holdsMember {st ts after : List Token} {d : Declaration}
    (parts : BlockParts st ts d after) : forall m, m ∈ d.members -> HoldsMember parts.body m := by
  have h := parts.reads
  cases st with
  | nil => cases h
  | cons first st =>
      rw [ofBlock?_cons] at h
      split at h
      · cases h
      · split at h
        · split at h
          · split at h
            · cases h
            · rename_i members closing after₀ hmembers
              rcases hinstance : parseInstance after₀ with ⟨instanceName, after₁⟩
              rw [hinstance] at h
              dsimp only at h
              split at h
              · rename_i hsemi
                cases h
                rcases holdsMember_of_parseMembers IsOpen.nil hmembers with ⟨used, hused, hholds⟩
                rcases exists_of_parseInstance hinstance hsemi with ⟨used₂, rfl, _⟩
                -- the body is what the members and the instance name use up
                have hbody : parts.body = used ++ used₂ := by
                  have hsplit : (parts.body ++ [parts.semi]) ++ Stream.tailSignificant after₁ =
                      ((used ++ used₂) ++ [Stream.peekSignificant after₁]) ++
                        Stream.tailSignificant after₁ := by
                    simpa using parts.tokens.symm.trans hused
                  exact List.append_inj_left' (List.append_cancel_right hsplit) rfl
                rw [hbody]
                intro m hm
                exact (hholds [] IsOpen.nil rfl m hm).append_right used₂
              · cases h
          · cases h
        · cases h

/-!
# The parts of a member
-/

theorem exists_of_memberQualifiers {precision precision' : Text} {ts rest : List Token}
    (h : memberQualifiers precision ts = .ok (precision', rest)) :
    (exists quals, ts = quals ++ rest) ∧
      (precision' = precision ∨ Word.isPrecision precision' = true) ∧
      forall t, rest.head? = some t -> Word.isPrecision t.text = false ∧
        otherQualifiers.contains t.text = false ∧ isLayoutWord t = false := by
  induction hn : ts.length using Nat.strong_induction_on generalizing precision ts with
  | _ n ih =>
      subst hn
      cases ts with
      | nil =>
          rw [memberQualifiers] at h
          cases h
          exact ⟨⟨[], rfl⟩, Or.inl rfl, by simp⟩
      | cons t ts =>
          rw [memberQualifiers] at h
          split at h
          · rename_i hprecision
            rcases ih ts.length (by simp) h rfl with ⟨⟨quals, rfl⟩, hlast, hrest⟩
            refine ⟨⟨t :: quals, rfl⟩, Or.inr ?_, hrest⟩
            rcases hlast with rfl | hlast
            · exact hprecision
            · exact hlast
          · rename_i hprecision
            split at h
            · rcases ih ts.length (by simp) h rfl with ⟨⟨quals, rfl⟩, hlast, hrest⟩
              exact ⟨⟨t :: quals, rfl⟩, hlast, hrest⟩
            · rename_i hother
              split at h
              · rename_i hword
                split at h
                · cases h
                · rename_i l after hlen hparse
                  rcases exists_of_parseLayout hword hparse with ⟨span, hspan, _⟩
                  rcases ih after.length (by simp only [List.length_cons]; omega) h rfl with
                    ⟨⟨quals, rfl⟩, hlast, hrest⟩
                  exact ⟨⟨span ++ quals, by rw [hspan, List.append_assoc]⟩, hlast, hrest⟩
              · rename_i hword
                cases h
                refine ⟨⟨[], rfl⟩, Or.inl rfl, ?_⟩
                intro u hu
                cases hu
                simp only [Bool.not_eq_true] at hprecision hother hword
                exact ⟨hprecision, hother, hword⟩

structure MemberParts (ts : List Token) (m : BlockMember) where
  quals : List Token
  type : Token
  names : List Token
  split : ts = quals ++ type :: names
  isWord : type.isWord = true
  type_eq : m.type = type.text
  precision : m.precision = [] ∨ Word.isPrecision m.precision = true
  notPrecision : Word.isPrecision type.text = false
  notOther : otherQualifiers.contains type.text = false
  notLayout : isLayoutWord type = false
  declares : declarators? names = some m.vars

theorem parts_of_parseMember {block : Text} {ts : List Token} {m : BlockMember}
    (h : parseMember block ts = .ok m) (hm : m.vars ≠ []) : Nonempty (MemberParts ts m) := by
  cases ts with
  | nil =>
      cases h
      exact absurd rfl hm
  | cons first ts =>
      unfold parseMember at h
      dsimp only at h
      split at h
      · cases h
      · cases h
      · rename_i precision type names hquals
        rcases exists_of_memberQualifiers hquals with ⟨⟨quals, hsplit⟩, hprecision, hrest⟩
        rcases hrest type rfl with ⟨hnotPrecision, hnotOther, hnotLayout⟩
        split at h
        · cases h
        · rename_i hword
          split at h
          · cases h
          · split at h
            · cases h
            · rename_i vars hvars
              cases h
              exact ⟨⟨quals, type, names, hsplit, by simpa using hword, rfl, hprecision,
                hnotPrecision, hnotOther, hnotLayout, hvars⟩⟩

/-- The type of a member is no qualifier of a statement, unless it is a storage qualifier. -/
theorem MemberParts.notQualifier {ts : List Token} {m : BlockMember} (parts : MemberParts ts m)
    (hm : Storage.ofKeyword? m.type = none) : isQualifier parts.type = false := by
  rw [parts.type_eq] at hm
  unfold isQualifier qualifyWord?
  rw [parts.notLayout, hm, parts.notOther, parts.notPrecision]
  simp

end Declaration

end EffectShader
