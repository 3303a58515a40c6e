import EffectShader.Proofs.Declaration.Layout

/-!
# The qualifiers of a statement

Qualifiers are read one by one: single words, and layout qualifiers, of which the
last one counts.  The reading is described as a relation between the tokens and
what they add to the qualifiers, so that a layout qualifier can be taken out of a
statement and another one put in.
-/

namespace EffectShader

/-!
# Places

What is read from tokens does not depend on where they stand, apart from the
places that are recorded.
-/

def Layout.unplaced (l : Layout) : Layout :=
  ⟨l.items, 0, 0⟩

def Variable.unplaced (v : Variable) : Variable :=
  ⟨v.name, v.length, 0, 0, 0⟩

def BlockMember.unplaced (m : BlockMember) : BlockMember :=
  ⟨m.precision, m.type, m.vars.map Variable.unplaced, 0⟩

def DeclarationBody.unplaced : DeclarationBody -> DeclarationBody
  | .variables vs => .variables (vs.map Variable.unplaced)
  | .block ms name => .block (ms.map BlockMember.unplaced) name

namespace Declaration

/-- The declaration without the places of its parts. -/
def unplaced (d : Declaration) : Declaration :=
  { d with
    layout := d.layout.map Layout.unplaced
    typeOffset := 0
    body := d.body.unplaced
    start := 0
    stop := 0
    line := 0 }

def Qualifiers.unplaced (q : Qualifiers) : Qualifiers :=
  { q with layout := q.layout.map Layout.unplaced }

theorem Qualifiers.parts_of_unplaced {q q' : Qualifiers} (h : q.unplaced = q'.unplaced) :
    q.storage = q'.storage ∧ q.layout.map Layout.unplaced = q'.layout.map Layout.unplaced ∧
      q.others = q'.others ∧ q.precision = q'.precision :=
  Qualifiers.mk.inj h

/-!
# Reading qualifiers
-/

def qualifyWord? (q : Qualifiers) (t : Token) : Option Qualifiers :=
  if t.kind == .keyword && (Storage.ofKeyword? t.text).isSome then
    some { q with storage := Storage.ofKeyword? t.text }
  else if t.kind == .keyword && otherQualifiers.contains t.text then
    some { q with others := q.others ++ [t.text] }
  else if Word.isPrecision t.text then some { q with precision := t.text }
  else none

def isQualifier (t : Token) : Bool :=
  isLayoutWord t || (qualifyWord? Qualifiers.none t).isSome

inductive Qualifies : Qualifiers -> List Token -> Qualifiers -> Prop where
  | nil (q : Qualifiers) : Qualifies q [] q
  | word {q q' q'' : Qualifiers} {t : Token} {ts : List Token} :
      isLayoutWord t = false -> qualifyWord? q t = some q' -> Qualifies q' ts q'' ->
      Qualifies q (t :: ts) q''
  | layout {q q' : Qualifiers} {span ts : List Token} {l : Layout} :
      SpellsLayout span l -> Qualifies { q with layout := some l } ts q' ->
      Qualifies q (span ++ ts) q'

theorem isSome_qualifyWord? (q q' : Qualifiers) (t : Token) :
    (qualifyWord? q t).isSome = (qualifyWord? q' t).isSome := by
  unfold qualifyWord?
  repeat' split
  all_goals rfl

theorem qualifyWord?_congr {t u : Token} (h : t.piece = u.piece) (q : Qualifiers) :
    qualifyWord? q t = qualifyWord? q u := by
  unfold qualifyWord?
  rw [show t.kind = u.kind from congrArg Lexer.Piece.kind h,
    show t.text = u.text from congrArg Lexer.Piece.text h]

theorem isQualifier_congr {t u : Token} (h : t.piece = u.piece) :
    isQualifier t = isQualifier u := by
  unfold isQualifier
  rw [isLayoutWord_congr h, qualifyWord?_congr h]

theorem qualifyWord?_layout (q : Qualifiers) (l : Option Layout) (t : Token) :
    qualifyWord? { q with layout := l } t =
      (qualifyWord? q t).map fun q' => { q' with layout := l } := by
  unfold qualifyWord?
  repeat' split
  all_goals rfl

theorem layout_of_qualifyWord? {q q' : Qualifiers} {t : Token} (h : qualifyWord? q t = some q') :
    q'.layout = q.layout := by
  unfold qualifyWord? at h
  repeat' split at h
  all_goals cases h
  all_goals rfl

theorem exists_of_parseLayout {word : Token} {ts rest : List Token} {l : Layout}
    {hlen : rest.length ≤ ts.length} (hword : isLayoutWord word = true)
    (h : parseLayout word ts = .ok ⟨l, rest, hlen⟩) :
    exists span, word :: ts = span ++ rest ∧ SpellsLayout span l := by
  cases ts with
  | nil => cases h
  | cons paren ts =>
      unfold parseLayout at h
      dsimp only at h
      split at h
      · rename_i hparen
        split at h
        · cases h
        · rename_i items stop rest' hread
          cases h
          rcases exists_of_layoutItems? hread with ⟨inner, last, rfl, rfl, hlast, hfree⟩
          refine ⟨word :: paren :: (inner ++ [last]), by simp, ?_⟩
          exact ⟨word, paren, inner ++ [last], rfl, hword, hparen, rfl, hfree inner last [] rfl rfl⟩
      · cases h

theorem SpellsLayout.parseLayout_eq {span : List Token} {l : Layout} (h : SpellsLayout span l)
    (rest : List Token) :
    exists word ts, span ++ rest = word :: ts ∧ isLayoutWord word = true ∧
      exists hlen, parseLayout word ts = .ok ⟨l, rest, hlen⟩ := by
  rcases h with ⟨word, paren, inner, rfl, hword, hparen, hstart, hread⟩
  rcases exists_of_layoutItems? hread with ⟨inner, last, rfl, hstop, hlast, hfree⟩
  have hread' : layoutItems? [] (inner ++ [last] ++ rest) = some (l.items, l.stop, rest) := by
    rw [hstop]
    simpa using hfree inner last rest rfl rfl
  refine ⟨word, paren :: (inner ++ [last] ++ rest), rfl, hword, ?_⟩
  unfold parseLayout
  dsimp only
  rw [if_pos hparen]
  split
  · rename_i hnone
    rw [hread'] at hnone
    cases hnone
  · rename_i items stop rest' hsome
    rw [hread'] at hsome
    cases hsome
    rw [← hstart]
    exact ⟨by simp only [List.length_cons, List.length_append]; omega, rfl⟩

theorem parseQualifiers_word {t : Token} (hlayout : isLayoutWord t = false) (q : Qualifiers)
    (ts : List Token) :
    parseQualifiers q (t :: ts) =
      match qualifyWord? q t with
      | some q' => parseQualifiers q' ts
      | none => .ok (q, t :: ts) := by
  rw [parseQualifiers, if_neg (by simp [hlayout])]
  unfold qualifyWord?
  repeat' split
  all_goals first | rfl | simp_all

theorem exists_of_parseQualifiers {q q' : Qualifiers} {ts rest : List Token}
    (h : parseQualifiers q ts = .ok (q', rest)) :
    exists quals, ts = quals ++ rest ∧ Qualifies q quals q' ∧
      forall t, rest.head? = some t -> isQualifier t = false := by
  induction hn : ts.length using Nat.strong_induction_on generalizing q ts with
  | _ n ih =>
      subst hn
      cases ts with
      | nil =>
          rw [parseQualifiers] at h
          cases h
          exact ⟨[], rfl, Qualifies.nil _, by simp⟩
      | cons t ts =>
          cases hlayout : isLayoutWord t with
          | true =>
              rw [parseQualifiers, if_pos hlayout] at h
              split at h
              · cases h
              · rename_i l rest' hlen hparse
                rcases exists_of_parseLayout hlayout hparse with ⟨span, hspan, hspells⟩
                rcases ih rest'.length (by simp only [List.length_cons]; omega) h rfl with
                  ⟨quals, rfl, hquals, hrest⟩
                exact ⟨span ++ quals, by rw [hspan, List.append_assoc],
                  Qualifies.layout hspells hquals, hrest⟩
          | false =>
              rw [parseQualifiers_word hlayout] at h
              cases hqualify : qualifyWord? q t with
              | none =>
                  rw [hqualify] at h
                  cases h
                  refine ⟨[], rfl, Qualifies.nil _, ?_⟩
                  intro u hu
                  cases hu
                  unfold isQualifier
                  rw [hlayout, isSome_qualifyWord? Qualifiers.none q', hqualify]
                  rfl
              | some q₁ =>
                  rw [hqualify] at h
                  rcases ih ts.length (by simp) h rfl with ⟨quals, rfl, hquals, hrest⟩
                  exact ⟨t :: quals, rfl, Qualifies.word hlayout hqualify hquals, hrest⟩

theorem Qualifies.parseQualifiers_eq {q q' : Qualifiers} {quals : List Token}
    (h : Qualifies q quals q') {rest : List Token}
    (hrest : forall t, rest.head? = some t -> isQualifier t = false) :
    parseQualifiers q (quals ++ rest) = .ok (q', rest) := by
  induction h with
  | nil q =>
      cases rest with
      | nil => rw [List.append_nil, parseQualifiers]
      | cons t rest =>
          have hnot := hrest t rfl
          unfold isQualifier at hnot
          rw [Bool.or_eq_false_iff, isSome_qualifyWord? Qualifiers.none q] at hnot
          have hnone : qualifyWord? q t = none := by simpa using hnot.2
          rw [List.nil_append, parseQualifiers_word hnot.1, hnone]
  | word hlayout hqualify _ ih =>
      rw [List.cons_append, parseQualifiers_word hlayout, hqualify]
      exact ih
  | @layout q q' span ts l hspells _ ih =>
      rcases hspells.parseLayout_eq (ts ++ rest) with ⟨word, ts', hspan, hword, hlen, hparse⟩
      rw [List.append_assoc, hspan, parseQualifiers, if_pos hword, hparse]
      exact ih

/-!
# Taking qualifiers apart
-/

theorem Qualifies.append {q q' q'' : Qualifiers} {ts us : List Token} (hts : Qualifies q ts q')
    (hus : Qualifies q' us q'') : Qualifies q (ts ++ us) q'' := by
  induction hts with
  | nil q => exact hus
  | word hlayout hqualify _ ih => exact Qualifies.word hlayout hqualify (ih hus)
  | layout hspells _ ih =>
      rw [List.append_assoc]
      exact Qualifies.layout hspells (ih hus)

inductive Qualifies.Words : Qualifiers -> List Token -> Qualifiers -> Prop where
  | nil (q : Qualifiers) : Words q [] q
  | cons {q q' q'' : Qualifiers} {t : Token} {ts : List Token} :
      isLayoutWord t = false -> qualifyWord? q t = some q' -> Words q' ts q'' ->
      Words q (t :: ts) q''

theorem Qualifies.Words.qualifies {q q' : Qualifiers} {ts : List Token} (h : Words q ts q') :
    Qualifies q ts q' := by
  induction h with
  | nil q => exact Qualifies.nil q
  | cons hlayout hqualify _ ih => exact Qualifies.word hlayout hqualify ih

theorem Qualifies.Words.layout_eq {q q' : Qualifiers} {ts : List Token} (h : Words q ts q') :
    q'.layout = q.layout := by
  induction h with
  | nil q => rfl
  | cons _ hqualify _ ih => rw [ih, layout_of_qualifyWord? hqualify]

/-- Words add the same to every record, whatever layout it has. -/
theorem Qualifies.Words.with_layout {q q' : Qualifiers} {ts : List Token} (h : Words q ts q')
    (l : Option Layout) : Words { q with layout := l } ts { q' with layout := l } := by
  induction h with
  | nil q => exact Words.nil _
  | cons hlayout hqualify _ ih =>
      refine Words.cons hlayout ?_ ih
      rw [qualifyWord?_layout, hqualify]
      rfl

theorem Qualifies.Words.append {q q' q'' : Qualifiers} {ts us : List Token} (hts : Words q ts q')
    (hus : Words q' us q'') : Words q (ts ++ us) q'' := by
  induction hts with
  | nil q => exact hus
  | cons hlayout hqualify _ ih => exact Words.cons hlayout hqualify (ih hus)

/-- The layout that counts is the last one; only words follow it. -/
theorem Qualifies.split_layout {q q' : Qualifiers} {ts : List Token} (h : Qualifies q ts q') :
    Words q ts q' ∨
      exists before span after l q₁, ts = before ++ (span ++ after) ∧ SpellsLayout span l ∧
        Qualifies q before q₁ ∧ Words { q₁ with layout := some l } after q' := by
  induction h with
  | nil q => exact Or.inl (Words.nil q)
  | @word q q₁ q' t ts hlayout hqualify _ ih =>
      rcases ih with hwords | ⟨before, span, after, l, q₂, rfl, hspells, hbefore, hafter⟩
      · exact Or.inl (Words.cons hlayout hqualify hwords)
      · exact Or.inr ⟨t :: before, span, after, l, q₂, rfl, hspells,
          Qualifies.word hlayout hqualify hbefore, hafter⟩
  | @layout q q' span ts l hspells _ ih =>
      right
      rcases ih with hwords | ⟨before, span', after, l', q₂, rfl, hspells', hbefore, hafter⟩
      · exact ⟨[], span, ts, l, q, rfl, hspells, Qualifies.nil q, hwords⟩
      · exact ⟨span ++ before, span', after, l', q₂, by simp, hspells',
          Qualifies.layout hspells hbefore, hafter⟩

theorem Qualifies.alike {q q' : Qualifiers} {ts us : List Token} (h : Qualifies q ts q')
    (hus : us.map Token.piece = ts.map Token.piece) {p : Qualifiers}
    (hp : p.unplaced = q.unplaced) :
    exists p', Qualifies p us p' ∧ p'.unplaced = q'.unplaced := by
  induction h generalizing us p with
  | nil q =>
      rw [List.map_eq_nil_iff.mp hus]
      exact ⟨p, Qualifies.nil p, hp⟩
  | @word q q₁ q' t ts hlayout hqualify _ ih =>
      rcases List.map_eq_cons_iff.mp hus with ⟨u, us, rfl, hu, hus⟩
      have hsame : p = { q with layout := p.layout } := by
        rcases p with ⟨_, _, _, _⟩
        simp only [Qualifiers.unplaced, Qualifiers.mk.injEq] at hp
        rcases hp with ⟨rfl, _, rfl, rfl⟩
        rfl
      have hqualify' : qualifyWord? p u = some { q₁ with layout := p.layout } := by
        rw [hsame, qualifyWord?_congr hu, qualifyWord?_layout, hqualify]
        rfl
      have hnext : Qualifiers.unplaced { q₁ with layout := p.layout } = q₁.unplaced := by
        have hlayouts : p.layout.map Layout.unplaced = q.layout.map Layout.unplaced :=
          congrArg Qualifiers.layout hp
        unfold Qualifiers.unplaced
        rw [layout_of_qualifyWord? hqualify]
        simp [hlayouts]
      rcases ih hus hnext with ⟨p', hp', hunplaced⟩
      exact ⟨p', Qualifies.word (by rw [isLayoutWord_congr hu, hlayout]) hqualify' hp', hunplaced⟩
  | @layout q q' span ts l hspells _ ih =>
      rw [List.map_append] at hus
      rcases List.map_eq_append_iff.mp hus with ⟨span', us, rfl, hspan, hus⟩
      rcases hspells.alike hspan with ⟨l', hitems, hspells'⟩
      have hnext : Qualifiers.unplaced { p with layout := some l' } =
          Qualifiers.unplaced { q with layout := some l } := by
        simp only [Qualifiers.unplaced, Qualifiers.mk.injEq] at hp ⊢
        simp [hp, Layout.unplaced, hitems]
      rcases ih hus hnext with ⟨p', hp', hunplaced⟩
      exact ⟨p', Qualifies.layout hspells' hp', hunplaced⟩

theorem Qualifies.Words.alike {q q' : Qualifiers} {ts us : List Token} (h : Words q ts q')
    (hus : us.map Token.piece = ts.map Token.piece) : Words q us q' := by
  induction h generalizing us with
  | nil q =>
      rw [List.map_eq_nil_iff.mp hus]
      exact Words.nil q
  | cons hlayout hqualify _ ih =>
      rcases List.map_eq_cons_iff.mp hus with ⟨u, us, rfl, hu, hus⟩
      refine Words.cons ?_ ?_ (ih hus)
      · rw [isLayoutWord_congr hu, hlayout]
      · rw [qualifyWord?_congr hu, hqualify]

theorem parseQualifiers_alike {q : Qualifiers} {ts us rest : List Token}
    (h : parseQualifiers Qualifiers.none ts = .ok (q, rest))
    (hus : us.map Token.piece = ts.map Token.piece) :
    exists q' rest', parseQualifiers Qualifiers.none us = .ok (q', rest') ∧
      q'.unplaced = q.unplaced ∧ rest'.map Token.piece = rest.map Token.piece := by
  rcases exists_of_parseQualifiers h with ⟨quals, rfl, hquals, hrest⟩
  rw [List.map_append] at hus
  rcases List.map_eq_append_iff.mp hus with ⟨quals', rest', rfl, hquals', hrest'⟩
  rcases hquals.alike hquals' rfl with ⟨q', hq', hunplaced⟩
  refine ⟨q', rest', ?_, hunplaced, hrest'⟩
  apply hq'.parseQualifiers_eq
  intro t ht
  cases rest with
  | nil =>
      rw [List.map_eq_nil_iff.mp hrest'] at ht
      cases ht
  | cons u rest =>
      rcases List.map_eq_cons_iff.mp hrest' with ⟨u', rest', rfl, hu, _⟩
      rw [← Option.some.inj ht, isQualifier_congr hu]
      exact hrest u rfl

end Declaration

end EffectShader
