import EffectShader.Proofs.Effect.TrailingBlanks
import EffectShader.Proofs.Macro.Definitions
import EffectShader.Proofs.Text.Carriages

/-!
# Definitions in texts with carriage returns

A text whose lines end in a carriage return and a newline has the definitions of the text with plain
newlines: the same names, parameters and lines, at the same places.  The bodies are the same up
to the line ends as long as none starts with a backslash and a newline, which is taken off a body
only where no carriage return stands between the two.
-/

namespace EffectShader

namespace FunctionMacro

open Text (withCarriages carriedLines)

/-- Two results are the same error, or values that are related. -/
inductive Alike {α β : Type} (R : α -> β -> Prop) : Except Diagnostic α -> Except Diagnostic β ->
    Prop where
  | error (e : Diagnostic) : Alike R (.error e) (.error e)
  | ok {a : α} {b : β} : R a b -> Alike R (.ok a) (.ok b)

theorem Alike.of_error {α β : Type} {R : α -> β -> Prop} {e : Diagnostic}
    {x : Except Diagnostic β} (h : Alike R (.error e) x) : x = .error e := by
  cases h
  rfl

theorem Alike.of_ok {α β : Type} {R : α -> β -> Prop} {a : α} {x : Except Diagnostic β}
    (h : Alike R (.ok a) x) : exists b, x = .ok b ∧ R a b := by
  cases h with
  | ok h => exact ⟨_, rfl, h⟩

theorem Alike.imp {α β : Type} {R S : α -> β -> Prop} {x : Except Diagnostic α}
    {y : Except Diagnostic β} (h : Alike R x y)
    (himp : forall {a b}, x = .ok a -> y = .ok b -> R a b -> S a b) : Alike S x y := by
  cases h with
  | error e => exact Alike.error e
  | ok hab => exact Alike.ok (himp rfl rfl hab)

/-!
# Lines
-/

theorem trailing_carriage : Effect.Trailing [Byte.carriage] := by
  intro c hc
  rw [List.mem_singleton.mp hc]
  rfl

theorem isDefinition_carried {l : Text} (hl : Byte.newline ∉ l) :
    isDefinition (l ++ [Byte.carriage]) = isDefinition l := by
  unfold isDefinition defineArgs?
  rw [Effect.parse?_append_trailing hl trailing_carriage]

theorem isContinued_carried (l : Text) : isContinued (l ++ [Byte.carriage]) = isContinued l := by
  unfold isContinued
  rw [Text.dropEndWhile_append]
  intro c hc
  rw [List.mem_singleton.mp hc]
  rfl

theorem continuations_carried (l : Text) (ls : List Text) :
    continuations (l ++ [Byte.carriage]) ls = continuations l ls := by
  cases ls with
  | nil => rfl
  | cons k ls => rw [continuations, continuations, isContinued_carried]

theorem continuations_carriedLines (l : Text) (ls : List Text) :
    continuations l (carriedLines ls) = continuations l ls := by
  induction ls generalizing l with
  | nil => rfl
  | cons k ls ih =>
      by_cases hls : ls = []
      · subst hls
        rfl
      · rw [Text.carriedLines_cons hls, continuations, continuations, continuations_carried, ih]

theorem length_carriedLines (ls : List Text) : (carriedLines ls).length = ls.length := by
  fun_induction carriedLines ls with
  | case1 => rfl
  | case2 => rfl
  | case3 l k ls ih => rw [List.length_cons, ih, List.length_cons (a := l)]

/-- The lines behind a first one with the carriage returns: the first may have one, a definition
ends in one if a line follows, and the rest is as it would be by itself. -/
theorem exists_carriedLines (l : Text) {ls : List Text}
    (hls : forall k, k ∈ l :: ls -> Byte.newline ∉ k) {n : Nat} (hn : n ≤ ls.length) :
    exists l' z, carriedLines (l :: ls) = l' :: carriedLines ls ∧
      (l' = l ∨ l' = l ++ [Byte.carriage]) ∧
      Text.unlines (l' :: (carriedLines ls).take n) =
        withCarriages (Text.unlines (l :: ls.take n)) ++ z ∧
      (carriedLines ls).drop n = carriedLines (ls.drop n) ∧
      (z = [] ∧ ls.drop n = [] ∨ z = [Byte.carriage] ∧ ls.drop n ≠ []) := by
  by_cases hdrop : ls.drop n = []
  · have htake : ls.take n = ls := by
      have hsplit := List.take_append_drop n ls
      rwa [hdrop, List.append_nil] at hsplit
    have hlength : (carriedLines ls).length ≤ n := by
      rw [length_carriedLines]
      exact List.drop_eq_nil_iff.mp hdrop
    rw [htake, List.take_of_length_le hlength, List.drop_of_length_le hlength, hdrop]
    by_cases hnil : ls = []
    · subst hnil
      exact ⟨l, [], rfl, Or.inl rfl, by rw [List.append_nil, ← Text.unlines_carriedLines hls]; rfl,
        rfl, Or.inl ⟨rfl, rfl⟩⟩
    · refine ⟨l ++ [Byte.carriage], [], Text.carriedLines_cons hnil l, Or.inr rfl, ?_, rfl,
        Or.inl ⟨rfl, rfl⟩⟩
      rw [List.append_nil, ← Text.unlines_carriedLines hls, Text.carriedLines_cons hnil]
  · have hnil : ls ≠ [] := by
      rintro rfl
      exact hdrop List.drop_nil
    have hrest : carriedLines ls =
        (ls.take n).map (· ++ [Byte.carriage]) ++ carriedLines (ls.drop n) := by
      rw [← Text.carriedLines_append hdrop, List.take_append_drop]
    have hlength : ((ls.take n).map (· ++ [Byte.carriage])).length = n := by
      rw [List.length_map, List.length_take_of_le hn]
    refine ⟨l ++ [Byte.carriage], [Byte.carriage], Text.carriedLines_cons hnil l, Or.inr rfl, ?_,
      ?_,
      Or.inr ⟨rfl, hdrop⟩⟩
    · rw [hrest, List.take_left' hlength, ← Text.unlines_map_carried (List.cons_ne_nil _ _),
        List.map_cons]
      intro k hk
      exact hls k (List.cons_subset_cons l (List.take_subset n ls) hk)
    · rw [hrest, List.drop_left' hlength]

/-!
# One definition
-/

theorem withCarriages_drop {s : Text} {n : Nat} (h : Byte.newline ∉ s.take n) :
    (withCarriages s).drop n = withCarriages (s.drop n) := by
  have hsplit : withCarriages s = s.take n ++ withCarriages (s.drop n) := by
    conv_lhs => rw [← List.take_append_drop n s]
    rw [Text.withCarriages_append, Text.withCarriages_eq_self h]
  rw [hsplit]
  by_cases hn : n ≤ s.length
  · exact List.drop_left' (List.length_take_of_le hn)
  · have hlength := Nat.le_of_not_le hn
    rw [List.take_of_length_le hlength, List.drop_of_length_le hlength, Text.withCarriages_nil,
      List.append_nil, List.drop_of_length_le hlength]

theorem contains_withCarriages (s : Text) :
    (withCarriages s).contains Byte.newline = s.contains Byte.newline := by
  rw [Text.contains_newline_eq, Text.contains_newline_eq, Text.newlines_withCarriages]

theorem cut?_closeParen_append {z : Text} (hz : Byte.closeParen ∉ z) (s : Text) :
    Text.cut? [Byte.closeParen] (s ++ z) =
      (Text.cut? [Byte.closeParen] s).map (Prod.map id (· ++ z)) := by
  cases hcut : Text.cut? [Byte.closeParen] s with
  | some parts =>
      rcases parts with ⟨before, after⟩
      rw [Text.eq_append_of_cut? hcut, List.append_assoc, List.append_assoc]
      exact Text.cut?_append_of_cut? (by decide) hcut (after ++ z)
  | none =>
      rw [Option.map_none, Option.eq_none_iff_forall_ne_some]
      rintro ⟨before, after⟩ hfound
      have hseam : Text.Seam [Byte.closeParen] s z := by
        refine Or.inr fun b hb hmem => ?_
        rw [List.mem_singleton.mp hmem] at hb
        exact hz (List.mem_of_head? hb)
      rcases hseam.exists_of_cut? (by decide) hcut hfound with ⟨w, rfl⟩
      exact hz (List.mem_append_right w List.mem_cons_self)

/-- On its first line a definition has a parenthesis behind its first word `define`. -/
theorem exists_cut?_define {l : Text} (hl : Byte.newline ∉ l) (h : isDefinition l = true)
    (more : Text) :
    exists before w r, Text.cut? "define" (l ++ more) = some (before, w ++ Byte.openParen :: r) ∧
      Byte.newline ∉ w := by
  rcases exists_spelling hl h with ⟨p, hp⟩
  have hsplit : l ++ more = p.lead ++ ("define" ++ (p.third ++ p.name ++
      Byte.openParen :: (p.rest ++ more))) := by
    rw [hp.text]
    simp [Spelling.text, Spelling.signature]
  have hinline : Byte.newline ∉ p.lead ++ ("define" ++ (p.third ++ p.name)) := by
    refine fun hmem => hl ?_
    rw [hp.text, Spelling.text, Spelling.signature, ← List.append_assoc p.third]
    simp only [List.mem_append] at hmem ⊢
    tauto
  cases hcut : Text.cut? "define" (l ++ more) with
  | none =>
      have hincludes := Spelling.includes_define hp more
      rw [Text.includes, hcut] at hincludes
      cases hincludes
  | some parts =>
      rcases parts with ⟨before, after⟩
      rcases Text.exists_append_of_cut? (by decide) hcut hsplit with ⟨u, hlead⟩
      have heq : Text.ofString "define" ++ after = (u ++ "define") ++
          (p.third ++ p.name ++ Byte.openParen :: (p.rest ++ more)) := by
        have hwhole := (Text.eq_append_of_cut? hcut).symm.trans hsplit
        rw [hlead, List.append_assoc] at hwhole
        rw [List.append_assoc]
        exact List.append_cancel_left hwhole
      have hu : Byte.newline ∉ u ++ "define" ++ (p.third ++ p.name) := by
        refine fun hmem => hinline ?_
        rw [hlead]
        simp only [List.mem_append] at hmem ⊢
        tauto
      rcases List.append_eq_append_iff.mp heq with ⟨v, hv, hafter⟩ | ⟨v, hdefine, hafter⟩
      · refine ⟨before, v ++ (p.third ++ p.name), p.rest ++ more, ?_, ?_⟩
        · rw [hafter]
          simp only [List.append_assoc]
        · refine fun hmem => hu ?_
          rw [hv]
          simp only [List.mem_append] at hmem ⊢
          tauto
      · -- The word that is found is the one that is spelled.
        have hv : v = [] := by
          have hlength := congrArg List.length hdefine
          simp only [List.length_append] at hlength
          exact List.length_eq_zero_iff.mp (by omega)
        rw [hv, List.nil_append] at hafter
        refine ⟨before, p.third ++ p.name, p.rest ++ more, by rw [hafter], ?_⟩
        exact fun hmem => hu (List.mem_append_right _ hmem)

theorem dropContinuations_withCarriages (s : Text) :
    dropContinuations (withCarriages s) = withCarriages s := by
  unfold dropContinuations
  split
  · rename_i rest heq
    cases s using Text.lineInduction with
    | nil => cases heq
    | newline s => cases heq
    | inline b s hb =>
        rw [Text.withCarriages_cons hb] at heq
        have hhead := congrArg List.head? (List.cons.inj heq).2
        exact absurd hhead (Text.head?_withCarriages_ne_newline s)
  · rfl

/-- What a definition with carriage returns has in common with the one without. -/
structure ReadsAlike (text : Text) (m m' : FunctionMacro) : Prop where
  name : m'.name = m.name
  params : m'.params = m.params
  line : m'.line = m.line
  body : exists raw, raw <:+: text ∧ m.body = dropContinuations raw ∧ m'.body = withCarriages raw

theorem leadingName_append_openParen (w r : Text) :
    Occurrence.leadingName (w ++ Byte.openParen :: r) = Occurrence.leadingName w := by
  cases w with
  | nil => rfl
  | cons b w =>
      rw [List.cons_append, Occurrence.leadingName, Occurrence.leadingName,
        (Occurrence.run_append rfl w).1]

theorem ofDefinition_carried {l : Text} (hl : Byte.newline ∉ l) (h : isDefinition l = true)
    (more : Text) {z : Text} (hz : z = [] ∨ z = [Byte.carriage]) (line start start' : Nat) :
    Alike (ReadsAlike (l ++ more)) (ofDefinition (l ++ more) line start)
      (ofDefinition (withCarriages (l ++ more) ++ z) line start') := by
  rcases exists_cut?_define hl h more with ⟨before, w, r, hcut, hw⟩
  have hz' : Byte.closeParen ∉ z ∧ Text.Blank z := by
    rcases hz with rfl | rfl
    · exact ⟨List.not_mem_nil, Text.Blank.nil⟩
    · exact ⟨by decide, trailing_carriage.blank⟩
  have hcut' : Text.cut? "define" (withCarriages (l ++ more) ++ z) =
      some (withCarriages before, w ++ Byte.openParen :: (withCarriages r ++ z)) := by
    have hsome : Text.cut? "define" (withCarriages (l ++ more)) = _ :=
      Text.cut?_withCarriages (by decide) (by decide +kernel) (l ++ more)
    rw [hcut] at hsome
    have hafter : withCarriages (w ++ Byte.openParen :: r) =
        w ++ Byte.openParen :: withCarriages r := by
      rw [Text.withCarriages_append, Text.withCarriages_eq_self hw,
        Text.withCarriages_cons (by decide)]
    rw [Text.eq_append_of_cut? hsome, List.append_assoc, List.append_assoc,
      Text.cut?_append_of_cut? (by decide) hsome, hafter]
    simp
  have hblanks := fun y : Text => (Directive.takeWhile_append_of_head (p := Byte.isBlank)
    (y := Byte.openParen :: y) (by intro c hc; cases hc; rfl) w).2
  -- What is read starts with `v` and the parenthesis in both texts.
  generalize hv : w.dropWhile Byte.isBlank = v at hblanks
  have hinline : Byte.newline ∉ v ++ [Byte.openParen] := by
    rw [List.mem_append, not_or, ← hv]
    exact ⟨fun hmem => hw ((List.dropWhile_suffix _).subset hmem), by decide⟩
  have hread : withCarriages (v ++ Byte.openParen :: r) =
      v ++ Byte.openParen :: withCarriages r := by
    rw [List.append_cons, Text.withCarriages_append, Text.withCarriages_eq_self hinline,
      ← List.append_cons]
  unfold ofDefinition
  dsimp only
  rw [hcut, hcut', Option.elim_some, Option.elim_some, hblanks, hblanks,
    leadingName_append_openParen, leadingName_append_openParen]
  have hclose := cut?_closeParen_append hz'.1 (withCarriages (v ++ Byte.openParen :: r))
  rw [Text.cut?_withCarriages (by decide) (by decide +kernel), hread, List.append_assoc,
    List.cons_append] at hclose
  rw [hclose]
  cases hfound : Text.cut? [Byte.closeParen] (v ++ Byte.openParen :: r) with
  | none => exact Alike.error _
  | some parts =>
      rcases parts with ⟨x, y⟩
      dsimp only [Option.map_some, Prod.map, id]
      have hlist : Byte.newline ∉ x.take ((Occurrence.leadingName v).length + 1) := by
        have htake : x.take ((Occurrence.leadingName v).length + 1) <+: v ++ [Byte.openParen] := by
          have hwhole : x.take ((Occurrence.leadingName v).length + 1) <+:
              v ++ Byte.openParen :: r := by
            rw [Text.eq_append_of_cut? hfound]
            exact (List.take_prefix _ x).trans (List.prefix_append x _)
          refine List.prefix_of_prefix_length_le hwhole ⟨r, (List.append_cons ..).symm⟩ ?_
          have hname := (Occurrence.leadingName_isPrefix v).length_le
          rw [List.length_append, List.length_singleton, List.length_take]
          omega
        exact fun hmem => hinline (htake.subset hmem)
      rw [withCarriages_drop hlist, contains_withCarriages]
      split
      · exact Alike.error _
      · rename_i hline
        rw [List.contains_iff_mem] at hline
        rw [Text.withCarriages_eq_self hline, Text.trim_append_blank hz'.2,
          Text.trim_withCarriages, dropContinuations_withCarriages]
        have hy : y <:+ l ++ more := by
          have hv : v ++ Byte.openParen :: r <:+ w ++ Byte.openParen :: r :=
            hblanks r ▸ List.dropWhile_suffix _
          have hw : w ++ Byte.openParen :: r <:+ l ++ more := by
            rw [Text.eq_append_of_cut? hcut, ← List.append_assoc]
            exact List.suffix_append _ _
          refine List.IsSuffix.trans ?_ (hv.trans hw)
          rw [Text.eq_append_of_cut? hfound, ← List.append_assoc]
          exact List.suffix_append _ y
        exact Alike.ok ⟨rfl, rfl, rfl, Text.trim y, (Text.trim_infix y).trans hy.isInfix, rfl, rfl⟩

/-!
# All definitions
-/

structure Twin (code : Text) (m m' : FunctionMacro) : Prop where
  reads : ReadsAlike (code.slice m.start m.stop) m m'
  spans : forall u v, code = u ++ v -> v.head? ≠ some Byte.newline ->
    m'.spans (withCarriages u).length = m.spans u.length

section Place

variable {x d y u v z : Text}

theorem lt_stop_carried_iff (h : x ++ (d ++ y) = u ++ v) (hv : v.head? ≠ some Byte.newline)
    (hz : z = [] ∧ y = [] ∨ z = [Byte.carriage] ∧ exists t, y = Byte.newline :: t) :
    (withCarriages u).length < (withCarriages x).length + (withCarriages d ++ z).length ↔
      u.length < x.length + d.length := by
  rw [← List.append_assoc] at h
  have hlt := Text.length_withCarriages_lt_iff h
  rw [Text.withCarriages_append, List.length_append, List.length_append] at hlt
  rw [List.length_append]
  rcases hz with ⟨rfl, _⟩ | ⟨rfl, t, rfl⟩
  · rw [← hlt]
    rfl
  · rcases List.append_eq_append_iff.mp h with ⟨w, rfl, hy⟩ | ⟨w, hxd, hy⟩
    · -- The place is behind the definition, so at least behind the line end.
      cases w with
      | nil => exact absurd (congrArg List.head? hy.symm) hv
      | cons b w =>
          cases hy
          simp only [Text.withCarriages_append, Text.withCarriages_newline, List.length_append,
            List.length_cons, List.length_nil]
          omega
    · cases w with
      | nil => exact absurd (congrArg List.head? hy) hv
      | cons b w =>
          have hlength := congrArg List.length hxd
          simp only [List.length_append, List.length_cons] at hlength
          have hplace : u.length < x.length + d.length := by
            omega
          have hplace' := hlt.mpr hplace
          rw [List.length_singleton]
          omega

theorem spans_carried {m m' : FunctionMacro} (hstart : m.start = x.length)
    (hstop : m.stop = x.length + d.length) (hstart' : m'.start = (withCarriages x).length)
    (hstop' : m'.stop = (withCarriages x).length + (withCarriages d ++ z).length)
    (hz : z = [] ∧ y = [] ∨ z = [Byte.carriage] ∧ exists t, y = Byte.newline :: t)
    (h : x ++ (d ++ y) = u ++ v) (hv : v.head? ≠ some Byte.newline) :
    m'.spans (withCarriages u).length = m.spans u.length := by
  have hlt := Text.length_withCarriages_lt_iff h
  rw [spans, spans, hstart, hstop, hstart', hstop']
  congr 1
  · rw [decide_eq_decide, ← Nat.not_lt, ← Nat.not_lt, hlt]
  · rw [decide_eq_decide]
    exact lt_stop_carried_iff h hv hz

end Place

theorem definitionsFrom_of_isDefinition {l : Text} (h : isDefinition l = true) (ls : List Text)
    (n offset : Nat) : definitionsFrom n offset (l :: ls) =
      match ofDefinition (Text.unlines (l :: ls.take (continuations l ls))) n offset with
      | .error e => .error e
      | .ok m =>
          match definitionsFrom (n + 1 + continuations l ls)
            (offset + (Text.unlines (l :: ls.take (continuations l ls))).length + 1)
            (ls.drop (continuations l ls)) with
          | .error e => .error e
          | .ok more => .ok (m :: more) := by
  rw [definitionsFrom]
  exact if_pos h

theorem definitionsFrom_of_not_isDefinition {l : Text} (h : isDefinition l = false)
    (ls : List Text) (n offset : Nat) :
    definitionsFrom n offset (l :: ls) = definitionsFrom (n + 1) (offset + l.length + 1) ls := by
  rw [definitionsFrom, h]
  rfl

theorem isDefinition_of_carried {l l' : Text} (hl : Byte.newline ∉ l)
    (h : l' = l ∨ l' = l ++ [Byte.carriage]) (ls : List Text) :
    isDefinition l' = isDefinition l ∧ continuations l' ls = continuations l ls := by
  rcases h with rfl | rfl
  · exact ⟨rfl, rfl⟩
  · exact ⟨isDefinition_carried hl, continuations_carried l ls⟩

theorem length_ended_append (before : List Text) (l : Text) (ls : List Text) :
    (Text.ended (before ++ l :: ls)).length =
        (Text.ended before).length + (Text.unlines (l :: ls)).length + 1 ∧
      (withCarriages (Text.ended (before ++ l :: ls))).length =
        (withCarriages (Text.ended before)).length +
          (withCarriages (Text.unlines (l :: ls))).length + 2 := by
  rw [Text.ended_append, Text.ended_eq, Text.withCarriages_append, Text.withCarriages_append]
  simp only [List.length_append, List.length_singleton]
  exact ⟨rfl, rfl⟩

theorem twin_of_readsAlike {n n' : Nat} {before ks : List Text} {l z : Text}
    {m m' : FunctionMacro}
    (hm : ofDefinition (Text.unlines (l :: ks)) n (Text.ended before).length = .ok m)
    (hm' : ofDefinition (withCarriages (Text.unlines (l :: ks)) ++ z) n'
      (withCarriages (Text.ended before)).length = .ok m')
    (hreads : ReadsAlike (Text.unlines (l :: ks)) m m') (rest : List Text)
    (hz : z = [] ∧ rest = [] ∨ z = [Byte.carriage] ∧ rest ≠ []) :
    Twin (Text.unlines (before ++ l :: (ks ++ rest))) m m' := by
  have hplaced := isPlaced_of_ofDefinition hm
  have hplaced' := isPlaced_of_ofDefinition hm'
  have hcode : Text.unlines (before ++ l :: (ks ++ rest)) =
      Text.ended before ++ (Text.unlines (l :: ks) ++ rest.flatMap (Byte.newline :: ·)) := by
    rw [Text.unlines_append_cons, Text.unlines_cons_eq, List.flatMap_append, List.append_assoc]
  constructor
  · rwa [hcode, Text.slice, hplaced.stop, hplaced.start, Nat.add_sub_cancel_left, List.drop_left,
      List.take_left]
  · intro u v huv hv
    rw [hcode] at huv
    refine spans_carried hplaced.start hplaced.stop hplaced'.start hplaced'.stop ?_ huv hv
    rcases hz with ⟨hz, rfl⟩ | ⟨hz, hne⟩
    · exact Or.inl ⟨hz, rfl⟩
    · rcases List.exists_cons_of_ne_nil hne with ⟨k, rest, rfl⟩
      exact Or.inr ⟨hz, _, List.flatMap_cons⟩

theorem alike_cons {R : FunctionMacro -> FunctionMacro -> Prop}
    {x x' : Except Diagnostic FunctionMacro} {y y' : Except Diagnostic (List FunctionMacro)} :
    Alike R x x' -> Alike (List.Forall₂ R) y y' -> Alike (List.Forall₂ R)
      (match x with
      | .error e => .error e
      | .ok m =>
          match y with
          | .error e => .error e
          | .ok more => .ok (m :: more))
      (match x' with
      | .error e => .error e
      | .ok m =>
          match y' with
          | .error e => .error e
          | .ok more => .ok (m :: more)) := by
  intro hx hy
  cases hx with
  | error e => exact Alike.error e
  | ok hm =>
      cases hy with
      | error e => exact Alike.error e
      | ok hmore => exact Alike.ok (List.Forall₂.cons hm hmore)

theorem definitionsFrom_carried {ls : List Text} (hls : forall l, l ∈ ls -> Byte.newline ∉ l)
    (n offset offset' : Nat) (before : List Text)
    (h : ls ≠ [] -> offset = (Text.ended before).length ∧
      offset' = (withCarriages (Text.ended before)).length) :
    Alike (List.Forall₂ (Twin (Text.unlines (before ++ ls)))) (definitionsFrom n offset ls)
      (definitionsFrom n offset' (carriedLines ls)) := by
  fun_induction blankLines ls generalizing n offset offset' before with
  | case1 =>
      rw [carriedLines, definitionsFrom, definitionsFrom]
      exact Alike.ok List.Forall₂.nil
  | case2 l ls hdef c ih =>
      rcases List.forall_mem_cons.mp hls with ⟨hl, hls'⟩
      rcases h (List.cons_ne_nil l ls) with ⟨rfl, rfl⟩
      have hc : continuations l ls = c := rfl
      rcases exists_carriedLines l hls (n := c) (continuations_le l ls) with
        ⟨l', z, hcarried, hl', hunlines, hdrop, hz⟩
      rcases isDefinition_of_carried hl hl' (carriedLines ls) with ⟨hdef', hcontinued⟩
      replace hcontinued := hcontinued.trans (continuations_carriedLines l ls)
      rw [hcarried, definitionsFrom_of_isDefinition hdef,
        definitionsFrom_of_isDefinition (hdef'.trans hdef), hcontinued, hc, hunlines, hdrop]
      have hlines : before ++ l :: ls = (before ++ l :: ls.take c) ++ ls.drop c := by
        rw [List.append_assoc, List.cons_append, List.take_append_drop]
      have hread : Alike (ReadsAlike (Text.unlines (l :: ls.take c)))
          (ofDefinition (Text.unlines (l :: ls.take c)) n (Text.ended before).length)
          (ofDefinition (withCarriages (Text.unlines (l :: ls.take c)) ++ z) n
            (withCarriages (Text.ended before)).length) := by
        rw [Text.unlines_cons_eq]
        exact ofDefinition_carried hl hdef _ (hz.imp And.left And.left) _ _ _
      have hfirst := hread.imp fun hm hm' hreads => twin_of_readsAlike hm hm' hreads (ls.drop c) hz
      rw [List.take_append_drop] at hfirst
      have hrest := ih (fun k hk => hls' k (List.mem_of_mem_drop hk)) (n + 1 + c)
        ((Text.ended before).length + (Text.unlines (l :: ls.take c)).length + 1)
        ((withCarriages (Text.ended before)).length +
          (withCarriages (Text.unlines (l :: ls.take c)) ++ z).length + 1)
        (before ++ l :: ls.take c) (by
          intro hne
          rcases hz with ⟨_, hnil⟩ | ⟨rfl, _⟩
          · exact absurd hnil hne
          · rcases length_ended_append before l (ls.take c) with ⟨hlength, hlength'⟩
            rw [hlength, hlength', List.length_append, List.length_singleton]
            exact ⟨rfl, rfl⟩)
      rw [← hlines] at hrest
      exact alike_cons hfirst hrest
  | case3 l ls hdef ih =>
      rcases List.forall_mem_cons.mp hls with ⟨hl, hls'⟩
      rcases h (List.cons_ne_nil l ls) with ⟨rfl, rfl⟩
      rcases exists_carriedLines l hls (Nat.zero_le _) with ⟨l', z, hcarried, hl', hunlines, _, hz⟩
      have hplain : isDefinition l = false := by simpa using hdef
      have hplain' := (isDefinition_of_carried hl hl' (carriedLines ls)).1.trans hplain
      rw [hcarried, definitionsFrom_of_not_isDefinition hplain,
        definitionsFrom_of_not_isDefinition hplain']
      rw [List.append_cons]
      apply ih hls'
      intro hne
      rcases hz with ⟨_, hnil⟩ | ⟨rfl, _⟩
      · exact absurd hnil hne
      · rcases length_ended_append before l [] with ⟨hlength, hlength'⟩
        rw [List.take_zero, List.take_zero, Text.unlines_singleton,
          Text.unlines_singleton] at hunlines
        rw [Text.unlines_singleton] at hlength hlength'
        rw [hlength, hlength', hunlines, List.length_append, List.length_singleton]
        exact ⟨rfl, rfl⟩

theorem definitions_withCarriages (code : Text) :
    Alike (List.Forall₂ (Twin code)) (definitions code) (definitions (withCarriages code)) := by
  have hcarried := definitionsFrom_carried
    (fun l (hl : l ∈ code.lines) => Text.not_mem_of_mem_lines hl) 1 0 0 [] (fun _ => ⟨rfl, rfl⟩)
  rw [List.nil_append, Text.unlines_lines, ← Text.lines_withCarriages] at hcarried
  exact hcarried

end FunctionMacro

end EffectShader
