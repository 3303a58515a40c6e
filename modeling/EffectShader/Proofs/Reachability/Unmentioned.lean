import EffectShader.Proofs.Legacy.Remains
import EffectShader.Proofs.Reachability.Kept

/-!
# What a removed function is still used by

The tokens outside the removed functions are cut from the result as they were cut from
the source, up to white space, if each removed function stands behind white space, a
block comment, a bracket or a separator.  So the macros that are left are those that
stand outside, whatever they mention: a directive is one token, and a call is a word of
a body.
-/

namespace EffectShader

namespace Legacy

open Declaration Lexer Subpass

/-!
# Tokens of which some are blanked
-/

/-- The pieces outside, and the line ends of what stands inside. -/
def spared (inside : Token -> Bool) (ts : List Token) : List Piece :=
  ts.flatMap fun t =>
    if inside t || t.kind == .eof then padding (Edit.blank t.text) else [t.piece]

/-- The token ends where it does, whatever follows it, or it is white space. -/
def endsAlone (t : Token) : Bool :=
  t.kind == .whitespace || t.kind == .blockComment ||
    (t.kind == .operator && match t.text with
      | [b] => isSingle b
      | _ => false)

/-- A token outside that stands in front of one inside ends alone. -/
def isParted (inside : Token -> Bool) : List Token -> Bool
  | [] => true
  | t :: ts => (inside t || ts.head?.all (fun u => !inside u) || endsAlone t) && isParted inside ts

section Spared

variable {inside : Token -> Bool} {t : Token} {ts : List Token}

theorem spared_cons (t : Token) (ts : List Token) :
    spared inside (t :: ts) = spared inside [t] ++ spared inside ts := by
  simp [spared]

theorem spared_outside (ht : inside t = false) (hne : t.kind ≠ .eof) :
    spared inside [t] = [t.piece] := by
  simp [spared, ht, hne]

theorem spared_inside (ht : inside t = true) : spared inside [t] = padding (Edit.blank t.text) := by
  simp [spared, ht]

theorem spared_end (ht : t.kind = .eof) (htext : t.text = []) : spared inside [t] = [] := by
  simp [spared, ht, htext, Edit.blank, padding, Text.newlines]

theorem inked_spared (inside : Token -> Bool) (ts : List Token) :
    inked (spared inside ts) = inked (piecesOf (ts.filter fun t => !inside t)) := by
  induction ts with
  | nil => rfl
  | cons t ts ih =>
      rw [spared_cons, inked_append, ih]
      by_cases heof : t.kind = .eof
      · cases ht : inside t <;> simp [spared, piecesOf, ht, heof, inked_padding]
      · cases ht : inside t with
        | true => rw [spared_inside ht, inked_padding, List.filter_cons_of_neg (by simp [ht])]; rfl
        | false =>
            have hpieces : piecesOf (t :: ts.filter fun t => !inside t) =
                [t.piece] ++ piecesOf (ts.filter fun t => !inside t) := by
              unfold piecesOf
              rw [List.map_cons, List.filter_cons_of_pos (by simpa using heof)]
              rfl
            rw [spared_outside ht heof, List.filter_cons_of_pos (by simp [ht]), hpieces,
              inked_append]

theorem isParted_cons (h : isParted inside (t :: ts) = true) :
    (inside t = false -> (forall u, ts.head? = some u -> inside u = false) ∨ endsAlone t = true) ∧
      isParted inside ts = true := by
  rw [isParted, Bool.and_eq_true, Bool.or_eq_true, Bool.or_eq_true] at h
  refine ⟨fun ht => ?_, h.2⟩
  rcases h.1 with (ht' | hnext) | halone
  · rw [ht] at ht'
    cases ht'
  · left
    intro u hu
    rw [hu] at hnext
    simpa using hnext
  · exact Or.inr halone

theorem staysFresh_blank {f f' : Bool} (hf : f = true -> f' = true) (t : Token) :
    staysFresh f t.kind t.text = true ->
      (f' || (Edit.blank t.text).contains Byte.newline) = true := by
  have hblank : t.text.contains Byte.newline = true ->
      (Edit.blank t.text).contains Byte.newline = true := by
    intro hmem
    have hcount : 0 < Text.newlines t.text := List.count_pos_iff.mpr (by simpa using hmem)
    unfold Edit.blank
    rw [List.contains_iff_mem, List.mem_replicate]
    exact ⟨Nat.ne_of_gt hcount, rfl⟩
  intro hstays
  have hcases : f = true ∨ t.text.contains Byte.newline = true := by
    unfold staysFresh at hstays
    split at hstays
    · exact Bool.or_eq_true_iff.mp hstays
    · exact Bool.or_eq_true_iff.mp hstays
    · cases hstays
  rcases hcases with h | h
  · rw [hf h, Bool.true_or]
  · rw [hblank h, Bool.or_true]

theorem isBarrier_of_endsAlone {f : Bool} {b : UInt8} {v r : Text} (htext : t.text = b :: v)
    (hextent : extent? f b (v ++ r) = some (t.kind, v.length)) (h : endsAlone t = true) :
    isBarrier b = true := by
  have hspec := form_spec f b (v ++ r).head?
  rw [form_of_extent? hextent] at hspec
  simp only [endsAlone, Bool.or_eq_true, beq_iff_eq, Bool.and_eq_true] at h
  rcases h with (hkind | hkind) | ⟨_, hsingle⟩
  · rw [hkind] at hspec
    exact isBarrier_of_isSeparator hspec
  · rw [hkind] at hspec
    rw [hspec.1]
    rfl
  · rw [htext] at hsingle
    split at hsingle
    · rename_i hb
      rw [(List.cons.inj hb).1]
      exact (Bool.and_eq_true_iff.mp hsingle).1
    · cases hsingle

theorem sameUntilBarrier_spared {f : Bool} (hreads : Reads f ts) (hends : EndsOnce ts)
    (hparted : isParted inside ts = true)
    (hfirst : forall u, ts.head? = some u -> inside u = false) :
    SameUntilBarrier (textOf ts) (spell (spared inside ts)) := by
  induction ts generalizing f with
  | nil => exact SameUntilBarrier.refl []
  | cons t ts ih =>
      have ht : inside t = false := hfirst t rfl
      by_cases heof : t.kind = .eof
      · rcases hends [] t ts rfl heof with ⟨htext, rfl⟩
        rw [spared_end heof htext, textOf_cons, htext]
        exact SameUntilBarrier.refl []
      · rcases hreads.cons heof with ⟨b, v, htext, hextent, hrest⟩
        rcases isParted_cons hparted with ⟨hseam, hparted⟩
        rw [spared_cons, spared_outside ht heof, spell_append, spell_cons, spell_nil,
          List.append_nil, textOf_cons, Token.text_piece]
        rcases hseam ht with hnext | halone
        · exact (ih hrest hends.tail hparted hnext).append t.text
        · rw [htext]
          exact SameUntilBarrier.barrier (isBarrier_of_endsAlone htext hextent halone) [] _ _

theorem extent?_spared {f : Bool} {b : UInt8} {v : Text} (ht : inside t = false)
    (hreads : Reads (staysFresh f t.kind t.text) ts) (hends : EndsOnce ts)
    (hparted : isParted inside (t :: ts) = true) (htext : t.text = b :: v)
    (hextent : extent? f b (v ++ textOf ts) = some (t.kind, v.length))
    (hspace : t.kind ≠ .whitespace) :
    extent? f b (v ++ spell (spared inside ts)) = some (t.kind, v.length) := by
  rcases isParted_cons hparted with ⟨hseam, hparted⟩
  rcases hseam ht with hnext | halone
  · exact extent?_sameUntilBarrier hextent (sameUntilBarrier_spared hreads hends hparted hnext)
  · simp only [endsAlone, Bool.or_eq_true, beq_iff_eq, Bool.and_eq_true] at halone
    rcases halone with (hkind | hkind) | ⟨hkind, hsingle⟩
    · exact absurd hkind hspace
    · rw [hkind] at hextent ⊢
      exact extent?_blockComment hextent _
    · refine extent?_of_closes hextent ?_
      unfold Closes
      rw [hkind]
      left
      split at hsingle
      · rename_i c hc
        exact ⟨c, htext.symm.trans hc, hsingle⟩
      · cases hsingle

theorem relexes_spared {f f' : Bool} (hf : f = true -> f' = true) (hreads : Reads f ts)
    (hends : EndsOnce ts) (hparted : isParted inside ts = true)
    (hhash : strayHash ∉ ts.map Token.piece) : Relexes f' (spared inside ts) := by
  -- Blanks keep the line ends, so the result is fresh wherever the source is.
  induction ts generalizing f f' with
  | nil => exact Relexes.nil f'
  | cons t ts ih =>
      by_cases heof : t.kind = .eof
      · rcases hends [] t ts rfl heof with ⟨htext, rfl⟩
        rw [spared_end heof htext]
        exact Relexes.nil f'
      rw [List.map_cons, List.mem_cons, not_or] at hhash
      have hbehind : forall {g g' : Bool}, (g = true -> g' = true) -> Reads g ts ->
          Relexes g' (spared inside ts) :=
        fun hg hrest => ih hg hrest hends.tail (isParted_cons hparted).2 hhash.2
      rw [spared_cons]
      cases ht : inside t with
      | true =>
          rcases hreads.cons heof with ⟨_, _, _, _, hrest⟩
          rw [spared_inside ht]
          apply Relexes.padding _ (hbehind (staysFresh_blank hf t) hrest)
          intro c hc
          rw [List.eq_of_mem_replicate hc]
          rfl
      | false =>
          rw [spared_outside ht heof]
          refine hreads.relexes_token heof (Ne.symm hhash.1) hf ?_ hbehind
          intro b v htext hextent hrest hspace
          exact extent?_spared ht hrest hends.tail hparted htext hextent hspace

end Spared

end Legacy

namespace Text

open Declaration Legacy Lexer Subpass

theorem erase_textOf {inside : Nat -> Bool} {o : Nat} {ts : List Token} (hplaced : Placed o ts)
    (hends : EndsOnce ts)
    (h : forall t, t ∈ ts -> forall i, t.offset ≤ i -> i < t.stop -> inside i = inside t.offset) :
    erase inside o (textOf ts) = spell (spared (fun t => inside t.offset) ts) := by
  induction ts generalizing o with
  | nil => rfl
  | cons t ts ih =>
      rcases hplaced with ⟨rfl, hrest⟩
      rcases List.forall_mem_cons.mp h with ⟨ht, hlater⟩
      rw [textOf_cons, erase_append, spared_cons, spell_append, ← ih hrest hends.tail hlater]
      congr 1
      cases hin : inside t.offset with
      | true =>
          rw [spared_inside hin, spell_padding, Edit.blank]
          exact erase_eq_replicate fun i hi hi' => (ht i hi hi').trans hin
      | false =>
          by_cases heof : t.kind = .eof
          · have htext : t.text = [] := (hends [] t ts rfl heof).1
            rw [spared_end heof htext, htext]
            rfl
          · rw [spared_outside hin heof, spell_cons, spell_nil, List.append_nil]
            exact erase_eq_self fun i hi hi' => (ht i hi hi').trans hin

end Text

namespace ShaderFunction

open Declaration Legacy Lexer Subpass

/-!
# Where functions start and stop
-/

/-- No token stands on both sides of the offset. -/
def IsSeam (ts : List Token) (n : Nat) : Prop :=
  forall t, t ∈ ts -> n ≤ t.offset ∨ t.stop ≤ n

theorem isSeam_of_mem {ts : List Token} (h : ts.Pairwise fun t u => t.stop ≤ u.offset) {u : Token}
    (hu : u ∈ ts) : IsSeam ts u.offset ∧ IsSeam ts u.stop := by
  rcases List.append_of_mem hu with ⟨before, after, rfl⟩
  rcases List.pairwise_append.mp h with ⟨_, hafter, hbefore⟩
  have hle : u.offset ≤ u.stop := Nat.le_add_right _ _
  have hcases : forall t, t ∈ before ++ u :: after ->
      t.stop ≤ u.offset ∨ t = u ∨ u.stop ≤ t.offset := by
    intro t ht
    rcases List.mem_append.mp ht with ht | ht
    · exact Or.inl (hbefore t ht u List.mem_cons_self)
    · rcases List.mem_cons.mp ht with rfl | ht
      · exact Or.inr (Or.inl rfl)
      · exact Or.inr (Or.inr (List.rel_of_pairwise_cons hafter ht))
  constructor
  · intro t ht
    rcases hcases t ht with hbefore | rfl | hafter
    · exact Or.inr hbefore
    · exact Or.inl (Nat.le_refl _)
    · exact Or.inl (hle.trans hafter)
  · intro t ht
    rcases hcases t ht with hbefore | rfl | hafter
    · exact Or.inr (hbefore.trans hle)
    · exact Or.inr (Nat.le_refl _)
    · exact Or.inl hafter

/-- The scanner has read its heading from these tokens, and what it reads next ends with them. -/
structure Among (all heading ts : List Token) : Prop where
  heading : heading ⊆ all
  rest : ts ⊆ all
  ends : Stream.Ends ts

namespace Among

variable {all heading ts rest : List Token} {t : Token}

theorem forget (h : Among all heading ts) : Among all [] ts :=
  ⟨List.nil_subset all, h.rest, h.ends⟩

theorem next (h : Among all heading ts) (hs : Stream.skipTrivia ts = t :: rest)
    (ht : ¬ (t.kind == .eof) = true) : Among all (t :: heading) rest := by
  have hskip : t :: rest ⊆ ts := hs ▸ (List.dropWhile_suffix Token.isTrivia).subset
  have hends : Stream.Ends (t :: rest) := hs ▸ h.ends.skipTrivia
  exact ⟨List.cons_subset.mpr ⟨h.rest (hskip List.mem_cons_self), h.heading⟩,
    fun u hu => h.rest (hskip (List.mem_cons_of_mem t hu)), hends.tail (by simpa using ht)⟩

theorem group (h : Among all heading ts) (opening closing : Text) (depth : Nat) :
    Among all heading (Stream.closeGroup opening closing depth ts).2 := by
  rcases Stream.closeGroup_ends opening closing depth h.ends with ⟨_, hsuffix, hends⟩
  exact ⟨h.heading, fun u hu => h.rest (hsuffix.subset hu), hends⟩

end Among

theorem exists_bounds {all heading ts : List Token} (h : Among all heading ts) :
    forall d, d ∈ scan heading ts ->
      (exists t, t ∈ all ∧ d.start = t.offset) ∧ exists t, t ∈ all ∧ d.stop = t.stop := by
  fun_induction scan heading ts with
  | case1 => simp
  | case2 => simp
  | case3 heading ts t rest hs _ ht _ ih => exact ih (h.next hs ht).forget
  | case4 heading ts t rest hs _ ht _ _ _ ih => exact ih ((h.next hs ht).group _ _ 1).forget
  | case5 ts t rest hs _ ht _ _ _ after _ name type earlier _ inside _ closing _ ih =>
      have hafter := (h.next hs ht).group "(" ")" 1
      have hinside : Among all (t :: name :: type :: earlier) inside :=
        ⟨hafter.heading, fun u hu => hafter.rest ((Stream.tailSignificant_suffix after).subset hu),
          hafter.ends.tailSignificant⟩
      rw [List.forall_mem_cons]
      constructor
      · constructor
        · have hmem := headingStart_mem type earlier
          exact ⟨_, hinside.heading (List.mem_cons_of_mem t (List.mem_cons_of_mem name hmem)), rfl⟩
        · exact ⟨_, hinside.rest (Stream.closeGroup_ends Op.openBrace Op.closeBrace 1
            hinside.ends).1, rfl⟩
      · exact ih (hinside.group _ _ 1).forget
  | case6 ts t rest hs _ ht _ _ _ after _ name type earlier _ ih =>
      exact ih ((h.next hs ht).group _ _ 1)
  | case7 heading ts t rest hs _ ht _ _ _ after _ _ ih => exact ih ((h.next hs ht).group _ _ 1)
  | case8 heading ts t rest hs _ ht _ _ _ ih => exact ih (h.next hs ht)

/-!
# The tokens that are left
-/

def Elimination.removes (e : Elimination) (ts : List Token) (i : Nat) : Bool :=
  (scan [] ts).any fun d => !(e.remainder.functions.map (·.name)).contains d.name &&
    (decide (d.start ≤ i) && decide (i < d.stop))

section Removed

variable {code entry : Text} {e : Elimination} {ts : List Token}

/-- Without functions nothing is removed; otherwise the entry is one of them. -/
theorem entry_mem_of_eliminate (htokens : tokenize code = .ok ts)
    (h : eliminate code entry = .ok e) (hok : e.failure = none) :
    (ofTokens ts = [] ∧ e.remainder.code = code) ∨ entry ∈ (ofTokens ts).map (·.name) := by
  unfold eliminate at h
  rw [htokens] at h
  dsimp only at h
  split at h
  · rename_i hnone
    cases h
    exact Or.inl ⟨hnone, rfl⟩
  · rename_i f rest hfns
    cases h
    split at hok
    · rename_i hfound
      right
      rw [hfns]
      rcases List.any_eq_true.mp hfound with ⟨g, hg, hname⟩
      exact List.mem_map.mpr ⟨g, hg, eq_of_beq hname⟩
    · cases hok

theorem code_eliminate (htokens : tokenize code = .ok ts) (h : eliminate code entry = .ok e)
    (hok : e.failure = none) : e.remainder.code = Text.erase (e.removes ts) 0 code := by
  rcases entry_mem_of_eliminate htokens h hok with ⟨hnone, hcode⟩ | hentry
  · have hscan : scan [] ts = [] := by simpa [ofTokens] using hnone
    rw [hcode, Text.erase_eq_self]
    intro i _ _
    rw [Elimination.removes, hscan, List.any_nil]
  · rcases eliminate_keeps_closure htokens hentry with ⟨r, stays, helim, hstays, _, _, hcode, _⟩
    rw [h] at helim
    cases helim
    rw [hcode]
    apply Text.erase_congr
    intro i _ _
    have hkept : forall f, f ∈ ofTokens ts ->
        stays f = (r.functions.map (·.name)).contains f.name := by
      intro f hf
      rcases exists_of_mem_ofTokens hf with ⟨d, hd, hname, _⟩
      have hkeeps := keeps_iff htokens h hok hd
      rw [Bool.eq_iff_iff, hstays f hf, ← hname, ← hkeeps, List.contains_iff_mem]
      rfl
    have herased : isErased stays (ofTokens ts) i = (ofTokens ts).any fun f =>
        !(r.functions.map (·.name)).contains f.name &&
          (decide (f.start ≤ i) && decide (i < f.stop)) := by
      unfold isErased
      rw [Bool.eq_iff_iff, List.any_eq_true, List.any_eq_true]
      exact exists_congr fun f => and_congr_right fun hf => by rw [hkept f hf]
    rw [herased, Elimination.removes, ofTokens, List.any_map, List.any_map]
    rfl

theorem removes_eq (htokens : tokenize code = .ok ts) {t : Token} (ht : t ∈ ts) {i : Nat}
    (hstart : t.offset ≤ i) (hstop : i < t.stop) : e.removes ts i = e.removes ts t.offset := by
  have happart := (spread_of_tokenize htokens).apart
  have hamong : Among ts [] ts :=
    ⟨List.nil_subset ts, List.Subset.refl ts, (precedes_of_tokenize htokens).ends⟩
  unfold Elimination.removes
  rw [Bool.eq_iff_iff, List.any_eq_true, List.any_eq_true]
  refine exists_congr fun d => and_congr_right fun hd => ?_
  rcases exists_bounds hamong d hd with ⟨⟨u, hu, hfirst⟩, v, hv, hlast⟩
  have hleft := (isSeam_of_mem happart hu).1 t ht
  have hright := (isSeam_of_mem happart hv).2 t ht
  rw [← hfirst] at hleft
  rw [← hlast] at hright
  have hspan : (d.start ≤ i ∧ i < d.stop) ↔ (d.start ≤ t.offset ∧ t.offset < d.stop) := by
    omega
  simp only [Bool.and_eq_true, decide_eq_true_eq, hspan]

/-- The text lets the tokens outside be read again: no hash sign stands inside a line, and in
front of a removed definition stands nothing, white space, a block comment, a bracket or a
separator. -/
def Elimination.isTidy (e : Elimination) (ts : List Token) : Bool :=
  !(ts.map Token.piece).contains strayHash && isParted (fun t => e.removes ts t.offset) ts

theorem exists_tokens_eliminate (htokens : tokenize code = .ok ts)
    (h : eliminate code entry = .ok e) (hok : e.failure = none) (htidy : e.isTidy ts = true) :
    exists us, tokenize e.remainder.code = .ok us ∧
      inked (piecesOf us) = inked (piecesOf (ts.filter fun t => !e.removes ts t.offset)) := by
  rcases reads_of_tokenize htokens with ⟨hreads, hends⟩
  rw [Elimination.isTidy, Bool.and_eq_true, Bool.not_eq_true', ← Bool.not_eq_true,
    List.contains_iff_mem] at htidy
  have herase : Text.erase (e.removes ts) 0 (textOf ts) =
      spell (spared (fun t => e.removes ts t.offset) ts) :=
    Text.erase_textOf (placed_of_tokenize htokens) hends
      fun t ht i hstart hstop => removes_eq htokens ht hstart hstop
  rw [textOf_of_tokenize htokens, ← code_eliminate htokens h hok] at herase
  rcases relexes_spared id hreads hends htidy.2 htidy.1 with ⟨ws, hws, hinked⟩
  rw [← herase] at hws
  refine ⟨place Position.start ws, tokenize_eq_ok_iff.mpr ⟨ws, hws, rfl⟩, ?_⟩
  rw [piecesOf_place (kind_ne_eof_of_lexes hws), hinked, inked_spared]

/-!
# Names that are still mentioned
-/

/-- The directive defines a macro in whose replacement text the name is a word. -/
def macroMentions (name : Text) (w : Piece) : Bool :=
  w.kind == .directive && (Directive.parse? w.text).any fun d =>
    d.name == ("define" : Text) && (tokenize d.body).toOption.any fun ts =>
      (mentions (replacement ts)).contains name

/-- The name is a word neither in the body of a definition that stays nor in the replacement text of
a macro that is left. -/
def Elimination.IsUnmentioned (e : Elimination) (ts us : List Token) (name : Text) : Prop :=
  (forall d, d ∈ scan [] ts -> e.keeps d -> name ∉ mentions d.body) ∧
    us.any (fun u => macroMentions name u.piece) = false

theorem any_macroMentions (name : Text) (ts : List Token) :
    ts.any (fun t => macroMentions name t.piece) =
      (inked (piecesOf ts)).any (macroMentions name) := by
  induction ts with
  | nil => rfl
  | cons t ts ih =>
      have hother : t.kind ≠ .directive -> macroMentions name t.piece = false := by
        intro hkind
        simp [macroMentions, hkind]
      unfold piecesOf at ih ⊢
      rw [List.any_cons, ih, List.map_cons]
      by_cases heof : t.kind = .eof
      · rw [List.filter_cons_of_neg (by simp [heof]), hother (by simp [heof]), Bool.false_or]
      · rw [List.filter_cons_of_pos (by simpa using heof)]
        by_cases hspace : t.kind = .whitespace
        · rw [inked_cons_of_whitespace hspace, hother (by simp [hspace]), Bool.false_or]
        · rw [inked_cons hspace, List.any_cons]

/-- Elimination keeps the definitions named `main` and those that the entry reaches, and the latter
mention none that was removed.  What is removed can still be mentioned in a `main` that the
entry does not reach, and in the macros that stand outside the removed definitions: a directive
is one token, so its words are no calls. -/
theorem removed_unmentioned_iff (h : eliminate code entry = .ok e) (hok : e.failure = none) :
    exists ts, tokenize code = .ok ts ∧
      (forall d, d ∈ scan [] ts ->
        (e.keeps d ↔ d.name = "main" ∨ Reaches (ofTokens ts) entry d.name)) ∧
      (forall d, d ∈ scan [] ts -> Reaches (ofTokens ts) entry d.name ->
        forall f, f ∈ scan [] ts -> ¬ e.keeps f -> f.name ∉ mentions d.body) ∧
      (e.isTidy ts = true ->
        exists us, tokenize e.remainder.code = .ok us ∧
          forall f, f ∈ scan [] ts -> ¬ e.keeps f ->
            (e.IsUnmentioned ts us f.name ↔
              (Reaches (ofTokens ts) entry "main" ∨
                forall d, d ∈ scan [] ts -> d.name = "main" -> f.name ∉ mentions d.body) ∧
              (ts.filter fun t => !e.removes ts t.offset).any
                (fun t => macroMentions f.name t.piece) = false)) := by
  cases htokens : tokenize code with
  | error err =>
      unfold eliminate at h
      rw [htokens] at h
      cases h
  | ok ts =>
      have hkeeps := fun d (hd : d ∈ scan [] ts) => keeps_iff htokens h hok hd
      have hreached := fun d (hd : d ∈ scan [] ts) hreach f (hf : f ∈ scan [] ts) hremoved =>
        not_mentioned_of_reaches htokens h hok hd hreach hf hremoved
      refine ⟨ts, rfl, hkeeps, hreached, fun htidy => ?_⟩
      rcases exists_tokens_eliminate htokens h hok htidy with ⟨us, hus, hinked⟩
      refine ⟨us, hus, fun f hf hremoved => ?_⟩
      unfold Elimination.IsUnmentioned
      rw [any_macroMentions, hinked, ← any_macroMentions]
      refine and_congr_left fun _ => ?_
      constructor
      · intro hbodies
        right
        intro d hd hmain
        exact hbodies d hd ((hkeeps d hd).mpr (Or.inl hmain))
      · rintro hmain d hd hkept
        rcases (hkeeps d hd).mp hkept with hname | hreach
        · rcases hmain with hreach | hmain
          · exact hreached d hd (hname ▸ hreach) f hf hremoved
          · exact hmain d hd hname
        · exact hreached d hd hreach f hf hremoved

end Removed

def calledByMacro : Text :=
  "void h(){}void e(){}\n#define CALL h()\nvoid main(){CALL;}"

theorem eliminate_calledByMacro :
    ((eliminate calledByMacro "main").toOption.any fun e =>
      (tokenize calledByMacro).toOption.any fun ts =>
      (tokenize e.remainder.code).toOption.any fun us => e.failure.isNone && (e.isTidy ts &&
        (((scan [] ts).any fun f => !(e.remainder.functions.map (·.name)).contains f.name &&
          us.any fun u => macroMentions f.name u.piece) &&
        (scan [] ts).any fun f => !(e.remainder.functions.map (·.name)).contains f.name &&
          (((scan [] ts).all fun d => !(mentions d.body).contains f.name) &&
            !(ts.filter fun t => !e.removes ts t.offset).any
              fun t => macroMentions f.name t.piece)))) = true := by
  decide +kernel

theorem removed_unmentioned_iff_calledByMacro :
    exists e ts us f, eliminate calledByMacro "main" = .ok e ∧ e.failure = none ∧
      tokenize calledByMacro = .ok ts ∧ e.isTidy ts = true ∧ tokenize e.remainder.code = .ok us ∧
      f ∈ scan [] ts ∧ ¬ e.keeps f ∧ e.IsUnmentioned ts us f.name := by
  have hrun := eliminate_calledByMacro
  simp only [Option.any_eq_true, toOption_eq_some_iff, Bool.and_eq_true, Bool.not_eq_true',
    List.any_eq_true, List.all_eq_true, Option.isNone_iff_eq_none, List.contains_eq_mem,
    decide_eq_false_iff_not] at hrun
  rcases hrun with ⟨e, he, ts, hts, _, _, hok, htidy, _, f, hf, hremoved, hbodies, hmacros⟩
  rcases removed_unmentioned_iff he hok with ⟨ts', hts', _, _, hexact⟩
  cases hts.symm.trans hts'
  rcases hexact htidy with ⟨us, hus, hiff⟩
  exact ⟨e, ts, us, f, he, hok, hts, htidy, hus, hf, hremoved,
    (hiff f hf hremoved).mpr ⟨Or.inr fun d hd _ => hbodies d hd, hmacros⟩⟩

/-- A function that is called through a macro only is removed. -/
theorem macro_mentions_removed :
    exists e ts us f, eliminate calledByMacro "main" = .ok e ∧ e.failure = none ∧
      tokenize calledByMacro = .ok ts ∧ tokenize e.remainder.code = .ok us ∧
      f ∈ scan [] ts ∧ ¬ e.keeps f ∧ us.any (fun u => macroMentions f.name u.piece) = true := by
  have hrun := eliminate_calledByMacro
  simp only [Option.any_eq_true, toOption_eq_some_iff, Bool.and_eq_true, Bool.not_eq_true',
    List.any_eq_true, Option.isNone_iff_eq_none, List.contains_eq_mem,
    decide_eq_false_iff_not] at hrun
  rcases hrun with ⟨e, he, ts, hts, us, hus, hok, _, ⟨f, hf, hremoved, hmention⟩, _⟩
  exact ⟨e, ts, us, f, he, hok, hts, hus, hf, hremoved, List.any_eq_true.mpr hmention⟩

end ShaderFunction

end EffectShader
