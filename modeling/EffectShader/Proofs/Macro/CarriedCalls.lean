import EffectShader.Proofs.Macro.CarriedDefinitions
import EffectShader.Proofs.Macro.Completion

/-!
# Calls in texts with carriage returns

No part of a call is the end of a line, except in its arguments.  So the calls of a text are
those of the text with carriage returns, and the arguments and the bodies that they are put into
differ by the line ends only.
-/

namespace EffectShader

namespace FunctionMacro

open Text (withCarriages IsInline)

/-!
# Bytes that belong to no call
-/

/-- The byte is neither part of a call nor of the start of a comment. -/
structure IsInert (b : UInt8) : Prop where
  word : Byte.isWord b = false
  slash : b ≠ Byte.slash
  openParen : b ≠ Byte.openParen

instance (b : UInt8) : Decidable (IsInert b) :=
  decidable_of_iff (Byte.isWord b = false ∧ b ≠ Byte.slash ∧ b ≠ Byte.openParen)
    ⟨fun h => ⟨h.1, h.2.1, h.2.2⟩, fun h => ⟨h.word, h.slash, h.openParen⟩⟩

theorem isInert_of_blank {y : Text} (h : Text.Blank y) : forall b, b ∈ y -> IsInert b := by
  have hspellings : (Text.blankSpellings.flatten.all fun b => decide (IsInert b)) = true := by
    decide +kernel
  induction h with
  | nil => exact List.forall_mem_nil _
  | cons hw _ ih =>
      intro b hb
      rcases List.mem_append.mp hb with hb | hb
      · have hmem := List.mem_flatten.mpr ⟨_, hw, hb⟩
        exact of_decide_eq_true (List.all_eq_true.mp hspellings b hmem)
      · exact ih b hb

section Inert

variable {name x s : Text} (hname : forall b, b ∈ name -> Byte.isWord b = true)
  (hx : forall b, b ∈ x -> IsInert b)

include hx

theorem isCommented_append_inert (u : Text) : IsCommented (x ++ u) ↔ IsCommented u := by
  constructor
  · rintro ⟨p, q, heq, hq⟩
    rcases List.append_eq_append_iff.mp heq with ⟨w, rfl, hu⟩ | ⟨c, hxc, hrest⟩
    · exact ⟨w, q, hu, hq⟩
    · cases c with
      | nil => exact ⟨[], q, hrest.symm, hq⟩
      | cons b c =>
          rcases List.cons.inj hrest with ⟨rfl, _⟩
          have hmem : Byte.slash ∈ x := by
            rw [hxc]
            exact List.mem_append_right p List.mem_cons_self
          exact absurd rfl (hx _ hmem).slash
  · rintro ⟨p, q, rfl, hq⟩
    exact ⟨x ++ p, q, (List.append_assoc ..).symm, hq⟩

theorem boundary_append_inert (u : Text) :
    (x ++ u).getLast?.any Byte.isWord = u.getLast?.any Byte.isWord := by
  by_cases hu : u = []
  · subst hu
    rw [List.append_nil]
    cases hlast : x.getLast? with
    | none => rfl
    | some b => exact (hx b (List.mem_of_getLast? hlast)).word
  · rw [List.getLast?_append_of_ne_nil _ hu]

theorem calls_append_inert : Calls name (s ++ x) ↔ Calls name s := by
  constructor
  · rintro ⟨u, v, heq, hcall⟩
    have hparen : Byte.openParen ∉ x := fun hmem => (hx _ hmem).openParen rfl
    rcases hcall.applied with ⟨blanks, rest, rfl, hblanks⟩
    rcases List.append_eq_append_iff.mp heq with ⟨w, _, hxw⟩ | ⟨w, rfl, hv⟩
    · exact absurd (by rw [hxw]; simp) hparen
    · refine ⟨u, w, rfl, hcall.boundary, ?_, hcall.code⟩
      have hcut : (name ++ (blanks ++ [Byte.openParen])) ++ rest = w ++ x := by
        rw [← hv]
        simp
      rcases List.append_eq_append_iff.mp hcut with ⟨t, rfl, _⟩ | ⟨t, hw, hxt⟩
      · exact ⟨blanks, t, by simp, hblanks⟩
      · rcases List.eq_nil_or_concat t with rfl | ⟨t, c, rfl⟩
        · rw [List.append_nil] at hw
          exact ⟨blanks, [], hw.symm, hblanks⟩
        · have hlast : (name ++ blanks) ++ [Byte.openParen] = (w ++ t) ++ [c] := by
            rw [List.append_assoc, hw, List.concat_eq_append, List.append_assoc]
          have hc : Byte.openParen = c := List.singleton_inj.mp (List.append_inj' hlast rfl).2
          exact absurd (by rw [hxt, hc]; simp) hparen
  · rintro ⟨u, v, rfl, hcall⟩
    rcases hcall.applied with ⟨blanks, rest, rfl, hblanks⟩
    refine ⟨u, _, List.append_assoc u _ x, hcall.boundary, ⟨blanks, rest ++ x, ?_, hblanks⟩,
      hcall.code⟩
    simp only [List.append_assoc, List.cons_append]

include hname

theorem isApplied_of_inert_append (h : IsApplied name (x ++ s)) : IsApplied name s := by
  rcases h with ⟨blanks, rest, heq, hblanks⟩
  cases x with
  | nil => exact ⟨blanks, rest, heq, hblanks⟩
  | cons b x =>
      cases name with
      | cons a name =>
          have hword := (hx b List.mem_cons_self).word
          rw [(List.cons.inj heq).1, hname a List.mem_cons_self] at hword
          cases hword
      | nil =>
          rw [List.nil_append] at heq
          rcases List.append_eq_append_iff.mp heq with ⟨w, rfl, hs⟩ | ⟨w, hw, hrest⟩
          · exact ⟨w, rest, hs, fun c hc => hblanks c (List.mem_append_right _ hc)⟩
          · cases w with
            | nil => exact ⟨[], rest, hrest.symm, List.forall_mem_nil _⟩
            | cons c w =>
                have hc : c ∈ b :: x := hw ▸ List.mem_append_right blanks List.mem_cons_self
                exact absurd (List.cons.inj hrest).1.symm (hx c hc).openParen

theorem calls_inert_append : Calls name (x ++ s) ↔ Calls name s := by
  constructor
  · rintro ⟨u, v, heq, hcall⟩
    rcases List.append_eq_append_iff.mp heq with ⟨w, rfl, hs⟩ | ⟨c, hxc, hv⟩
    · refine ⟨w, v, hs, ?_, hcall.applied, ?_⟩
      · rw [← boundary_append_inert hx w]
        exact hcall.boundary
      · rw [← isCommented_append_inert hx w]
        exact hcall.code
    · have hc : forall b, b ∈ c -> IsInert b := fun b hb => hx b (hxc ▸ List.mem_append_right u hb)
      have happlied := isApplied_of_inert_append hname hc (hv ▸ hcall.applied)
      exact ⟨[], s, rfl, rfl, happlied, not_isCommented_nil⟩
  · rintro ⟨u, v, rfl, hcall⟩
    refine ⟨x ++ u, v, (List.append_assoc ..).symm, ?_, hcall.applied, ?_⟩
    · rw [boundary_append_inert hx]
      exact hcall.boundary
    · rw [isCommented_append_inert hx]
      exact hcall.code

end Inert

theorem calls_trim {name : Text} (hname : forall b, b ∈ name -> Byte.isWord b = true) (s : Text) :
    Calls name (Text.trim s) ↔ Calls name s := by
  rcases Text.exists_blank_trimLeft s with ⟨y, hy, hleft⟩
  rcases Text.exists_blank_trimRight (Text.trimLeft s) with ⟨z, hz, hright⟩
  conv_rhs => rw [hleft, hright]
  rw [calls_inert_append hname (isInert_of_blank hy), calls_append_inert (isInert_of_blank hz)]
  rfl

theorem calls_dropContinuations {name : Text} (hname : forall b, b ∈ name -> Byte.isWord b = true)
    (s : Text) : Calls name (dropContinuations s) ↔ Calls name s := by
  fun_induction dropContinuations s with
  | case1 rest ih =>
      have hinert : forall b, b ∈ [Byte.backslash, Byte.newline] -> IsInert b := by
        decide +kernel
      rw [ih, calls_trim hname]
      exact (calls_inert_append hname hinert).symm
  | case2 s _ => rfl

/-!
# The search for a call
-/

theorem head?_any_withCarriages {p : UInt8 -> Bool} (hp : p Byte.carriage = p Byte.newline)
    (s : Text) : (withCarriages s).head?.any p = s.head?.any p := by
  cases s using Text.lineInduction with
  | nil => rfl
  | newline s => exact hp
  | inline b s hb => rw [Text.withCarriages_cons hb, List.head?_cons, List.head?_cons]

theorem isInline_of_isWord {b : UInt8} (hb : Byte.isWord b = true) : IsInline b := by
  constructor
  · rintro rfl
    cases hb
  · rintro rfl
    cases hb

theorem isCall_of_not_isInline {name : Text} (hname : forall b, b ∈ name -> Byte.isWord b = true)
    {b : UInt8} (hb : ¬ IsInline b) (previous : UInt8) (s : Text) :
    isCall name previous (b :: s) = false := by
  rw [← Bool.not_eq_true, isCall_iff]
  rintro ⟨_, blanks, rest, heq, hblanks⟩
  apply hb
  cases name with
  | cons a name =>
      rw [(List.cons.inj heq).1]
      exact isInline_of_isWord (hname a List.mem_cons_self)
  | nil =>
      cases blanks with
      | nil =>
          rw [(List.cons.inj heq).1]
          decide
      | cons c blanks =>
          rw [(List.cons.inj heq).1]
          constructor
          · rintro rfl
            exact absurd (hblanks _ List.mem_cons_self) (by decide)
          · rintro rfl
            exact absurd (hblanks _ List.mem_cons_self) (by decide)

theorem isCall_withCarriages {name : Text} (hname : forall b, b ∈ name -> Byte.isWord b = true)
    (previous : UInt8) (s : Text) :
    isCall name previous (withCarriages s) = isCall name previous s := by
  unfold isCall Occurrence.after?
  rw [Text.afterPrefix?_withCarriages fun b hb => isInline_of_isWord (hname b hb)]
  cases Text.afterPrefix? name s with
  | none => rfl
  | some rest =>
      dsimp only [Option.map_some]
      rw [head?_any_withCarriages rfl]
      split
      · rfl
      · rw [Option.any_some, Option.any_some, (Text.span_withCarriages rfl rest).2,
          Bool.eq_iff_iff, beq_iff_eq, beq_iff_eq, Text.head?_withCarriages (by decide)]

inductive SamePlace (s : Text) (offset offset' : Nat) : Option Nat -> Option Nat -> Prop where
  | none : SamePlace s offset offset' none none
  | some {u v : Text} : s = u ++ v ->
      SamePlace s offset offset' (some (offset + u.length))
        (some (offset' + (withCarriages u).length))

theorem SamePlace.append {x s : Text} {offset offset' : Nat} {place place' : Option Nat}
    (h : SamePlace s (offset + x.length) (offset' + (withCarriages x).length) place place') :
    SamePlace (x ++ s) offset offset' place place' := by
  cases h with
  | none => exact SamePlace.none
  | @some u v hs =>
      rw [Nat.add_assoc, Nat.add_assoc, ← List.length_append, ← List.length_append,
        ← Text.withCarriages_append]
      exact SamePlace.some (by rw [hs, List.append_assoc])

theorem findCall?_withCarriages {name : Text}
    (hname : forall b, b ∈ name -> Byte.isWord b = true) {eligible eligible' : Nat -> Bool}
    (previous : UInt8) (commented : Bool) (offset offset' : Nat) (s : Text)
    (h : forall u v, s = u ++ v -> v.head? ≠ some Byte.newline ->
      eligible' (offset' + (withCarriages u).length) = eligible (offset + u.length)) :
    SamePlace s offset offset' (findCall? name eligible previous commented offset s)
      (findCall? name eligible' previous commented offset' (withCarriages s)) := by
  induction s using Text.lineInduction generalizing previous commented offset offset' with
  | nil => exact SamePlace.none
  | newline s ih =>
      rw [Text.withCarriages_newline, findCall?, findCall?, findCall?,
        isCall_of_not_isInline hname (by decide), isCall_of_not_isInline hname (by decide),
        isCall_of_not_isInline hname (by decide)]
      refine SamePlace.append (x := [Byte.newline]) (ih _ _ _ _ fun u v hs hv => ?_)
      have hthere := h ([Byte.newline] ++ u) v (by rw [hs]; rfl) hv
      rwa [Text.withCarriages_append, List.length_append, List.length_append, ← Nat.add_assoc,
        ← Nat.add_assoc] at hthere
  | inline b s hb ih =>
      have hhere := h [] (b :: s) rfl (by simpa using hb)
      have hcall := isCall_withCarriages hname previous (b :: s)
      rw [Text.withCarriages_cons hb] at hcall ⊢
      rw [findCall?, findCall?, hcall, show eligible' offset' = eligible offset from hhere]
      dsimp only
      split
      · exact SamePlace.some (u := []) rfl
      · have hlength : (withCarriages [b]).length = 1 := by
          rw [Text.withCarriages_cons hb]
          rfl
        refine SamePlace.append (x := [b]) ?_
        rw [hlength]
        refine ih _ _ _ _ fun u v hs hv => ?_
        have hthere := h ([b] ++ u) v (by rw [hs]; rfl) hv
        rwa [Text.withCarriages_append, List.length_append, List.length_append, hlength,
          ← Nat.add_assoc, ← Nat.add_assoc] at hthere

theorem calls_withCarriages {name : Text} (hname : forall b, b ∈ name -> Byte.isWord b = true)
    (s : Text) : Calls name (withCarriages s) ↔ Calls name s := by
  have hplace := @findCall?_withCarriages name hname (fun _ => true) (fun _ => true) Byte.newline
    false 0 0 s fun _ _ _ _ => rfl
  have hcalls : forall t, Calls name t ↔ (callIn? name (fun _ => true) t).isSome = true :=
    fun t => (isRecursive_iff ⟨name, [], t, 0, 0, 0⟩).symm
  rw [hcalls, hcalls]
  unfold callIn?
  generalize findCall? name _ _ _ _ s = place at hplace ⊢
  generalize findCall? name _ _ _ _ (withCarriages s) = place' at hplace ⊢
  cases hplace with
  | none => rfl
  | some => exact iff_of_true rfl rfl

theorem Twin.isRecursive {code : Text} {m m' : FunctionMacro} (h : Twin code m m')
    (hname : forall b, b ∈ m.name -> Byte.isWord b = true) :
    m'.isRecursive = m.isRecursive := by
  rcases h.reads.body with ⟨raw, _, hbody, hbody'⟩
  rw [Bool.eq_iff_iff, isRecursive_iff, isRecursive_iff, h.reads.name, hbody, hbody',
    calls_withCarriages hname, calls_dropContinuations hname]

/-!
# The leftmost call
-/

inductive SameCall (code : Text) :
    Option (FunctionMacro × Nat) -> Option (FunctionMacro × Nat) -> Prop where
  | none : SameCall code none none
  | some {u v : Text} {m m' : FunctionMacro} : code = u ++ v -> Twin code m m' ->
      SameCall code (some (m, u.length)) (some (m', (withCarriages u).length))

theorem firstCall?_withCarriages {code : Text} {m m' : FunctionMacro} (h : Twin code m m')
    (hname : forall b, b ∈ m.name -> Byte.isWord b = true) :
    SamePlace code 0 0 (firstCall? code m) (firstCall? (withCarriages code) m') := by
  unfold firstCall? callIn?
  rw [h.reads.name]
  apply findCall?_withCarriages hname
  intro u v huv hv
  rw [Nat.zero_add, Nat.zero_add, h.spans u v huv hv]

theorem better_withCarriages {code : Text} {blocked : List Text} {m m' : FunctionMacro}
    {best best' : Option (FunctionMacro × Nat)} (hbest : SameCall code best best')
    (h : Twin code m m') (hname : forall b, b ∈ m.name -> Byte.isWord b = true) :
    SameCall code (better code blocked best m) (better (withCarriages code) blocked best' m') := by
  have hfirst := firstCall?_withCarriages h hname
  unfold better
  rw [h.reads.name]
  split
  · exact hbest
  · generalize firstCall? code m = place at hfirst ⊢
    generalize firstCall? (withCarriages code) m' = place' at hfirst ⊢
    cases hfirst with
    | none => exact hbest
    | @some u v huv =>
        rw [Nat.zero_add, Nat.zero_add]
        cases hbest with
        | none => exact SameCall.some huv h
        | @some x y n n' hxy hn =>
            dsimp only
            rw [if_congr (Text.length_withCarriages_lt_iff (hxy.symm.trans huv)) rfl rfl]
            split
            · exact SameCall.some huv h
            · exact SameCall.some hxy hn

theorem leftmostCall?_withCarriages {code : Text} {macros macros' : List FunctionMacro}
    (h : List.Forall₂ (Twin code) macros macros')
    (hnames : forall m, m ∈ macros -> forall b, b ∈ m.name -> Byte.isWord b = true)
    (blocked : List Text) :
    SameCall code (leftmostCall? code blocked macros)
      (leftmostCall? (withCarriages code) blocked macros') := by
  have hfold : forall best best', SameCall code best best' ->
      SameCall code (macros.foldl (better code blocked) best)
        (macros'.foldl (better (withCarriages code) blocked) best') := by
    induction h with
    | nil => exact fun _ _ hbest => hbest
    | cons hm _ ih =>
        rcases List.forall_mem_cons.mp hnames with ⟨hname, hnames⟩
        exact fun _ _ hbest => ih hnames _ _ (better_withCarriages hbest hm hname)
  exact hfold none none SameCall.none

end FunctionMacro

/-!
# Replacements in texts with carriage returns

The arguments of a call and the body they are put into differ by the line ends only.  A
backslash right in front of a newline starts a new line with the indentation of the call; with a
carriage return between the two it does not, so a replacement without such a backslash is kept as it
is in both texts.
-/

theorem Table.get?_put {α : Type} (t : Table α) (name : Text) (v : α) (other : Text) :
    (t.put name v).get? other = if name = other then some v else t.get? other := by
  split
  · rename_i heq
    rw [heq, Table.get?_put_self]
  · rename_i hne
    exact Table.get?_put_of_ne t v hne

namespace FunctionMacro

open Text (withCarriages)

/-!
# Arguments
-/

theorem splitArgs?_withCarriages (depth : Nat) (x s : Text) :
    splitArgs? depth (withCarriages x).reverse (withCarriages s) =
      (splitArgs? depth x.reverse s).map (Prod.map (List.map withCarriages) withCarriages) := by
  induction s using Text.lineInduction generalizing depth x with
  | nil => rfl
  | newline s ih =>
      have hend : forall (arg : Text) b t, b = Byte.newline ∨ b = Byte.carriage ->
          splitArgs? depth arg (b :: t) = splitArgs? depth (b :: arg) t := by
        rintro arg b t (rfl | rfl)
        · rw [splitArgs?]
          rfl
        · rw [splitArgs?]
          rfl
      have hstep := ih depth (x ++ [Byte.newline])
      rw [Text.withCarriages_append, List.reverse_append, List.reverse_append] at hstep
      rw [Text.withCarriages_newline, hend _ _ _ (Or.inr rfl), hend _ _ _ (Or.inl rfl),
        hend _ _ _ (Or.inl rfl)]
      exact hstep
  | inline b s hb ih =>
      have hstep := fun depth => ih depth (x ++ [b])
      have hnext := ih depth []
      simp only [Text.withCarriages_append, List.reverse_append, Text.withCarriages_cons hb,
        Text.withCarriages_nil, List.reverse_singleton, List.singleton_append] at hstep
      rw [Text.withCarriages_cons hb, splitArgs?, splitArgs?]
      split
      · exact hstep _
      · split
        · split
          · rw [List.reverse_reverse, List.reverse_reverse, Text.trim_withCarriages]
            rfl
          · exact hstep _
        · split
          · rw [Text.withCarriages_nil, List.reverse_nil] at hnext
            rw [hnext, List.reverse_reverse, List.reverse_reverse, Text.trim_withCarriages,
              Option.map_map, Option.map_map]
            rfl
          · exact hstep _

theorem mem_of_mem_splitArgs? {depth : Nat} {arg s rest : Text} {args : List Text}
    (h : splitArgs? depth arg s = some (args, rest)) {a : Text} (ha : a ∈ args) {b : UInt8}
    (hb : b ∈ a) : b ∈ arg ∨ b ∈ s := by
  have hlater {c : UInt8} {arg s : Text} (hmem : b ∈ c :: arg ∨ b ∈ s) : b ∈ arg ∨ b ∈ c :: s := by
    rcases hmem with hmem | hmem
    · rcases List.mem_cons.mp hmem with rfl | hmem
      · exact Or.inr List.mem_cons_self
      · exact Or.inl hmem
    · exact Or.inr (List.mem_cons_of_mem c hmem)
  have htrim {arg : Text} (hmem : b ∈ Text.trim arg.reverse) : b ∈ arg :=
    List.mem_reverse.mp ((Text.trim_infix _).subset hmem)
  fun_induction splitArgs? depth arg s generalizing args with
  | case1 => cases h
  | case2 depth arg c s _ ih => exact hlater (ih h ha)
  | case3 depth arg c s _ _ _ =>
      cases h
      rw [List.mem_singleton.mp ha] at hb
      exact Or.inl (htrim hb)
  | case4 depth arg c s _ _ _ ih => exact hlater (ih h ha)
  | case5 depth arg c s _ _ _ ih =>
      rcases Option.map_eq_some_iff.mp h with ⟨⟨more, rest'⟩, hmore, heq⟩
      cases heq
      rcases List.mem_cons.mp ha with rfl | ha
      · exact Or.inl (htrim hb)
      · rcases ih hmore ha with hmem | hmem
        · cases hmem
        · exact Or.inr (List.mem_cons_of_mem c hmem)
  | case6 depth arg c s _ _ _ ih => exact hlater (ih h ha)

/-!
# Replaced parameters
-/

theorem bindings_congr {P : Option Text -> Option Text -> Prop} {params args args' : List Text}
    (hnone : P none none)
    (hargs : forall i, P (some (args.getD i [])) (some (args'.getD i []))) (name : Text) :
    P ((bindings params args).get? name) ((bindings params args').get? name) := by
  have hfold : forall (entries : List (Text × Nat)) (t t' : Table Text),
      P (t.get? name) (t'.get? name) ->
        P ((entries.foldl (fun table e => table.put e.1 (args.getD e.2 [])) t).get? name)
          ((entries.foldl (fun table e => table.put e.1 (args'.getD e.2 [])) t').get? name) := by
    intro entries
    induction entries with
    | nil => exact fun _ _ h => h
    | cons entry entries ih =>
        intro t t' h
        apply ih
        dsimp only
        rw [Table.get?_put, Table.get?_put]
        split
        · exact hargs entry.2
        · exact h
  exact hfold _ [] [] hnone

theorem get?_bindings_withCarriages (params args : List Text) (name : Text) :
    (bindings params (args.map withCarriages)).get? name =
      ((bindings params args).get? name).map withCarriages := by
  apply bindings_congr (P := fun r r' => r' = r.map withCarriages) rfl
  intro i
  rw [Option.map_some, Option.some.injEq, List.getD_eq_getElem?_getD, List.getD_eq_getElem?_getD,
    List.getElem?_map]
  cases args[i]? with
  | none => rfl
  | some a => rfl

theorem exists_mem_of_get?_bindings {params args : List Text} {name r : Text} {b : UInt8}
    (h : (bindings params args).get? name = some r) (hb : b ∈ r) : exists a, a ∈ args ∧ b ∈ a := by
  have hbound : forall r', (bindings params args).get? name = some r' -> b ∈ r' ->
      exists a, a ∈ args ∧ b ∈ a := by
    apply @bindings_congr (fun r _ => forall r', r = some r' -> b ∈ r' -> exists a, a ∈ args ∧
      b ∈ a)
      params args args
    · intro r' heq
      cases heq
    · intro i r' heq hb
      cases heq
      rw [List.getD_eq_getElem?_getD] at hb
      cases harg : args[i]? with
      | none =>
          rw [harg] at hb
          cases hb
      | some a =>
          rw [harg] at hb
          exact ⟨a, List.mem_of_getElem? harg, hb⟩
  exact hbound r h hb

open Occurrence (words image substitute substitute_nil substitute_of_isWord
  substitute_of_not_isWord)

variable {f g : Text -> Option Text}

theorem substitute_withCarriages (h : forall w, g w = (f w).map withCarriages) (s : Text) :
    substitute g (withCarriages s) = withCarriages (substitute f s) := by
  fun_induction words s with
  | case1 => rw [Text.withCarriages_nil, substitute_nil, substitute_nil, Text.withCarriages_nil]
  | case2 b s hb ih =>
      have hbn := (isInline_of_isWord hb).1
      have hrun := Text.span_withCarriages (p := Byte.isWord) rfl s
      have hword : Byte.newline ∉ b :: s.takeWhile Byte.isWord := by
        intro hmem
        exact absurd (Occurrence.isWord_of_mem_run hb _ hmem) (by decide)
      have himage : image g (b :: s.takeWhile Byte.isWord) =
          withCarriages (image f (b :: s.takeWhile Byte.isWord)) := by
        unfold image
        rw [h]
        split
        · cases f (b :: s.takeWhile Byte.isWord) with
          | none => exact (Text.withCarriages_eq_self hword).symm
          | some r => rfl
        · exact (Text.withCarriages_eq_self hword).symm
      have hself : withCarriages (s.takeWhile Byte.isWord) = s.takeWhile Byte.isWord :=
        Text.withCarriages_eq_self fun hmem => hword (List.mem_cons_of_mem b hmem)
      rw [Text.withCarriages_cons hbn, substitute_of_isWord hb, substitute_of_isWord hb, hrun.1,
        hrun.2, hself, himage, ih, Text.withCarriages_append]
  | case3 b s hb ih =>
      have hb : Byte.isWord b = false := by simpa using hb
      rw [substitute_of_not_isWord hb]
      by_cases hbn : b = Byte.newline
      · subst hbn
        rw [Text.withCarriages_newline, Text.withCarriages_newline,
          substitute_of_not_isWord (by decide), substitute_of_not_isWord (by decide), ih]
      · rw [Text.withCarriages_cons hbn, Text.withCarriages_cons hbn, substitute_of_not_isWord hb,
          ih]

theorem mem_of_mem_substitute {s : Text} {b : UInt8} (h : b ∈ substitute f s) :
    b ∈ s ∨ exists w r, f w = some r ∧ b ∈ r := by
  fun_induction words s with
  | case1 =>
      rw [substitute_nil] at h
      cases h
  | case2 c s hc ih =>
      rw [substitute_of_isWord hc] at h
      rcases List.mem_append.mp h with h | h
      · unfold image at h
        have hkept (hmem : b ∈ c :: s.takeWhile Byte.isWord) : b ∈ c :: s :=
          List.cons_subset_cons c (List.takeWhile_prefix _).subset hmem
        split at h
        · cases hf : f (c :: s.takeWhile Byte.isWord) with
          | none =>
              rw [hf] at h
              exact Or.inl (hkept h)
          | some r =>
              rw [hf] at h
              exact Or.inr ⟨_, r, hf, h⟩
        · exact Or.inl (hkept h)
      · exact (ih h).imp_left fun hmem =>
          List.mem_cons_of_mem c ((List.dropWhile_suffix _).subset hmem)
  | case3 c s hc ih =>
      rw [substitute_of_not_isWord (by simpa using hc)] at h
      rcases List.mem_cons.mp h with rfl | h
      · exact Or.inl List.mem_cons_self
      · exact (ih h).imp_left (List.mem_cons_of_mem c)

/-!
# The lines of a replacement
-/

theorem reindent_cons {b : UInt8} {s : Text}
    (h : ¬ (b = Byte.backslash ∧ s.head? = some Byte.newline)) (glue : Text) :
    reindent glue false (b :: s) = b :: reindent glue false s := by
  rw [reindent]
  · rfl
  · rintro s rfl rfl
    exact h ⟨rfl, rfl⟩

theorem reindent_withCarriages (glue s : Text) :
    reindent glue false (withCarriages s) = withCarriages s := by
  induction s using Text.lineInduction with
  | nil => rfl
  | newline s ih =>
      rw [Text.withCarriages_newline, reindent_cons (fun h => absurd h.1 (by decide)),
        reindent_cons (fun h => absurd h.1 (by decide)), ih]
  | inline b s hb ih =>
      rw [Text.withCarriages_cons hb,
        reindent_cons (fun h => Text.head?_withCarriages_ne_newline s h.2), ih]

/-- A text in which no backslash stands right in front of a newline. -/
def IsUnbroken (s : Text) : Prop :=
  ¬ Text.includes s "\\\n" = true

theorem IsUnbroken.of_cons {b : UInt8} {s : Text} (h : IsUnbroken (b :: s)) :
    IsUnbroken s ∧ ¬ (b = Byte.backslash ∧ s.head? = some Byte.newline) := by
  have hne : Text.ofString "\\\n" ≠ [] := by
    decide
  constructor
  · intro hs
    rcases (Text.includes_iff hne).mp hs with ⟨u, v, rfl⟩
    exact h ((Text.includes_iff hne).mpr ⟨b :: u, v, rfl⟩)
  · rintro ⟨rfl, hs⟩
    rcases List.head?_eq_some_iff.mp hs with ⟨s, rfl⟩
    exact h ((Text.includes_iff hne).mpr ⟨[], s, rfl⟩)

theorem IsUnbroken.of_infix {s t : Text} (h : IsUnbroken t) (hs : s <:+: t) : IsUnbroken s := by
  have hne : Text.ofString "\\\n" ≠ [] := by
    decide
  rcases hs with ⟨x, y, rfl⟩
  intro hs
  rcases (Text.includes_iff hne).mp hs with ⟨u, v, rfl⟩
  exact h ((Text.includes_iff hne).mpr ⟨x ++ u, v ++ y, by simp only [List.append_assoc]⟩)

theorem IsUnbroken.reindent {s : Text} (h : IsUnbroken s) (glue : Text) :
    reindent glue false s = s := by
  induction s with
  | nil => rfl
  | cons b s ih => rw [reindent_cons h.of_cons.2, ih h.of_cons.1]

theorem IsUnbroken.dropContinuations {s : Text} (h : IsUnbroken s) :
    dropContinuations s = s := by
  unfold FunctionMacro.dropContinuations
  split
  · exact absurd ⟨rfl, rfl⟩ h.of_cons.2
  · rfl

end FunctionMacro

end EffectShader
