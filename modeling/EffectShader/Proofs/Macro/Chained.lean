import EffectShader.Proofs.Macro.KeptLines
import EffectShader.Proofs.Macro.Substitution

/-!
# Chains of literal macros

The value of a literal macro may use the names of earlier ones.  Where no value uses its
own name or a later one, the values that are collected use no name at all, and replacing
the names one after the other is a single substitution of these values.
-/

namespace EffectShader

namespace LiteralMacro

open Occurrence

/-!
# Definitions of a text
-/

theorem isName_of_parse? {l name value : Text} (h : parse? l = some (name, value)) :
    IsName name := by
  unfold parse? at h
  rcases Option.bind_eq_some_iff.mp h with ⟨args, _, hparse⟩
  dsimp only at hparse
  split at hparse
  · cases hparse
  · rename_i hname
    cases hparse
    simp only [Bool.or_eq_true, not_or, List.isEmpty_iff] at hname
    exact isName_leadingName hname.1

/-- The names and values that lines define, the values as they are written. -/
def declared (ls : List Text) : List (Text × Text) :=
  ls.filterMap parse?

/-- The line, or an empty one in the place of a definition. -/
def blank (l : Text) : Text :=
  if (parse? l).isSome then [] else l

theorem declared_cons_of_none {l : Text} (h : parse? l = none) (ls : List Text) :
    declared (l :: ls) = declared ls :=
  List.filterMap_cons_none h

theorem declared_cons_of_some {l : Text} {d : Text × Text} (h : parse? l = some d)
    (ls : List Text) : declared (l :: ls) = d :: declared ls :=
  List.filterMap_cons_some h

theorem isName_of_mem_declared {ls : List Text} {d : Text × Text} (h : d ∈ declared ls) :
    IsName d.1 := by
  rcases List.mem_filterMap.mp h with ⟨l, _, hparse⟩
  exact isName_of_parse? hparse

/-- Every definition uses names of earlier ones only. -/
structure Chained (ds : List (Text × Text)) : Prop where
  self : forall d, d ∈ ds -> ¬ Occurs d.1 d.2
  later : ds.Pairwise fun d e => ¬ Occurs e.1 d.2

theorem chained_cons {d : Text × Text} {ds : List (Text × Text)} :
    Chained (d :: ds) ↔
      ¬ Occurs d.1 d.2 ∧ (forall e, e ∈ ds -> ¬ Occurs e.1 d.2) ∧ Chained ds := by
  constructor
  · rintro ⟨hself, hlater⟩
    rcases List.forall_mem_cons.mp hself with ⟨hd, hds⟩
    rcases List.pairwise_cons.mp hlater with ⟨hfirst, hrest⟩
    exact ⟨hd, hfirst, hds, hrest⟩
  · rintro ⟨hd, hfirst, hds, hrest⟩
    exact ⟨List.forall_mem_cons.mpr ⟨hd, hds⟩, List.pairwise_cons.mpr ⟨hfirst, hrest⟩⟩

theorem chained_iff_words {ds : List (Text × Text)} (h : forall d, d ∈ ds -> IsName d.1) :
    Chained ds ↔
      (forall d, d ∈ ds -> d.1 ∉ words d.2) ∧ ds.Pairwise fun d e => e.1 ∉ words d.2 := by
  have hself : (forall d, d ∈ ds -> ¬ Occurs d.1 d.2) ↔ forall d, d ∈ ds -> d.1 ∉ words d.2 :=
    forall_congr' fun d => imp_congr_right fun hd => not_congr (occurs_iff (h d hd) d.2)
  have hlater : (ds.Pairwise fun d e => ¬ Occurs e.1 d.2) ↔
      ds.Pairwise fun d e => e.1 ∉ words d.2 :=
    List.Pairwise.iff_of_mem fun {d e} _ he => not_congr (occurs_iff (h e he) d.2)
  rw [← hself, ← hlater]
  exact ⟨fun hchain => ⟨hchain.self, hchain.later⟩, fun hwords => ⟨hwords.1, hwords.2⟩⟩

/-!
# Applying macros
-/

def valueOf? (macros : List LiteralMacro) (name : Text) : Option Text :=
  (macros.find? fun m => m.name == name).map value

theorem exists_of_valueOf? {macros : List LiteralMacro} {name v : Text}
    (h : valueOf? macros name = some v) :
    exists m, m ∈ macros ∧ m.name = name ∧ m.value = v := by
  rcases Option.map_eq_some_iff.mp h with ⟨m, hm, hv⟩
  exact ⟨m, List.mem_of_find?_eq_some hm, by simpa using List.find?_some hm, hv⟩

theorem valueOf?_cons (m : LiteralMacro) (macros : List LiteralMacro) (name : Text) :
    valueOf? (m :: macros) name = (only m.name m.value name).or (valueOf? macros name) := by
  unfold valueOf? only
  by_cases h : name = m.name
  · subst h
    rw [if_pos rfl, List.find?_cons_of_pos (by simp)]
    rfl
  · rw [if_neg h, List.find?_cons_of_neg (by simpa using Ne.symm h), Option.none_or]

theorem valueOf?_eq_none_iff {macros : List LiteralMacro} {name : Text} :
    valueOf? macros name = none ↔ name ∉ macros.map LiteralMacro.name := by
  unfold valueOf?
  rw [Option.map_eq_none_iff, List.find?_eq_none]
  simp only [beq_iff_eq, List.mem_map, not_exists, not_and]

theorem valueOf?_append {macros : List LiteralMacro} {name : Text}
    (h : name ∈ macros.map LiteralMacro.name) (more : List LiteralMacro) :
    valueOf? (macros ++ more) name = valueOf? macros name := by
  unfold valueOf?
  rw [List.find?_append]
  cases hfind : macros.find? fun m => m.name == name with
  | some m => rfl
  | none =>
      rcases List.mem_map.mp h with ⟨m, hm, hname⟩
      exact absurd (beq_iff_eq.mpr hname) (List.find?_eq_none.mp hfind m hm)

/-- The macros have names, and no value uses one of the given names. -/
structure Settled (names : List Text) (macros : List LiteralMacro) : Prop where
  name : forall m, m ∈ macros -> IsName m.name
  value : forall m, m ∈ macros -> forall n, n ∈ names -> ¬ Occurs n m.value

theorem apply_eq_substitute {names : List Text} {macros : List LiteralMacro}
    (h : Settled names macros) (hnames : macros.map LiteralMacro.name ⊆ names) (s : Text) :
    apply macros s = substitute (valueOf? macros) s := by
  induction macros generalizing s with
  | nil => exact (substitute_eq_self fun w _ => rfl).symm
  | cons m macros ih =>
      rcases List.forall_mem_cons.mp h.name with ⟨hm, hmacros⟩
      rcases List.forall_mem_cons.mp h.value with ⟨hvalue, hvalues⟩
      rcases List.cons_subset.mp hnames with ⟨_, hnames⟩
      have happly : apply (m :: macros) s = apply macros (replace s m.name m.value) := rfl
      have hself : substitute (valueOf? macros) m.value = m.value := by
        apply substitute_eq_self
        intro w hw
        rw [valueOf?_eq_none_iff]
        intro hmem
        rcases List.mem_map.mp hmem with ⟨m', hm', rfl⟩
        exact hvalue m'.name (hnames hmem) ((occurs_iff (hmacros m' hm') m.value).mpr hw)
      rw [happly, replace_eq_substitute hm, ih ⟨hmacros, hvalues⟩ hnames, substitute_substitute]
      congr 1
      funext w
      rw [valueOf?_cons]
      unfold chain only
      by_cases hw : w = m.name
      · rw [if_pos hw, Option.map_some, hself]
      · rw [if_neg hw, Option.map_none]

theorem not_occurs_substitute {names : List Text} {macros : List LiteralMacro}
    (h : Settled names macros) {raw : Text} {n : Text} (hn : IsName n) (hmem : n ∈ names)
    (hraw : Occurs n raw -> n ∈ macros.map LiteralMacro.name) :
    ¬ Occurs n (substitute (valueOf? macros) raw) := by
  intro hoccurs
  rcases occurs_of_substitute hn hoccurs with ⟨hold, hnone⟩ | ⟨w, v, _, hv, hnew⟩
  · exact valueOf?_eq_none_iff.mp hnone (hraw hold)
  · rcases exists_of_valueOf? hv with ⟨m, hm, _, rfl⟩
    exact h.value m hm n hmem hnew

theorem Settled.concat {names : List Text} {macros : List LiteralMacro}
    (h : Settled names macros) (hnames : forall w, w ∈ names -> IsName w) {name raw : Text}
    (hname : IsName name)
    (hraw : forall w, w ∈ names -> Occurs w raw -> w ∈ macros.map LiteralMacro.name) (line : Nat) :
    Settled names (macros ++ [⟨name, substitute (valueOf? macros) raw, line⟩]) := by
  constructor
  · exact List.forall_mem_append.mpr ⟨h.name, List.forall_mem_singleton.mpr hname⟩
  · refine List.forall_mem_append.mpr ⟨h.value, List.forall_mem_singleton.mpr fun w hw => ?_⟩
    exact not_occurs_substitute h (hnames w hw) hw (hraw w hw)

theorem substitute_valueOf?_append {macros more : List LiteralMacro} {s : Text}
    (h : forall w, w ∈ words s -> w ∈ (macros ++ more).map LiteralMacro.name ->
      w ∈ macros.map LiteralMacro.name) :
    substitute (valueOf? (macros ++ more)) s = substitute (valueOf? macros) s := by
  apply substitute_congr
  intro w hw
  by_cases hmem : w ∈ macros.map LiteralMacro.name
  · exact valueOf?_append hmem more
  · rw [valueOf?_eq_none_iff.mpr hmem, valueOf?_eq_none_iff]
    exact mt (h w hw) hmem

/-!
# Collecting macros
-/

theorem collect_fst (n : Nat) (macros : List LiteralMacro) (ls : List Text) :
    (collect n macros ls).1 = ls.map blank := by
  induction ls generalizing n macros with
  | nil => rfl
  | cons l ls ih =>
      rw [collect, List.map_cons, blank]
      cases hparse : parse? l with
      | none => exact congrArg (l :: ·) (ih (n + 1) macros)
      | some d => exact congrArg ([] :: ·) (ih (n + 1) _)

/-- For each definition a macro is collected; its value is the written one with all names
replaced. -/
theorem exists_collect (n : Nat) (macros : List LiteralMacro) {ls : List Text} {names : List Text}
    (hnames : names = macros.map LiteralMacro.name ++ (declared ls).map Prod.fst)
    (hchain : Chained (declared ls)) (hsettled : Settled names macros) :
    exists more, (collect n macros ls).2 = macros ++ more ∧
      more.map LiteralMacro.name = (declared ls).map Prod.fst ∧
      more.map LiteralMacro.value =
        (declared ls).map (fun d => substitute (valueOf? (macros ++ more)) d.2) ∧
      Settled names (macros ++ more) := by
  induction ls generalizing n macros with
  | nil => exact ⟨[], (List.append_nil _).symm, rfl, rfl, by rwa [List.append_nil]⟩
  | cons l ls ih =>
      rw [collect]
      cases hparse : parse? l with
      | none =>
          rw [declared_cons_of_none hparse] at hnames hchain ⊢
          exact ih (n + 1) macros hnames hchain hsettled
      | some d =>
          rcases d with ⟨name, raw⟩
          rw [declared_cons_of_some hparse] at hnames hchain ⊢
          rcases chained_cons.mp hchain with ⟨hself, hlater, hrest⟩
          rw [List.map_cons] at hnames
          have hisName : forall w, w ∈ names -> IsName w := by
            intro w hw
            rw [hnames] at hw
            rcases List.mem_append.mp hw with hw | hw
            · rcases List.mem_map.mp hw with ⟨m, hm, rfl⟩
              exact hsettled.name m hm
            · rcases List.mem_cons.mp hw with rfl | hw
              · exact isName_of_parse? hparse
              · rcases List.mem_map.mp hw with ⟨e, he, rfl⟩
                exact isName_of_mem_declared he
          have hearlier : forall w, w ∈ names -> Occurs w raw ->
              w ∈ macros.map LiteralMacro.name := by
            intro w hw hoccurs
            rw [hnames] at hw
            rcases List.mem_append.mp hw with hw | hw
            · exact hw
            · rcases List.mem_cons.mp hw with rfl | hw
              · exact absurd hoccurs hself
              · rcases List.mem_map.mp hw with ⟨e, he, rfl⟩
                exact absurd hoccurs (hlater e he)
          have hvalue : apply macros raw = substitute (valueOf? macros) raw :=
            apply_eq_substitute hsettled (hnames ▸ List.subset_append_left _ _) raw
          dsimp only
          rw [hvalue]
          rcases ih (n + 1) (macros ++ [⟨name, substitute (valueOf? macros) raw, n⟩])
            (by rw [hnames, List.map_append, List.append_assoc]; rfl) hrest
            (hsettled.concat hisName (isName_of_parse? hparse) hearlier n) with
            ⟨more, hcollect, hmorenames, hvalues, hall⟩
          rw [List.append_assoc] at hcollect hvalues hall
          refine ⟨⟨name, substitute (valueOf? macros) raw, n⟩ :: more, hcollect, ?_, ?_, hall⟩
          · rw [List.map_cons, hmorenames, List.map_cons]
          · rw [List.map_cons, List.map_cons]
            refine List.cons_eq_cons.mpr ⟨Eq.symm ?_, hvalues⟩
            apply substitute_valueOf?_append
            intro w hw hlate
            have hmem : w ∈ names := by
              rwa [List.map_append, List.map_cons, hmorenames, ← hnames] at hlate
            exact hearlier w hmem ((occurs_iff (hisName w hmem) raw).mpr hw)

/-- Where values use names of earlier definitions only, expansion keeps the number of newlines and
leaves no name; it is the substitution of the values into the text with its definitions blanked, and
the values are the written ones after the same substitution and use no name. -/
theorem expand_chained {code : Text} (h : Chained (declared code.lines)) :
    (expand code).2.map LiteralMacro.name = (declared code.lines).map Prod.fst ∧
      (expand code).2.map LiteralMacro.value =
        (declared code.lines).map (fun d => substitute (valueOf? (expand code).2) d.2) ∧
      (expand code).1 =
        substitute (valueOf? (expand code).2) (Text.unlines (code.lines.map blank)) ∧
      Text.newlines (expand code).1 = Text.newlines code ∧
      (forall m, m ∈ (expand code).2 -> ¬ Occurs m.name (expand code).1) ∧
      forall m, m ∈ (expand code).2 -> forall m', m' ∈ (expand code).2 ->
        ¬ Occurs m'.name m.value := by
  rcases exists_collect 1 [] rfl h ⟨List.forall_mem_nil _, List.forall_mem_nil _⟩ with
    ⟨macros, hcollect, hnames, hvalues, hsettled⟩
  rw [List.nil_append] at hcollect hvalues hsettled
  have hmacros : (expand code).2 = macros := hcollect
  have hsubset : macros.map LiteralMacro.name ⊆
      [].map LiteralMacro.name ++ (declared code.lines).map Prod.fst := by
    rw [hnames]
    exact List.Subset.refl _
  have htext : (expand code).1 =
      substitute (valueOf? macros) (Text.unlines (code.lines.map blank)) := by
    show apply (collect 1 [] code.lines).2 (Text.unlines (collect 1 [] code.lines).1) = _
    rw [collect_fst, hcollect, apply_eq_substitute hsettled hsubset]
  rw [hmacros]
  refine ⟨hnames, hvalues, htext, newlines_expand code, ?_, ?_⟩
  · intro m hm
    have hmem := List.mem_map_of_mem (f := LiteralMacro.name) hm
    rw [htext]
    exact not_occurs_substitute hsettled (hsettled.name m hm) (hsubset hmem) fun _ => hmem
  · intro m hm m' hm'
    exact hsettled.value m hm m'.name (hsubset (List.mem_map_of_mem hm'))

/-- One value is used in another and in two lines, and is part of a longer word. -/
theorem expand_chained_twice :
    let code : Text :=
      "#pragma define USE_FOO 1\n#pragma define COUNT USE_FOO + 2\n#if USE_FOO\n" ++
        ("float a[COUNT];\n#endif\nfloat USE_FOOBAR;" : Text)
    Chained (declared code.lines) ∧
      (expand code).1 = "\n\n#if 1\nfloat a[1 + 2];\n#endif\nfloat USE_FOOBAR;" ∧
      (expand code).2.map LiteralMacro.value = ["1", "1 + 2"] ∧
      Text.newlines (expand code).1 = Text.newlines code ∧
      ¬ Occurs "USE_FOO" (expand code).1 := by
  intro code
  have hchain : Chained (declared code.lines) :=
    (chained_iff_words fun d => isName_of_mem_declared).mpr (by decide +kernel)
  have hmacros : (expand code).2 = [⟨"USE_FOO", "1", 1⟩, ⟨"COUNT", "1 + 2", 2⟩] := by
    decide +kernel
  have htext : (expand code).1 =
      "\n\n#if 1\nfloat a[1 + 2];\n#endif\nfloat USE_FOOBAR;" := by
    decide +kernel
  rcases expand_chained hchain with ⟨_, _, _, hnewlines, hnames, _⟩
  refine ⟨hchain, htext, by rw [hmacros]; rfl, hnewlines, ?_⟩
  exact hnames ⟨"USE_FOO", "1", 1⟩ (by rw [hmacros]; exact List.mem_cons_self)

end LiteralMacro

end EffectShader
