import EffectShader.Reachability
import Mathlib.Data.Finset.Card

/-!
# The closure of calls

Each round adds what the live functions call.  A round that adds nothing ends
the search, and every other one adds a function, so as many rounds as there are
functions find everything.
-/

namespace EffectShader

namespace ShaderFunction

def IsClosed (fns : List ShaderFunction) (live : List Text) : Prop :=
  forall n c, n ∈ live -> c ∈ callees fns n -> c ∈ live

def CallsDefined (fns : List ShaderFunction) : Prop :=
  forall f c, f ∈ fns -> c ∈ f.calls -> c ∈ fns.map (·.name)

section Rounds

variable {fns : List ShaderFunction} {live : List Text}

theorem mem_callees {n c : Text} :
    c ∈ callees fns n ↔ exists f, f ∈ fns ∧ f.name = n ∧ c ∈ f.calls := by
  simp [callees, and_assoc]

theorem mem_grow {c : Text} :
    c ∈ grow fns live ↔ c ∈ live ∨ exists n, n ∈ live ∧ c ∈ callees fns n := by
  simp [grow, List.mem_eraseDups]

theorem subset_growTimes (rounds : Nat) : live ⊆ growTimes fns rounds live := by
  induction rounds generalizing live with
  | zero => exact List.Subset.refl live
  | succ rounds ih =>
      intro n hn
      exact ih (mem_grow.mpr (Or.inl hn))

theorem IsClosed.grow (h : IsClosed fns live) : IsClosed fns (grow fns live) := by
  intro n c hn hc
  have hlive : n ∈ live := by
    rcases mem_grow.mp hn with hn | ⟨m, hm, hn⟩
    · exact hn
    · exact h m n hm hn
  exact mem_grow.mpr (Or.inl (h n c hlive hc))

theorem IsClosed.growTimes (h : IsClosed fns live) (rounds : Nat) :
    IsClosed fns (growTimes fns rounds live) := by
  induction rounds generalizing live with
  | zero => exact h
  | succ rounds ih => exact ih h.grow

theorem grow_subset_names (hcalls : CallsDefined fns) (hlive : live ⊆ fns.map (·.name)) :
    grow fns live ⊆ fns.map (·.name) := by
  intro c hc
  rcases mem_grow.mp hc with hc | ⟨n, _, hc⟩
  · exact hlive hc
  · rcases mem_callees.mp hc with ⟨f, hf, _, hc⟩
    exact hcalls f c hf hc

theorem card_lt_card_grow (h : ¬ IsClosed fns live) :
    live.toFinset.card < (grow fns live).toFinset.card := by
  unfold IsClosed at h
  push Not at h
  rcases h with ⟨n, c, hn, hc, hnew⟩
  apply Finset.card_lt_card
  rw [Finset.ssubset_iff_of_subset]
  · exact ⟨c, by simpa using mem_grow.mpr (Or.inr ⟨n, hn, hc⟩), by simpa using hnew⟩
  · intro m hm
    simpa using mem_grow.mpr (Or.inl (by simpa using hm))

theorem isClosed_of_card (hcalls : CallsDefined fns) (hlive : live ⊆ fns.map (·.name))
    (hcard : fns.length ≤ live.toFinset.card) : IsClosed fns live := by
  have hsubset : live.toFinset ⊆ (fns.map (·.name)).toFinset := by
    intro n hn
    simpa using hlive (by simpa using hn)
  have hnames : (fns.map (·.name)).toFinset.card ≤ live.toFinset.card := by
    have hle := List.toFinset_card_le (fns.map (·.name))
    rw [List.length_map] at hle
    exact hle.trans hcard
  have hall := Finset.eq_of_subset_of_card_le hsubset hnames
  intro n c _ hc
  rcases mem_callees.mp hc with ⟨f, hf, _, hc⟩
  have hmem : c ∈ (fns.map (·.name)).toFinset := by simpa using hcalls f c hf hc
  rw [← hall] at hmem
  simpa using hmem

theorem isClosed_growTimes (hcalls : CallsDefined fns) {rounds : Nat}
    (hlive : live ⊆ fns.map (·.name)) (hrounds : fns.length ≤ rounds + live.toFinset.card) :
    IsClosed fns (growTimes fns rounds live) := by
  induction rounds generalizing live with
  | zero =>
      rw [Nat.zero_add] at hrounds
      exact isClosed_of_card hcalls hlive hrounds
  | succ rounds ih =>
      by_cases hclosed : IsClosed fns live
      · exact hclosed.growTimes (rounds + 1)
      · have hcard := card_lt_card_grow hclosed
        exact ih (grow_subset_names hcalls hlive) (by omega)

end Rounds

/-!
# Reachable names
-/

inductive Reaches (fns : List ShaderFunction) (entry : Text) : Text -> Prop where
  | entry : Reaches fns entry entry
  | call {n c : Text} : Reaches fns entry n -> c ∈ callees fns n -> Reaches fns entry c

theorem reaches_of_mem_growTimes {fns : List ShaderFunction} {entry : Text} {live : List Text}
    (hlive : forall n, n ∈ live -> Reaches fns entry n) {rounds : Nat} {n : Text}
    (h : n ∈ growTimes fns rounds live) : Reaches fns entry n := by
  induction rounds generalizing live with
  | zero => exact hlive n h
  | succ rounds ih =>
      apply ih _ h
      intro m hm
      rcases mem_grow.mp hm with hm | ⟨k, hk, hm⟩
      · exact hlive m hm
      · exact Reaches.call (hlive k hk) hm

theorem mem_reachable_iff {fns : List ShaderFunction} (hcalls : CallsDefined fns) {entry n : Text}
    (hentry : entry ∈ fns.map (·.name)) : n ∈ reachable fns entry ↔ Reaches fns entry n := by
  constructor
  · apply reaches_of_mem_growTimes
    intro m hm
    rw [List.mem_singleton.mp hm]
    exact Reaches.entry
  · intro h
    induction h with
    | entry => exact subset_growTimes fns.length (List.mem_singleton_self entry)
    | @call n c _ hc ih =>
        have hclosed : IsClosed fns (reachable fns entry) :=
          isClosed_growTimes hcalls (by simpa using hentry) (by simp)
        exact hclosed n c ih hc

end ShaderFunction

/-!
# What elimination removes

The calls of a function are the words of its body that are names of functions.
A function that stays because the entry reaches it therefore mentions no function
that was removed.
-/

namespace ShaderFunction

/-!
# The calls of a definition
-/

theorem mem_mentions {ts : List Token} {n : Text} :
    n ∈ mentions ts ↔ exists t, t ∈ ts ∧ t.isWord = true ∧ t.text = n := by
  simp [mentions, List.mem_eraseDups, and_assoc]

theorem mem_calls_function {d : Definition} {n : Text} :
    n ∈ d.function.calls ↔
      (exists t, t ∈ d.body ∧ t.isWord = true ∧ t.text = n) ∧ n ≠ d.name := by
  rw [Definition.function, Text.sort, List.mem_mergeSort, List.mem_filter, mem_mentions]
  simp

theorem name_ofTokens (ts : List Token) :
    (ofTokens ts).map (·.name) = (scan [] ts).map (·.name) := by
  simp only [ofTokens, List.map_map]
  rfl

theorem exists_of_mem_ofTokens {ts : List Token} {f : ShaderFunction} (h : f ∈ ofTokens ts) :
    exists d, d ∈ scan [] ts ∧ d.name = f.name ∧
      forall c, c ∈ f.calls ↔ c ∈ d.function.calls ∧ c ∈ (scan [] ts).map (·.name) := by
  unfold ofTokens at h
  simp only [List.map_map, List.mem_map, Function.comp_apply] at h
  rcases h with ⟨d, hd, rfl⟩
  refine ⟨d, hd, rfl, ?_⟩
  intro c
  rw [List.mem_filter, List.contains_iff_mem]
  rfl

theorem callsDefined_ofTokens (ts : List Token) : CallsDefined (ofTokens ts) := by
  intro f c hf hc
  rcases exists_of_mem_ofTokens hf with ⟨d, _, _, hcalls⟩
  rw [name_ofTokens]
  exact ((hcalls c).mp hc).2

theorem mem_callees_of_mention {ts : List Token} {d f : Definition} {t : Token}
    (hd : d ∈ scan [] ts) (hf : f ∈ scan [] ts) (ht : t ∈ d.body) (hword : t.isWord = true)
    (htext : t.text = f.name) (hne : f.name ≠ d.name) :
    f.name ∈ callees (ofTokens ts) d.name := by
  rw [mem_callees]
  unfold ofTokens
  refine ⟨_, List.mem_map.mpr ⟨d.function, List.mem_map.mpr ⟨d, hd, rfl⟩, rfl⟩, rfl, ?_⟩
  rw [List.mem_filter, List.contains_iff_mem, List.map_map]
  exact ⟨mem_calls_function.mpr ⟨⟨t, ht, hword, htext⟩, hne⟩, List.mem_map.mpr ⟨f, hf, rfl⟩⟩

/-!
# The functions that stay
-/

theorem mem_functions_keepLive {live : List Text} {offset removed : Nat} {code : Text}
    {fns : List ShaderFunction} {n : Text} :
    n ∈ (keepLive live offset removed code fns).functions.map (·.name) ↔
      n ∈ fns.map (·.name) ∧ n ∈ live := by
  induction fns generalizing offset removed code with
  | nil => simp [keepLive]
  | cons f fns ih =>
      rw [keepLive]
      split
      · rename_i hlive
        have hlive : f.name ∈ live := by simpa using hlive
        simp only [List.map_cons, List.mem_cons, ih]
        constructor
        · rintro (rfl | ⟨hn, hl⟩)
          · exact ⟨Or.inl rfl, hlive⟩
          · exact ⟨Or.inr hn, hl⟩
        · rintro ⟨rfl | hn, hl⟩
          · exact Or.inl rfl
          · exact Or.inr ⟨hn, hl⟩
      · rename_i hlive
        have hlive : f.name ∉ live := by simpa using hlive
        simp only [ih, List.map_cons, List.mem_cons]
        constructor
        · rintro ⟨hn, hl⟩
          exact ⟨Or.inr hn, hl⟩
        · rintro ⟨rfl | hn, hl⟩
          · exact absurd hl hlive
          · exact ⟨hn, hl⟩

/-- The definition is still there after an elimination. -/
def Elimination.keeps (e : Elimination) (d : Definition) : Prop :=
  d.name ∈ e.remainder.functions.map (·.name)

theorem keeps_iff {code entry : Text} {e : Elimination} {ts : List Token} {d : Definition}
    (htokens : tokenize code = .ok ts) (h : eliminate code entry = .ok e)
    (hok : e.failure = none) (hd : d ∈ scan [] ts) :
    e.keeps d ↔ d.name = "main" ∨ Reaches (ofTokens ts) entry d.name := by
  have hname : d.name ∈ (ofTokens ts).map (·.name) := by
    rw [name_ofTokens]
    exact List.mem_map.mpr ⟨d, hd, rfl⟩
  unfold eliminate at h
  rw [htokens] at h
  dsimp only at h
  split at h
  · rename_i hnone
    rw [hnone] at hname
    cases hname
  · rename_i f rest hfns
    cases h
    split at hok
    · rename_i hfound
      rw [← hfns] at hfound ⊢
      have hentry : entry ∈ (ofTokens ts).map (·.name) := by
        simpa using hfound
      unfold Elimination.keeps
      rw [if_pos hfound, mem_functions_keepLive, List.mem_cons,
        mem_reachable_iff (callsDefined_ofTokens ts) hentry]
      exact and_iff_right hname
    · cases hok

theorem not_mentioned_of_reaches {code entry : Text} {e : Elimination} {ts : List Token}
    {d f : Definition} (htokens : tokenize code = .ok ts) (h : eliminate code entry = .ok e)
    (hok : e.failure = none) (hd : d ∈ scan [] ts)
    (hreach : Reaches (ofTokens ts) entry d.name) (hf : f ∈ scan [] ts) (hremoved : ¬ e.keeps f) :
    f.name ∉ mentions d.body := by
  intro hmem
  rcases mem_mentions.mp hmem with ⟨t, ht, hword, htext⟩
  apply hremoved
  rw [keeps_iff htokens h hok hf]
  right
  by_cases hne : f.name = d.name
  · rw [hne]
    exact hreach
  · exact Reaches.call hreach (mem_callees_of_mention hd hf ht hword htext hne)

end ShaderFunction

end EffectShader
