import EffectShader.Define.Extraction
import EffectShader.Proofs.Define.Sets

/-!
# Extraction keeps sets consistent

Directives add defines and change the define of a name, and a failed directive leaves
what was found before it.  So a set stays consistent whatever a shader says.
-/

namespace EffectShader

/-!
# Changing the define of a name
-/

namespace DefineSet

variable {s : DefineSet}

theorem Consistent.names_modify (h : s.Consistent) {name : Text} {f : Define -> Define}
    (hf : forall d, d.name = name -> (f d).name = name) : (s.modify name f).names = s.names := by
  unfold modify
  split
  · rfl
  · rename_i i hplace
    rw [h.indexed] at hplace
    rcases exists_split h.nodup hplace with ⟨before, d, after, hlist, rfl, hname, _, _⟩
    unfold names
    rw [hlist, modify_append_cons]
    simp [hf d hname, hname]

theorem index_modify (name : Text) (f : Define -> Define) :
    (s.modify name f).index = s.index := by
  unfold modify
  split <;> rfl

theorem Consistent.modify (h : s.Consistent) {name : Text} {f : Define -> Define}
    (hf : forall d, d.name = name -> (f d).name = name) : (s.modify name f).Consistent := by
  constructor
  · rw [h.names_modify hf]
    exact h.nodup
  · intro n
    rw [h.names_modify hf, index_modify]
    exact h.indexed n

theorem Consistent.name_of_get? (h : s.Consistent) {name : Text} {d : Define}
    (hd : s.get? name = some d) : d.name = name := by
  rw [h.get?_eq] at hd
  simpa using List.find?_some hd

end DefineSet

/-!
# Metadata keeps names
-/

namespace Metadata

theorem name_applyLabel {d d' : Define} {typed typed' : Bool} {l : Label}
    (h : applyLabel d typed l = .ok (d', typed')) : d'.name = d.name := by
  unfold applyLabel at h
  dsimp only at h
  repeat' split at h
  all_goals
    cases h
    try rfl

theorem name_applyLabels (d : Define) (typed : Bool) (ls : List Label) :
    (applyLabels d typed ls).1.name = d.name := by
  induction ls generalizing d typed with
  | nil => rfl
  | cons l ls ih =>
      unfold applyLabels
      split
      · rfl
      · rename_i d' typed' heq
        exact (ih d' typed').trans (name_applyLabel heq)

end Metadata

/-!
# Directives
-/

namespace Extractor

open Gating

variable {st : State}

theorem consistent_use (h : st.defines.Consistent) (name : Text) (type : DefineType) :
    (st.use name type).defines.Consistent := by
  unfold State.use
  split
  · exact h.add _
  · exact h

theorem consistent_uses (type : Text -> DefineType) (names : List Text)
    (h : st.defines.Consistent) :
    (names.foldl (fun st name => st.use name (type name)) st).defines.Consistent := by
  induction names generalizing st with
  | nil => exact h
  | cons name names ih => exact ih (consistent_use h name (type name))

theorem defines_enterBranch (gates : List Gate) : (st.enterBranch gates).defines = st.defines := by
  unfold State.enterBranch
  split <;> rfl

theorem consistent_condition (h : st.defines.Consistent) (body : Text) (line : Nat) :
    (condition st body line).1.defines.Consistent := by
  unfold condition
  split
  · exact h
  · dsimp only
    rw [defines_enterBranch]
    exact consistent_uses _ _ h

theorem consistent_ifDefined (h : st.defines.Consistent) (negated : Bool) (body : Text)
    (line : Nat) : (ifDefined st negated body line).1.defines.Consistent := by
  unfold ifDefined
  dsimp only
  split
  · exact h
  · exact consistent_use h _ .boolean

theorem consistent_defineMeta (h : st.defines.Consistent) (args : Text) (line : Nat) :
    (defineMeta st args line).1.defines.Consistent := by
  unfold defineMeta
  generalize (Text.cut? " " (Text.trim args)).getD (Text.trim args, []) = parts
  rcases parts with ⟨name, rest⟩
  dsimp only
  split
  · exact h
  · split
    · exact h
    · rename_i labels _
      have hname : ((st.defines.get? name).getD
          { Define.new name with defines := some (chain st.stack) }).name = name := by
        cases hget : st.defines.get? name with
        | none => rfl
        | some d => exact h.name_of_get? hget
      have hadded : (if (st.defines.get? name).isSome then st.defines
          else st.defines.add ((st.defines.get? name).getD
            { Define.new name with defines := some (chain st.stack) })).Consistent := by
        split
        · exact h
        · exact h.add _
      split <;> exact hadded.modify fun _ _ => (Metadata.name_applyLabels _ _ _).trans hname

theorem consistent_pragma (h : st.defines.Consistent) (p : Pragma) (line : Nat) :
    (pragma st p line).1.defines.Consistent := by
  unfold pragma
  dsimp only
  split
  · exact consistent_defineMeta h _ _
  · repeat' split
    all_goals exact h

theorem defines_nextBranch? {st' : State} (h : st.nextBranch? = some st') :
    st'.defines = st.defines := by
  unfold State.nextBranch? at h
  split at h <;> cases h
  rfl

theorem consistent_directive (h : st.defines.Consistent) (d : Directive) (line : Nat) :
    (directive st d line).1.defines.Consistent := by
  have hpush : (st.push (Level.opened [])).defines.Consistent := h
  unfold directive
  split
  · exact consistent_condition hpush _ _
  · split
    · split
      · exact h
      · rename_i hnext
        exact consistent_condition ((defines_nextBranch? hnext).symm ▸ h) _ _
    · split
      · exact consistent_ifDefined h _ _ _
      · split
        · exact consistent_ifDefined h _ _ _
        · split
          · split
            · exact h
            · rename_i hnext
              exact (defines_nextBranch? hnext).symm ▸ h
          · split
            · split <;> exact h
            · split
              · exact h
              · split
                · exact consistent_pragma h _ _
                · exact h

theorem consistent_walk (last : Nat) (ts : List Token) (h : st.defines.Consistent) :
    (walk last st ts).1.Consistent := by
  induction ts generalizing st with
  | nil =>
      unfold walk
      split <;> exact h
  | cons t ts ih =>
      unfold walk
      split
      · have hstep := consistent_directive h ((Directive.parse? t.text).getD ⟨[], []⟩) t.line
        split
        · rename_i heq
          rw [heq] at hstep
          exact hstep
        · rename_i heq
          rw [heq] at hstep
          exact ih hstep
      · exact ih h

end Extractor

theorem DefineSet.Consistent.extractDefines {found : DefineSet} (h : found.Consistent)
    (ts : List Token) : (extractDefines ts found).1.Consistent :=
  Extractor.consistent_walk _ ts h

end EffectShader
