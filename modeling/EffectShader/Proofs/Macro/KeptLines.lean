import EffectShader.Macro.Function
import EffectShader.Macro.Literal
import EffectShader.Proofs.Diagnostic.LineMap
import EffectShader.Proofs.Text.Lines
import EffectShader.Proofs.Token.DirectiveText

/-!
# Macros keep the lines

An expansion of literal macros leaves the number of lines as it is.  An expansion of a call
changes it, and the line map records the change.
-/

namespace EffectShader

/-!
# Literal macros keep the lines

The name and the value of a literal macro stand on one line, so neither holds a
newline.  Blanking a definition and replacing a name by its value therefore leave
the number of lines as it is.
-/

namespace Directive

theorem newline_not_mem_body {line : Text} {d : Directive} (hline : Byte.newline ∉ line)
    (h : parse? line = some d) : Byte.newline ∉ d.body := by
  unfold parse? at h
  split at h
  · rename_i s hs
    have hsuffix : s <:+ line :=
      (List.suffix_cons Byte.hash s).trans (hs ▸ List.dropWhile_suffix Byte.isBlank)
    have hmem : Byte.newline ∉ s := fun hmem => hline (hsuffix.subset hmem)
    exact (isBody_of_parse? (Lexer.continued_of_not_mem hmem) h).single
  · cases h

theorem newline_not_mem_args {line : Text} {p : Pragma} (hline : Byte.newline ∉ line)
    (h : (parse? line).bind pragma? = some p) : Byte.newline ∉ p.args := by
  rcases Option.bind_eq_some_iff.mp h with ⟨d, hd, hp⟩
  have hbody := newline_not_mem_body hline hd
  unfold pragma? at hp
  dsimp only at hp
  split at hp
  · split at hp
    · cases hp
    · cases hp
      intro hmem
      exact hbody ((List.dropWhile_suffix _).subset ((Text.trim_infix _).subset hmem))
  · cases hp

end Directive

/-!
# Replacing a name
-/

namespace Occurrence

theorem leadingName_isPrefix (s : Text) : leadingName s <+: s := by
  cases s with
  | nil => exact List.prefix_rfl
  | cons b s =>
      rw [leadingName]
      split
      · exact (List.prefix_cons_inj b).mpr (List.takeWhile_prefix _)
      · exact List.nil_prefix

theorem eq_append_of_after? {name s : Text} {previous : UInt8}
    (h : (after? name previous s).isSome = true) : exists rest, s = name ++ rest := by
  unfold after? at h
  split at h
  · cases h
  · rename_i rest hrest
    exact ⟨rest, Text.eq_append_of_afterPrefix? hrest⟩

theorem newlines_replaceFrom {name replacement : Text} (hne : name ≠ [])
    (hname : Byte.newline ∉ name) (hreplacement : Byte.newline ∉ replacement) (skip : Nat)
    (previous : UInt8) (s : Text) (hskip : Byte.newline ∉ s.take skip) :
    Text.newlines (replaceFrom name replacement skip previous s) = Text.newlines s := by
  fun_induction replaceFrom name replacement skip previous s with
  | case1 => rfl
  | case2 skip previous b s ih =>
      rw [List.take_succ_cons, List.mem_cons, not_or] at hskip
      rw [ih hskip.2, Text.newlines_cons, if_neg (Ne.symm hskip.1), Nat.add_zero]
  | case3 previous b s hfound ih =>
      -- The bytes to be skipped are the rest of the name.
      rcases eq_append_of_after? hfound with ⟨rest, hrest⟩
      cases name with
      | nil => exact absurd rfl hne
      | cons c name =>
          rw [List.cons_append] at hrest
          cases hrest
          rw [List.mem_cons, not_or] at hname
          rw [List.length_cons, Nat.add_sub_cancel, List.take_left] at ih
          rw [Text.newlines_append, Text.newlines_of_not_mem hreplacement, List.length_cons,
            Nat.add_sub_cancel, ih hname.2, Text.newlines_cons, if_neg (Ne.symm hname.1),
            Nat.zero_add, Nat.add_zero]
  | case4 previous b s _ ih =>
      rw [Text.newlines_cons, Text.newlines_cons, ih (by simp)]

theorem newlines_replace {name replacement : Text} (hne : name ≠ [])
    (hname : Byte.newline ∉ name) (hreplacement : Byte.newline ∉ replacement) (s : Text) :
    Text.newlines (replace s name replacement) = Text.newlines s :=
  newlines_replaceFrom hne hname hreplacement 0 Byte.newline s (by simp)

end Occurrence

/-!
# Definitions on one line
-/

namespace LiteralMacro

structure IsInline (m : LiteralMacro) : Prop where
  name_ne_nil : m.name ≠ []
  name : Byte.newline ∉ m.name
  value : Byte.newline ∉ m.value

theorem inline_of_parse? {line name value : Text} (hline : Byte.newline ∉ line)
    (h : parse? line = some (name, value)) :
    name ≠ [] ∧ Byte.newline ∉ name ∧ Byte.newline ∉ value := by
  unfold parse? at h
  rcases Option.bind_eq_some_iff.mp h with ⟨args, hargs, hparse⟩
  unfold defineArgs? at hargs
  rcases Option.bind_eq_some_iff.mp hargs with ⟨p, hp, hdefine⟩
  have hmem := Directive.newline_not_mem_args hline hp
  split at hdefine
  · cases hdefine
    dsimp only at hparse
    split at hparse
    · cases hparse
    · rename_i hname
      cases hparse
      simp only [Bool.or_eq_true, not_or, List.isEmpty_iff] at hname
      refine ⟨hname.1, ?_, ?_⟩
      · exact fun h => hmem ((Occurrence.leadingName_isPrefix _).subset h)
      · exact fun h => hmem (List.mem_of_mem_drop ((Text.trim_infix _).subset h))
  · cases hdefine

theorem newlines_apply {macros : List LiteralMacro} (h : forall m, m ∈ macros -> IsInline m)
    (s : Text) : Text.newlines (apply macros s) = Text.newlines s := by
  unfold apply
  induction macros generalizing s with
  | nil => rfl
  | cons m macros ih =>
      rcases List.forall_mem_cons.mp h with ⟨hm, hmacros⟩
      rw [List.foldl_cons, ih hmacros, Occurrence.newlines_replace hm.name_ne_nil hm.name hm.value]

theorem newline_not_mem_apply {macros : List LiteralMacro}
    (h : forall m, m ∈ macros -> IsInline m) {s : Text} (hs : Byte.newline ∉ s) :
    Byte.newline ∉ apply macros s := by
  rw [← List.count_eq_zero]
  exact (newlines_apply h s).trans (Text.newlines_of_not_mem hs)

theorem collect_inline (n : Nat) {macros : List LiteralMacro} {ls : List Text}
    (hmacros : forall m, m ∈ macros -> IsInline m)
    (hls : forall l, l ∈ ls -> Byte.newline ∉ l) :
    (collect n macros ls).1.length = ls.length ∧
      (forall l, l ∈ (collect n macros ls).1 -> Byte.newline ∉ l) ∧
      forall m, m ∈ (collect n macros ls).2 -> IsInline m := by
  induction ls generalizing n macros with
  | nil => exact ⟨rfl, by simp [collect], hmacros⟩
  | cons l ls ih =>
      rcases List.forall_mem_cons.mp hls with ⟨hl, hls⟩
      rw [collect]
      split
      · rcases ih (n + 1) hmacros hls with ⟨hlength, hlines, hfound⟩
        exact ⟨congrArg (· + 1) hlength, List.forall_mem_cons.mpr ⟨hl, hlines⟩, hfound⟩
      · rename_i name value hparse
        rcases inline_of_parse? hl hparse with ⟨hne, hname, hvalue⟩
        have hmore : forall m, m ∈ macros ++ [⟨name, apply macros value, n⟩] -> IsInline m := by
          intro m hm
          rcases List.mem_append.mp hm with hm | hm
          · exact hmacros m hm
          · rw [List.mem_singleton.mp hm]
            exact ⟨hne, hname, newline_not_mem_apply hmacros hvalue⟩
        rcases ih (n + 1) hmore hls with ⟨hlength, hlines, hfound⟩
        exact ⟨congrArg (· + 1) hlength, List.forall_mem_cons.mpr ⟨List.not_mem_nil, hlines⟩,
          hfound⟩

theorem newlines_expand (code : Text) : Text.newlines (expand code).1 = Text.newlines code := by
  have hcode : forall l, l ∈ code.lines -> Byte.newline ∉ l := fun l => Text.not_mem_of_mem_lines
  rcases collect_inline 1 (List.forall_mem_nil IsInline) hcode with ⟨hlength, hlines, hmacros⟩
  have hne : (collect 1 [] code.lines).1 ≠ [] := by
    rw [← List.length_pos_iff, hlength, Text.length_lines]
    exact Nat.succ_pos _
  have hunlines := Text.newlines_unlines hne hlines
  rw [hlength, Text.length_lines] at hunlines
  show Text.newlines (apply (collect 1 [] code.lines).2 _) = _
  rw [newlines_apply hmacros]
  exact Nat.succ.inj hunlines

end LiteralMacro

/-!
# The lines of expanded calls

Every expansion replaces one call by a body, and the line map records the newlines
of both.  The calls that an expansion of a text replaces are listed here, each with
the lines around it at the time of its replacement.  Blanking the definitions at
the end leaves the number of lines as it is.
-/

namespace FunctionMacro

open LineMap

/-!
# One call
-/

def behindCall? (code : Text) (offset : Nat) : Option Text :=
  (splitArgs? 1 [] (((code.drop offset).dropWhile (· != Byte.openParen)).drop 1)).map (·.2)

def callRewrite (code : Text) (offset : Nat) : Rewrite :=
  ⟨Text.newlines (code.take offset), Text.newlines ((behindCall? code offset).getD [])⟩

theorem suffix_of_splitArgs? {depth : Nat} {arg s rest : Text} {args : List Text}
    (h : splitArgs? depth arg s = some (args, rest)) : rest <:+ s := by
  fun_induction splitArgs? depth arg s generalizing args with
  | case1 => cases h
  | case2 depth arg b s _ ih => exact (ih h).trans (List.suffix_cons b s)
  | case3 depth arg b s _ _ _ =>
      cases h
      exact List.suffix_cons b _
  | case4 depth arg b s _ _ _ ih => exact (ih h).trans (List.suffix_cons b s)
  | case5 depth arg b s _ _ _ ih =>
      rcases Option.map_eq_some_iff.mp h with ⟨⟨more, rest'⟩, hmore, heq⟩
      cases heq
      exact (ih hmore).trans (List.suffix_cons b s)
  | case6 depth arg b s _ _ _ ih => exact (ih h).trans (List.suffix_cons b s)

theorem lines_warned (p : Progress) (c : Bool) (d : Diagnostic) :
    (if c = true then p else p.warn d).lines = p.lines := by
  cases c <;> rfl

theorem expandCall_ok {p q : Progress} {m : FunctionMacro} {offset : Nat} {inDefinition : Bool}
    (h : expandCall p m offset inDefinition = .ok q) :
    exists call body after, behindCall? p.code offset = some after ∧
      p.code = p.code.take offset ++ call ++ after ∧
      q.code = p.code.take offset ++ body ++ after ∧
      q.lines = p.lines.splice (Text.newlines (p.code.take offset) + 1) (Text.newlines call + 1)
        (Text.newlines body + 1) := by
  unfold expandCall at h
  dsimp only at h
  split at h
  · cases h
  · rename_i args after hargs
    cases h
    have hafter : after <:+ p.code.drop offset :=
      (suffix_of_splitArgs? hargs).trans
        ((List.drop_suffix 1 _).trans (List.dropWhile_suffix _))
    rcases hafter with ⟨call, hcall⟩
    have htake : (p.code.drop offset).take ((p.code.drop offset).length - after.length) = call := by
      rw [← hcall, List.length_append, Nat.add_sub_cancel, List.take_left]
    refine ⟨call, _, after, ?_, ?_, rfl, ?_⟩
    · rw [behindCall?, hargs]
      rfl
    · rw [List.append_assoc, hcall, List.take_append_drop]
    · dsimp only
      rw [htake, lines_warned]
      rfl

theorem tracks_expandCall {total : Nat} {p q : Progress} {m : FunctionMacro} {offset : Nat}
    {inDefinition : Bool} {rewrites : List Rewrite}
    (h : Tracks total (Text.newlines p.code + 1) p.lines rewrites)
    (hcall : expandCall p m offset inDefinition = .ok q) :
    Tracks total (Text.newlines q.code + 1) q.lines (callRewrite p.code offset :: rewrites) := by
  rcases expandCall_ok hcall with ⟨call, body, after, hafter, hp, hq, hlines⟩
  have hrewrite : callRewrite p.code offset =
      ⟨Text.newlines (p.code.take offset), Text.newlines after⟩ := by
    rw [callRewrite, hafter]
    rfl
  rw [hp, Text.newlines_append, Text.newlines_append] at h
  rw [hrewrite, hlines, hq, Text.newlines_append, Text.newlines_append]
  exact h.splice _

/-!
# All calls
-/

def expandedCalls (blocked : List Text) :
    (budget : Nat) -> Progress -> List FunctionMacro -> List Rewrite
  | 0, _, _ => []
  | budget + 1, p, macros =>
      match leftmostCall? p.code blocked macros with
      | none => []
      | some (m, offset) =>
          match expandCall p m offset (macros.any fun m => m.spans offset) with
          | .error _ => []
          | .ok q =>
              callRewrite p.code offset ::
                match definitions q.code with
                | .error _ => []
                | .ok macros => expandedCalls blocked budget q macros

def rewrites (code : Text) (lines : LineMap) : List Rewrite :=
  match definitions code with
  | .error _ => []
  | .ok macros =>
      let blocked := macros.filter isRecursive
      let warnings := blocked.map fun m => lines.relocate (recursionWarning m)
      if Text.includes code "#pragma" then
        expandedCalls (blocked.map (·.name)) maxExpansions ⟨code, lines, warnings⟩ macros
      else []

theorem newlines_removeFrom (offset : Nat) (code : Text) (macros : List FunctionMacro) :
    Text.newlines (removeFrom offset code macros) = Text.newlines code := by
  induction macros generalizing offset code with
  | nil => rfl
  | cons m macros ih =>
      rw [removeFrom]
      simp only [Text.newlines_append, Text.newlines_replicate, ih]
      rw [Nat.add_assoc, ← Text.newlines_append, List.take_append_drop, ← Text.newlines_append,
        List.take_append_drop]

theorem tracks_expandLoop {total : Nat} {blocked : List Text} {budget : Nat} {p : Progress}
    {macros : List FunctionMacro} {rewrites : List Rewrite} {code : Text}
    (h : Tracks total (Text.newlines p.code + 1) p.lines rewrites)
    (hresult : (expandLoop blocked budget p macros).result = .ok code) :
    Tracks total (Text.newlines code + 1) (expandLoop blocked budget p macros).lines
      (expandedCalls blocked budget p macros ++ rewrites) := by
  induction budget generalizing p macros rewrites with
  | zero =>
      cases hresult
      rw [removeDefinitions, newlines_removeFrom]
      exact h
  | succ budget ih =>
      rw [expandLoop] at hresult
      rw [expandLoop, expandedCalls]
      cases hleftmost : leftmostCall? p.code blocked macros with
      | none =>
          rw [hleftmost] at hresult
          cases hresult
          rw [removeDefinitions, newlines_removeFrom]
          exact h
      | some call =>
          rcases call with ⟨m, offset⟩
          rw [hleftmost] at hresult
          dsimp only at hresult ⊢
          cases hcall : expandCall p m offset (macros.any fun m => m.spans offset) with
          | error e =>
              rw [hcall] at hresult
              cases hresult
          | ok q =>
              rw [hcall] at hresult
              dsimp only at hresult ⊢
              cases hdefinitions : definitions q.code with
              | error e =>
                  rw [hdefinitions] at hresult
                  cases hresult
              | ok macros' =>
                  rw [hdefinitions] at hresult
                  -- The definitions are read anew, but only the text and its map count here.
                  have hq := ih (tracks_expandCall h hcall) hresult
                  apply hq.mono
                  intro r hr
                  simp only [List.mem_append, List.mem_cons] at hr ⊢
                  rcases hr with hr | hr | hr
                  · exact Or.inl (Or.inr hr)
                  · exact Or.inl (Or.inl hr)
                  · exact Or.inr hr

theorem tracks_expand {total : Nat} {code code' : Text} {lines : LineMap} {before : List Rewrite}
    (h : Tracks total (Text.newlines code + 1) lines before)
    (hresult : (expand code lines).result = .ok code') :
    Tracks total (Text.newlines code' + 1) (expand code lines).lines
      (rewrites code lines ++ before) := by
  unfold expand at hresult ⊢
  unfold rewrites
  cases hpragma : Text.includes code "#pragma" with
  | false =>
      rw [hpragma] at hresult
      cases hresult
      exact h.mono (List.subset_append_right _ _)
  | true =>
      rw [hpragma] at hresult
      cases hdefinitions : definitions code with
      | error e =>
          rw [hdefinitions] at hresult
          cases hresult
      | ok macros =>
          rw [hdefinitions] at hresult
          cases macros with
          | nil =>
              cases hresult
              exact h.mono (List.subset_append_right _ _)
          | cons m macros => exact tracks_expandLoop h hresult

end FunctionMacro

end EffectShader
