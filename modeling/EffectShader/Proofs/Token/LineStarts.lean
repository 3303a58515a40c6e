import EffectShader.Proofs.Token.LineByLine

/-!
# What a line starts in

A line that starts in a comment or a directive belongs to a token that started on
an earlier line.  On any other line a hash sign behind blanks starts a directive.
-/

namespace EffectShader

namespace Lexer

/-- The token started on the line that the opening names, and it is followed by this line. -/
def Opening.Precedes (line : Nat) : Opening -> Prop
  | .outside => True
  | .comment start text | .directive start text => start + Text.newlines text + 1 = line

theorem precedes_scanLine (line : Nat) (fresh : Bool) {l : Text} (hl : Byte.newline ∉ l) :
    (scanLine line fresh l).2.Precedes (line + 1) := by
  fun_induction scanLine line fresh l with
  | case1 => trivial
  | case2 fresh b l hextent =>
      show line + Text.newlines (b :: l) + 1 = line + 1
      rw [Text.newlines_of_not_mem hl]
  | case3 fresh b l kind n hextent hkind hopen =>
      show line + Text.newlines (b :: l) + 1 = line + 1
      rw [Text.newlines_of_not_mem hl]
  | case4 => trivial
  | case5 fresh b l kind n hextent hkind text rest ih =>
      exact ih fun hmem => hl (List.mem_cons_of_mem b (List.mem_of_mem_drop hmem))

theorem Opening.Precedes.read {line : Nat} {o : Opening} (h : o.Precedes line) {l : Text}
    (hl : Byte.newline ∉ l) : (o.read line l).2.Precedes (line + 1) := by
  cases o with
  | outside => exact precedes_scanLine line true hl
  | comment start text =>
      rw [Opening.read]
      cases hcut : Text.cut? "*/" l with
      | none =>
          show start + Text.newlines (text ++ Byte.newline :: l) + 1 = line + 1
          rw [Text.newlines_append, Text.newlines_cons, if_pos rfl, Text.newlines_of_not_mem hl]
          exact congrArg (· + 1) h
      | some parts =>
          apply precedes_scanLine
          intro hmem
          apply hl
          rw [Text.eq_append_of_cut? hcut]
          exact List.mem_append_right _ (List.mem_append_right _ hmem)
  | directive start text =>
      rw [Opening.read]
      split
      · show start + Text.newlines (text ++ Byte.newline :: l) + 1 = line + 1
        rw [Text.newlines_append, Text.newlines_cons, if_pos rfl, Text.newlines_of_not_mem hl]
        exact congrArg (· + 1) h
      · trivial

theorem exists_of_lexLines_comment {line start : Nat} {text : Text} {ls : List Text}
    {xs : List Lexeme} (h : lexLines line (.comment start text) ls = some xs) :
    exists more rest, xs = ⟨.blockComment, text ++ Byte.newline :: more, start⟩ :: rest := by
  induction ls generalizing line text xs with
  | nil => cases h
  | cons l ls ih =>
      rw [lexLines_cons, Opening.read] at h
      cases hcut : Text.cut? "*/" l with
      | none =>
          rw [hcut] at h
          rcases Option.map_eq_some_iff.mp h with ⟨ys, hys, rfl⟩
          rcases ih hys with ⟨more, rest, rfl⟩
          exact ⟨l ++ Byte.newline :: more, rest, by simp⟩
      | some parts =>
          rw [hcut] at h
          rcases Option.map_eq_some_iff.mp h with ⟨ys, _, rfl⟩
          exact ⟨_, _, rfl⟩

theorem exists_of_lexLines_directive {line start : Nat} {text : Text} {ls : List Text}
    {xs : List Lexeme} (h : lexLines line (.directive start text) ls = some xs) :
    exists more rest, xs = ⟨.directive, text ++ more, start⟩ :: rest ∧
      (more = [] ∧ ls = [] ∨ more.head? = some Byte.newline) := by
  induction ls generalizing line text xs with
  | nil =>
      cases h
      exact ⟨[], [], by simp, Or.inl ⟨rfl, rfl⟩⟩
  | cons l ls ih =>
      rw [lexLines_cons, Opening.read] at h
      split at h
      · rcases Option.map_eq_some_iff.mp h with ⟨ys, hys, rfl⟩
        rcases ih hys with ⟨more, rest, rfl, _⟩
        exact ⟨Byte.newline :: (l ++ more), rest, by simp, Or.inr rfl⟩
      · rcases Option.map_eq_some_iff.mp h with ⟨ys, _, rfl⟩
        exact ⟨Byte.newline :: l, ys, rfl, Or.inr rfl⟩

end Lexer

def Lexeme.reaches (x : Lexeme) (line : Nat) : Bool :=
  (x.kind == .blockComment || x.kind == .directive) && x.line < line &&
    line ≤ x.line + Text.newlines x.text

namespace Lexer

theorem exists_reaches {line : Nat} {o : Opening} {ls : List Text} {xs : List Lexeme}
    (h : lexLines line o ls = some xs) (ho : o.Precedes line) (hne : ls ≠ []) :
    o = .outside ∨ exists x, xs.head? = some x ∧ x.reaches line = true := by
  cases o with
  | outside => exact Or.inl rfl
  | comment start text =>
      right
      rcases exists_of_lexLines_comment h with ⟨more, rest, rfl⟩
      refine ⟨_, rfl, ?_⟩
      have hline : start + Text.newlines text + 1 = line := ho
      simp only [Lexeme.reaches, Text.newlines_append, Text.newlines_cons, if_true,
        beq_self_eq_true, Bool.true_or, Bool.true_and, Bool.and_eq_true, decide_eq_true_eq]
      omega
  | directive start text =>
      right
      rcases exists_of_lexLines_directive h with ⟨more, rest, rfl, ⟨_, hnil⟩ | hmore⟩
      · exact absurd hnil hne
      · rcases List.head?_eq_some_iff.mp hmore with ⟨more, rfl⟩
        refine ⟨_, rfl, ?_⟩
        have hline : start + Text.newlines text + 1 = line := ho
        simp only [Lexeme.reaches, Text.newlines_append, Text.newlines_cons, if_true,
          beq_self_eq_true, Bool.or_true, Bool.true_and, Bool.and_eq_true, decide_eq_true_eq]
        omega

theorem scanLine_hash (line : Nat) {l s : Text} (hl : Byte.newline ∉ l)
    (h : l.dropWhile Byte.isBlank = Byte.hash :: s) :
    scanLine line true l =
      if endsOpen s then ([], .directive line (Byte.hash :: s))
      else ([⟨.directive, Byte.hash :: s, line⟩], .outside) := by
  induction l with
  | nil => cases h
  | cons b l ih =>
      cases hb : Byte.isBlank b with
      | true =>
          rw [List.dropWhile_cons_of_pos hb] at h
          have hsep : isSeparator b = true := by
            simp only [Byte.isBlank, Bool.or_eq_true, beq_iff_eq] at hb
            rcases hb with rfl | rfl <;> rfl
          rw [scanLine_separator hsep hl]
          exact ih (fun hmem => hl (List.mem_cons_of_mem b hmem)) h
      | false =>
          rw [List.dropWhile_cons_of_neg (by simp [hb])] at h
          cases h
          exact scanLine_directive rfl line

def IsDirectiveOn (line : Nat) (s : Text) (x : Lexeme) : Prop :=
  exists more, x = ⟨.directive, Byte.hash :: (s ++ more), line⟩ ∧
    (more = [] ∨ endsOpen s = true ∧ more.head? = some Byte.newline)

theorem exists_isDirectiveOn {line : Nat} {o : Opening} {ls : List Text} {xs : List Lexeme}
    (h : lexLines line o ls = some xs) (ho : o.Precedes line)
    (hls : forall l, l ∈ ls -> Byte.newline ∉ l) {i : Nat} {l s : Text} (hi : ls[i]? = some l)
    (hhash : l.dropWhile Byte.isBlank = Byte.hash :: s)
    (hfree : forall x, x ∈ xs -> x.reaches (line + i) = false) :
    exists x, x ∈ xs ∧ IsDirectiveOn (line + i) s x := by
  induction ls generalizing line o xs i with
  | nil => cases hi
  | cons k ls ih =>
      rcases List.forall_mem_cons.mp hls with ⟨hk, hls⟩
      cases i with
      | zero =>
          have hkl : k = l := by simpa using hi
          subst hkl
          rw [Nat.add_zero] at hfree ⊢
          rcases exists_reaches h ho (List.cons_ne_nil k ls) with rfl | ⟨x, hx, hreach⟩
          · rw [lexLines_cons, Opening.read, scanLine_hash line hk hhash] at h
            split at h
            · rename_i hopen
              rcases Option.map_eq_some_iff.mp h with ⟨ys, hys, rfl⟩
              rcases exists_of_lexLines_directive hys with ⟨more, rest, rfl, hmore⟩
              refine ⟨_, List.mem_cons_self, more, rfl, ?_⟩
              exact hmore.imp (fun hnil => hnil.1) (fun hhead => ⟨hopen, hhead⟩)
            · rcases Option.map_eq_some_iff.mp h with ⟨ys, _, rfl⟩
              exact ⟨_, List.mem_cons_self, [], by simp, Or.inl rfl⟩
          · rw [hfree x (List.mem_of_head? hx)] at hreach
            cases hreach
      | succ i =>
          rw [lexLines_cons] at h
          rcases Option.map_eq_some_iff.mp h with ⟨ys, hys, rfl⟩
          rw [show line + (i + 1) = line + 1 + i by omega] at hfree ⊢
          rcases ih hys (ho.read hk) hls hi
            (fun x hx => hfree x (List.mem_append_right _ hx)) with ⟨x, hx, hon⟩
          exact ⟨x, List.mem_append_right _ hx, hon⟩

end Lexer

end EffectShader
