import EffectShader.Subpass
import EffectShader.Proofs.Diagnostic.LineMap
import EffectShader.Proofs.Numeral

/-!
# The lines of subpass declarations

The pragmas that declare attachments are blanked, and one line gives way to the
declarations.  These are lines without newlines, because the names and precisions
that they are made of are words, so the line map is told their number.
-/

namespace EffectShader

namespace Subpass

open LineMap

/-!
# Attachments are spelled in words
-/

structure Attachment.IsDeclared (a : Attachment) : Prop where
  name : isIdentifier a.name = true
  precision : a.precision = [] ∨ Word.isPrecision a.precision = true
  supported : a.aspect.supports a.direction = true

structure Attachment.IsInline (a : Attachment) : Prop where
  name : Byte.newline ∉ a.name
  precision : Byte.newline ∉ a.precision

theorem newline_not_mem_of_isIdentifier {s : Text} (h : isIdentifier s = true) :
    Byte.newline ∉ s := by
  cases s with
  | nil => exact List.not_mem_nil
  | cons b s =>
      rw [isIdentifier, Bool.and_eq_true, List.all_eq_true] at h
      intro hmem
      rcases List.mem_cons.mp hmem with rfl | hmem
      · exact absurd h.1 (by decide)
      · exact absurd (h.2 _ hmem) (by decide)

theorem newline_not_mem_of_isPrecision {s : Text} (h : Word.isPrecision s = true) :
    Byte.newline ∉ s := by
  simp only [Word.isPrecision, Bool.or_eq_true, beq_iff_eq] at h
  rcases h with (rfl | rfl) | rfl <;> decide

theorem Attachment.IsDeclared.isInline {a : Attachment} (h : a.IsDeclared) : a.IsInline := by
  refine ⟨newline_not_mem_of_isIdentifier h.name, ?_⟩
  rcases h.precision with hempty | hprecision
  · rw [hempty]
    exact List.not_mem_nil
  · exact newline_not_mem_of_isPrecision hprecision

theorem isDeclared_of_ofFields {pragma direction precision name : Text} {aspect : Aspect}
    {scalar : ScalarKind} {line : Nat} {a : Attachment}
    (h : ofFields pragma aspect scalar line direction precision name = .ok a) : a.IsDeclared := by
  unfold ofFields at h
  dsimp only at h
  split at h
  · cases h
  · split at h
    · cases h
    · rename_i hprecision
      split at h
      · cases h
      · rename_i hname
        split at h
        · cases h
        · rename_i hsupported
          split at h
          · cases h
          · cases h
            refine ⟨by simpa using hname, ?_, by simpa using hsupported⟩
            cases hempty : precision with
            | nil => exact Or.inl rfl
            | cons b s =>
                rw [hempty] at hprecision
                exact Or.inr (by simpa using hprecision)

theorem eq_ok_of_map_some {x : Except Diagnostic Attachment} {a : Attachment}
    (h : x.map some = .ok (some a)) : x = .ok a := by
  cases x with
  | error e => cases h
  | ok b =>
      cases h
      rfl

theorem isDeclared_of_ofPragma? {p : Pragma} {line : Nat} {a : Attachment}
    (h : ofPragma? p line = .ok (some a)) : a.IsDeclared := by
  unfold ofPragma? at h
  split at h
  · cases h
  · split at h
    · exact isDeclared_of_ofFields (eq_ok_of_map_some h)
    · exact isDeclared_of_ofFields (eq_ok_of_map_some h)
    · cases h

/-!
# Reading the lines
-/

structure Survey.IsInline (s : Survey) : Prop where
  lines : forall l, l ∈ s.lines -> Byte.newline ∉ l
  marker : forall i, s.marker = some i -> i < s.lines.length
  first : forall i, s.first = some i -> i < s.lines.length
  attachments : forall a, a ∈ s.attachments -> a.IsInline

theorem Survey.read_cases {s s' : Survey} {line : Text} (h : s.read line = .ok s') :
    s' = s.keep line ∨ s' = { s.keep [] with marker := some s.lines.length } ∨
      exists a, a.IsDeclared ∧ (forall b, b ∈ s.attachments -> b.name ≠ a.name) ∧
        s' = { s.keep [] with
          attachments := s.attachments ++ [a]
          first := s.first.or (some s.lines.length) } := by
  unfold read at h
  dsimp only at h
  split at h
  · cases h
    exact Or.inl rfl
  · split at h
    · split at h
      · cases h
      · cases h
        exact Or.inr (Or.inl rfl)
    · split at h
      · cases h
      · cases h
        exact Or.inl rfl
      · rename_i a hpragma
        split at h
        · cases h
        · rename_i hnew
          cases h
          refine Or.inr (Or.inr ⟨a, isDeclared_of_ofPragma? hpragma, ?_, rfl⟩)
          intro b hb heq
          exact List.find?_eq_none.mp hnew b hb (beq_iff_eq.mpr heq)

theorem Survey.IsInline.read {s s' : Survey} {line : Text} (hs : s.IsInline)
    (hline : Byte.newline ∉ line) (h : s.read line = .ok s') :
    s'.IsInline ∧ s'.lines.length = s.lines.length + 1 := by
  have hblank : forall l, l ∈ ([] : Text) :: s.lines -> Byte.newline ∉ l :=
    List.forall_mem_cons.mpr ⟨List.not_mem_nil, hs.lines⟩
  have hmarker : forall i, s.marker = some i -> i < s.lines.length + 1 :=
    fun i hi => Nat.lt_succ_of_lt (hs.marker i hi)
  have hfirst : forall i, s.first = some i -> i < s.lines.length + 1 :=
    fun i hi => Nat.lt_succ_of_lt (hs.first i hi)
  rcases read_cases h with rfl | rfl | ⟨a, ha, _, rfl⟩
  · exact ⟨⟨List.forall_mem_cons.mpr ⟨hline, hs.lines⟩, hmarker, hfirst, hs.attachments⟩, rfl⟩
  · refine ⟨⟨hblank, ?_, hfirst, hs.attachments⟩, rfl⟩
    rintro i ⟨⟩
    exact Nat.lt_succ_self _
  · refine ⟨⟨hblank, hmarker, ?_, ?_⟩, rfl⟩
    · intro i hi
      rcases Option.or_eq_some_iff.mp hi with hi | ⟨_, hi⟩
      · exact hfirst i hi
      · cases hi
        exact Nat.lt_succ_self _
    · intro b hb
      rcases List.mem_append.mp hb with hb | hb
      · exact hs.attachments b hb
      · rw [List.mem_singleton.mp hb]
        exact ha.isInline

theorem Survey.IsInline.foldlM {s s' : Survey} {ls : List Text} (hs : s.IsInline)
    (hls : forall l, l ∈ ls -> Byte.newline ∉ l) (h : ls.foldlM Survey.read s = .ok s') :
    s'.IsInline ∧ s'.lines.length = s.lines.length + ls.length := by
  induction ls generalizing s with
  | nil =>
      cases h
      exact ⟨hs, rfl⟩
  | cons l ls ih =>
      rcases List.forall_mem_cons.mp hls with ⟨hl, hls⟩
      rw [List.foldlM_cons] at h
      cases hread : s.read l with
      | error e =>
          rw [hread] at h
          cases h
      | ok t =>
          rw [hread] at h
          rcases hs.read hl hread with ⟨ht, hlength⟩
          rcases ih ht hls h with ⟨hs', hlength'⟩
          refine ⟨hs', ?_⟩
          rw [hlength', hlength, List.length_cons]
          omega

/-!
# Declarations
-/

theorem newline_not_mem_ofNat (n : Nat) : Byte.newline ∉ Text.ofNat n :=
  fun h => absurd (Text.isDigit_of_mem_ofNat h) (by decide)

theorem newline_not_mem_vectorType (s : ScalarKind) : Byte.newline ∉ vectorType s := by
  cases s <;> decide

theorem newline_not_mem_inputType (s : ScalarKind) : Byte.newline ∉ inputType s := by
  cases s <;> decide

section Declarations

variable {a : Attachment} (ha : a.IsInline)

include ha

theorem newline_not_mem_qualified {type : Text} (htype : Byte.newline ∉ type) :
    Byte.newline ∉ a.qualified type := by
  unfold Attachment.qualified
  split
  · exact htype
  · simp only [List.mem_append, not_or]
    exact ⟨⟨ha.precision, by decide⟩, htype⟩

theorem newline_not_mem_inputName : Byte.newline ∉ a.inputName := by
  unfold Attachment.inputName
  split
  · simp only [List.mem_append, not_or]
    exact ⟨ha.name, by decide⟩
  · exact ha.name

theorem newline_not_mem_loadDefine {value : Text} (hvalue : Byte.newline ∉ value) :
    Byte.newline ∉ a.loadDefine value := by
  simp only [Attachment.loadDefine, List.mem_append, not_or]
  exact ⟨⟨⟨by decide, ha.name⟩, by decide⟩, hvalue⟩

theorem newline_not_mem_outputLine {storage : Text} (hstorage : Byte.newline ∉ storage) :
    Byte.newline ∉ a.outputLine storage := by
  have htype := newline_not_mem_qualified ha (newline_not_mem_vectorType a.scalar)
  simp only [Attachment.outputLine, Attachment.locationText, List.mem_append, not_or, and_assoc]
  exact ⟨by decide, newline_not_mem_ofNat _, by decide, hstorage, by decide, htype, by decide,
    ha.name, by decide⟩

theorem newline_not_mem_inputLine (n : Nat) :
    Byte.newline ∉ "layout(input_attachment_index = " ++ Text.ofNat n ++ ") uniform " ++
      a.qualified (inputType a.scalar) ++ " " ++ a.inputName ++ ";" := by
  have htype := newline_not_mem_qualified ha (newline_not_mem_inputType a.scalar)
  simp only [List.mem_append, not_or, and_assoc]
  exact ⟨by decide, newline_not_mem_ofNat n, by decide, htype, by decide,
    newline_not_mem_inputName ha, by decide⟩

theorem newline_not_mem_vulkanLines : forall l, l ∈ a.vulkanLines -> Byte.newline ∉ l := by
  have hload : Byte.newline ∉ "subpassLoad(" ++ a.inputName ++ ")" ++
      (if a.aspect == .color then ("" : Text) else ".x") := by
    simp only [List.mem_append, not_or, and_assoc]
    refine ⟨by decide, newline_not_mem_inputName ha, by decide, ?_⟩
    split <;> decide
  unfold Attachment.vulkanLines
  intro l hl
  rcases List.mem_append.mp hl with hl | hl
  · split at hl
    · simp only [List.mem_cons, List.not_mem_nil, or_false] at hl
      rcases hl with rfl | rfl
      · exact newline_not_mem_inputLine ha _
      · exact newline_not_mem_loadDefine ha hload
    · cases hl
  · split at hl
    · rw [List.mem_singleton.mp hl]
      exact newline_not_mem_outputLine ha (by decide)
    · cases hl

theorem newline_not_mem_builtinLines : forall l, l ∈ a.builtinLines -> Byte.newline ∉ l := by
  unfold Attachment.builtinLines
  intro l hl
  split at hl
  · rw [List.mem_singleton.mp hl]
    exact newline_not_mem_loadDefine ha (by decide)
  · rw [List.mem_singleton.mp hl]
    exact newline_not_mem_loadDefine ha (by decide)

theorem newline_not_mem_fetchLines : forall l, l ∈ a.fetchLines -> Byte.newline ∉ l := by
  unfold Attachment.fetchLines
  intro l hl
  split at hl
  · split at hl
    · simp only [List.mem_cons, List.not_mem_nil, or_false] at hl
      rcases hl with rfl | rfl
      · exact newline_not_mem_outputLine ha (by decide)
      · exact newline_not_mem_loadDefine ha ha.name
    · rw [List.mem_singleton.mp hl]
      exact newline_not_mem_outputLine ha (by decide)
  · exact newline_not_mem_builtinLines ha l hl

theorem newline_not_mem_legacyLines : forall l, l ∈ a.legacyLines -> Byte.newline ∉ l := by
  unfold Attachment.legacyLines Attachment.locationText
  intro l hl
  split at hl
  · rcases List.mem_append.mp hl with hl | hl
    · split at hl
      · rw [List.mem_singleton.mp hl]
        apply newline_not_mem_loadDefine ha
        simp only [List.mem_append, not_or, and_assoc]
        exact ⟨by decide, newline_not_mem_ofNat _, by decide⟩
      · cases hl
    · split at hl
      · rw [List.mem_singleton.mp hl]
        simp only [List.mem_append, not_or, and_assoc]
        exact ⟨by decide, ha.name, by decide, newline_not_mem_ofNat _, by decide⟩
      · cases hl
  · exact newline_not_mem_builtinLines ha l hl

end Declarations

theorem newline_not_mem_blockLines {as : List Attachment} (has : forall a, a ∈ as -> a.IsInline) :
    forall l, l ∈ blockLines as -> Byte.newline ∉ l := by
  have hflat : forall f : Attachment -> List Text,
      (forall a, a.IsInline -> forall l, l ∈ f a -> Byte.newline ∉ l) ->
      forall l, l ∈ as.flatMap f -> Byte.newline ∉ l := by
    intro f hf l hl
    rcases List.mem_flatMap.mp hl with ⟨a, ha, hl⟩
    exact hf a (has a ha) l hl
  intro l hl
  simp only [blockLines, List.mem_append, List.mem_singleton] at hl
  rcases hl with (((((rfl | hl) | rfl) | hl) | rfl) | hl) | rfl
  · decide
  · exact hflat _ (fun a => newline_not_mem_vulkanLines) l hl
  · decide
  · exact hflat _ (fun a => newline_not_mem_fetchLines) l hl
  · decide
  · exact hflat _ (fun a => newline_not_mem_legacyLines) l hl
  · decide

theorem isInline_assign {as : List Attachment} (has : forall a, a ∈ as -> a.IsInline)
    (input location : Nat) : forall a, a ∈ assign input location as -> a.IsInline := by
  induction as generalizing input location with
  | nil => exact has
  | cons a as ih =>
      rcases List.forall_mem_cons.mp has with ⟨ha, has⟩
      rw [assign]
      exact List.forall_mem_cons.mpr ⟨⟨ha.name, ha.precision⟩, ih has _ _⟩

/-!
# The line that gives way
-/

def rewrites (code : Text) : List Rewrite :=
  match code.lines.foldlM Survey.read ⟨[], [], none, none⟩ with
  | .error _ => []
  | .ok survey =>
      match survey.marker.or survey.first, survey.attachments with
      | some place, _ :: _ => [⟨place, code.newlines - place⟩]
      | _, _ => []

theorem tracks_expand {total : Nat} {code : Text} {lines : LineMap} {before : List Rewrite}
    {e : Expansion} (h : Tracks total (code.newlines + 1) lines before)
    (hresult : expand code lines = .ok e) :
    Tracks total (e.code.newlines + 1) e.lines (rewrites code ++ before) := by
  unfold expand at hresult
  unfold rewrites
  cases hsurvey : code.lines.foldlM Survey.read ⟨[], [], none, none⟩ with
  | error e =>
      rw [hsurvey] at hresult
      cases hresult
  | ok survey =>
      rw [hsurvey] at hresult
      have hstart : Survey.IsInline ⟨[], [], none, none⟩ := ⟨by simp, by simp, by simp, by simp⟩
      rcases hstart.foldlM (fun l => Text.not_mem_of_mem_lines) hsurvey with ⟨hinline, hlength⟩
      have hkept : forall l, l ∈ survey.lines.reverse -> Byte.newline ∉ l :=
        fun l hl => hinline.lines l (List.mem_reverse.mp hl)
      have hcount : survey.lines.reverse.length = code.newlines + 1 := by
        rw [List.length_reverse, hlength, Text.length_lines]
        exact Nat.zero_add _
      dsimp only at hresult
      split at hresult
      · rename_i place a rest hplace hattachments
        cases hresult
        have hlt : place < survey.lines.reverse.length := by
          rw [List.length_reverse]
          rcases Option.or_eq_some_iff.mp hplace with hmarker | ⟨_, hfirst⟩
          · exact hinline.marker place hmarker
          · exact hinline.first place hfirst
        have hassigned := isInline_assign (hattachments ▸ hinline.attachments) 0 0
        have hblock : forall l,
            l ∈ blockLines ((assign 0 0 (a :: rest)).mergeSort Attachment.le) -> Byte.newline ∉ l :=
          newline_not_mem_blockLines fun b hb => hassigned b (List.mem_mergeSort.mp hb)
        have hnewlines := Text.newlines_unlines (by simp [blockLines]) hblock
        have hbefore : Tracks total (place + 0 + (code.newlines - place) + 1) lines before := by
          rw [hcount] at hlt
          rw [show place + 0 + (code.newlines - place) = code.newlines by omega]
          exact h
        dsimp only
        rw [hplace, hattachments, Text.newlines_unlines_set hkept hlt, hcount, Nat.add_sub_cancel,
          ← hnewlines]
        exact hbefore.splice _
      · cases hresult
        have hne : survey.lines.reverse ≠ [] := by
          rw [← List.length_pos_iff, hcount]
          exact Nat.succ_pos _
        have hunlines := Text.newlines_unlines hne hkept
        rw [hcount] at hunlines
        rw [Nat.succ.inj hunlines]
        exact h.mono (List.subset_append_right _ _)

end Subpass

end EffectShader
