import EffectShader.Macro.Function
import EffectShader.Proofs.Subpass.Attachments
import EffectShader.Proofs.Token.FirstLine
import EffectShader.Proofs.Token.LineStarts

/-!
# Pragmas on lines and in tokens

Macros and subpass attachments are read line by line, while everything else reads
tokens.  A line that no comment and no directive reaches into is read as a pragma
only if it starts that pragma's token; and the token of a pragma is on such a line
if only blanks stand in front of it and its first line tells what it is.
-/

namespace EffectShader

/-- What a pragma is to the passes that read lines. -/
inductive Role where
  | literal (name : Text)
  | function
  | marker
  | attachment (aspect : Subpass.Aspect) (scalar : ScalarKind)
  deriving DecidableEq

def Role.ofDefinition? (args : Text) : Option Role :=
  let name := Occurrence.leadingName args
  if name = [] then none
  else if (args.drop name.length).head? = some Byte.openParen then some .function
  else some (.literal name)

def Role.ofSubpass? (name : Text) : Option Role :=
  if name = "subpass" then some .marker
  else (Subpass.classify? name).map fun (aspect, scalar) => .attachment aspect scalar

def Pragma.role? (p : Pragma) : Option Role :=
  if p.name = "define" then Role.ofDefinition? p.args else Role.ofSubpass? p.name

theorem Pragma.role?_of_define {p : Pragma} (h : p.name = "define") :
    p.role? = Role.ofDefinition? p.args :=
  if_pos h

theorem Pragma.role?_of_ne_define {p : Pragma} (h : p.name ≠ "define") :
    p.role? = Role.ofSubpass? p.name ∧ p.role? ≠ some .function ∧
      forall name, p.role? ≠ some (.literal name) := by
  have hrole : p.role? = Role.ofSubpass? p.name := if_neg h
  refine ⟨hrole, ?_⟩
  rw [hrole]
  unfold Role.ofSubpass?
  split
  · simp
  · simp

def Role.isSubpass : Role -> Bool
  | .marker | .attachment _ _ => true
  | .literal _ | .function => false

theorem Pragma.role?_of_ofSubpass? {p : Pragma} {r : Role} (h : Role.ofSubpass? p.name = some r) :
    p.role? = some r := by
  by_cases hdefine : p.name = "define"
  · rw [hdefine] at h
    exact absurd h (by rw [show Role.ofSubpass? "define" = none by decide]; simp)
  · rw [(role?_of_ne_define hdefine).1, h]

theorem Pragma.isSubpass_of_role? {p : Pragma} {r : Role} (h : Role.ofSubpass? p.name = none)
    (hr : p.role? = some r) : r.isSubpass = false := by
  by_cases hdefine : p.name = "define"
  · rw [role?_of_define hdefine] at hr
    unfold Role.ofDefinition? at hr
    grind [Role.isSubpass]
  · rw [(role?_of_ne_define hdefine).1, h] at hr
    cases hr

def Role.of? (text : Text) : Option Role :=
  (Pragma.of? text).bind Pragma.role?

/-- The line of the given number, counted from `n`, is a pragma in the role. -/
def Role.IsOn (r : Role) (n : Nat) (ls : List Text) (k : Nat) : Prop :=
  exists i l, ls[i]? = some l ∧ k = n + i ∧ Role.of? l = some r

theorem Role.isOn_nil {r : Role} {n k : Nat} : ¬ r.IsOn n [] k := by
  rintro ⟨i, l, hi, _⟩
  cases hi

theorem Role.isOn_cons {r : Role} {n k : Nat} {l : Text} {ls : List Text} :
    r.IsOn n (l :: ls) k ↔ k = n ∧ Role.of? l = some r ∨ r.IsOn (n + 1) ls k := by
  constructor
  · rintro ⟨i, l', hi, rfl, hr⟩
    cases i with
    | zero =>
        cases hi
        exact Or.inl ⟨rfl, hr⟩
    | succ i => exact Or.inr ⟨i, l', hi, by omega, hr⟩
  · rintro (⟨rfl, hr⟩ | ⟨i, l', hi, rfl, hr⟩)
    · exact ⟨0, l, rfl, rfl, hr⟩
    · exact ⟨i + 1, l', hi, by omega, hr⟩

theorem Role.IsOn.of_drop {r : Role} {n k m : Nat} {ls : List Text}
    (h : r.IsOn (n + m) (ls.drop m) k) : r.IsOn n ls k := by
  rcases h with ⟨i, l, hi, rfl, hr⟩
  rw [List.getElem?_drop] at hi
  exact ⟨m + i, l, hi, by omega, hr⟩

/-!
# Literal macros
-/

namespace LiteralMacro

theorem map_parse?_eq_some_iff {l name : Text} :
    (parse? l).map Prod.fst = some name ↔ Role.of? l = some (.literal name) := by
  unfold parse? defineArgs? Role.of?
  rw [← Pragma.of?]
  cases Pragma.of? l with
  | none => simp
  | some p =>
      rw [Option.bind_some, Option.bind_some]
      by_cases hdefine : p.name = "define"
      · rw [Pragma.role?_of_define hdefine, if_pos (beq_iff_eq.mpr hdefine), Option.bind_some]
        unfold Role.ofDefinition?
        grind
      · simp [hdefine, (Pragma.role?_of_ne_define hdefine).2.2 name]

theorem exists_mem_collect_iff (n : Nat) (macros : List LiteralMacro) (ls : List Text) (k : Nat)
    (name : Text) :
    (exists m, m ∈ (collect n macros ls).2 ∧ m.line = k ∧ m.name = name) ↔
      (exists m, m ∈ macros ∧ m.line = k ∧ m.name = name) ∨ (Role.literal name).IsOn n ls k := by
  induction ls generalizing n macros with
  | nil => simp [collect, Role.isOn_nil]
  | cons l ls ih =>
      rw [collect, Role.isOn_cons, ← map_parse?_eq_some_iff]
      cases hparse : parse? l with
      | none => simp [ih]
      | some parts =>
          rcases parts with ⟨name', value⟩
          simp only [ih, List.mem_append, List.mem_singleton, or_assoc, or_and_right, exists_or,
            exists_eq_left]
          simp [eq_comm]

end LiteralMacro

/-!
# Function macros
-/

namespace FunctionMacro

theorem isDefinition_iff {l : Text} : isDefinition l = true ↔ Role.of? l = some .function := by
  unfold isDefinition defineArgs? Role.of?
  rw [← Pragma.of?]
  cases Pragma.of? l with
  | none => simp
  | some p =>
      rw [Option.bind_some, Option.bind_some]
      by_cases hdefine : p.name = "define"
      · rw [Pragma.role?_of_define hdefine, if_pos (beq_iff_eq.mpr hdefine), Option.any_some]
        unfold Role.ofDefinition?
        grind
      · simp [hdefine, (Pragma.role?_of_ne_define hdefine).2.1]

theorem line_of_ofDefinition {text : Text} {line start : Nat} :
    (forall m, ofDefinition text line start = .ok m -> m.line = line) ∧
      forall e, ofDefinition text line start = .error e -> e.line = line := by
  unfold ofDefinition
  dsimp only
  constructor
  · intro m h
    split at h
    · cases h
    · split at h
      · cases h
      · cases h
        rfl
  · intro e h
    split at h
    · cases h
      rfl
    · split at h
      · cases h
        rfl
      · cases h

theorem isOn_of_definitionsFrom (n offset : Nat) (ls : List Text) :
    (forall ms, definitionsFrom n offset ls = .ok ms ->
      forall m, m ∈ ms -> Role.function.IsOn n ls m.line) ∧
    forall e, definitionsFrom n offset ls = .error e ->
      exists k : Nat, e.line = k ∧ Role.function.IsOn n ls k := by
  fun_induction definitionsFrom n offset ls with
  | case1 => simp
  | case2 n offset l ls hdef _ _ e he =>
      have hrole := isDefinition_iff.mp hdef
      simp only [reduceCtorEq, false_implies, implies_true, Except.error.injEq, forall_eq',
        true_and]
      exact ⟨n, line_of_ofDefinition.2 e he, Role.isOn_cons.mpr (Or.inl ⟨rfl, hrole⟩)⟩
  | case3 n offset l ls hdef c _ m hm e he ih =>
      rw [he] at ih
      simp only [reduceCtorEq, false_implies, implies_true, Except.error.injEq, forall_eq',
        true_and]
        at ih ⊢
      rcases ih with ⟨k, hk, hon⟩
      exact ⟨k, hk, Role.isOn_cons.mpr (Or.inr hon.of_drop)⟩
  | case4 n offset l ls hdef c _ m hm more hmore ih =>
      rw [hmore] at ih
      simp only [reduceCtorEq, false_implies, implies_true, Except.ok.injEq, forall_eq', and_true]
        at ih ⊢
      rw [List.forall_mem_cons, line_of_ofDefinition.1 m hm]
      refine ⟨Role.isOn_cons.mpr (Or.inl ⟨rfl, isDefinition_iff.mp hdef⟩), ?_⟩
      exact fun m' hm' => Role.isOn_cons.mpr (Or.inr (ih m' hm').of_drop)
  | case5 n offset l ls hdef ih =>
      refine ⟨fun ms hms m hm => Role.isOn_cons.mpr (Or.inr (ih.1 ms hms m hm)), ?_⟩
      intro e he
      rcases ih.2 e he with ⟨k, hk, hon⟩
      exact ⟨k, hk, Role.isOn_cons.mpr (Or.inr hon)⟩

theorem isContinued_of_lt_continuations {l : Text} {ls : List Text} {i : Nat}
    (h : i < continuations l ls) :
    exists l', (l :: ls)[i]? = some l' ∧ isContinued l' = true := by
  induction ls generalizing l i with
  | nil => cases h
  | cons next ls ih =>
      rw [continuations] at h
      split at h
      · rename_i hcontinued
        cases i with
        | zero => exact ⟨l, rfl, hcontinued⟩
        | succ i => exact ih (Nat.lt_of_succ_lt_succ h)
      · cases h

theorem exists_mem_definitionsFrom (n offset : Nat) (ls : List Text) {ms : List FunctionMacro}
    (h : definitionsFrom n offset ls = .ok ms) {i : Nat} {l : Text} (hl : ls[i]? = some l)
    (hrole : Role.of? l = some .function)
    (hbefore : forall j l', i = j + 1 -> ls[j]? = some l' -> isContinued l' = false) :
    exists m, m ∈ ms ∧ m.line = n + i := by
  fun_induction definitionsFrom n offset ls generalizing ms i with
  | case1 => cases hl
  | case2 => cases h
  | case3 => cases h
  | case4 n offset k ls hdef c _ m hm more hmore =>
      rename_i ih
      cases h
      cases i with
      | zero => exact ⟨m, List.mem_cons_self, line_of_ofDefinition.1 m hm⟩
      | succ i =>
          by_cases hi : i < c
          · -- a line that the definition takes along follows a continued one
            rcases isContinued_of_lt_continuations hi with ⟨l', hl', hcontinued⟩
            rw [hbefore i l' rfl hl'] at hcontinued
            cases hcontinued
          · rcases Nat.exists_eq_add_of_le (Nat.le_of_not_lt hi) with ⟨d, rfl⟩
            have hbehind : forall j l', d = j + 1 -> (ls.drop c)[j]? = some l' ->
                isContinued l' = false := by
              rintro j l' rfl hl'
              rw [List.getElem?_drop] at hl'
              exact hbefore (c + j + 1) l' (by omega) hl'
            rcases ih hmore (by rw [List.getElem?_drop]; exact hl) hbehind with ⟨m', hm', hline⟩
            exact ⟨m', List.mem_cons_of_mem m hm', by omega⟩
  | case5 n offset k ls hdef ih =>
      cases i with
      | zero =>
          cases hl
          exact absurd (isDefinition_iff.mpr hrole) hdef
      | succ i =>
          rcases ih h hl (fun j l' hj hl' => hbefore (j + 1) l' (by omega) hl') with ⟨m, hm, hline⟩
          exact ⟨m, hm, by omega⟩

end FunctionMacro

/-!
# Subpass attachments
-/

namespace Subpass

def Attachment.role (a : Attachment) : Role :=
  .attachment a.aspect a.scalar

def IsAbout (line : Nat) (r : Role) : Except Diagnostic Attachment -> Prop
  | .ok a => a.line = line ∧ a.role = r
  | .error e => e.line = line

theorem isAbout_ofFields (pragma direction precision name : Text) (aspect : Aspect)
    (scalar : ScalarKind) (line : Nat) :
    IsAbout line (.attachment aspect scalar)
      (ofFields pragma aspect scalar line direction precision name) := by
  unfold ofFields
  dsimp only
  repeat' split
  all_goals first | exact rfl | exact ⟨rfl, rfl⟩

theorem ofPragma?_of_classify? {p : Pragma} {aspect : Aspect} {scalar : ScalarKind}
    (h : classify? p.name = some (aspect, scalar)) (line : Nat) :
    exists x, ofPragma? p line = x.map some ∧ IsAbout line (.attachment aspect scalar) x := by
  unfold ofPragma?
  rw [h]
  dsimp only
  split
  · exact ⟨_, rfl, isAbout_ofFields ..⟩
  · exact ⟨_, rfl, isAbout_ofFields ..⟩
  · exact ⟨.error _, rfl, rfl⟩

namespace Survey

inductive Reads (s : Survey) (l : Text) : Except Diagnostic Survey -> Prop where
  | keep (hrole : forall r, Role.of? l = some r -> r.isSubpass = false) : Reads s l (.ok (s.keep l))
  | marker (hrole : Role.of? l = some .marker) (hfirst : s.marker = none) :
      Reads s l (.ok { s.keep [] with marker := some s.lines.length })
  | attachment (a : Attachment) (hrole : Role.of? l = some a.role)
      (hline : a.line = s.lines.length + 1) :
      Reads s l (.ok { s.keep [] with
        attachments := s.attachments ++ [a]
        first := s.first.or (some s.lines.length) })
  | fail (e : Diagnostic) (r : Role) (hrole : Role.of? l = some r) (hsubpass : r.isSubpass = true)
      (hline : e.line = (s.lines.length + 1 : Nat)) : Reads s l (.error e)

theorem reads (s : Survey) (l : Text) : Reads s l (s.read l) := by
  unfold read
  rw [← Pragma.of?]
  cases hpragma : Pragma.of? l with
  | none => exact .keep (by simp [Role.of?, hpragma])
  | some p =>
      have hof : Role.of? l = p.role? := by rw [Role.of?, hpragma, Option.bind_some]
      dsimp only
      split
      · rename_i hname
        have hrole : Role.of? l = some .marker := by
          rw [hof]
          exact Pragma.role?_of_ofSubpass? (if_pos (beq_iff_eq.mp hname))
        split
        · exact .fail _ _ hrole rfl rfl
        · rename_i hmarker
          exact .marker hrole hmarker
      · rename_i hname
        have hname : p.name ≠ "subpass" := fun heq => hname (beq_iff_eq.mpr heq)
        cases hclass : classify? p.name with
        | none =>
            have hrole : Role.ofSubpass? p.name = none := by
              rw [Role.ofSubpass?, if_neg hname, hclass]
              rfl
            have hnone : ofPragma? p (s.lines.length + 1) = .ok none := by
              rw [ofPragma?, hclass]
            rw [hnone]
            exact .keep fun r hr => Pragma.isSubpass_of_role? hrole (hof ▸ hr)
        | some parts =>
            rcases parts with ⟨aspect, scalar⟩
            have hrole : Role.of? l = some (.attachment aspect scalar) := by
              rw [hof]
              apply Pragma.role?_of_ofSubpass?
              rw [Role.ofSubpass?, if_neg hname, hclass]
              rfl
            rcases ofPragma?_of_classify? hclass (s.lines.length + 1) with ⟨x, hx, habout⟩
            rw [hx]
            cases x with
            | error e => exact .fail e _ hrole rfl habout
            | ok a =>
                simp only [Except.map]
                split
                · exact .fail _ _ hrole rfl rfl
                · exact .attachment a (by rw [hrole, habout.2]) habout.1

theorem marker_foldlM {s s' : Survey} {ls : List Text} (h : ls.foldlM Survey.read s = .ok s')
    (i : Nat) : s'.marker = some i ↔
      s.marker = some i ∨ Role.marker.IsOn (s.lines.length + 1) ls (i + 1) := by
  induction ls generalizing s with
  | nil =>
      cases h
      simp [Role.isOn_nil]
  | cons l ls ih =>
      rw [List.foldlM_cons] at h
      rw [Role.isOn_cons]
      have hread := s.reads l
      generalize s.read l = x at h hread
      cases hread with
      | keep hrole =>
          have hne : Role.of? l ≠ some .marker := fun heq => absurd (hrole _ heq) (by decide)
          rw [ih h]
          simp [keep, hne]
      | marker hrole hfirst =>
          rw [ih h]
          simp [keep, hrole, hfirst, eq_comm]
      | attachment a hrole hline =>
          rw [ih h]
          simp [keep, hrole, Attachment.role]
      | fail e r hrole hsubpass hline => cases h

theorem attachments_foldlM {s s' : Survey} {ls : List Text}
    (h : ls.foldlM Survey.read s = .ok s') (k : Nat) (aspect : Aspect) (scalar : ScalarKind) :
    (exists a, a ∈ s'.attachments ∧ a.line = k ∧ a.role = .attachment aspect scalar) ↔
      (exists a, a ∈ s.attachments ∧ a.line = k ∧ a.role = .attachment aspect scalar) ∨
        (Role.attachment aspect scalar).IsOn (s.lines.length + 1) ls k := by
  induction ls generalizing s with
  | nil =>
      cases h
      simp [Role.isOn_nil]
  | cons l ls ih =>
      rw [List.foldlM_cons] at h
      rw [Role.isOn_cons]
      have hread := s.reads l
      generalize s.read l = x at h hread
      cases hread with
      | keep hrole =>
          have hne : Role.of? l ≠ some (.attachment aspect scalar) :=
            fun heq => absurd (hrole _ heq) (by simp [Role.isSubpass])
          rw [ih h]
          simp [keep, hne]
      | marker hrole hfirst =>
          rw [ih h]
          simp [keep, hrole]
      | attachment a hrole hline =>
          rw [ih h]
          simp only [keep, List.mem_append, List.mem_singleton, or_and_right, exists_or,
            exists_eq_left, or_assoc, hrole, hline, Option.some.injEq, List.length_cons]
          rw [eq_comm (a := s.lines.length + 1)]
      | fail e r hrole hsubpass hline => cases h

theorem exists_isOn_of_foldlM_error {s : Survey} {ls : List Text} {e : Diagnostic}
    (h : ls.foldlM Survey.read s = .error e) :
    exists (k : Nat) (r : Role), e.line = k ∧ r.isSubpass = true ∧
      r.IsOn (s.lines.length + 1) ls k := by
  induction ls generalizing s with
  | nil => cases h
  | cons l ls ih =>
      rw [List.foldlM_cons] at h
      have hread := s.reads l
      generalize s.read l = x at h hread
      cases hread with
      | keep hrole =>
          rcases ih h with ⟨k, r, hk, hr, hon⟩
          exact ⟨k, r, hk, hr, Role.isOn_cons.mpr (Or.inr hon)⟩
      | marker hrole hfirst =>
          rcases ih h with ⟨k, r, hk, hr, hon⟩
          exact ⟨k, r, hk, hr, Role.isOn_cons.mpr (Or.inr hon)⟩
      | attachment a hrole hline =>
          rcases ih h with ⟨k, r, hk, hr, hon⟩
          exact ⟨k, r, hk, hr, Role.isOn_cons.mpr (Or.inr hon)⟩
      | fail e' r hrole hsubpass hline =>
          cases h
          exact ⟨_, r, hline, hsubpass, Role.isOn_cons.mpr (Or.inl ⟨rfl, hrole⟩)⟩

theorem first_foldlM {s s' : Survey} {ls : List Text} (h : ls.foldlM Survey.read s = .ok s')
    (hs : s.attachments ≠ [] -> s.first ≠ none) : s'.attachments ≠ [] -> s'.first ≠ none := by
  induction ls generalizing s with
  | nil =>
      cases h
      exact hs
  | cons l ls ih =>
      rw [List.foldlM_cons] at h
      cases hread : s.read l with
      | error e =>
          rw [hread] at h
          cases h
      | ok t =>
          rw [hread] at h
          apply ih h
          rcases read_cases hread with rfl | rfl | ⟨a, _, _, rfl⟩
          · exact hs
          · exact hs
          · simp

end Survey

def Attachment.site (a : Attachment) : Nat × Role :=
  (a.line, a.role)

theorem map_site_assign (input location : Nat) (as : List Attachment) :
    (assign input location as).map Attachment.site = as.map Attachment.site :=
  map_assign input location as fun _ _ _ => rfl

theorem mem_site_of_expand {code : Text} {lines : LineMap} {x : Expansion}
    (h : expand code lines = .ok x) :
    exists survey, code.lines.foldlM Survey.read ⟨[], [], none, none⟩ = .ok survey ∧
      forall p, p ∈ x.attachments.map Attachment.site ↔
        p ∈ survey.attachments.map Attachment.site := by
  unfold expand at h
  split at h
  · cases h
  · rename_i survey hsurvey
    refine ⟨survey, hsurvey, ?_⟩
    intro p
    split at h
    · rename_i place a rest hplace hattachments
      cases h
      have hperm := (List.mergeSort_perm (assign 0 0 (a :: rest)) Attachment.le).map Attachment.site
      rw [hperm.mem_iff, map_site_assign, hattachments]
    · rename_i hnone
      cases h
      have hempty : survey.attachments = [] := by
        by_contra hne
        rcases List.exists_cons_of_ne_nil hne with ⟨a, rest, hcons⟩
        rcases Option.ne_none_iff_exists'.mp (Survey.first_foldlM hsurvey (by simp) hne) with
          ⟨first, hfirst⟩
        cases hmarker : survey.marker with
        | none => exact hnone first a rest (by rw [hmarker, hfirst]; rfl) hcons
        | some place => exact hnone place a rest (by rw [hmarker]; rfl) hcons
      rw [hempty]

end Subpass

/-!
# Tokens
-/

def Role.Starts (r : Role) (ts : List Token) (line : Nat) : Prop :=
  exists t, t ∈ ts ∧ t.kind = .directive ∧ t.line = line ∧ Role.of? t.text = some r

def Token.firstLine (t : Token) : Text :=
  t.text.takeWhile (· != Byte.newline)

/-- If the line, counted from zero, is read in a role then nothing reaches into it, and if a
directive in a role starts on it then the directive takes up the line behind its blanks and
shows the role there. -/
structure IsPlain (code : Text) (ts : List Token) (i : Nat) : Prop where
  free : (Text.lines code)[i]?.bind Role.of? ≠ none ->
    forall t, t ∈ ts -> t.lexeme.reaches (i + 1) = false
  whole : forall t, t ∈ ts -> t.kind = .directive -> t.line = i + 1 -> Role.of? t.text ≠ none ->
    (Text.lines code)[i]?.map (fun l => l.dropWhile Byte.isBlank) = some t.firstLine ∧
      Role.of? t.firstLine = Role.of? t.text

theorem Role.of?_dropWhile (l : Text) : Role.of? (l.dropWhile Byte.isBlank) = Role.of? l := by
  unfold Role.of?
  rw [Pragma.of?_dropWhile]

theorem Role.of?_goesOn {s more : Text} {r : Role} (hs : Byte.newline ∉ s)
    (hopen : Lexer.endsOpen s = true) (h : Role.of? (Byte.hash :: s) = some r) :
    Role.of? (Byte.hash :: (s ++ Byte.newline :: more)) = some r := by
  rcases Option.bind_eq_some_iff.mp h with ⟨p, hp, hr⟩
  rcases Directive.of?_goesOn hs hopen more hp with ⟨p', hp', hname, hargs⟩
  unfold Role.of?
  rw [hp', Option.bind_some, ← hr]
  unfold Pragma.role?
  rw [hname]
  split
  · rename_i hdefine
    rw [Pragma.role?_of_define hdefine] at hr
    have hlead : Occurrence.leadingName p.args ≠ [] := by
      intro hnil
      rw [Role.ofDefinition?, if_pos hnil] at hr
      cases hr
    have hparen := (hargs hlead).paren
    rw [(hargs hlead).name] at hparen
    unfold Role.ofDefinition?
    simp only [(hargs hlead).name, hparen]
  · rfl

section Agreement

variable {code : Text} {ts : List Token} (h : tokenize code = .ok ts) {i : Nat} {r : Role}

include h

theorem Role.IsOn.starts (hplain : IsPlain code ts i) (hon : r.IsOn 1 (Text.lines code) (i + 1)) :
    r.Starts ts (i + 1) := by
  rcases hon with ⟨j, l, hl, hij, hr⟩
  have hj : j = i := by omega
  subst hj
  have hfree := hplain.free (by rw [hl, Option.bind_some, hr]; exact Option.some_ne_none r)
  rcases Option.bind_eq_some_iff.mp hr with ⟨p, hp, _⟩
  rcases Pragma.exists_hash_of_of? hp with ⟨s, hhash, _⟩
  rw [← Role.of?_dropWhile, hhash] at hr
  have hvisible := Lexer.lexLines_eq_some_iff.mpr ⟨ts, h, rfl⟩
  have hreach : forall x, x ∈ visible ts -> x.reaches (1 + j) = false := by
    intro x hx
    rcases List.mem_map.mp hx with ⟨t, ht, rfl⟩
    rw [Nat.add_comm]
    exact hfree t (List.mem_of_mem_filter ht)
  rcases Lexer.exists_isDirectiveOn hvisible trivial (fun l => Text.not_mem_of_mem_lines) hl hhash
    hreach with ⟨x, hx, more, rfl, hmore⟩
  rcases List.mem_map.mp hx with ⟨t, ht, hlexeme⟩
  have hkind : t.kind = .directive := congrArg Lexeme.kind hlexeme
  have htext : t.text = Byte.hash :: (s ++ more) := congrArg Lexeme.text hlexeme
  have hline : t.line = 1 + j := congrArg Lexeme.line hlexeme
  refine ⟨t, List.mem_of_mem_filter ht, hkind, by omega, ?_⟩
  rw [htext]
  rcases hmore with rfl | ⟨hopen, hhead⟩
  · rwa [List.append_nil]
  · rcases List.head?_eq_some_iff.mp hhead with ⟨more, rfl⟩
    have hs : Byte.newline ∉ s := by
      intro hmem
      apply Text.not_mem_of_mem_lines (List.mem_of_getElem? hl)
      apply (List.dropWhile_suffix Byte.isBlank).subset
      rw [hhash]
      exact List.mem_cons_of_mem _ hmem
    exact Role.of?_goesOn hs hopen hr

theorem IsPlain.isOn_iff_starts (hplain : IsPlain code ts i) :
    r.IsOn 1 (Text.lines code) (i + 1) ↔ r.Starts ts (i + 1) := by
  constructor
  · exact Role.IsOn.starts h hplain
  · rintro ⟨t, ht, hkind, hline, hr⟩
    rcases hplain.whole t ht hkind hline (by rw [hr]; exact Option.some_ne_none r) with
      ⟨hwhole, hshown⟩
    rcases Option.map_eq_some_iff.mp hwhole with ⟨l, hl, hfirst⟩
    refine ⟨i, l, hl, by omega, ?_⟩
    rw [← Role.of?_dropWhile, hfirst, hshown, hr]

end Agreement

/-- On a plain line the passes that read lines take for a pragma exactly what starts as the token of
that pragma, and complain about nothing else; function macros are read behind a line that does not
end in a backslash. -/
theorem pragma_lines_agree {code : Text} {ts : List Token} (h : tokenize code = .ok ts) {i : Nat}
    (hplain : IsPlain code ts i) :
    (forall name, (exists m, m ∈ (LiteralMacro.expand code).2 ∧ m.line = i + 1 ∧ m.name = name) ↔
      (Role.literal name).Starts ts (i + 1)) ∧
    (forall ms, FunctionMacro.definitions code = .ok ms ->
      (forall j l, i = j + 1 -> (Text.lines code)[j]? = some l ->
        FunctionMacro.isContinued l = false) ->
      ((exists m, m ∈ ms ∧ m.line = i + 1) ↔ Role.function.Starts ts (i + 1))) ∧
    (forall e, FunctionMacro.definitions code = .error e -> e.line = (i + 1 : Nat) ->
      Role.function.Starts ts (i + 1)) ∧
    (forall survey, code.lines.foldlM Subpass.Survey.read ⟨[], [], none, none⟩ = .ok survey ->
      (survey.marker = some i ↔ Role.marker.Starts ts (i + 1))) ∧
    (forall lines x, Subpass.expand code lines = .ok x -> forall aspect scalar,
      (exists a, a ∈ x.attachments ∧ a.line = i + 1 ∧ a.aspect = aspect ∧ a.scalar = scalar) ↔
        (Role.attachment aspect scalar).Starts ts (i + 1)) ∧
    (forall lines e, Subpass.expand code lines = .error e -> e.line = (i + 1 : Nat) ->
      exists r : Role, r.isSubpass = true ∧ r.Starts ts (i + 1)) := by
  have hviews {r : Role} : r.IsOn 1 (Text.lines code) (i + 1) ↔ r.Starts ts (i + 1) :=
    hplain.isOn_iff_starts h
  refine ⟨?_, ?_, ?_, ?_, ?_, ?_⟩
  · intro name
    have hcollect := LiteralMacro.exists_mem_collect_iff 1 [] (Text.lines code) (i + 1) name
    have hmacros : (LiteralMacro.expand code).2 = (LiteralMacro.collect 1 [] code.lines).2 := rfl
    rw [← hviews, hmacros]
    simpa using hcollect
  · intro ms hms hbefore
    rw [← hviews]
    constructor
    · rintro ⟨m, hm, hline⟩
      rw [← hline]
      exact (FunctionMacro.isOn_of_definitionsFrom 1 0 _).1 ms hms m hm
    · rintro ⟨j, l, hl, hij, hrole⟩
      have hj : j = i := by omega
      subst hj
      rcases FunctionMacro.exists_mem_definitionsFrom 1 0 _ hms hl hrole hbefore with ⟨m, hm, hline⟩
      exact ⟨m, hm, by omega⟩
  · intro e he hline
    rcases (FunctionMacro.isOn_of_definitionsFrom 1 0 _).2 e he with ⟨k, hk, hon⟩
    rw [hk] at hline
    rw [← hviews, ← Int.ofNat.inj hline]
    exact hon
  · intro survey hsurvey
    rw [Subpass.Survey.marker_foldlM hsurvey i, ← hviews]
    simp
  · intro lines x hx aspect scalar
    rcases Subpass.mem_site_of_expand hx with ⟨survey, hsurvey, hsites⟩
    have hattachments := Subpass.Survey.attachments_foldlM hsurvey (i + 1) aspect scalar
    have hsite := hsites (i + 1, .attachment aspect scalar)
    rw [← hviews]
    simp only [List.mem_map, Subpass.Attachment.site, Prod.mk.injEq] at hsite
    simp only [List.not_mem_nil, false_and, exists_false, false_or] at hattachments
    rw [hattachments] at hsite
    simpa [Subpass.Attachment.role] using hsite
  · intro lines e he hline
    unfold Subpass.expand at he
    split at he
    · rename_i e' hsurvey
      cases he
      rcases Subpass.Survey.exists_isOn_of_foldlM_error hsurvey with ⟨k, r, hk, hsubpass, hon⟩
      rw [hk] at hline
      refine ⟨r, hsubpass, ?_⟩
      rw [← hviews, ← Int.ofNat.inj hline]
      exact hon
    · split at he <;> cases he

/-- A definition behind blanks that a comment comes before and the next line continues. -/
theorem pragma_lines_agree_continued :
    let code : Text := "/* A */\n  #pragma define A \\\n  1\n"
    exists ts, tokenize code = .ok ts ∧ IsPlain code ts 1 ∧
      (Role.literal "A").Starts ts 2 := by
  intro code
  let ts : List Token := [⟨.blockComment, "/* A */", ⟨1, 1, 0⟩⟩, ⟨.whitespace, "\n  ", ⟨1, 8, 7⟩⟩,
    ⟨.directive, "#pragma define A \\\n  1", ⟨2, 3, 10⟩⟩, ⟨.whitespace, "\n", ⟨3, 4, 32⟩⟩,
    ⟨.eof, [], ⟨4, 1, 33⟩⟩]
  have htokens : tokenize code = .ok ts := by decide +kernel
  have hplain : IsPlain code ts 1 := ⟨by decide +kernel, by decide +kernel⟩
  have hfound : exists m, m ∈ (LiteralMacro.expand code).2 ∧ m.line = 2 ∧ m.name = "A" :=
    ⟨⟨"A", [Byte.backslash], 2⟩, by decide +kernel⟩
  exact ⟨ts, htokens, hplain, ((pragma_lines_agree htokens hplain).1 "A").mp hfound⟩

/-- A comment hides pragmas from the tokens only. -/
theorem pragma_in_comment_read :
    let code : Text :=
      "/*\n#pragma define A 1\n#pragma define F(x) x\n#pragma subpassColor in c\n*/"
    (exists ts, tokenize code = .ok ts ∧ forall t, t ∈ ts -> t.kind ≠ .directive) ∧
      (LiteralMacro.expand code).2.map LiteralMacro.line = [2] ∧
      (FunctionMacro.definitions code).toOption.map (List.map FunctionMacro.line) = some [3] ∧
      (Subpass.expand code LineMap.identity).toOption.map
        (fun x => x.attachments.map Subpass.Attachment.line) = some [4] := by
  intro code
  have htokens : tokenize code =
      .ok [⟨.blockComment, code, ⟨1, 1, 0⟩⟩, ⟨.eof, [], ⟨5, 3, 72⟩⟩] := by
    decide +kernel
  refine ⟨⟨_, htokens, by simp⟩, by decide +kernel, by decide +kernel, by decide +kernel⟩

end EffectShader
