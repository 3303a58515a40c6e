import EffectShader.Token.Basic
import Mathlib.Algebra.GroupWithZero.Nat

/-!
# Lines and newlines

A text has one line more than newlines, whether its newlines are counted by runes or by bytes,
and putting its lines together gives the text back.
-/

namespace EffectShader

/-!
# Counting lines

A position advances over runes, while the lines of a text are counted by bytes.
The two agree because a newline is a rune of its own: no byte of a longer
encoding is a newline.
-/

namespace Text

@[simp] theorem newlines_nil : newlines [] = 0 := rfl

@[simp] theorem newlines_append (s t : Text) :
    newlines (s ++ t) = newlines s + newlines t := by
  simp [newlines]

theorem newlines_cons (b : UInt8) (s : Text) :
    newlines (b :: s) = newlines s + if b = Byte.newline then 1 else 0 := by
  simp only [newlines, List.count_cons, beq_iff_eq]

@[simp] theorem newlines_replicate (n : Nat) :
    newlines (List.replicate n Byte.newline) = n := by
  simp [newlines]

theorem contains_newline_eq (s : Text) :
    s.contains Byte.newline = decide (0 < newlines s) := by
  rw [Bool.eq_iff_iff]
  simp [newlines, List.count_pos_iff]

end Text

/-!
# The bytes of a rune
-/

namespace Rune

theorem bytes_of_ofCode? {code least : Nat} {bytes : Text} {r : Rune}
    (h : ofCode? code least bytes = some r) : r.bytes = bytes := by
  unfold ofCode? at h
  split at h
  · cases h
    rfl
  · cases h

theorem bytes_of_multibyte? {b : UInt8} {s : Text} {r : Rune}
    (h : multibyte? b s = some r) :
    exists cs rest, r.bytes = b :: cs ∧ s = cs ++ rest ∧
      forall c, c ∈ cs -> isContinuation c = true := by
  unfold multibyte? at h
  split at h
  · cases h
  · rename_i b1 s1
    split at h
    · cases h
    · rename_i hb1
      split at h
      · exact ⟨[b1], s1, bytes_of_ofCode? h, rfl, by simpa using hb1⟩
      · split at h
        · cases h
        · rename_i b2 s2
          split at h
          · cases h
          · rename_i hb2
            split at h
            · exact ⟨[b1, b2], s2, bytes_of_ofCode? h, rfl, by simp_all⟩
            · split at h
              · cases h
              · rename_i b3 s3
                split at h
                · rename_i hb3
                  exact ⟨[b1, b2, b3], s3, bytes_of_ofCode? h, rfl, by simp_all⟩
                · cases h

theorem bytes_first (b : UInt8) (s : Text) :
    exists cs rest, (first b s).bytes = b :: cs ∧ s = cs ++ rest ∧
      forall c, c ∈ cs -> isContinuation c = true := by
  unfold first
  split
  · exact ⟨[], s, rfl, rfl, by simp⟩
  · cases hm : multibyte? b s with
    | none => exact ⟨[], s, rfl, rfl, by simp⟩
    | some r => exact bytes_of_multibyte? hm

theorem ne_newline_of_isContinuation {c : UInt8} (h : isContinuation c = true) :
    c ≠ Byte.newline := by
  intro hc
  subst hc
  exact absurd h (by decide)

theorem newlines_of_continuations {cs : Text}
    (h : forall c, c ∈ cs -> isContinuation c = true) : Text.newlines cs = 0 := by
  rw [Text.newlines, List.count_eq_zero]
  intro hmem
  exact ne_newline_of_isContinuation (h _ hmem) rfl

theorem bytes_first_newline (s : Text) : (first Byte.newline s).bytes = [Byte.newline] := rfl

end Rune

/-!
# Positions
-/

namespace Position

theorem line_step (p : Position) (b : UInt8) (s : Text) :
    (p.step (Rune.first b s)).line =
      p.line + Text.newlines (Rune.first b s).bytes := by
  rcases Rune.bytes_first b s with ⟨cs, rest, hbytes, hs, hcs⟩
  by_cases hb : b = Byte.newline
  · subst hb
    simp [step, Rune.bytes_first_newline, Text.newlines_cons]
  · have hne : ((Rune.first b s).bytes == [Byte.newline]) = false := by
      rw [hbytes]
      simp [hb]
    rw [step, hne, hbytes, Text.newlines_cons, Rune.newlines_of_continuations hcs]
    simp [hb]

theorem line_advance (p : Position) (s : Text) :
    (p.advance s).line = p.line + Text.newlines s := by
  unfold advance
  fun_induction Text.runes s generalizing p with
  | case1 => simp
  | case2 b s r ih =>
      rcases Rune.bytes_first b s with ⟨cs, rest, hbytes, hs, hcs⟩
      have hdrop : s.drop (r.bytes.length - 1) = rest := by
        rw [show r.bytes = b :: cs from hbytes, hs]
        simp
      rw [List.foldl_cons, ih, line_step, hdrop, show (Rune.first b s).bytes = b :: cs from hbytes,
        Nat.add_assoc, hs, ← Text.newlines_append, List.cons_append]

theorem offset_step (p : Position) (r : Rune) : (p.step r).offset = p.offset + r.bytes.length := by
  unfold step
  split
  · rename_i hbytes
    rw [eq_of_beq hbytes]
    rfl
  · rfl

theorem offset_advance (p : Position) (s : Text) : (p.advance s).offset = p.offset + s.length := by
  unfold advance
  fun_induction Text.runes s generalizing p with
  | case1 => simp
  | case2 b s r ih =>
      rcases Rune.bytes_first b s with ⟨cs, rest, hbytes, hs, _⟩
      have hlen : r.bytes.length = cs.length + 1 := by
        rw [show r.bytes = b :: cs from hbytes]
        rfl
      rw [List.foldl_cons, ih, offset_step, hlen, hs]
      simp only [List.length_drop, List.length_append, List.length_cons]
      omega

end Position

/-!
# Lines and newlines

A text is cut into lines at its newlines and put together again with newlines
between the lines.  No line holds a newline, there is one line more than newlines,
and putting the lines together gives the text back.
-/

namespace Text

theorem splitByte_ne_nil (sep : UInt8) (s : Text) : splitByte sep s ≠ [] := by
  fun_cases splitByte sep s <;> simp

theorem lines_cons_newline (s : Text) : lines (Byte.newline :: s) = [] :: lines s := by
  unfold lines
  rw [splitByte, if_pos (by decide)]

theorem exists_lines_cons {b : UInt8} (hb : b ≠ Byte.newline) (s : Text) :
    exists l ls, lines s = l :: ls ∧ lines (b :: s) = (b :: l) :: ls := by
  unfold lines
  cases hs : splitByte Byte.newline s with
  | nil => exact absurd hs (splitByte_ne_nil Byte.newline s)
  | cons l ls =>
      refine ⟨l, ls, rfl, ?_⟩
      rw [splitByte, if_neg (by simpa using hb), hs]

theorem lines_ne_nil (s : Text) : lines s ≠ [] :=
  splitByte_ne_nil Byte.newline s

theorem lines_nil : lines [] = [[]] := rfl

theorem unlines_nil : unlines [] = [] := rfl

theorem unlines_singleton (l : Text) : unlines [l] = l := by
  simp [unlines, joinWith]

theorem unlines_cons {ls : List Text} (h : ls ≠ []) (l : Text) :
    unlines (l :: ls) = l ++ Byte.newline :: unlines ls := by
  cases ls with
  | nil => exact absurd rfl h
  | cons k ls => simp [unlines, joinWith, List.intercalate_cons_cons]

theorem unlines_lines (s : Text) : unlines (lines s) = s := by
  induction s with
  | nil => rfl
  | cons b s ih =>
      by_cases hb : b = Byte.newline
      · rw [hb, lines_cons_newline, unlines_cons (lines_ne_nil s), ih, List.nil_append]
      · rcases exists_lines_cons hb s with ⟨l, ls, hs, hlines⟩
        rw [hs] at ih
        rw [hlines]
        cases ls with
        | nil => simpa [unlines_singleton] using ih
        | cons k ls =>
            rw [unlines_cons (List.cons_ne_nil k ls)] at ih ⊢
            rw [List.cons_append, ih]

theorem not_mem_of_mem_lines {s l : Text} (h : l ∈ lines s) : Byte.newline ∉ l := by
  induction s generalizing l with
  | nil => simp_all [lines_nil]
  | cons b s ih =>
      by_cases hb : b = Byte.newline
      · rw [hb, lines_cons_newline] at h
        rcases List.mem_cons.mp h with rfl | h
        · simp
        · exact ih h
      · rcases exists_lines_cons hb s with ⟨k, ls, hs, hlines⟩
        rw [hs] at ih
        rw [hlines] at h
        rcases List.mem_cons.mp h with rfl | h
        · simp only [List.mem_cons, not_or]
          exact ⟨Ne.symm hb, ih List.mem_cons_self⟩
        · exact ih (List.mem_cons_of_mem k h)

theorem lines_append_newline {l : Text} (hl : Byte.newline ∉ l) (s : Text) :
    lines (l ++ Byte.newline :: s) = l :: lines s := by
  induction l with
  | nil => exact lines_cons_newline s
  | cons b l ih =>
      simp only [List.mem_cons, not_or] at hl
      rcases exists_lines_cons (Ne.symm hl.1) (l ++ Byte.newline :: s) with ⟨k, ls, hs, hlines⟩
      rw [ih hl.2] at hs
      cases hs
      exact hlines

theorem lines_of_not_mem {l : Text} (hl : Byte.newline ∉ l) : lines l = [l] := by
  induction l with
  | nil => rfl
  | cons b l ih =>
      simp only [List.mem_cons, not_or] at hl
      rcases exists_lines_cons (Ne.symm hl.1) l with ⟨k, ls, hs, hlines⟩
      rw [ih hl.2] at hs
      cases hs
      exact hlines

theorem lines_unlines {ls : List Text} (hne : ls ≠ [])
    (hls : forall l, l ∈ ls -> Byte.newline ∉ l) : lines (unlines ls) = ls := by
  induction ls with
  | nil => exact absurd rfl hne
  | cons l ls ih =>
      have hl := hls l List.mem_cons_self
      cases ls with
      | nil => rw [unlines_singleton, lines_of_not_mem hl]
      | cons k ls =>
          have hrest := ih (List.cons_ne_nil k ls) fun m hm => hls m (List.mem_cons_of_mem l hm)
          rw [unlines_cons (List.cons_ne_nil k ls), lines_append_newline hl, hrest]

theorem length_lines (s : Text) : (lines s).length = newlines s + 1 := by
  induction s with
  | nil => rfl
  | cons b s ih =>
      rw [newlines_cons]
      by_cases hb : b = Byte.newline
      · rw [hb, lines_cons_newline, List.length_cons, ih, if_pos rfl]
      · rcases exists_lines_cons hb s with ⟨l, ls, hs, hlines⟩
        rw [if_neg hb, hlines, List.length_cons, ← List.length_cons, ← hs, ih]

theorem newlines_of_not_mem {s : Text} (h : Byte.newline ∉ s) : newlines s = 0 :=
  List.count_eq_zero.mpr h

theorem newlines_joinWith {sep : Text} (hsep : newlines sep = 0) (parts : List Text) :
    newlines (joinWith sep parts) = (parts.map newlines).sum := by
  unfold joinWith
  induction parts with
  | nil => rfl
  | cons s parts ih =>
      cases parts with
      | nil => simp
      | cons t parts =>
          rw [List.intercalate_cons_cons, newlines_append, newlines_append, ih, hsep, Nat.add_zero]
          rfl

theorem newlines_unlines {ls : List Text} (hne : ls ≠ [])
    (hls : forall l, l ∈ ls -> Byte.newline ∉ l) : newlines (unlines ls) + 1 = ls.length := by
  rw [← length_lines, lines_unlines hne hls]

theorem newlines_unlines_append {ks ls : List Text} (hks : forall l, l ∈ ks -> Byte.newline ∉ l)
    (hls : forall l, l ∈ ls -> Byte.newline ∉ l) (s : Text) :
    newlines (unlines (ks ++ s :: ls)) = ks.length + newlines s + ls.length := by
  induction ks with
  | nil =>
      cases ls with
      | nil => simp [unlines_singleton]
      | cons l ls =>
          have hrest := newlines_unlines (List.cons_ne_nil l ls) hls
          rw [List.nil_append, unlines_cons (List.cons_ne_nil l ls), newlines_append, newlines_cons,
            if_pos rfl, hrest]
          simp
  | cons k ks ih =>
      rcases List.forall_mem_cons.mp hks with ⟨hk, hks⟩
      rw [List.cons_append, unlines_cons (by simp), newlines_append, newlines_of_not_mem hk,
        newlines_cons, if_pos rfl, ih hks, List.length_cons]
      omega

theorem newlines_unlines_set {ls : List Text} (hls : forall l, l ∈ ls -> Byte.newline ∉ l) {i : Nat}
    (hi : i < ls.length) (s : Text) :
    newlines (unlines (ls.set i s)) = i + newlines s + (ls.length - 1 - i) := by
  rw [List.set_eq_take_append_cons_drop, if_pos hi, newlines_unlines_append
    (fun l hl => hls l (List.mem_of_mem_take hl)) (fun l hl => hls l (List.mem_of_mem_drop hl)),
    List.length_take, List.length_drop]
  omega

def ended (ls : List Text) : Text :=
  ls.flatMap fun l => l ++ [Byte.newline]

theorem ended_cons (l : Text) (ls : List Text) (r : Text) :
    ended (l :: ls) ++ r = l ++ Byte.newline :: (ended ls ++ r) := by
  simp [ended]

theorem ended_append (ks ls : List Text) : ended (ks ++ ls) = ended ks ++ ended ls :=
  List.flatMap_append

theorem unlines_append_cons (ks : List Text) (s : Text) (ls : List Text) :
    unlines (ks ++ s :: ls) = ended ks ++ (s ++ ls.flatMap (Byte.newline :: ·)) := by
  induction ks with
  | nil =>
      rw [List.nil_append]
      show _ = s ++ ls.flatMap (Byte.newline :: ·)
      induction ls generalizing s with
      | nil => rw [unlines_singleton, List.flatMap_nil, List.append_nil]
      | cons l ls ih =>
          rw [unlines_cons (List.cons_ne_nil l ls), ih, List.flatMap_cons, List.cons_append]
  | cons k ks ih => rw [List.cons_append, unlines_cons (by simp), ih, ended_cons]

theorem unlines_cons_eq (l : Text) (ls : List Text) :
    unlines (l :: ls) = l ++ ls.flatMap (Byte.newline :: ·) :=
  unlines_append_cons [] l ls

theorem ended_eq (l : Text) (ls : List Text) :
    ended (l :: ls) = unlines (l :: ls) ++ [Byte.newline] := by
  induction ls generalizing l with
  | nil => rw [unlines_singleton, ended, List.flatMap_singleton]
  | cons k ls ih =>
      have hended := ended_cons l (k :: ls) []
      rw [List.append_nil, List.append_nil] at hended
      rw [hended, ih k, unlines_cons (List.cons_ne_nil k ls), List.append_assoc, List.cons_append]

theorem unlines_unlines (ks : List Text) {ms : List Text} (hne : ms ≠ []) (ls : List Text) :
    unlines (ks ++ unlines ms :: ls) = unlines (ks ++ (ms ++ ls)) := by
  cases ms with
  | nil => exact absurd rfl hne
  | cons m ms =>
      rw [unlines_append_cons, List.cons_append, unlines_append_cons, unlines_cons_eq,
        List.flatMap_append, List.append_assoc]

theorem exists_line_of_append {ls : List Text} (hne : ls ≠ []) {before after : Text}
    (h : unlines ls = before ++ after) :
    exists ks x y ms, ls = ks ++ (x ++ y) :: ms ∧ before = ended ks ++ x ∧
      after = y ++ ms.flatMap (Byte.newline :: ·) := by
  induction ls generalizing before with
  | nil => exact absurd rfl hne
  | cons l ls ih =>
      rw [unlines_cons_eq] at h
      rcases List.append_eq_append_iff.mp h with ⟨w, rfl, hrest⟩ | ⟨w, rfl, rfl⟩
      · cases ls with
        | nil =>
            rcases List.append_eq_nil_iff.mp hrest.symm with ⟨rfl, rfl⟩
            exact ⟨[], l, [], [], by rw [List.append_nil, List.nil_append], by simp [ended], rfl⟩
        | cons k ls =>
            cases w with
            | nil => exact ⟨[], l, [], k :: ls, by simp, by simp [ended], hrest.symm⟩
            | cons b w =>
                rw [List.flatMap_cons, List.cons_append, List.cons_append, List.cons.injEq,
                  ← unlines_cons_eq] at hrest
                rcases hrest with ⟨rfl, hrest⟩
                rcases ih (List.cons_ne_nil k ls) hrest with ⟨ks, x, y, ms, hls, rfl, hafter⟩
                refine ⟨l :: ks, x, y, ms, by rw [hls, List.cons_append], ?_, hafter⟩
                rw [ended_cons]
      · exact ⟨[], before, w, ls, rfl, by simp [ended], rfl⟩

end Text

end EffectShader
