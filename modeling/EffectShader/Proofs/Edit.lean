import EffectShader.Edit
import EffectShader.Proofs.Text.Lines

/-!
# Applying ordered edits

Edits whose spans follow each other are applied one by one from left to right:
the bytes up to the next span are copied, the span is replaced.  None of them is
dropped: the result is the source with a new text for every span.
-/

namespace EffectShader

/-!
# Slices
-/

namespace Text

theorem slice_append_slice {s : Text} {a b c : Nat} (hab : a ≤ b) (hbc : b ≤ c) :
    slice s a b ++ slice s b c = slice s a c := by
  unfold slice
  have hdrop : s.drop b = (s.drop a).drop (b - a) := by
    rw [List.drop_drop, Nat.add_sub_cancel' hab]
  have hlength : c - a = (b - a) + (c - b) := by omega
  rw [hdrop, hlength, List.take_add]

theorem slice_append_drop {s : Text} {a b : Nat} (hab : a ≤ b) :
    slice s a b ++ s.drop b = s.drop a := by
  unfold slice
  have hdrop : s.drop b = (s.drop a).drop (b - a) := by
    rw [List.drop_drop, Nat.add_sub_cancel' hab]
  rw [hdrop, List.take_append_drop]

end Text

namespace Edit

/-!
# Spans that follow each other
-/

/-- The spans follow each other from an offset on. -/
def Ordered : Nat -> List Edit -> Prop
  | _, [] => True
  | o, e :: es => o ≤ e.start ∧ e.start ≤ e.stop ∧ Ordered e.stop es

theorem Ordered.mono {o o' : Nat} {es : List Edit} (h : Ordered o es) (ho : o' ≤ o) :
    Ordered o' es := by
  cases es with
  | nil => trivial
  | cons e es => exact ⟨Nat.le_trans ho h.1, h.2⟩

theorem Ordered.start_le {o : Nat} {es : List Edit} (h : Ordered o es) :
    forall e, e ∈ es -> o ≤ e.start := by
  induction es generalizing o with
  | nil => simp
  | cons e es ih =>
      rcases h with ⟨hstart, hspan, hrest⟩
      intro e' he'
      rcases List.mem_cons.mp he' with rfl | he'
      · exact hstart
      · exact Nat.le_trans (Nat.le_trans hstart hspan) (ih hrest e' he')

theorem Ordered.sorted {o : Nat} {es : List Edit} (h : Ordered o es) :
    es.Pairwise fun a b => decide (a.start ≤ b.start) = true := by
  induction es generalizing o with
  | nil => exact List.Pairwise.nil
  | cons e es ih =>
      rcases h with ⟨_, hspan, hrest⟩
      refine List.Pairwise.cons ?_ (ih hrest)
      intro e' he'
      exact decide_eq_true (Nat.le_trans hspan (hrest.start_le e' he'))

theorem apply_of_ordered {o : Nat} {es : List Edit} (h : Ordered o es) (code : Text) :
    apply code es = applyFrom 0 code es := by
  unfold apply
  rw [List.mergeSort_of_pairwise h.sorted]

theorem applyFrom_append {o : Nat} {w : Text} {es : List Edit} (h : Ordered (o + w.length) es)
    (r : Text) : applyFrom o (w ++ r) es = w ++ applyFrom (o + w.length) r es := by
  cases es with
  | nil => rfl
  | cons e es =>
      rcases h with ⟨hstart, hspan, _⟩
      have hle : w.length ≤ e.start - o := Nat.le_sub_of_add_le' hstart
      have hle' : w.length ≤ e.stop - o := Nat.le_trans hle (Nat.sub_le_sub_right hspan o)
      rw [applyFrom, applyFrom, if_neg (Nat.not_lt.mpr
        (Nat.le_trans (Nat.le_add_right _ _) hstart)),
        if_neg (Nat.not_lt.mpr hstart), List.take_append, List.take_of_length_le hle,
        List.drop_append, List.drop_of_length_le hle', Nat.sub_sub, Nat.sub_sub]
      simp only [List.append_assoc, List.nil_append]

theorem applyFrom_cons {o : Nat} {w : Text} {e : Edit} (hstart : e.start = o)
    (hstop : e.stop = o + w.length) (r : Text) (es : List Edit) :
    applyFrom o (w ++ r) (e :: es) = e.text ++ applyFrom (o + w.length) r es := by
  rw [applyFrom, hstart, hstop, if_neg (Nat.lt_irrefl o), Nat.sub_self, Nat.add_sub_cancel_left,
    List.take_zero, List.drop_left, List.nil_append]

theorem Ordered.applyFrom_drop {o : Nat} {e : Edit} {es : List Edit} (h : Ordered o (e :: es))
    (code : Text) :
    applyFrom o (code.drop o) (e :: es) =
      Text.slice code o e.start ++ (e.text ++ applyFrom e.stop (code.drop e.stop) es) := by
  rcases h with ⟨hstart, hspan, _⟩
  have hdrop : (code.drop o).drop (e.stop - o) = code.drop e.stop := by
    rw [List.drop_drop, Nat.add_sub_cancel' (Nat.le_trans hstart hspan)]
  rw [applyFrom, if_neg (Nat.not_lt.mpr hstart), hdrop, List.append_assoc]
  rfl

/-!
# Line ends
-/

@[simp] theorem newlines_blank (s : Text) : (blank s).newlines = s.newlines :=
  Text.newlines_replicate s.newlines

/-- The edited text has the line ends of the source, less those of the spans that are replaced, and
those of the texts in their place. -/
theorem newlines_applyFrom {o : Nat} {es : List Edit} (h : Ordered o es) (code : Text) :
    Text.newlines (applyFrom o (code.drop o) es) +
        (es.map fun e => Text.newlines (Text.slice code e.start e.stop)).sum =
      Text.newlines (code.drop o) + (es.map fun e => Text.newlines e.text).sum := by
  induction es generalizing o with
  | nil => rfl
  | cons e es ih =>
      have hstep := h.applyFrom_drop code
      rcases h with ⟨hstart, hspan, hrest⟩
      have hcopied := congrArg Text.newlines (Text.slice_append_drop (s := code) hstart)
      have hreplaced := congrArg Text.newlines (Text.slice_append_drop (s := code) hspan)
      have htail := ih hrest
      rw [hstep]
      simp only [Text.newlines_append, List.map_cons, List.sum_cons] at hcopied hreplaced ⊢
      omega

/-!
# Spans and what stands between them
-/

def gaps (code : Text) : (offset : Nat) -> List Edit -> List Text
  | o, [] => [code.drop o]
  | o, e :: es => Text.slice code o e.start :: gaps code e.stop es

def weave : (gaps texts : List Text) -> Text
  | g :: gs, t :: ts => g ++ (t ++ weave gs ts)
  | gs, _ => gs.flatten

/-- All edits of a source are made: their spans lie in the source, one behind another; the source is
the spans with gaps between them, and the result the new texts with the same gaps between them. -/
structure Made (code : Text) (es : List Edit) (result : Text) : Prop where
  inside : forall e, e ∈ es -> e.start ≤ e.stop ∧ e.stop ≤ code.length
  apart : es.Pairwise fun e e' => e.stop ≤ e'.start
  kept : code = weave (gaps code 0 es) (es.map fun e => Text.slice code e.start e.stop)
  replaced : result = weave (gaps code 0 es) (es.map Edit.text)

theorem weave_slices {o : Nat} {es : List Edit} (h : Ordered o es) (code : Text) :
    weave (gaps code o es) (es.map fun e => Text.slice code e.start e.stop) = code.drop o := by
  induction es generalizing o with
  | nil => exact List.append_nil _
  | cons e es ih =>
      rcases h with ⟨hstart, hspan, hrest⟩
      rw [gaps, List.map_cons, weave, ih hrest, Text.slice_append_drop hspan,
        Text.slice_append_drop hstart]

theorem weave_texts {o : Nat} {es : List Edit} (h : Ordered o es) (code : Text) :
    weave (gaps code o es) (es.map Edit.text) = applyFrom o (code.drop o) es := by
  induction es generalizing o with
  | nil => exact List.append_nil _
  | cons e es ih => rw [gaps, List.map_cons, weave, ih h.2.2, h.applyFrom_drop]

theorem Ordered.apart {o : Nat} {es : List Edit} (h : Ordered o es) :
    es.Pairwise fun e e' => e.stop ≤ e'.start := by
  induction es generalizing o with
  | nil => exact List.Pairwise.nil
  | cons e es ih => exact List.Pairwise.cons (h.2.2.start_le) (ih h.2.2)

theorem Ordered.span_le {o : Nat} {es : List Edit} (h : Ordered o es) :
    forall e, e ∈ es -> e.start ≤ e.stop := by
  induction es generalizing o with
  | nil => simp
  | cons e es ih => exact List.forall_mem_cons.mpr ⟨h.2.1, ih h.2.2⟩

theorem made_of_ordered {code : Text} {es : List Edit} (h : Ordered 0 es)
    (hinside : forall e, e ∈ es -> e.stop ≤ code.length) : Made code es (apply code es) where
  inside e he := ⟨h.span_le e he, hinside e he⟩
  apart := h.apart
  kept := (weave_slices h code).symm
  replaced := by
    rw [apply_of_ordered h]
    exact (weave_texts h code).symm

end Edit

end EffectShader
