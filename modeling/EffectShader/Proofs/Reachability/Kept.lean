import EffectShader.Proofs.Reachability.Blanking
import EffectShader.Proofs.Reachability.Elimination

/-!
# What elimination keeps

The functions of a source stand one behind the other, so removing some of them moves
the rest without touching it.  What remains is the source without the bytes of the
removed functions, newlines excepted, and every function that stays is found where the
result says.
-/

namespace EffectShader

/-!
# Erasing bytes
-/

namespace Text

/-- The text from an offset on without the bytes at which `inside` holds; newlines stay. -/
def erase (inside : Nat -> Bool) (offset : Nat) (s : Text) : Text :=
  ((s.zipIdx offset).filter fun x => x.1 == Byte.newline || !inside x.2).map Prod.fst

variable {inside outside : Nat -> Bool} {offset : Nat} {s : Text}

theorem erase_append (s t : Text) :
    erase inside offset (s ++ t) = erase inside offset s ++ erase inside (offset + s.length) t := by
  simp [erase, List.zipIdx_append]

theorem erase_congr (h : forall i, offset ≤ i -> i < offset + s.length -> inside i = outside i) :
    erase inside offset s = erase outside offset s := by
  unfold erase
  congr 1
  apply List.filter_congr
  rintro ⟨b, i⟩ hb
  rcases List.mem_zipIdx hb with ⟨hle, hlt, _⟩
  rw [h i hle hlt]

theorem erase_eq_self (h : forall i, offset ≤ i -> i < offset + s.length -> inside i = false) :
    erase inside offset s = s := by
  rw [erase_congr h]
  simp [erase]

theorem erase_eq_replicate (h : forall i, offset ≤ i -> i < offset + s.length -> inside i = true) :
    erase inside offset s = List.replicate (newlines s) Byte.newline := by
  calc erase inside offset s
      = ((s.zipIdx offset).map Prod.fst).filter (· == Byte.newline) := by
        rw [erase_congr h, List.filter_map]
        simp [erase, Function.comp_def]
    _ = List.replicate (newlines s) Byte.newline := by
        rw [List.zipIdx_map_fst, List.filter_beq, newlines]

theorem slice_middle (x y z : Text) :
    slice (x ++ (y ++ z)) x.length (x.length + y.length) = y := by
  unfold slice
  rw [List.drop_left, Nat.add_sub_cancel_left, List.take_left]

theorem exists_slice {first last : Nat} (h : first ≤ last) (hlast : last ≤ s.length) :
    exists x y z, s = x ++ (y ++ z) ∧ x.length = first ∧ x.length + y.length = last := by
  refine ⟨s.take first, slice s first last, s.drop last, ?_, ?_, ?_⟩
  · have hdrop := List.take_append_drop (last - first) (s.drop first)
    rw [List.drop_drop, Nat.add_sub_cancel' h] at hdrop
    rw [slice, hdrop, List.take_append_drop]
  · exact List.length_take_of_le (h.trans hlast)
  · rw [slice, List.length_take_of_le (h.trans hlast), List.length_take_of_le (by simp; omega)]
    omega

end Text

namespace ShaderFunction

/-!
# Functions one behind the other
-/

def Follow (last : Nat) : Nat -> List (Nat × Nat) -> Prop
  | offset, [] => offset ≤ last
  | offset, x :: spans => offset ≤ x.1 ∧ x.1 ≤ x.2 ∧ Follow last x.2 spans

namespace Follow

variable {last offset : Nat} {spans : List (Nat × Nat)}

theorem mono {first : Nat} (h : Follow last offset spans) (hle : first ≤ offset) :
    Follow last first spans := by
  cases spans with
  | nil => exact hle.trans h
  | cons x spans => exact ⟨hle.trans h.1, h.2⟩

theorem le (h : Follow last offset spans) : offset ≤ last := by
  induction spans generalizing offset with
  | nil => exact h
  | cons x spans ih =>
      rcases h with ⟨hstart, hspan, hrest⟩
      exact (hstart.trans hspan).trans (ih hrest)

theorem start_le (h : Follow last offset spans) : forall x, x ∈ spans -> offset ≤ x.1 := by
  induction spans generalizing offset with
  | nil => simp
  | cons x spans ih =>
      rcases h with ⟨hstart, hspan, hrest⟩
      rw [List.forall_mem_cons]
      exact ⟨hstart, fun y hy => (hstart.trans hspan).trans (ih hrest y hy)⟩

theorem pairwise (h : Follow last offset spans) : spans.Pairwise fun x y => x.2 ≤ y.1 := by
  induction spans generalizing offset with
  | nil => exact List.Pairwise.nil
  | cons x spans ih =>
      rcases h with ⟨_, _, hrest⟩
      exact List.Pairwise.cons hrest.start_le (ih hrest)

end Follow

/-- The tokens stand one behind the other between two offsets; the end marker has no text. -/
structure Spread (first last : Nat) (ts : List Token) : Prop where
  apart : ts.Pairwise fun t u => t.stop ≤ u.offset
  after : forall t, t ∈ ts -> first ≤ t.offset
  within : forall t, t ∈ ts -> t.stop ≤ last
  marker : forall t, t ∈ ts -> t.kind = .eof -> t.text = []

theorem Spread.suffix {first last : Nat} {ts us : List Token} (h : Spread first last ts)
    (hus : us <:+ ts) : Spread first last us :=
  ⟨h.apart.sublist hus.sublist, fun t ht => h.after t (hus.subset ht),
    fun t ht => h.within t (hus.subset ht), fun t ht => h.marker t (hus.subset ht)⟩

theorem Spread.pastGroup {first last : Nat} {ts : List Token} (h : Spread first last ts)
    (hends : Stream.Ends ts) (opening closing : Text) (depth : Nat) :
    Spread first last (Stream.closeGroup opening closing depth ts).2 :=
  h.suffix (Stream.closeGroup_ends opening closing depth hends).2.1

theorem Spread.group {first last : Nat} {ts : List Token} (h : Spread first last ts)
    (hends : Stream.Ends ts) (opening closing : Text) (depth : Nat) :
    Spread (Stream.closeGroup opening closing depth ts).1.stop last
      (Stream.closeGroup opening closing depth ts).2 := by
  have hrest := h.pastGroup hends opening closing depth
  refine ⟨hrest.apart, ?_, hrest.within, hrest.marker⟩
  clear hrest
  induction ts generalizing depth with
  | nil => simp [Stream.closeGroup]
  | cons t ts ih =>
      rw [Stream.closeGroup]
      split
      · rename_i heof
        have hstop : t.stop = t.offset := by
          unfold Token.stop
          rw [h.marker t List.mem_cons_self (by simpa using heof)]
          rfl
        rw [List.forall_mem_cons, hstop]
        constructor
        · exact Nat.le_refl _
        · intro u hu
          exact hstop ▸ List.rel_of_pairwise_cons h.apart hu
      · rename_i hne
        have hlater := ih (h.suffix (List.suffix_cons t ts)) (hends.tail (by simpa using hne))
        split
        · exact hlater _
        · split
          · split
            · exact fun u hu => List.rel_of_pairwise_cons h.apart hu
            · exact hlater _
          · exact hlater _

theorem spread_of_tokenize {code : Text} {ts : List Token} (h : tokenize code = .ok ts) :
    Spread 0 code.length ts := by
  have hcovers := Lexer.covers_of_tokenize h
  have hapart : ts.Pairwise fun t u => t.stop ≤ u.offset := by
    have htrans : IsTrans Token fun t u => t.stop ≤ u.offset :=
      ⟨fun _ u _ htu huv => (htu.trans (Nat.le_add_right u.offset u.text.length)).trans huv⟩
    rw [← List.isChain_iff_pairwise]
    exact hcovers.adjacent.imp fun t u hu => Nat.le_of_eq hu.symm
  rcases hcovers.ended with ⟨init, p, rfl, hp, hinit⟩
  rcases List.pairwise_append.mp hapart with ⟨_, _, hlast⟩
  refine ⟨hapart, fun t _ => Nat.zero_le _, ?_, ?_⟩
  · intro t ht
    rcases List.mem_append.mp ht with ht | ht
    · exact hp ▸ hlast t ht (Token.endAt p) (List.mem_singleton_self _)
    · rw [List.mem_singleton.mp ht, ← hp]
      exact Nat.le_refl _
  · intro t ht heof
    rcases List.mem_append.mp ht with ht | ht
    · exact absurd heof (hinit t ht).1
    · rw [List.mem_singleton.mp ht]
      rfl

def Definition.span (d : Definition) : Nat × Nat :=
  (d.start, d.stop)

theorem Spread.le {first last : Nat} {ts : List Token} (h : Spread first last ts)
    (hends : Stream.Ends ts) : first ≤ last := by
  rcases hends with ⟨t, ht, _⟩
  exact ((h.after t ht).trans (Nat.le_add_right _ _)).trans (h.within t ht)

theorem Spread.next {first last : Nat} {ts rest : List Token} {t : Token} (h : Spread first last ts)
    (hs : Stream.skipTrivia ts = t :: rest) : first ≤ t.offset ∧ Spread first last rest := by
  have hsuffix : t :: rest <:+ ts := hs ▸ List.dropWhile_suffix Token.isTrivia
  constructor
  · exact h.after t (hsuffix.subset List.mem_cons_self)
  · exact h.suffix ((List.suffix_cons t rest).trans hsuffix)

theorem follow_scan {last : Nat} {heading ts : List Token} (h : Precedes heading ts) :
    forall first, Spread first last ts -> (forall k, k ∈ heading -> first ≤ k.offset) ->
      Follow last first ((scan heading ts).map Definition.span) := by
  fun_induction scan heading ts with
  | case1 => exact fun first hts _ => hts.le h.ends
  | case2 => exact fun first hts _ => hts.le h.ends
  | case3 heading ts t rest hs _ ht _ ih =>
      intro first hts _
      exact ih (h.next hs ht).forget first (hts.next hs).2 (List.forall_mem_nil _)
  | case4 heading ts t rest hs _ ht _ _ _ ih =>
      intro first hts _
      have hrest := (h.next hs ht).forget
      exact ih (hrest.group _ _ 1) first
        ((hts.next hs).2.pastGroup hrest.ends _ _ 1)
        (List.forall_mem_nil _)
  | case5 ts t rest hs _ ht _ _ _ after _ name type earlier _ inside _ closing _ ih =>
      intro first hts hheading
      have hrest : Precedes (t :: name :: type :: earlier) rest := h.next hs ht
      have hafter := hrest.group "(" ")" 1
      have hinside : Precedes (t :: name :: type :: earlier) inside :=
        hafter.suffix (Stream.tailSignificant_suffix after) hafter.ends.tailSignificant
      have hspread : Spread first last inside :=
        ((hts.next hs).2.pastGroup hrest.ends _ _ 1).suffix (Stream.tailSignificant_suffix after)
      have hclosing : closing.1 ∈ inside :=
        (Stream.closeGroup_ends Op.openBrace Op.closeBrace 1 hinside.ends).1
      have hmem := headingStart_mem type earlier
      have hstart : (headingStart type earlier).offset ≤ closing.1.offset :=
        hinside.heading _ (List.mem_cons_of_mem t (List.mem_cons_of_mem name hmem)) _ hclosing
      -- The closing brace ends this definition, and the next one starts behind it.
      refine ⟨hheading _ (List.mem_cons_of_mem name hmem),
        hstart.trans (Nat.le_add_right _ _), ?_⟩
      exact ih (hinside.group _ _ 1).forget _ (hspread.group hinside.ends _ _ 1)
        (List.forall_mem_nil _)
  | case6 ts t rest hs _ ht _ _ _ after _ name type earlier _ ih =>
      intro first hts hheading
      have hrest := h.next hs ht
      exact ih (hrest.group _ _ 1) first
        ((hts.next hs).2.pastGroup hrest.ends _ _ 1)
        (List.forall_mem_cons.mpr ⟨(hts.next hs).1, hheading⟩)
  | case7 heading ts t rest hs _ ht _ _ _ after _ _ ih =>
      intro first hts hheading
      have hrest := h.next hs ht
      exact ih (hrest.group _ _ 1) first
        ((hts.next hs).2.pastGroup hrest.ends _ _ 1)
        (List.forall_mem_cons.mpr ⟨(hts.next hs).1, hheading⟩)
  | case8 heading ts t rest hs _ ht _ _ _ ih =>
      intro first hts hheading
      exact ih (h.next hs ht) first (hts.next hs).2
        (List.forall_mem_cons.mpr ⟨(hts.next hs).1, hheading⟩)

def span (f : ShaderFunction) : Nat × Nat :=
  (f.start, f.stop)

theorem follow_cons {last offset : Nat} {f : ShaderFunction} {fns : List ShaderFunction} :
    Follow last offset ((f :: fns).map span) ↔
      offset ≤ f.start ∧ f.start ≤ f.stop ∧ Follow last f.stop (fns.map span) :=
  Iff.rfl

theorem follow_ofTokens {code : Text} {ts : List Token} (h : tokenize code = .ok ts) :
    Follow code.length 0 ((ofTokens ts).map span) := by
  have hspans : (ofTokens ts).map span = (scan [] ts).map Definition.span := by
    simp only [ofTokens, List.map_map]
    rfl
  rw [hspans]
  exact follow_scan (precedes_of_tokenize h) 0 (spread_of_tokenize h) (by simp)

/-!
# Removing functions
-/

def staysIn (live : List Text) (f : ShaderFunction) : Bool :=
  live.contains f.name

/-- The offset lies in a function that does not stay. -/
def isErased (stays : ShaderFunction -> Bool) (fns : List ShaderFunction) (i : Nat) : Bool :=
  fns.any fun f => !stays f && (decide (f.start ≤ i) && decide (i < f.stop))

/-- The function is found in another text, perhaps elsewhere but unchanged. -/
structure IsCopy (source result : Text) (f g : ShaderFunction) : Prop where
  name : g.name = f.name
  calls : g.calls = f.calls
  text : Text.slice result g.start g.stop = Text.slice source f.start f.stop

section Removal

variable {live : List Text} {stays : ShaderFunction -> Bool} {fns : List ShaderFunction}
  {f : ShaderFunction} {offset removed : Nat}

theorem isErased_cons_of_stays (hf : stays f = true) (i : Nat) :
    isErased stays (f :: fns) i = isErased stays fns i := by
  simp [isErased, hf]

theorem isErased_cons_of_mem (hf : stays f = false) {i : Nat} (hstart : f.start ≤ i)
    (hstop : i < f.stop) : isErased stays (f :: fns) i = true := by
  simp [isErased, hf, hstart, hstop]

theorem isErased_cons_of_le {i : Nat} (hstop : f.stop ≤ i) :
    isErased stays (f :: fns) i = isErased stays fns i := by
  simp [isErased, Nat.not_lt.mpr hstop]

theorem isErased_of_lt {last i : Nat} (h : Follow last offset (fns.map span)) (hi : i < offset) :
    isErased stays fns i = false := by
  unfold isErased
  rw [List.any_eq_false]
  intro f hf
  have hstart := h.start_le (span f) (List.mem_map_of_mem hf)
  have hlt : ¬ f.start ≤ i := Nat.not_le.mpr (Nat.lt_of_lt_of_le hi hstart)
  simp [hlt]

theorem keepLive_cons_stays (hf : staysIn live f = true) (code : Text) :
    keepLive live offset removed code (f :: fns) =
      { keepLive live offset removed code fns with
        functions := f.moveBack removed :: (keepLive live offset removed code fns).functions } := by
  unfold staysIn at hf
  rw [keepLive, if_pos hf]

/-- The text is cut at both ends of the function that is removed first. -/
theorem keepLive_cons_removed {x y : Text} (hf : staysIn live f = false)
    (hx : x.length = f.start - offset) (hy : x.length + y.length = f.stop - offset) (z : Text) :
    keepLive live offset removed (x ++ (y ++ z)) (f :: fns) =
      { keepLive live f.stop (removed + y.length - Text.newlines y) z fns with
        code := x ++ (List.replicate (Text.newlines y) Byte.newline ++
          (keepLive live f.stop (removed + y.length - Text.newlines y) z fns).code) } := by
  unfold staysIn at hf
  have hslice : Text.slice (x ++ (y ++ z)) (f.start - offset) (f.stop - offset) = y := by
    rw [← hx, ← hy, Text.slice_middle]
  have hdrop : (x ++ (y ++ z)).drop (f.stop - offset) = z := by
    rw [← hy, ← List.append_assoc, List.drop_left' (by simp)]
  have htake : (x ++ (y ++ z)).take (f.start - offset) = x := by
    rw [← hx, List.take_left]
  rw [keepLive, hf]
  simp only [Bool.false_eq_true, if_false, hslice, hdrop, htake, List.length_replicate,
    List.append_assoc]

structure Parts (offset : Nat) (f : ShaderFunction) (code x y z : Text) : Prop where
  eq : code = x ++ (y ++ z)
  start : offset + x.length = f.start
  stop : f.start + y.length = f.stop

theorem exists_parts {code : Text}
    (h : Follow (offset + code.length) offset ((f :: fns).map span)) :
    exists x y z, Parts offset f code x y z ∧ Follow (f.stop + z.length) f.stop (fns.map span) := by
  rcases follow_cons.mp h with ⟨hstart, hspan, hrest⟩
  have hlast := hrest.le
  rcases Text.exists_slice (s := code) (Nat.sub_le_sub_right hspan offset) (by omega) with
    ⟨x, y, z, rfl, hx, hy⟩
  have hlength : offset + (x ++ (y ++ z)).length = f.stop + z.length := by
    simp only [List.length_append]
    omega
  rw [hlength] at hrest
  exact ⟨x, y, z, ⟨rfl, by omega, by omega⟩, hrest⟩

theorem Parts.keepLive_eq {code x y z : Text} (h : Parts offset f code x y z)
    (hf : staysIn live f = false) :
    keepLive live offset removed code (f :: fns) =
      { keepLive live f.stop (removed + y.length - Text.newlines y) z fns with
        code := x ++ (List.replicate (Text.newlines y) Byte.newline ++
          (keepLive live f.stop (removed + y.length - Text.newlines y) z fns).code) } := by
  rw [h.eq]
  have hstart := h.start
  have hstop := h.stop
  exact keepLive_cons_removed hf (by omega) (by omega) z

theorem code_keepLive {code : Text} (h : Follow (offset + code.length) offset (fns.map span)) :
    (keepLive live offset removed code fns).code =
      Text.erase (isErased (staysIn live) fns) offset code := by
  induction fns generalizing offset removed code with
  | nil => exact (Text.erase_eq_self fun i _ _ => rfl).symm
  | cons f fns ih =>
      cases hf : staysIn live f with
      | true =>
          rcases follow_cons.mp h with ⟨hstart, hspan, hrest⟩
          rw [keepLive_cons_stays hf, ih (hrest.mono (hstart.trans hspan))]
          exact Text.erase_congr fun i _ _ => (isErased_cons_of_stays hf i).symm
      | false =>
          rcases exists_parts h with ⟨x, y, z, hparts, hrest⟩
          have hstarts : Follow (offset + code.length) f.start ((f :: fns).map span) :=
            ⟨Nat.le_refl _, (follow_cons.mp h).2⟩
          have hx : Text.erase (isErased (staysIn live) (f :: fns)) offset x = x := by
            apply Text.erase_eq_self
            intro i _ hi
            exact isErased_of_lt hstarts (hparts.start ▸ hi)
          have hy : Text.erase (isErased (staysIn live) (f :: fns)) f.start y =
              List.replicate (Text.newlines y) Byte.newline := by
            apply Text.erase_eq_replicate
            intro i hi hi'
            exact isErased_cons_of_mem hf hi (hparts.stop ▸ hi')
          have hz : Text.erase (isErased (staysIn live) (f :: fns)) f.stop z =
              Text.erase (isErased (staysIn live) fns) f.stop z :=
            Text.erase_congr fun i hi _ => isErased_cons_of_le hi
          rw [hparts.keepLive_eq hf, hparts.eq, Text.erase_append, hparts.start, Text.erase_append,
            hparts.stop, hx, hy, hz]
          dsimp only
          rw [ih hrest]

theorem Parts.exists_code {code x y z : Text} (h : Parts offset f code x y z)
    (hfns : Follow (f.stop + z.length) f.stop (fns.map span)) :
    exists z', (keepLive live offset removed code fns).code = x ++ (y ++ z') := by
  have hlength : offset + code.length = f.stop + z.length := by
    rw [h.eq, List.length_append, List.length_append, ← h.stop, ← h.start]
    omega
  have hle : offset ≤ f.stop := by
    rw [← h.stop, ← h.start]
    omega
  have hcopied : Text.erase (isErased (staysIn live) fns) offset (x ++ y) = x ++ y := by
    apply Text.erase_eq_self
    intro i _ hi
    apply isErased_of_lt hfns
    rw [← h.stop, ← h.start, Nat.add_assoc, ← List.length_append]
    exact hi
  rw [code_keepLive (hlength ▸ hfns.mono hle), h.eq, ← List.append_assoc, Text.erase_append,
    hcopied, List.append_assoc]
  exact ⟨_, rfl⟩

theorem slice_copy {passed before code code' x y z z' : Text} (hcode : code = x ++ (y ++ z))
    (hcode' : code' = x ++ (y ++ z')) :
    Text.slice (before ++ code') (before.length + x.length)
        (before.length + x.length + y.length) =
      Text.slice (passed ++ code) (passed.length + x.length)
        (passed.length + x.length + y.length) := by
  have hslice : forall w v : Text, Text.slice (w ++ (x ++ (y ++ v))) (w.length + x.length)
      (w.length + x.length + y.length) = y := by
    intro w v
    rw [← List.append_assoc, ← List.length_append, Text.slice_middle]
  rw [hcode, hcode', hslice, hslice]

/-- The functions that stay are where the result says.  `passed` and `before` are what the source
and the result hold in front of the text. -/
theorem copies_keepLive {passed before code : Text}
    (h : Follow (passed.length + code.length) passed.length (fns.map span))
    (hbefore : before.length + removed = passed.length) :
    List.Forall₂
      (IsCopy (passed ++ code) (before ++ (keepLive live passed.length removed code fns).code))
      (fns.filter (staysIn live)) (keepLive live passed.length removed code fns).functions := by
  induction fns generalizing passed before removed code with
  | nil => exact List.Forall₂.nil
  | cons f fns ih =>
      rcases exists_parts h with ⟨x, y, z, hparts, hrest⟩
      have hstart := hparts.start
      have hstop := hparts.stop
      cases hf : staysIn live f with
      | true =>
          rcases follow_cons.mp h with ⟨hfirst, hspan, hfns⟩
          have hcopied : exists z', (keepLive live passed.length removed code fns).code =
              x ++ (y ++ z') := hparts.exists_code hrest
          rcases hcopied with ⟨z', hcode⟩
          rw [keepLive_cons_stays hf, List.filter_cons_of_pos hf]
          refine List.Forall₂.cons ⟨rfl, rfl, ?_⟩ (ih (hfns.mono (hfirst.trans hspan)) hbefore)
          have hmoved : f.start - removed = before.length + x.length := by omega
          have hmoved' : f.stop - removed = before.length + x.length + y.length := by omega
          show Text.slice _ (f.start - removed) (f.stop - removed) = Text.slice _ f.start f.stop
          rw [hmoved, hmoved', ← hstop, ← hstart]
          exact slice_copy hparts.eq hcode
      | false =>
          have hnewlines : Text.newlines y ≤ y.length := List.count_le_length
          have hpassed : (passed ++ (x ++ y)).length = f.stop := by
            simp only [List.length_append]
            omega
          have hcopies := @ih (removed + y.length - Text.newlines y) (passed ++ (x ++ y))
            (before ++ (x ++ List.replicate (Text.newlines y) Byte.newline)) z
            (by rw [hpassed]; exact hrest)
            (by rw [hpassed]; simp only [List.length_append, List.length_replicate]; omega)
          rw [hpassed] at hcopies
          rw [hparts.keepLive_eq hf, List.filter_cons_of_neg (by simp [hf])]
          dsimp only
          rw [hparts.eq]
          simpa only [List.append_assoc] using hcopies

theorem follow_keepLive {first : Nat} {code : Text}
    (h : Follow (offset + code.length) first (fns.map span)) (hfirst : offset ≤ first)
    (hremoved : removed ≤ offset) :
    Follow (offset - removed + (keepLive live offset removed code fns).code.length)
      (first - removed) ((keepLive live offset removed code fns).functions.map span) := by
  induction fns generalizing offset removed first code with
  | nil =>
      have hle : first ≤ offset + code.length := h.le
      show first - removed ≤ offset - removed + code.length
      omega
  | cons f fns ih =>
      rcases exists_parts (h.mono hfirst) with ⟨x, y, z, hparts, hrest⟩
      have hstart := hparts.start
      have hstop := hparts.stop
      rcases follow_cons.mp h with ⟨hle, hspan, hfns⟩
      cases hf : staysIn live f with
      | true =>
          rw [keepLive_cons_stays hf]
          exact ⟨Nat.sub_le_sub_right hle removed, Nat.sub_le_sub_right hspan removed,
            ih hfns (hfirst.trans (hle.trans hspan)) hremoved⟩
      | false =>
          have hnewlines : Text.newlines y ≤ y.length := List.count_le_length
          have hmoved := @ih f.stop (removed + y.length - Text.newlines y) f.stop z hrest
            (Nat.le_refl _) (by omega)
          rw [hparts.keepLive_eq hf]
          have hlast : offset - removed + (x ++ (List.replicate (Text.newlines y) Byte.newline ++
              (keepLive live f.stop (removed + y.length - Text.newlines y) z fns).code)).length =
              f.stop - (removed + y.length - Text.newlines y) +
                (keepLive live f.stop (removed + y.length - Text.newlines y) z
                fns).code.length := by
            simp only [List.length_append, List.length_replicate]
            omega
          dsimp only
          rw [hlast]
          exact hmoved.mono (by omega)

end Removal

/-!
# The closure stays
-/

theorem eliminate_of_entry {code entry : Text} {ts : List Token} (htokens : tokenize code = .ok ts)
    (hentry : entry ∈ (ofTokens ts).map (·.name)) :
    eliminate code entry =
      .ok ⟨keepLive ("main" :: reachable (ofTokens ts) entry) 0 0 code (ofTokens ts), none⟩ := by
  have hfound : ((ofTokens ts).any fun g => g.name == entry) = true := by
    rcases List.mem_map.mp hentry with ⟨f, hf, rfl⟩
    exact List.any_eq_true.mpr ⟨f, hf, beq_self_eq_true f.name⟩
  unfold eliminate
  rw [htokens]
  dsimp only
  split
  · rename_i hnone
    rw [hnone] at hentry
    cases hentry
  · rename_i f rest hfns
    rw [← hfns, if_pos hfound, if_pos hfound]

/-- Elimination keeps the functions named `main` and those that the entry reaches, in their order
and with their texts.  Of the others only the newlines are left. -/
theorem eliminate_keeps_closure {code entry : Text} {ts : List Token}
    (htokens : tokenize code = .ok ts) (hentry : entry ∈ (ofTokens ts).map (·.name)) :
    exists r stays, eliminate code entry = .ok ⟨r, none⟩ ∧
      (forall f, f ∈ ofTokens ts ->
        (stays f = true ↔ f.name = "main" ∨ Reaches (ofTokens ts) entry f.name)) ∧
      List.Forall₂ (IsCopy code r.code) ((ofTokens ts).filter stays) r.functions ∧
      (r.functions.Pairwise fun f g => f.stop ≤ g.start) ∧
      r.code = Text.erase (isErased stays (ofTokens ts)) 0 code ∧
      Text.newlines r.code = Text.newlines code := by
  have hfollow : Follow (([] : Text).length + code.length) ([] : Text).length
      ((ofTokens ts).map span) := by
    rw [List.length_nil, Nat.zero_add]
    exact follow_ofTokens htokens
  have helim := eliminate_of_entry htokens hentry
  refine ⟨_, staysIn ("main" :: reachable (ofTokens ts) entry), helim, ?_, ?_, ?_, ?_, ?_⟩
  · intro f _
    rw [staysIn, List.contains_iff_mem, List.mem_cons,
      mem_reachable_iff (callsDefined_ofTokens ts) hentry]
  · exact @copies_keepLive _ _ 0 [] [] code hfollow rfl
  · have hmoved : Follow _ 0 ((keepLive ("main" :: reachable (ofTokens ts) entry) 0 0 code
        (ofTokens ts)).functions.map span) :=
      follow_keepLive hfollow (Nat.le_refl _) (Nat.zero_le _)
    exact List.pairwise_map.mp hmoved.pairwise
  · exact code_keepLive hfollow
  · exact newlines_eliminate helim

theorem names_around_removed :
    (tokenize "void a(){b();}\nvoid c(\n){}void b(){a();}void main(){b();}").map
        (fun ts => (ofTokens ts).map (·.name)) = .ok ["a", "c", "b", "main"] ∧
      eliminate "void a(){b();}\nvoid c(\n){}void b(){a();}void main(){b();}" "main" = .ok
        ⟨⟨"void a(){b();}\n\nvoid b(){a();}void main(){b();}",
          [⟨"a", 0, 14, ["b"]⟩, ⟨"b", 16, 30, ["a"]⟩, ⟨"main", 30, 47, ["b"]⟩]⟩, none⟩ := by
  decide +kernel

theorem eliminate_keeps_closure_around_removed :
    exists ts, tokenize "void a(){b();}\nvoid c(\n){}void b(){a();}void main(){b();}" = .ok ts ∧
      ("main" : Text) ∈ (ofTokens ts).map (·.name) ∧
      exists r stays,
        eliminate "void a(){b();}\nvoid c(\n){}void b(){a();}void main(){b();}" "main" =
          .ok ⟨r, none⟩ ∧
        (forall f, f ∈ ofTokens ts ->
          (stays f = true ↔ f.name = "main" ∨ Reaches (ofTokens ts) "main" f.name)) ∧
        List.Forall₂ (IsCopy "void a(){b();}\nvoid c(\n){}void b(){a();}void main(){b();}" r.code)
          ((ofTokens ts).filter stays) r.functions ∧
        (r.functions.Pairwise fun f g => f.stop ≤ g.start) ∧
        r.code = Text.erase (isErased stays (ofTokens ts)) 0
          "void a(){b();}\nvoid c(\n){}void b(){a();}void main(){b();}" ∧
        Text.newlines r.code =
          Text.newlines "void a(){b();}\nvoid c(\n){}void b(){a();}void main(){b();}" := by
  have hnames := names_around_removed.1
  cases htokens : tokenize "void a(){b();}\nvoid c(\n){}void b(){a();}void main(){b();}" with
  | error e =>
      rw [htokens] at hnames
      cases hnames
  | ok ts =>
      rw [htokens] at hnames
      have hmain : ("main" : Text) ∈ (ofTokens ts).map (·.name) := by
        rw [show (ofTokens ts).map (·.name) = _ from Except.ok.inj hnames]
        simp
      exact ⟨ts, rfl, hmain, eliminate_keeps_closure htokens hmain⟩

end ShaderFunction

end EffectShader
