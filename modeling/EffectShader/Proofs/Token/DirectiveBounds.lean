import EffectShader.Proofs.Token.FirstLine
import EffectShader.Proofs.Token.Positions
import Mathlib.Order.Bounds.Basic

/-!
# Where directives start and end

Whether a directive may start at a place is kept by the scanner as a flag.  The flag
is a fact about the bytes of the line so far: all of them belong to white space or to
block comments.  Where the directive ends is a fact about the bytes of the source alone.
-/

namespace EffectShader

namespace Lexer

/-!
# Bytes between words

Each byte is marked with whether its token stands between words, as white space and
block comments do.  The marks of the last line decide the flag of the scanner.
-/

def isGap : TokenKind -> Bool
  | .whitespace | .blockComment => true
  | _ => false

theorem staysFresh_eq (fresh : Bool) (kind : TokenKind) (text : Text) :
    staysFresh fresh kind text = (isGap kind && (fresh || text.contains Byte.newline)) := by
  cases kind <;> rfl

def marked (ws : List Piece) : List (UInt8 × Bool) :=
  ws.flatMap fun w => w.text.map fun b => (b, isGap w.kind)

@[simp] theorem marked_cons (w : Piece) (ws : List Piece) :
    marked (w :: ws) = w.text.map (fun b => (b, isGap w.kind)) ++ marked ws := rfl

@[simp] theorem marked_append (us ws : List Piece) :
    marked (us ++ ws) = marked us ++ marked ws :=
  List.flatMap_append

theorem map_fst_marked (ws : List Piece) : (marked ws).map Prod.fst = spell ws := by
  induction ws with
  | nil => rfl
  | cons w ws ih =>
      rw [marked_cons, List.map_append, ih, spell_cons, List.map_map]
      exact congrArg (· ++ spell ws) (List.map_id w.text)

theorem length_marked (ws : List Piece) : (marked ws).length = (spell ws).length := by
  rw [← map_fst_marked, List.length_map]

def Blank (ms : List (UInt8 × Bool)) : Prop :=
  forall i m, ms[i]? = some m -> Byte.newline ∉ (ms.map Prod.fst).drop i -> m.2 = true

theorem blank_nil : Blank [] := by
  intro i m hm
  simp at hm

theorem blank_append_of_mem {ms ns : List (UInt8 × Bool)} (hns : forall n, n ∈ ns -> n.2 = true)
    (hnewline : Byte.newline ∈ ns.map Prod.fst) : Blank (ms ++ ns) := by
  intro i m hm hlast
  rcases Nat.lt_or_ge i ms.length with hi | hi
  · rw [List.map_append, List.drop_append_of_le_length (by simpa using hi.le)] at hlast
    exact absurd (List.mem_append_right _ hnewline) hlast
  · rw [List.getElem?_append_right hi] at hm
    exact hns m (List.mem_of_getElem? hm)

theorem blank_append_iff {ms ns : List (UInt8 × Bool)} (hns : forall n, n ∈ ns -> n.2 = true)
    (hnewline : Byte.newline ∉ ns.map Prod.fst) : Blank (ms ++ ns) ↔ Blank ms := by
  constructor
  · intro h i m hm hlast
    have hi : i < ms.length := (List.getElem?_eq_some_iff.mp hm).1
    apply h i m (by rwa [List.getElem?_append_left hi])
    rw [List.map_append, List.drop_append_of_le_length (by simpa using hi.le)]
    exact fun hmem => (List.mem_append.mp hmem).elim hlast hnewline
  · intro h i m hm hlast
    rcases Nat.lt_or_ge i ms.length with hi | hi
    · rw [List.getElem?_append_left hi] at hm
      rw [List.map_append, List.drop_append_of_le_length (by simpa using hi.le)] at hlast
      exact h i m hm fun hmem => hlast (List.mem_append_left _ hmem)
    · rw [List.getElem?_append_right hi] at hm
      exact hns m (List.mem_of_getElem? hm)

theorem not_blank_append {ms ns : List (UInt8 × Bool)} (hns : forall n, n ∈ ns -> n.2 = false)
    (hne : ns ≠ []) (hnewline : Byte.newline ∉ ns.map Prod.fst) : ¬ Blank (ms ++ ns) := by
  intro h
  cases ns with
  | nil => exact hne rfl
  | cons n ns =>
      have hmark := h ms.length n (by simp) (by simpa using hnewline)
      rw [hns n List.mem_cons_self] at hmark
      cases hmark

/-!
# The flag of the scanner
-/

theorem newline_not_mem_plain {fresh : Bool} {b : UInt8} {v r : Text} {kind : TokenKind}
    (h : extent? fresh b (v ++ r) = some (kind, v.length)) (hkind : formOf kind = .plain) :
    Byte.newline ∉ b :: v := by
  have hextent := plainExtent_of_extent? h hkind
  have hspec := form_spec fresh b (v ++ r).head?
  rw [form_of_extent? h, hkind] at hspec
  intro hmem
  rcases List.mem_cons.mp hmem with hb | hv
  · rw [← hb] at hspec
    exact absurd hspec.1 (by decide)
  · rcases List.append_of_mem hv with ⟨x, y, rfl⟩
    -- The extent ends before the newline already.
    rw [List.append_assoc, List.cons_append, plainExtent_barrier isBarrier_newline] at hextent
    have hle := plainExtent_le b x
    rw [hextent, List.length_append, List.length_cons] at hle
    omega

theorem isGap_or_plain {fresh : Bool} {b c : UInt8} {v r : Text} {kind : TokenKind}
    (h : extent? fresh b (v ++ r) = some (kind, v.length)) (hc : r.head? = some c)
    (hline : c ≠ Byte.newline) : isGap kind = true ∨ formOf kind = .plain := by
  cases kind with
  | whitespace | blockComment => exact Or.inl rfl
  | directive =>
      rcases (directive_of_extent? h).2.2.2 with rfl | hr
      · cases hc
      · rw [hc] at hr
        exact absurd (Option.some.inj hr) hline
  | lineComment =>
      have hform : form fresh b (v ++ r).head? = .lineComment := form_of_extent? h
      rw [extent?_eq, hform] at h
      have hrun : run (· != Byte.newline) (v ++ r) = v.length :=
        congrArg Prod.snd (Option.some.inj h)
      have hstop := (run_append_eq_length_iff.mp hrun).2 c hc
      exact absurd (by simpa using hstop) hline
  | _ => exact Or.inr rfl

theorem Cuts.fresh_iff_blank {g : Bool} {us : List Piece} {r : Text} (h : Cuts true us g r)
    {c : UInt8} (hc : r.head? = some c) (hline : c ≠ Byte.newline) :
    g = true ↔ Blank (marked us) := by
  induction us using List.reverseRecOn generalizing g r c with
  | nil =>
      cases h
      exact iff_of_true rfl blank_nil
  | append_singleton us u ih =>
      rcases h.split with ⟨f, hus, hu⟩
      cases hu with
      | @cons _ _ kind b v _ _ hextent hnil =>
          cases hnil
          rw [spell_nil, List.nil_append] at hextent
          have hmarks : marked [⟨kind, b :: v⟩] = (b :: v).map fun b => (b, isGap kind) :=
            List.append_nil _
          have hbytes : (marked [⟨kind, b :: v⟩]).map Prod.fst = b :: v := by
            rw [map_fst_marked, spell_cons, spell_nil, List.append_nil]
          have hall : forall n, n ∈ marked [⟨kind, b :: v⟩] -> n.2 = isGap kind := by
            rw [hmarks]
            intro n hn
            rcases List.mem_map.mp hn with ⟨_, _, rfl⟩
            rfl
          rw [marked_append, staysFresh_eq]
          rcases isGap_or_plain hextent hc hline with hgap | hplain
          · rw [hgap] at hall ⊢
            by_cases hnewline : Byte.newline ∈ b :: v
            · rw [List.contains_iff_mem.mpr hnewline]
              simpa using blank_append_of_mem hall (by rwa [hbytes])
            · have hb : b ≠ Byte.newline := fun hb => hnewline (hb ▸ List.mem_cons_self)
              rw [blank_append_iff hall (by rwa [hbytes]), ← ih hus rfl hb]
              simp [hnewline]
          · have hgap : isGap kind = false := by
              cases kind <;> first | rfl | cases hplain
            rw [hgap] at hall ⊢
            have hnot : ¬ Blank (marked us ++ marked [⟨kind, b :: v⟩]) :=
              not_blank_append hall (by rw [hmarks]; simp)
                (by rw [hbytes]; exact newline_not_mem_plain hextent hplain)
            simpa using hnot

/-!
# Marks and tokens
-/

def InGap (ts : List Token) (i : Nat) : Prop :=
  exists u, u ∈ ts ∧ (u.kind = .whitespace ∨ u.kind = .blockComment) ∧ u.offset ≤ i ∧ i < u.stop

theorem isGap_iff (kind : TokenKind) :
    isGap kind = true ↔ kind = .whitespace ∨ kind = .blockComment := by
  cases kind <;> simp [isGap]

theorem le_offset_of_mem_place {p : Position} {ws : List Piece} {t : Token}
    (ht : t ∈ place p ws) : p.offset ≤ t.offset := by
  induction ws generalizing p with
  | nil =>
      rw [List.mem_singleton.mp ht]
      exact Nat.le_refl _
  | cons w ws ih =>
      rcases List.mem_cons.mp ht with rfl | ht
      · exact Nat.le_refl _
      · have hle := ih ht
        rw [Position.offset_advance] at hle
        omega

theorem inGap_place_iff (p : Position) (ws : List Piece) (i : Nat) :
    InGap (place p ws) (p.offset + i) ↔ exists b, (marked ws)[i]? = some (b, true) := by
  induction ws generalizing p i with
  | nil =>
      constructor
      · rintro ⟨u, hu, hkind, _⟩
        rw [List.mem_singleton.mp hu] at hkind
        rcases hkind with hkind | hkind <;> cases hkind
      · rintro ⟨b, hb⟩
        simp [marked] at hb
  | cons w ws ih =>
      have hstop : (Token.mk w.kind w.text p).stop = p.offset + w.text.length := rfl
      rw [marked_cons]
      rcases Nat.lt_or_ge i w.text.length with hi | hi
      · -- The byte is one of the first piece; all other tokens start behind it.
        rw [List.getElem?_append_left (by simpa using hi), List.getElem?_map,
          List.getElem?_eq_getElem hi]
        constructor
        · rintro ⟨u, hu, hkind, hle, _⟩
          rcases List.mem_cons.mp hu with rfl | hu
          · exact ⟨w.text[i], by rw [Option.map_some, (isGap_iff w.kind).mpr hkind]⟩
          · have hoffset := le_offset_of_mem_place hu
            rw [Position.offset_advance] at hoffset
            omega
        · rintro ⟨b, hb⟩
          have hgap : isGap w.kind = true := congrArg Prod.snd (Option.some.inj hb)
          exact ⟨_, List.mem_cons_self, (isGap_iff w.kind).mp hgap, Nat.le_add_right _ _,
            by rw [hstop]; omega⟩
      · rw [List.getElem?_append_right (by simpa using hi), List.length_map,
          ← ih (p.advance w.text), Position.offset_advance,
          show p.offset + w.text.length + (i - w.text.length) = p.offset + i by omega]
        constructor
        · rintro ⟨u, hu, hkind, hle, hlt⟩
          rcases List.mem_cons.mp hu with rfl | hu
          · rw [hstop] at hlt
            omega
          · exact ⟨u, hu, hkind, hle, hlt⟩
        · rintro ⟨u, hu, hrest⟩
          exact ⟨u, List.mem_cons_of_mem _ hu, hrest⟩

/-- From the newline before the place, or from the start of the source, all bytes up to the place
belong to white space or to block comments. -/
def StartsLine (source : Text) (ts : List Token) (p : Nat) : Prop :=
  forall i, i < p -> Byte.newline ∉ (source.take p).drop i -> InGap ts i

theorem startsLine_iff_blank (us ws : List Piece) :
    StartsLine (spell (us ++ ws)) (place Position.start (us ++ ws)) (spell us).length ↔
      Blank (marked us) := by
  have htake : (spell (us ++ ws)).take (spell us).length = spell us := by
    rw [spell_append, List.take_left]
  have hgap (i : Nat) : InGap (place Position.start (us ++ ws)) i ↔
      exists b, (marked (us ++ ws))[i]? = some (b, true) := by
    rw [← inGap_place_iff Position.start]
    exact iff_of_eq (congrArg _ (Nat.zero_add i).symm)
  unfold StartsLine Blank
  rw [htake, map_fst_marked, ← length_marked us]
  constructor
  · intro h i m hm hlast
    have hi : i < (marked us).length := (List.getElem?_eq_some_iff.mp hm).1
    rcases (hgap i).mp (h i hi hlast) with ⟨b, hb⟩
    rw [marked_append, List.getElem?_append_left hi, hm] at hb
    exact congrArg Prod.snd (Option.some.inj hb)
  · intro h i hi hlast
    have hm := h i _ (List.getElem?_eq_getElem hi) hlast
    apply (hgap i).mpr
    refine ⟨(marked us)[i].1, ?_⟩
    rw [marked_append, List.getElem?_append_left hi, List.getElem?_eq_getElem hi, ← hm]

/-!
# The end of a directive
-/

def IsOpen (s : Text) : Prop :=
  [Byte.backslash] <:+ s ∨ [Byte.backslash, Byte.carriage] <:+ s

/-- A newline that nothing continues stands at the place. -/
def EndsLine (source : Text) (p : Nat) : Prop :=
  source[p]? = some Byte.newline ∧ ¬ IsOpen (source.take p)

theorem endsOpen_iff_isOpen (s : Text) : endsOpen s = true ↔ IsOpen s := by
  rw [Directive.endsOpen_iff]
  constructor
  · rintro ⟨a, z, hz, rfl⟩
    have hcases : z = [Byte.backslash] ∨ z = [Byte.backslash, Byte.carriage] := by
      simpa [Directive.marks] using hz
    rcases hcases with rfl | rfl
    · exact Or.inl (List.suffix_append a _)
    · exact Or.inr (List.suffix_append a _)
  · rintro (⟨a, rfl⟩ | ⟨a, rfl⟩)
    · exact ⟨a, _, by simp [Directive.marks], rfl⟩
    · exact ⟨a, _, by simp [Directive.marks], rfl⟩

theorem IsOpen.append {s : Text} (h : IsOpen s) (before : Text) : IsOpen (before ++ s) :=
  h.imp (fun h => h.trans (List.suffix_append before s))
    fun h => h.trans (List.suffix_append before s)

theorem isOpen_append_hash (s v : Text) : IsOpen (s ++ Byte.hash :: v) ↔ IsOpen v := by
  rw [← endsOpen_iff_isOpen, ← endsOpen_iff_isOpen]
  induction s with
  | nil => rw [List.nil_append, endsOpen_cons (by decide)]
  | cons b s ih =>
      rw [← ih]
      match s, v with
      | [], [] => simp [endsOpen, show Byte.hash ≠ Byte.backslash by decide,
          show Byte.hash ≠ Byte.carriage by decide]
      | [], c :: v => rfl
      | [d], v => rfl
      | d :: e :: s, v => rfl

theorem Continued.isOpen {x y : Text} (h : Continued (x ++ Byte.newline :: y)) : IsOpen x := by
  generalize hs : x ++ Byte.newline :: y = s at h
  induction h generalizing x with
  | nil => simp at hs
  | newline _ ih =>
      match x with
      | [] => exact absurd (List.cons.inj hs).1 (by decide)
      | [b] =>
          rw [(List.cons.inj hs).1]
          exact Or.inl (List.suffix_refl _)
      | b :: c :: x => exact (ih (List.cons.inj (List.cons.inj hs).2).2).append [b, c]
  | returnNewline _ ih =>
      match x with
      | [] => exact absurd (List.cons.inj hs).1 (by decide)
      | [b] => exact absurd (List.cons.inj (List.cons.inj hs).2).1 (by decide)
      | [b, c] =>
          rw [(List.cons.inj hs).1, (List.cons.inj (List.cons.inj hs).2).1]
          exact Or.inr (List.suffix_refl _)
      | b :: c :: d :: x =>
          exact (ih (List.cons.inj (List.cons.inj (List.cons.inj hs).2).2).2).append [b, c, d]
  | byte hb _ ih =>
      match x with
      | [] => exact absurd (List.cons.inj hs).1.symm hb
      | b :: x => exact (ih (List.cons.inj hs).2).append [b]

theorem isLeast_stop {fresh : Bool} {b : UInt8} {v r : Text}
    (h : extent? fresh b (v ++ r) = some (.directive, v.length)) (s : Text) :
    IsLeast {p | s.length < p ∧ (p = (s ++ b :: (v ++ r)).length ∨ EndsLine (s ++ b :: (v ++ r)) p)}
      (s.length + (b :: v).length) := by
  rcases directive_of_extent? h with ⟨rfl, _, hv, hr⟩
  have hsource : s ++ Byte.hash :: (v ++ r) = (s ++ Byte.hash :: v) ++ r := by simp
  have hlength : s.length + (Byte.hash :: v).length = (s ++ Byte.hash :: v).length := by simp
  constructor
  · refine ⟨by simp, ?_⟩
    rw [hsource, hlength]
    rcases hr with rfl | hr
    · left
      rw [List.append_nil]
    · right
      constructor
      · rw [List.getElem?_append_right (Nat.le_refl _), Nat.sub_self, ← List.head?_eq_getElem?, hr]
      · rw [List.take_left, isOpen_append_hash, ← endsOpen_iff_isOpen]
        have hextent : directiveExtent (v ++ r) = v.length := by
          have hform : form fresh Byte.hash (v ++ r).head? = .directive := form_of_extent? h
          rw [extent?_eq, hform] at h
          exact congrArg Prod.snd (Option.some.inj h)
        rw [endsOpen_of_directiveExtent hextent hr]
        exact Bool.false_ne_true
  · rintro p ⟨hstart, hend⟩
    by_contra hlt
    rw [hlength] at hlt
    have hlt : p < (s ++ Byte.hash :: v).length := Nat.lt_of_not_le hlt
    rw [hsource] at hend
    rcases hend with rfl | ⟨hnewline, hopen⟩
    · rw [List.length_append] at hlt
      omega
    · -- The newline stands in the directive, so its bytes before continue it.
      obtain ⟨j, rfl⟩ : exists j, p = s.length + 1 + j := ⟨p - (s.length + 1), by omega⟩
      have hj : v[j]? = some Byte.newline := by
        rw [List.getElem?_append_left hlt, List.getElem?_append_right (by omega)] at hnewline
        rwa [show s.length + 1 + j - s.length = j + 1 by omega, List.getElem?_cons_succ]
          at hnewline
      have hsplit : v = v.take j ++ Byte.newline :: v.drop (j + 1) := by
        rcases List.getElem?_eq_some_iff.mp hj with ⟨hj, hbyte⟩
        rw [← hbyte, List.getElem_cons_drop, List.take_append_drop]
      apply hopen
      have htake : ((s ++ Byte.hash :: v) ++ r).take (s.length + 1 + j) =
          s ++ Byte.hash :: v.take j := by
        rw [List.take_append_of_le_length hlt.le, Nat.add_assoc, Nat.add_comm 1 j,
          List.take_length_add_append, List.take_succ_cons]
      rw [htake, isOpen_append_hash]
      rw [hsplit] at hv
      exact hv.isOpen

/-!
# The bounds of directives
-/

theorem exists_of_mem_place {p : Position} {ws : List Piece} {t : Token} (ht : t ∈ place p ws) :
    (exists q, t = Token.endAt q) ∨
      exists us vs, ws = us ++ ⟨t.kind, t.text⟩ :: vs ∧ t.start = after p us := by
  induction ws generalizing p with
  | nil => exact Or.inl ⟨p, List.mem_singleton.mp ht⟩
  | cons w ws ih =>
      rcases List.mem_cons.mp ht with rfl | ht
      · exact Or.inr ⟨[], ws, rfl, rfl⟩
      · rcases ih ht with hend | ⟨us, vs, rfl, hstart⟩
        · exact Or.inl hend
        · exact Or.inr ⟨w :: us, vs, rfl, hstart⟩

theorem kind_directive_iff {fresh : Bool} {b : UInt8} {s : Text} {kind : TokenKind} {n : Nat}
    (h : extent? fresh b s = some (kind, n)) :
    kind = .directive ↔ b = Byte.hash ∧ fresh = true := by
  have hform := form_of_extent? h
  have hspec := form_spec fresh b s.head?
  constructor
  · intro hkind
    rw [hform, hkind] at hspec
    exact hspec
  · rintro ⟨rfl, rfl⟩
    have hdirective : formOf kind = .directive := hform.symm
    cases kind <;> first | rfl | cases hdirective

/-- A token is a directive exactly when it is a hash sign with only white space and block
comments before it on its line; a directive goes on to the first newline that no backslash
continues. -/
theorem directive_bounds {source : Text} {ts : List Token} (h : tokenize source = .ok ts)
    {t : Token} (ht : t ∈ ts) :
    (t.kind = .directive ↔
      t.text.head? = some Byte.hash ∧ StartsLine source ts t.offset) ∧
    (t.kind = .directive ->
      IsLeast {p | t.offset < p ∧ (p = source.length ∨ EndsLine source p)} t.stop) := by
  rcases tokenize_eq_ok_iff.mp h with ⟨ws, hws, rfl⟩
  rcases exists_of_mem_place ht with ⟨q, rfl⟩ | ⟨us, vs, rfl, hstart⟩
  · simp [Token.endAt]
  · have hoffset : t.offset = (spell us).length := by
      rw [Token.offset, hstart, offset_after]
      exact Nat.zero_add _
    have hline := startsLine_iff_blank us (⟨t.kind, t.text⟩ :: vs)
    rw [hws.spell_eq, ← hoffset] at hline
    rcases hws.cuts with ⟨g, r, rfl, hus, hrest⟩
    cases htext : t.text with
    | nil =>
        rw [htext] at hrest
        cases hrest
    | cons b v =>
        rw [htext] at hrest
        cases hrest with
        | @cons _ _ _ _ rest _ hextent hvs =>
            constructor
            · rw [kind_directive_iff hextent, List.head?_cons, Option.some.injEq]
              apply and_congr_right
              rintro rfl
              rw [← htext, hline, hus.fresh_iff_blank rfl (by decide)]
            · intro hkind
              rw [hkind] at hextent
              have hstop : t.stop = (spell us).length + (b :: v).length := by
                rw [← hoffset, ← htext]
                rfl
              rw [hstop, hoffset]
              exact isLeast_stop hextent (spell us)

/-- Behind a comment that spans a line a hash sign starts a directive, which a backslash and a
carriage return carry on to the next line. -/
theorem directive_bounds_continued :
    exists ts, tokenize "a /*\n*/ #b\\\r\nc\nd" = .ok ts ∧
      ⟨.directive, "#b\\\r\nc", ⟨2, 4, 8⟩⟩ ∈ ts ∧
      StartsLine "a /*\n*/ #b\\\r\nc\nd" ts 8 ∧
      IsLeast {p | 8 < p ∧ (p = 16 ∨ EndsLine "a /*\n*/ #b\\\r\nc\nd" p)} 14 := by
  have htokens : tokenize "a /*\n*/ #b\\\r\nc\nd" = .ok
      [⟨.ident, "a", ⟨1, 1, 0⟩⟩, ⟨.whitespace, " ", ⟨1, 2, 1⟩⟩,
        ⟨.blockComment, "/*\n*/", ⟨1, 3, 2⟩⟩, ⟨.whitespace, " ", ⟨2, 3, 7⟩⟩,
        ⟨.directive, "#b\\\r\nc", ⟨2, 4, 8⟩⟩, ⟨.whitespace, "\n", ⟨3, 2, 14⟩⟩,
        ⟨.ident, "d", ⟨4, 1, 15⟩⟩, ⟨.eof, [], ⟨4, 2, 16⟩⟩] := by
    decide +kernel
  have hbounds := directive_bounds htokens
    (t := ⟨.directive, "#b\\\r\nc", ⟨2, 4, 8⟩⟩) (by simp)
  exact ⟨_, htokens, by simp, (hbounds.1.mp rfl).2, hbounds.2 rfl⟩

end Lexer

end EffectShader
