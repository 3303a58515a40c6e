import EffectShader.Proofs.Resource.BlockLayout
import EffectShader.Proofs.Resource.Decorated
import Mathlib.Data.List.Chain

/-!
# The std140 layout over exact numbers

The rules of the standard give every member an alignment and a number of bytes, and
place it at the first multiple of its alignment behind the member before it.  These
numbers have no bound.  Words of 64 bits agree with them as long as the block fits, and
then a layout is refused exactly if a member cannot be placed or would have to be moved.
-/

namespace EffectShader

namespace Std140

/-!
# The rules of the standard
-/

/-- The least multiple of `align` from `n` on. -/
def nextMultiple (n align : Nat) : Nat :=
  (n + align - 1) / align * align

structure Shape where
  alignment : Nat
  bytes : Nat

/-- One value of a type; a matrix is a row of sixteen bytes for each column. -/
def valueShape (t : GlslType) : Shape :=
  match t.cls with
  | .scalar => ⟨4, 4⟩
  | .vector => ⟨if t.rows = 2 then 8 else 16, 4 * t.rows⟩
  | .matrix => ⟨16, 16 * t.columns⟩
  | _ => ⟨1, 0⟩

def memberShape (m : Member) : Shape :=
  match GlslType.lookup? m.type with
  | none => ⟨1, 0⟩
  | some t =>
      if m.isArray then ⟨16, nextMultiple (valueShape t).bytes 16 * m.count.toInt.toNat⟩
      else valueShape t

/-- The starts and ends of members that stand behind the offset `e`. -/
def exactSpans : (e : Nat) -> List Member -> List (Nat × Nat)
  | _, [] => []
  | e, m :: ms =>
      let start := nextMultiple e (memberShape m).alignment
      let stop := start + (memberShape m).bytes
      (start, stop) :: exactSpans stop ms

/-- Each span starts where the one before it ends, the first one at `e`. -/
def IsPacked : (e : Nat) -> List (Nat × Nat) -> Prop
  | _, [] => True
  | e, x :: spans => x.1 = e ∧ IsPacked x.2 spans

def lastEnd : (e : Nat) -> List (Nat × Nat) -> Nat
  | e, [] => e
  | _, x :: spans => lastEnd x.2 spans

/-- The bytes of all members, padding not counted. -/
def totalBytes (ms : List Member) : Nat :=
  (ms.map fun m => (memberShape m).bytes).sum

/-- The count of a member that reflection extracts: one if it is no array, zero for an array
without a length. -/
structure IsExtracted (m : Member) : Prop where
  single : m.isArray = false -> m.count = 1
  nonneg : 0 ≤ m.count.toInt

/-- The member may stand in a block. -/
structure IsPlaceable (m : Member) (t : GlslType) : Prop where
  type : GlslType.lookup? m.type = some t
  plain : t.isOpaque = false
  sized : m.isArray = true -> m.count ≠ 0
  notThree : ¬ (t.cls = .vector ∧ t.rows = 3)
  wide : 1 < m.count -> 16 ≤ (valueShape t).alignment

theorem nextMultiple_eq_iff {n align : Nat} (halign : 0 < align) :
    nextMultiple n align = n ↔ align ∣ n := by
  constructor
  · intro h
    rw [← h]
    exact Nat.dvd_mul_left align _
  · rintro ⟨k, rfl⟩
    have hdiv : (align * k + align - 1) / align = k := by
      rw [Nat.add_sub_assoc halign, Nat.mul_add_div halign,
        Nat.div_eq_of_lt (Nat.sub_lt halign Nat.one_pos), Nat.add_zero]
    rw [nextMultiple, hdiv, Nat.mul_comm]

/-!
# Types
-/

/-- What the rules say of a type, and what the layout makes of it. -/
structure Fits (t : GlslType) : Prop where
  three : t.alignment = 12 ↔ t.cls = .vector ∧ t.rows = 3
  alignment : t.alignment ≠ 12 -> t.alignment = (valueShape t).alignment
  size : (Int64.ofNat t.size).toInt = (valueShape t).bytes
  rows : (roundUp (Int64.ofNat t.size) 16).toInt = nextMultiple (valueShape t).bytes 16
  word : (Int64.ofNat t.alignment).toInt = t.alignment
  pos : 0 < (valueShape t).alignment
  small : (valueShape t).bytes ≤ 64

instance (t : GlslType) : Decidable (Fits t) :=
  decidable_of_iff
    ((t.alignment = 12 ↔ t.cls = .vector ∧ t.rows = 3) ∧
      (t.alignment ≠ 12 -> t.alignment = (valueShape t).alignment) ∧
      (Int64.ofNat t.size).toInt = (valueShape t).bytes ∧
      (roundUp (Int64.ofNat t.size) 16).toInt = nextMultiple (valueShape t).bytes 16 ∧
      (Int64.ofNat t.alignment).toInt = t.alignment ∧ 0 < (valueShape t).alignment ∧
      (valueShape t).bytes ≤ 64)
    ⟨fun ⟨h₁, h₂, h₃, h₄, h₅, h₆, h₇⟩ => ⟨h₁, h₂, h₃, h₄, h₅, h₆, h₇⟩,
      fun h => ⟨h.three, h.alignment, h.size, h.rows, h.word, h.pos, h.small⟩⟩

theorem fits_of_lookup? {name : Text} {t : GlslType} (h : GlslType.lookup? name = some t)
    (hplain : t.isOpaque = false) : Fits t := by
  have hmem : t ∈ GlslType.table := List.mem_of_find?_eq_some h
  have hall : GlslType.table.all (fun t => t.isOpaque || decide (Fits t)) = true := by
    decide +kernel
  have ht := List.all_eq_true.mp hall t hmem
  rw [hplain, Bool.false_or, decide_eq_true_iff] at ht
  exact ht

/-!
# One member
-/

theorem place_eq_ok_iff {o next : Int64} {m : Member} :
    place o m = .ok next ↔ exists t, GlslType.lookup? m.type = some t ∧ t.isOpaque = false ∧
      (m.isArray = true -> m.count ≠ 0) ∧ (1 < m.count -> 16 ≤ t.alignment) ∧ t.alignment ≠ 12 ∧
      o % (if m.isArray then 16 else Int64.ofNat t.alignment) = 0 ∧ next = o + room m t := by
  unfold place
  cases htype : GlslType.lookup? m.type with
  | none => simp
  | some t =>
      have hempty : (m.isArray && m.count == 0) = true ↔ ¬ (m.isArray = true -> m.count ≠ 0) := by
        simp
      have hnarrow : (decide (1 < m.count) && decide (t.alignment < 16)) = true ↔
          ¬ (1 < m.count -> 16 ≤ t.alignment) := by
        simp
      have hroom : (if m.isArray = true then roundUp (Int64.ofNat t.size) 16 * m.count
          else Int64.ofNat t.size) = room m t := rfl
      simp only [Option.some.injEq, exists_eq_left', hempty, hnarrow, beq_iff_eq, bne_iff_ne, hroom]
      generalize (if m.isArray = true then (16 : Int64) else Int64.ofNat t.alignment) = align
      grind

theorem toInt_room {m : Member} {t : GlslType} (hm : IsExtracted m)
    (htype : GlslType.lookup? m.type = some t) (hplain : t.isOpaque = false) :
    (room m t).toInt = ((memberShape m).bytes : Int).bmod (2 ^ 64) := by
  have hfits := fits_of_lookup? htype hplain
  unfold room memberShape
  rw [htype]
  cases harray : m.isArray with
  | true =>
      have hcount : ((m.count.toInt.toNat : Nat) : Int) = m.count.toInt :=
        Int.toNat_of_nonneg hm.nonneg
      simp only [if_true]
      rw [Int64.toInt_mul, hfits.rows, Int.natCast_mul, hcount]
  | false =>
      simp only [Bool.false_eq_true, if_false]
      have hsmall := hfits.small
      rw [hfits.size, Int.bmod_eq_of_le (by omega) (by omega)]

theorem toInt_place {o next : Int64} {m : Member} (hm : IsExtracted m) (h : place o m = .ok next) :
    next.toInt = (o.toInt + (memberShape m).bytes).bmod (2 ^ 64) := by
  rcases place_eq_ok_iff.mp h with ⟨t, htype, hplain, _, _, _, _, rfl⟩
  rw [Int64.toInt_add, toInt_room hm htype hplain, Int.add_bmod_bmod]

theorem toInt_place_exact {o next : Int64} {m : Member} {e : Nat} (hm : IsExtracted m)
    (h : place o m = .ok next) (ho : o.toInt = e) (hfit : e + (memberShape m).bytes < 2 ^ 63) :
    next.toInt = ((e + (memberShape m).bytes : Nat) : Int) := by
  rw [toInt_place hm h, ho, ← Int.natCast_add, Int.bmod_eq_of_le (by omega) (by omega)]

theorem mod_eq_zero_iff {o a : Int64} {e align : Nat} (ho : o.toInt = e) (ha : a.toInt = align) :
    o % a = 0 ↔ align ∣ e := by
  have hword : (o % a).toInt = ((e % align : Nat) : Int) := by
    rw [Int64.toInt_mod, ho, ha, Int.ofNat_tmod]
  rw [← Int64.toInt_inj, hword, Nat.dvd_iff_mod_eq_zero]
  exact Int.natCast_eq_zero

/-- At an exact offset a member is accepted exactly if it may stand in a block and need not be
moved. -/
theorem exists_place_iff {o : Int64} {e : Nat} {m : Member} (ho : o.toInt = e) :
    (exists next, place o m = .ok next) ↔
      (exists t, IsPlaceable m t) ∧ nextMultiple e (memberShape m).alignment = e := by
  have hshape : forall t, GlslType.lookup? m.type = some t -> Fits t -> t.alignment ≠ 12 ->
      (o % (if m.isArray then 16 else Int64.ofNat t.alignment) = 0 ↔
        nextMultiple e (memberShape m).alignment = e) := by
    intro t htype hfits hthree
    unfold memberShape
    rw [htype]
    cases m.isArray with
    | true => exact (mod_eq_zero_iff ho rfl).trans (nextMultiple_eq_iff (Nat.succ_pos 15)).symm
    | false =>
        have hword := hfits.word
        rw [hfits.alignment hthree] at hword ⊢
        exact (mod_eq_zero_iff ho hword).trans (nextMultiple_eq_iff hfits.pos).symm
  simp only [place_eq_ok_iff]
  constructor
  · rintro ⟨next, t, htype, hplain, hsized, hwide, hthree, hmod, _⟩
    have hfits := fits_of_lookup? htype hplain
    refine ⟨⟨t, htype, hplain, hsized, ?_, ?_⟩, (hshape t htype hfits hthree).mp hmod⟩
    · exact fun h => hthree (hfits.three.mpr h)
    · rw [← hfits.alignment hthree]
      exact hwide
  · rintro ⟨⟨t, ht⟩, hpacked⟩
    have hfits := fits_of_lookup? ht.type ht.plain
    have hthree : t.alignment ≠ 12 := fun h => ht.notThree (hfits.three.mp h)
    refine ⟨_, t, ht.type, ht.plain, ht.sized, ?_, hthree,
      (hshape t ht.type hfits hthree).mpr hpacked, rfl⟩
    rw [hfits.alignment hthree]
    exact ht.wide

/-!
# All members
-/

def unplaced (m : Member) : Member :=
  { m with offset := 0 }

theorem totalBytes_cons (m : Member) (ms : List Member) :
    totalBytes (m :: ms) = (memberShape m).bytes + totalBytes ms := by
  simp [totalBytes]

section Layout

variable {block : Text} {line : Int}

theorem exactSpans_cons {e : Nat} {m : Member} (h : nextMultiple e (memberShape m).alignment = e)
    (ms : List Member) :
    exactSpans e (m :: ms) =
      (e, e + (memberShape m).bytes) :: exactSpans (e + (memberShape m).bytes) ms := by
  rw [exactSpans, h]

theorem placeAll_exact {o : Int64} {e : Nat} {ms : List Member} (ho : o.toInt = e)
    (hms : forall m, m ∈ ms -> IsExtracted m) (hfit : e + totalBytes ms < 2 ^ 63) :
    ((exists placed last, placeAll block line o ms = .ok (placed, last)) ↔
        (forall m, m ∈ ms -> exists t, IsPlaceable m t) ∧ IsPacked e (exactSpans e ms)) ∧
      forall placed last, placeAll block line o ms = .ok (placed, last) ->
        placed.map unplaced = ms.map unplaced ∧
        placed.map (·.offset.toInt) = (exactSpans e ms).map (fun x => (x.1 : Int)) ∧
        last.toInt = lastEnd e (exactSpans e ms) ∧
        lastEnd e (exactSpans e ms) = e + totalBytes ms := by
  induction ms generalizing o e with
  | nil =>
      constructor
      · exact iff_of_true ⟨[], o, rfl⟩ ⟨List.forall_mem_nil _, trivial⟩
      · intro placed last h
        cases h
        exact ⟨rfl, rfl, ho, rfl⟩
  | cons m ms ih =>
      rcases List.forall_mem_cons.mp hms with ⟨hm, hms⟩
      rw [totalBytes_cons, ← Nat.add_assoc] at hfit
      have hnext : forall next, place o m = .ok next ->
          next.toInt = ((e + (memberShape m).bytes : Nat) : Int) :=
        fun next hplace => toInt_place_exact hm hplace ho (by omega)
      constructor
      · rw [List.forall_mem_cons]
        constructor
        · rintro ⟨placed, last, h⟩
          rcases placeAll_cons_eq_ok_iff.mp h with ⟨next, rest, hplace, hrest, _⟩
          rcases (exists_place_iff ho).mp ⟨next, hplace⟩ with ⟨hplaceable, hstart⟩
          rcases (ih (hnext next hplace) hms hfit).1.mp ⟨rest, last, hrest⟩ with ⟨hall, hpacked⟩
          rw [exactSpans_cons hstart]
          exact ⟨⟨hplaceable, hall⟩, rfl, hpacked⟩
        · rintro ⟨⟨hplaceable, hall⟩, hspans⟩
          have hstart : nextMultiple e (memberShape m).alignment = e := hspans.1
          rw [exactSpans_cons hstart] at hspans
          rcases hspans with ⟨_, hpacked⟩
          rcases (exists_place_iff ho).mpr ⟨hplaceable, hstart⟩ with ⟨next, hplace⟩
          rcases (ih (hnext next hplace) hms hfit).1.mpr ⟨hall, hpacked⟩ with ⟨rest, last, hrest⟩
          exact ⟨_, last, placeAll_cons_eq_ok_iff.mpr ⟨next, rest, hplace, hrest, rfl⟩⟩
      · intro placed last h
        rcases placeAll_cons_eq_ok_iff.mp h with ⟨next, rest, hplace, hrest, rfl⟩
        have hstart := ((exists_place_iff ho).mp ⟨next, hplace⟩).2
        rcases (ih (hnext next hplace) hms hfit).2 rest last hrest with
          ⟨hmembers, hoffsets, hlast, htotal⟩
        rw [exactSpans_cons hstart, totalBytes_cons, ← Nat.add_assoc]
        refine ⟨?_, ?_, hlast, htotal⟩
        · rw [List.map_cons, List.map_cons, hmembers]
          rfl
        · rw [List.map_cons, List.map_cons, hoffsets, ho]

/-- A size is rounded up exactly as long as the last byte of the block has an offset. -/
theorem toInt_roundUp {n : Int64} {e : Nat} (hn : n.toInt = e) (he : e + 15 < 2 ^ 63) :
    (roundUp n 16).toInt = nextMultiple e 16 := by
  have hsum : (n + 16 - 1).toInt = ((e + 15 : Nat) : Int) := by
    rw [Int64.sub_eq_add_neg, Int64.add_assoc, Int64.toInt_add, hn,
      show (16 + -1 : Int64).toInt = 15 from by decide]
    exact Int.bmod_eq_of_le (by omega) (by omega)
  have hrows : ((e + 15 : Nat) : Int).tdiv 16 = ((e + 15) / 16 : Nat) := Int.ofNat_tdiv (e + 15) 16
  unfold roundUp nextMultiple
  rw [Int64.toInt_mul, Int64.toInt_div, hsum, show (16 : Int64).toInt = 16 from rfl, hrows]
  rw [Int.bmod_eq_of_le (n := ((e + 15) / 16 : Nat)) (by omega) (by omega)]
  exact Int.bmod_eq_of_le (by omega) (by omega)

/-- A block whose bytes fit into a word has a layout exactly if each member may stand in a block and
the rules put no padding in front of it.  Then offsets and size are those of the rules. -/
theorem layOut_exact_iff {ms : List Member} (hms : forall m, m ∈ ms -> IsExtracted m)
    (hfit : totalBytes ms + 16 ≤ 2 ^ 63) :
    ((exists placed size, layOut block line ms = .ok (placed, size)) ↔
        (forall m, m ∈ ms -> exists t, IsPlaceable m t) ∧ IsPacked 0 (exactSpans 0 ms)) ∧
      forall placed size, layOut block line ms = .ok (placed, size) ->
        placed.map unplaced = ms.map unplaced ∧
        placed.map (·.offset.toInt) = (exactSpans 0 ms).map (fun x => (x.1 : Int)) ∧
        size.toInt = nextMultiple (lastEnd 0 (exactSpans 0 ms)) 16 := by
  have hexact := @placeAll_exact block line 0 0 ms rfl hms (by omega)
  constructor
  · rw [← hexact.1]
    constructor
    · rintro ⟨placed, size, h⟩
      rcases layOut_eq_ok_iff.mp h with ⟨last, hplaced, _⟩
      exact ⟨placed, last, hplaced⟩
    · rintro ⟨placed, last, hplaced⟩
      exact ⟨placed, _, layOut_eq_ok_iff.mpr ⟨last, hplaced, rfl⟩⟩
  · intro placed size h
    rcases layOut_eq_ok_iff.mp h with ⟨last, hplaced, rfl⟩
    rcases hexact.2 placed last hplaced with ⟨hmembers, hoffsets, hlast, htotal⟩
    exact ⟨hmembers, hoffsets, toInt_roundUp hlast (by omega)⟩

end Layout

/-- Scalars, a vector, an array and a matrix. -/
def mixedMembers : List Member :=
  [⟨"a", "float", [], 1, false, 0⟩, ⟨"b", "int", [], 1, false, 0⟩, ⟨"c", "vec2", [], 1, false, 0⟩,
    ⟨"d", "vec4", [], 3, true, 0⟩, ⟨"e", "mat4", [], 1, false, 0⟩]

theorem layOut_exact_iff_mixed :
    (forall m, m ∈ mixedMembers -> IsExtracted m) ∧ totalBytes mixedMembers + 16 ≤ 2 ^ 63 ∧
      IsPacked 0 (exactSpans 0 mixedMembers) ∧
      exists placed size, layOut "B" 1 mixedMembers = .ok (placed, size) ∧
        placed.map unplaced = mixedMembers ∧ placed.map (·.offset.toInt) = [0, 4, 8, 16, 64] ∧
        size.toInt = 128 := by
  have hextracted : forall m, m ∈ mixedMembers -> IsExtracted m := by
    simp only [mixedMembers, List.forall_mem_cons]
    refine ⟨?_, ?_, ?_, ?_, ?_, List.forall_mem_nil _⟩
    all_goals exact ⟨by decide, by decide⟩
  have hspans : exactSpans 0 mixedMembers = [(0, 4), (4, 8), (8, 16), (16, 64), (64, 128)] := by
    decide +kernel
  have hfit : totalBytes mixedMembers + 16 ≤ 2 ^ 63 := by
    decide +kernel
  have hlayout : exists read, layOut "B" 1 mixedMembers = .ok read := by
    refine ⟨(mixedMembers.zipWith (fun m o => { m with offset := o }) [0, 4, 8, 16, 64], 128), ?_⟩
    decide +kernel
  rcases hlayout with ⟨⟨placed, size⟩, hlayout⟩
  rcases layOut_exact_iff hextracted hfit with ⟨hiff, hexact⟩
  have hpacked := (hiff.mp ⟨placed, size, hlayout⟩).2
  rcases hexact placed size hlayout with ⟨hmembers, hoffsets, hsize⟩
  rw [hspans] at hoffsets hsize
  exact ⟨hextracted, hfit, hpacked, placed, size, hlayout, hmembers, hoffsets, hsize⟩

end Std140

/-!
# Blocks that are larger than a word

Array lengths are positive words without a bound, so the bytes of a block need not fit
into a word.  No check notices it: the offsets wrap around, and the block is accepted.
Its members stand one behind the other exactly if the bytes of all of them, rounded up,
fit.
-/

namespace Std140

/-- A layout in which no offset wraps around: each member ends before the next one starts, and the
last one within the size. -/
structure IsUnwrapped (ms : List Member) (size : Int64) : Prop where
  nonneg : forall m, m ∈ ms -> 0 ≤ m.offset.toInt
  apart : ms.IsChain fun m n => m.offset.toInt + (memberShape m).bytes ≤ n.offset.toInt
  within : forall m, m ∈ ms.getLast? -> m.offset.toInt + (memberShape m).bytes ≤ size.toInt

/-!
# Layouts that fit
-/

theorem IsExtracted.moved {m : Member} (hm : IsExtracted m) (x : Int64) :
    IsExtracted { m with offset := x } :=
  ⟨hm.single, hm.nonneg⟩

theorem exact_of_laid {o last : Int64} {e : Nat} {ms : List Member} (h : Laid o ms last)
    (ho : o.toInt = e) (hms : forall m, m ∈ ms -> IsExtracted m)
    (hfit : e + totalBytes ms < 2 ^ 63) :
    (forall m, m ∈ ms -> 0 ≤ m.offset.toInt) ∧
      (ms.IsChain fun m n => m.offset.toInt + (memberShape m).bytes ≤ n.offset.toInt) ∧
      (forall m, m ∈ ms.getLast? -> m.offset.toInt + (memberShape m).bytes = last.toInt) ∧
      last.toInt = ((e + totalBytes ms : Nat) : Int) := by
  induction h generalizing e with
  | nil o =>
      refine ⟨List.forall_mem_nil _, List.IsChain.nil, ?_, ho⟩
      intro m hm
      cases hm
  | @cons o next last m ms hplace hoffset hlaid ih =>
      rcases List.forall_mem_cons.mp hms with ⟨hm, hms⟩
      rw [totalBytes_cons, ← Nat.add_assoc] at hfit ⊢
      have hnext := toInt_place_exact hm hplace ho (by omega)
      have hend : o.toInt + (memberShape m).bytes = next.toInt := by
        rw [hnext, ho, Int.natCast_add]
      rcases ih hnext hms hfit with ⟨hnonneg, hapart, hlast, htotal⟩
      have hstart : 0 ≤ m.offset.toInt := by
        rw [hoffset, ho]
        exact Int.natCast_nonneg e
      refine ⟨List.forall_mem_cons.mpr ⟨hstart, hnonneg⟩, ?_, ?_, htotal⟩
      · cases hlaid with
        | nil => exact List.isChain_singleton m
        | cons _ hoffset' _ =>
            refine List.isChain_cons_cons.mpr ⟨?_, hapart⟩
            rw [hoffset, hoffset', hend]
      · cases hlaid with
        | nil =>
            intro n hn
            have hlast : m = n := Option.some.inj hn
            rw [← hlast, hoffset, hend]
        | cons => exact hlast

/-!
# Layouts that do not fit
-/

theorem totalBytes_le_of_isChain {m : Member} {ms : List Member} {size : Int}
    (hapart : (m :: ms).IsChain fun m n => m.offset.toInt + (memberShape m).bytes ≤ n.offset.toInt)
    (hwithin : forall n, n ∈ (m :: ms).getLast? -> n.offset.toInt + (memberShape n).bytes ≤ size) :
    m.offset.toInt + totalBytes (m :: ms) ≤ size := by
  rw [totalBytes_cons, Int.natCast_add, ← Int.add_assoc]
  induction ms generalizing m with
  | nil => simpa [totalBytes] using hwithin m rfl
  | cons n ms ih =>
      rcases List.isChain_cons_cons.mp hapart with ⟨hmn, hapart⟩
      have hrest := ih hapart hwithin
      rw [totalBytes_cons, Int.natCast_add]
      omega

theorem roundUp_le (n : Int64) : (roundUp n 16).toInt ≤ 2 ^ 63 - 16 := by
  unfold roundUp
  generalize n + 16 - 1 = k
  have hle := k.le_toInt
  have hlt := k.toInt_lt
  rw [Int64.toInt_mul, Int64.toInt_div, show (16 : Int64).toInt = 16 from rfl]
  simp only [Int.bmod, Int.tdiv_eq_ediv]
  omega

/-- A layout that is computed does not wrap around exactly if the bytes of its members, rounded up,
fit into a word. -/
theorem isUnwrapped_iff {ms : List Member} {last : Int64} (h : Laid 0 ms last)
    (hms : forall m, m ∈ ms -> IsExtracted m) :
    IsUnwrapped ms (roundUp last 16) ↔ totalBytes ms + 15 < 2 ^ 63 := by
  constructor
  · intro hunwrapped
    cases h with
    | nil => decide
    | @cons _ next _ m ms _ hoffset _ =>
        have htotal := totalBytes_le_of_isChain hunwrapped.apart hunwrapped.within
        have hsize := roundUp_le last
        rw [hoffset, show (0 : Int64).toInt = 0 from rfl, Int.zero_add] at htotal
        omega
  · intro hfit
    rcases exact_of_laid (e := 0) h rfl hms (by omega) with ⟨hnonneg, hapart, hlast, htotal⟩
    have hsize := toInt_roundUp htotal (by omega)
    have hle : 0 + totalBytes ms ≤ nextMultiple (0 + totalBytes ms) 16 := by
      unfold nextMultiple
      omega
    refine ⟨hnonneg, hapart, ?_⟩
    intro m hm
    rw [hlast m hm, htotal, hsize]
    exact Int.ofNat_le.mpr hle

end Std140

/-!
# Blocks of a stage
-/

namespace Reflect

theorem arrayLength_nonneg {name source expr : Text} {line : Nat} {count : Int64}
    (h : arrayLength name source line = .ok (count, expr)) : 0 ≤ count.toInt := by
  have hzero : 0 ≤ (0 : Int64).toInt := Int.le_refl 0
  unfold arrayLength at h
  dsimp only at h
  repeat' split at h
  all_goals cases h
  any_goals exact hzero
  · rename_i hpos
    exact Int.le_of_lt (Int64.lt_iff_toInt_lt.mp hpos)

theorem isExtracted_ofMemberVariable {block : Text} {b : BlockMember} {v : Variable} {m : Member}
    (h : ofMemberVariable block b v = .ok m) : Std140.IsExtracted m := by
  constructor
  · exact (ofMemberVariable_spec h).1
  · unfold ofMemberVariable at h
    cases hlength : v.length with
    | none =>
        rw [hlength] at h
        cases h
        exact Int.le_of_lt Int.one_pos
    | some source =>
        rw [hlength] at h
        dsimp only at h
        split at h
        · rename_i hcount
          cases h
          exact arrayLength_nonneg hcount
        · split at h
          · cases h
            exact Int.le_refl 0
          · cases h

theorem isExtracted_of_reflect {o : Options} {ts : List Token} {s : ShaderInfo} {p : Param}
    (h : reflect o ts = .ok s) (hp : p ∈ s.params) (hblock : p.category = .block) :
    forall m, m ∈ p.members -> Std140.IsExtracted m := by
  rcases exists_ofBlock_of_reflect h p hp hblock with ⟨d, q, hof, hqblock, hmembers, _⟩
  rcases ofBlock_cases hof hqblock with ⟨ms, hms, hplaced⟩
  have hextracted := forall_of_ofMembers (fun _ _ _ => isExtracted_ofMemberVariable) hms
  rw [← hmembers]
  rcases hplaced with ⟨_, rfl, _⟩ | ⟨last, hplaced, _⟩
  · exact hextracted
  · exact Std140.forall_of_placeAll (fun _ x hm => hm.moved x) hplaced hextracted

/-- The layout of a uniform block does not wrap around exactly if the bytes of its members, rounded
up, fit into a word. -/
theorem block_isUnwrapped_iff {o : Options} {ts : List Token} {s : ShaderInfo} {p : Param}
    (h : reflect o ts = .ok s) (hp : p ∈ s.params) (hblock : p.category = .block)
    (hsized : isRuntimeSized p.members = false) :
    Std140.IsUnwrapped p.members p.size ↔ Std140.totalBytes p.members + 15 < 2 ^ 63 := by
  have hextracted := isExtracted_of_reflect h hp hblock
  rcases (hasLayout_of_reflect h p hp hblock).placed with ⟨hruntime, _⟩ | ⟨last, hlaid, hsize⟩
  · rw [hsized] at hruntime
    cases hruntime
  · rw [hsize]
    exact Std140.isUnwrapped_iff hlaid hextracted

theorem block_isUnwrapped_iff_floats :
    exists ts i p, tokenize "uniform B{float a;float b;};" = .ok ts ∧
      reflect (Options.plain .vertexOnly) ts = .ok i ∧ p ∈ i.params ∧ p.category = .block ∧
      isRuntimeSized p.members = false ∧ Std140.totalBytes p.members = 8 ∧
      Std140.IsUnwrapped p.members p.size := by
  rcases reflect_floats with ⟨ts, i, p, htokens, hi, hfind, hsize, hmembers⟩
  rcases ShaderInfo.isNamed_of_find? hfind with ⟨hp, hblock, _⟩
  have hsized : isRuntimeSized p.members = false := by
    rw [hmembers]
    decide
  have htotal : Std140.totalBytes p.members = 8 := by
    rw [hmembers]
    rfl
  have hunwrapped := (block_isUnwrapped_iff hi hp hblock hsized).mpr (by rw [htotal]; decide)
  exact ⟨ts, i, p, htokens, hi, hp, hblock, hsized, htotal, hunwrapped⟩

/-!
# A block of more bytes than a word counts

The first member of `uniform B{vec4 a[576460752303423488];vec4 b;};` has 2^63 bytes, and
the second one stands at a negative offset.
-/

def wideMembers (offset : Int64) : List Member :=
  [⟨"a", "vec4", [], 576460752303423488, true, 0⟩, ⟨"b", "vec4", [], 1, false, offset⟩]

def wideBlock : Declaration :=
  ⟨.uniform, none, [], [], "B", 8, .block
    [⟨[], "vec4", [⟨"a", some "576460752303423488", 1, 15, 36⟩], 1⟩,
      ⟨[], "vec4", [⟨"b", none, 1, 42, 43⟩], 1⟩] [], 0, 46, 1⟩

theorem ofTokens_wideBlock :
    exists ts, tokenize "uniform B{vec4 a[576460752303423488];vec4 b;};" = .ok ts ∧
      Declaration.ofTokens ts = .ok [wideBlock] := by
  apply Declaration.ofText?_eq_some_iff.mp
  decide +kernel

theorem parse_wide :
    Condition.parse "576460752303423488" = .ok (.literal (.int 576460752303423488)) :=
  Condition.parse_of_print (by decide +kernel) (by decide +kernel)

theorem layOut_wideMembers :
    GlslType.lookup? "vec4" = some ⟨"vec4", .vector, .float, 4, 1⟩ ∧
      Std140.layOut "B" 1 (wideMembers 0) =
        .ok (wideMembers (-9223372036854775808), -9223372036854775776) := by
  decide +kernel

/-- The layout of the block wraps around. -/
theorem block_wraps :
    exists ts i p, tokenize "uniform B{vec4 a[576460752303423488];vec4 b;};" = .ok ts ∧
      reflect (Options.plain .vertexOnly) ts = .ok i ∧ p ∈ i.params ∧ p.category = .block ∧
      isRuntimeSized p.members = false ∧ p.members.map (·.offset.toInt) = [0, -2 ^ 63] ∧
      p.size.toInt = -2 ^ 63 + 32 ∧ ¬ Std140.IsUnwrapped p.members p.size := by
  rcases ofTokens_wideBlock with ⟨ts, htokens, hds⟩
  rcases layOut_wideMembers with ⟨htype, hlaid⟩
  have hms : ofMembers "B" .block wideBlock.members = .ok (wideMembers 0) :=
    ofMembers_pair htype rfl rfl rfl (arrayLength_of_parse rfl parse_wide (by decide) "a" 1)
  rcases exists_reflect .vertexOnly hds rfl rfl (by decide) hms hlaid with
    ⟨i, p, hi, hfind, hsize, hmembers⟩
  rcases ShaderInfo.isNamed_of_find? hfind with ⟨hp, hcategory, _⟩
  refine ⟨ts, i, p, htokens, hi, hp, hcategory, ?_⟩
  rw [hsize, hmembers]
  refine ⟨by decide, by decide, by decide, ?_⟩
  intro hunwrapped
  exact absurd (hunwrapped.nonneg _ (List.mem_cons_of_mem _ List.mem_cons_self)) (by decide)

end Reflect

end EffectShader
