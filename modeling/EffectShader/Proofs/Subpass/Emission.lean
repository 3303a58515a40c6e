import EffectShader.Proofs.Subpass.Attachments
import EffectShader.Proofs.Token.FirstLine

/-!
# Numbers and the order of emission

Each line of a source is kept, marks the place of the declarations or declares an
attachment.  The attachments are numbered in the order of their lines and emitted
in another order; the declarations take the place of one line, and the other
pragmas become empty lines.
-/

namespace EffectShader

theorem Text.ne_nil_of_mem_fields {s w : Text} (h : w ∈ Text.fields s) : w ≠ [] := by
  have hfields : forall word s, w ∈ Text.fieldsFrom word s -> w ≠ [] := by
    intro word s h
    fun_induction Text.fieldsFrom word s with
    | case1 word hempty => cases h
    | case2 word hempty =>
        rw [List.mem_singleton.mp h]
        simpa using hempty
    | case3 word b s n hn hempty ih => exact ih h
    | case4 word b s n hn hempty ih =>
        rcases List.mem_cons.mp h with rfl | h
        · simpa using hempty
        · exact ih h
    | case5 word b s hn ih => exact ih h
  exact hfields [] s h

namespace Subpass

/-!
# Spelling attachments
-/

/-- The letter of a component type in the name of a pragma; floats have none. -/
def mark : ScalarKind -> Text
  | .int => "i"
  | .uint => "u"
  | _ => []

def pragmaName (aspect : Aspect) (scalar : ScalarKind) : Text :=
  mark scalar ++ ("subpass" ++ Text.ofString aspect.label)

def Attachment.fields (a : Attachment) : List Text :=
  Text.ofString a.direction.keyword ::
    ((if a.precision.isEmpty then [] else [a.precision]) ++ [a.name])

theorem classify?_eq_some_iff {name : Text} {aspect : Aspect} {scalar : ScalarKind} :
    classify? name = some (aspect, scalar) ↔ scalar ≠ .bool ∧ name = pragmaName aspect scalar := by
  constructor
  · intro h
    unfold classify? at h
    have hprefix {w : Text} (hw : Text.startsWith name w = true) : exists r, name = w ++ r :=
      (List.isPrefixOf_iff_prefix.mp hw).imp fun _ => Eq.symm
    split at h
    · rename_i scalar' base heq
      have hname : scalar' ≠ .bool ∧ name = mark scalar' ++ base := by
        split at heq
        · rename_i hint
          rcases hprefix hint with ⟨r, rfl⟩
          cases heq
          exact ⟨by decide, rfl⟩
        · split at heq
          · rename_i huint
            rcases hprefix huint with ⟨r, rfl⟩
            cases heq
            exact ⟨by decide, rfl⟩
          · cases heq
            exact ⟨by decide, rfl⟩
      rcases hname with ⟨hscalar, rfl⟩
      split at h
      · rename_i hbase
        cases h
        exact ⟨hscalar, by rw [eq_of_beq hbase]; rfl⟩
      · split at h
        · rename_i hbase
          cases h
          exact ⟨hscalar, by rw [eq_of_beq hbase]; rfl⟩
        · split at h
          · rename_i hbase
            cases h
            exact ⟨hscalar, by rw [eq_of_beq hbase]; rfl⟩
          · cases h
  · rintro ⟨hscalar, rfl⟩
    cases aspect <;> cases scalar <;> first | exact absurd rfl hscalar | decide +kernel

structure Attachment.IsSpelled (a : Attachment) (p : Pragma) (number : Nat) : Prop
    extends a.IsDeclared where
  pragma : p.name = pragmaName a.aspect a.scalar
  args : p.args.fields = a.fields
  admitted : a.aspect.admits a.scalar = true
  line : a.line = number
  input : a.input = none
  location : a.location = none

theorem ofKeyword?_eq_some_iff {word : Text} {d : Direction} :
    Direction.ofKeyword? word = some d ↔ word = Text.ofString d.keyword := by
  constructor
  · intro h
    have hkeyword := List.find?_some h
    exact (eq_of_beq (by simpa using hkeyword)).symm
  · rintro rfl
    cases d <;> decide

theorem ofFields_eq_ok_iff {pragma direction precision name : Text} {aspect : Aspect}
    {scalar : ScalarKind} {line : Nat} {a : Attachment} :
    ofFields pragma aspect scalar line direction precision name = .ok a ↔
      direction = Text.ofString a.direction.keyword ∧ a.IsDeclared ∧
        a.aspect.admits a.scalar = true ∧ a =
          ⟨aspect, a.direction, scalar, precision, name, line, none, none⟩ := by
  constructor
  · intro h
    have hdeclared := isDeclared_of_ofFields h
    unfold ofFields at h
    dsimp only at h
    split at h
    · cases h
    · rename_i d hdirection
      split at h
      · cases h
      · split at h
        · cases h
        · split at h
          · cases h
          · split at h
            · cases h
            · rename_i hadmits
              cases h
              exact ⟨ofKeyword?_eq_some_iff.mp hdirection, hdeclared, by simpa using hadmits, rfl⟩
  · rintro ⟨rfl, hdeclared, hadmits, ha⟩
    have hprecision : (!precision.isEmpty && !Word.isPrecision precision) = false := by
      have hcases := hdeclared.precision
      rw [ha] at hcases
      rcases hcases with hempty | hprecision
      · rw [show precision = [] from hempty]
        rfl
      · rw [show Word.isPrecision precision = true from hprecision, Bool.not_true, Bool.and_false]
    have hname := hdeclared.name
    have hsupported := hdeclared.supported
    rw [ha] at hname hsupported hadmits
    unfold ofFields
    rw [ofKeyword?_eq_some_iff.mpr rfl]
    dsimp only
    rw [hprecision, show isIdentifier name = true from hname,
      show aspect.supports a.direction = true from hsupported,
      show aspect.admits scalar = true from hadmits, ← ha]
    rfl

theorem ofPragma?_eq_some_iff {p : Pragma} {number : Nat} {a : Attachment} :
    ofPragma? p number = .ok (some a) ↔ a.IsSpelled p number := by
  constructor
  · intro h
    unfold ofPragma? at h
    split at h
    · cases h
    · rename_i aspect scalar hclass
      have hname := (classify?_eq_some_iff.mp hclass).2
      split at h
      · rename_i direction name hfields
        rcases ofFields_eq_ok_iff.mp (eq_ok_of_map_some h) with ⟨hdirection, hdeclared, hadmits, ha⟩
        rw [ha] at hdirection hdeclared hadmits ⊢
        exact ⟨hdeclared, hname, by rw [hfields, hdirection]; rfl, hadmits, rfl, rfl, rfl⟩
      · rename_i direction precision name hfields
        rcases ofFields_eq_ok_iff.mp (eq_ok_of_map_some h) with ⟨hdirection, hdeclared, hadmits, ha⟩
        have hempty : precision.isEmpty = false := by
          have hmem : precision ∈ p.args.fields := by simp [hfields]
          simpa using Text.ne_nil_of_mem_fields hmem
        rw [ha] at hdirection hdeclared hadmits ⊢
        refine ⟨hdeclared, hname, ?_, hadmits, rfl, rfl, rfl⟩
        rw [hfields, hdirection, Attachment.fields]
        simp only [hempty]
        rfl
      · cases h
  · intro h
    have hscalar : a.scalar ≠ .bool := by
      intro hbool
      have hadmits := h.admitted
      rw [hbool] at hadmits
      cases haspect : a.aspect <;> rw [haspect] at hadmits <;> cases hadmits
    have hattachment : a =
        ⟨a.aspect, a.direction, a.scalar, a.precision, a.name, number, none, none⟩ := by
      have hline := h.line
      have hinput := h.input
      have hlocation := h.location
      cases a
      simp_all only
    have hread : ofFields p.name a.aspect a.scalar number a.direction.keyword a.precision a.name =
        .ok a :=
      ofFields_eq_ok_iff.mpr ⟨rfl, h.toIsDeclared, h.admitted, hattachment⟩
    unfold ofPragma?
    rw [classify?_eq_some_iff.mpr ⟨hscalar, h.pragma⟩]
    dsimp only
    rw [h.args, Attachment.fields]
    cases hempty : a.precision with
    | nil =>
        rw [hempty] at hread
        simp only [List.isEmpty_nil, if_true, List.nil_append, hread]
        rfl
    | cons b s =>
        rw [hempty] at hread
        simp only [List.isEmpty_cons, Bool.false_eq_true, if_false, List.cons_append,
          List.nil_append, hread]
        rfl

theorem ofPragma?_eq_none_iff {p : Pragma} {number : Nat} :
    ofPragma? p number = .ok none ↔ classify? p.name = none := by
  unfold ofPragma?
  cases classify? p.name with
  | none => simp
  | some c =>
      have hsome : forall x : Except Diagnostic Attachment, x.map some ≠ .ok none := by
        intro x h
        cases x <;> cases h
      dsimp only
      split <;> simp [hsome]

/-!
# Reading lines
-/

/-- The line marks the place of the declarations. -/
def isMarker (line : Text) : Bool :=
  (Pragma.of? line).any fun p => p.name == ("subpass" : Text)

def pragmaNames : List Text :=
  [Aspect.color, .depth, .stencil].flatMap fun aspect =>
    [ScalarKind.float, .int, .uint].map (pragmaName aspect)

def isDeclaration (line : Text) : Bool :=
  (Pragma.of? line).any fun p => pragmaNames.contains p.name

/-- The line without its pragma, if that is about attachments. -/
def blanked (line : Text) : Text :=
  if isMarker line || isDeclaration line then [] else line

def ofLine? (line : Text) (number : Nat) : Option Attachment :=
  (Pragma.of? line).bind fun p => (ofPragma? p number).toOption.join

def declaredFrom (number : Nat) : List Text -> List Attachment
  | [] => []
  | l :: ls => (ofLine? l number).toList ++ declaredFrom (number + 1) ls

/-- The attachments that a source declares, in the order of their lines. -/
def declared (code : Text) : List Attachment :=
  declaredFrom 1 code.lines

theorem ofLine?_eq_some_iff {line : Text} {number : Nat} {a : Attachment} :
    ofLine? line number = some a ↔ exists p, Pragma.of? line = some p ∧ a.IsSpelled p number := by
  unfold ofLine?
  rw [Option.bind_eq_some_iff]
  simp only [Option.join_eq_some_iff, ← ofPragma?_eq_some_iff]
  refine exists_congr fun p => and_congr_right fun _ => ?_
  cases ofPragma? p number <;> simp [Except.toOption]

theorem classify?_isSome_iff (name : Text) :
    (classify? name).isSome = pragmaNames.contains name := by
  rw [Bool.eq_iff_iff, Option.isSome_iff_exists, List.contains_iff_mem]
  have hmem : name ∈ pragmaNames ↔ exists aspect scalar, scalar ≠ ScalarKind.bool ∧
      name = pragmaName aspect scalar := by
    unfold pragmaNames
    simp only [List.mem_flatMap, List.mem_map]
    constructor
    · rintro ⟨aspect, _, scalar, hscalar, rfl⟩
      refine ⟨aspect, scalar, ?_, rfl⟩
      rintro rfl
      revert hscalar
      decide
    · rintro ⟨aspect, scalar, hscalar, rfl⟩
      refine ⟨aspect, by cases aspect <;> decide, scalar, ?_, rfl⟩
      cases scalar <;> first | exact absurd rfl hscalar | decide
  rw [hmem, Prod.exists]
  simp only [classify?_eq_some_iff]

structure Survey.Takes (s s' : Survey) (line : Text) : Prop where
  lines : s'.lines = blanked line :: s.lines
  attachments : s'.attachments = s.attachments ++ (ofLine? line (s.lines.length + 1)).toList
  marker : s'.marker = if isMarker line then some s.lines.length else s.marker
  single : isMarker line = true -> s.marker = none
  first : s'.first = s.first.or (if isDeclaration line then some s.lines.length else none)

theorem Survey.takes_of_read {s s' : Survey} {line : Text} (h : s.read line = .ok s') :
    s.Takes s' line := by
  have hpragma : (Directive.parse? line).bind Directive.pragma? = Pragma.of? line := rfl
  unfold read at h
  dsimp only at h
  rw [hpragma] at h
  split at h
  · rename_i hnone
    cases h
    have hmarker : isMarker line = false := by simp [isMarker, hnone]
    have hdeclaration : isDeclaration line = false := by simp [isDeclaration, hnone]
    have hattachment : ofLine? line (s.lines.length + 1) = none := by simp [ofLine?, hnone]
    exact ⟨by simp [blanked, hmarker, hdeclaration, keep], by simp [hattachment, keep],
      by simp [hmarker, keep], by simp [hmarker], by simp [hdeclaration, keep]⟩
  · rename_i p hp
    have hmarker : isMarker line = (p.name == ("subpass" : Text)) := by simp [isMarker, hp]
    have hdeclaration : isDeclaration line = (classify? p.name).isSome := by
      simp [isDeclaration, hp, classify?_isSome_iff]
    have hattachment : ofLine? line (s.lines.length + 1) =
        (ofPragma? p (s.lines.length + 1)).toOption.join := by
      simp [ofLine?, hp]
    split at h
    · rename_i hname
      have hclass : classify? p.name = none := by
        rw [eq_of_beq hname]
        decide
      have hread : ofPragma? p (s.lines.length + 1) = .ok none := ofPragma?_eq_none_iff.mpr hclass
      rw [hclass] at hdeclaration
      rw [hread] at hattachment
      rw [hname] at hmarker
      split at h
      · cases h
      · rename_i hnone
        cases h
        exact ⟨by simp [blanked, hmarker, keep], by simp [hattachment, keep, Except.toOption],
          by simp [hmarker], fun _ => hnone, by simp [hdeclaration, keep]⟩
    · rename_i hname
      rw [Bool.eq_false_iff.mpr hname] at hmarker
      split at h
      · cases h
      · rename_i hread
        cases h
        rw [hread] at hattachment
        rw [ofPragma?_eq_none_iff.mp hread] at hdeclaration
        exact ⟨by simp [blanked, hmarker, hdeclaration, keep],
          by simp [hattachment, keep, Except.toOption], by simp [hmarker, keep],
          by simp [hmarker], by simp [hdeclaration, keep]⟩
      · rename_i a hread
        split at h
        · cases h
        · cases h
          have hclass : (classify? p.name).isSome = true := by
            rw [Option.isSome_iff_ne_none]
            intro hnone
            rw [ofPragma?_eq_none_iff.mpr hnone] at hread
            cases hread
          rw [hread] at hattachment
          rw [hclass] at hdeclaration
          exact ⟨by simp [blanked, hdeclaration, keep], by simp [hattachment, Except.toOption],
            by simp [hmarker, keep], by simp [hmarker], by simp [hdeclaration]⟩

theorem declaredFrom_append (number : Nat) (ks ls : List Text) :
    declaredFrom number (ks ++ ls) =
      declaredFrom number ks ++ declaredFrom (number + ks.length) ls := by
  induction ks generalizing number with
  | nil => rfl
  | cons k ks ih =>
      rw [List.cons_append, declaredFrom, declaredFrom, ih, List.length_cons, List.append_assoc,
        show number + 1 + ks.length = number + (ks.length + 1) by omega]

/-- All that has been read are these lines. -/
structure Survey.Covers (s : Survey) (ls : List Text) : Prop where
  lines : s.lines.reverse = ls.map blanked
  attachments : s.attachments = declaredFrom 1 ls
  marker : s.marker = ls.findIdx? isMarker
  single : ls.countP isMarker ≤ 1
  first : s.first = ls.findIdx? isDeclaration

theorem Survey.Covers.read {s s' : Survey} {ls : List Text} {l : Text} (hs : s.Covers ls)
    (h : s.read l = .ok s') : s'.Covers (ls ++ [l]) := by
  have htakes := takes_of_read h
  have hlength : s.lines.length = ls.length := by
    rw [← List.length_reverse, hs.lines, List.length_map]
  constructor
  · rw [htakes.lines, List.reverse_cons, hs.lines, List.map_append, List.map_singleton]
  · rw [htakes.attachments, hs.attachments, declaredFrom_append, hlength, Nat.add_comm 1]
    simp [declaredFrom]
  · rw [htakes.marker, List.findIdx?_append, List.findIdx?_singleton, ← hs.marker, hlength]
    cases hmarker : isMarker l with
    | true => simp [htakes.single hmarker]
    | false => simp
  · rw [List.countP_append, List.countP_singleton]
    cases hmarker : isMarker l with
    | true =>
        have hnone := htakes.single hmarker
        rw [hs.marker, List.findIdx?_eq_none_iff] at hnone
        have hzero : ls.countP isMarker = 0 := List.countP_eq_zero.mpr fun k hk => by
          simp [hnone k hk]
        rw [hzero]
        decide
    | false => simpa using hs.single
  · rw [htakes.first, List.findIdx?_append, List.findIdx?_singleton, ← hs.first, hlength]
    cases isDeclaration l <;> simp

theorem Survey.Covers.foldlM {s s' : Survey} {ks ls : List Text} (hs : s.Covers ks)
    (h : ls.foldlM Survey.read s = .ok s') : s'.Covers (ks ++ ls) := by
  induction ls generalizing s ks with
  | nil =>
      cases h
      rwa [List.append_nil]
  | cons l ls ih =>
      rw [List.foldlM_cons] at h
      cases hread : s.read l with
      | error e =>
          rw [hread] at h
          cases h
      | ok t =>
          rw [hread] at h
          have hrest := ih (hs.read hread) h
          rwa [List.append_assoc] at hrest

theorem Survey.covers {s : Survey} {ls : List Text}
    (h : ls.foldlM Survey.read ⟨[], [], none, none⟩ = .ok s) : s.Covers ls := by
  have hempty : Survey.Covers ⟨[], [], none, none⟩ [] := ⟨rfl, rfl, rfl, Nat.zero_le 1, rfl⟩
  exact hempty.foldlM h

/-!
# The order of emission
-/

/-- The attachment as its pragma declares it. -/
def Attachment.unnumbered (a : Attachment) : Attachment :=
  { a with input := none, location := none }

/-- Attachments that are read have consecutive inputs, and color attachments have consecutive
locations; the others have none. -/
structure IsNumbered (as : List Attachment) : Prop where
  reading : forall a, a ∈ as -> a.input.isSome = a.direction.reads
  inputs : as.filterMap Attachment.input = List.range (as.countP fun a => a.direction.reads)
  color : forall a, a ∈ as -> a.location.isSome = (a.aspect == Aspect.color)
  locations : as.filterMap Attachment.location =
    List.range (as.countP fun a => a.aspect == Aspect.color)

/-- The order of emission: by direction, then by aspect, then by line. -/
def Attachment.Precedes (a b : Attachment) : Prop :=
  a.direction.rank < b.direction.rank ∨ a.direction.rank = b.direction.rank ∧
    (a.aspect.rank < b.aspect.rank ∨ a.aspect.rank = b.aspect.rank ∧ a.line < b.line)

theorem isNumbered_assign (as : List Attachment) : IsNumbered (assign 0 0 as) := by
  have hcount : forall p : Attachment -> Bool,
      (forall a i l, p { a with input := i, location := l } = p a) ->
      (assign 0 0 as).countP p = as.countP p := by
    intro p hp
    have hmap : forall bs : List Attachment, bs.countP p = (bs.map p).countP id :=
      fun bs => (List.countP_map (p := id) (f := p)).symm
    rw [hmap, map_assign 0 0 as hp, ← hmap]
  constructor
  · intro a ha
    rcases exists_of_mem_assign 0 0 as ha with ⟨_, _, _, hinput, _⟩
    exact hinput
  · rw [filterMap_input_assign, List.range_eq_range', hcount _ fun _ _ _ => rfl]
  · intro a ha
    rcases exists_of_mem_assign 0 0 as ha with ⟨_, _, _, _, hlocation⟩
    exact hlocation
  · rw [filterMap_location_assign, List.range_eq_range', hcount _ fun _ _ _ => rfl]

theorem Attachment.le_iff {a b : Attachment} : a.le b = true ↔
    a.direction.rank < b.direction.rank ∨ a.direction.rank = b.direction.rank ∧
      (a.aspect.rank < b.aspect.rank ∨ a.aspect.rank = b.aspect.rank ∧ a.line ≤ b.line) := by
  unfold le
  split
  · rename_i hdirection
    have hne : a.direction.rank ≠ b.direction.rank := by simpa using hdirection
    rw [decide_eq_true_iff]
    omega
  · rename_i hdirection
    have heq : a.direction.rank = b.direction.rank := by simpa using hdirection
    split
    · rename_i haspect
      have hne : a.aspect.rank ≠ b.aspect.rank := by simpa using haspect
      rw [decide_eq_true_iff]
      omega
    · rename_i haspect
      have heq' : a.aspect.rank = b.aspect.rank := by simpa using haspect
      rw [decide_eq_true_iff]
      omega

theorem pairwise_mergeSort_le {as : List Attachment} (h : (as.map Attachment.line).Nodup) :
    (as.mergeSort Attachment.le).Pairwise Attachment.Precedes := by
  have hsorted : (as.mergeSort Attachment.le).Pairwise fun a b => a.le b = true := by
    refine List.pairwise_mergeSort ?_ ?_ as
    · intro a b c
      simp only [Attachment.le_iff]
      omega
    · intro a b
      simp only [Bool.or_eq_true, Attachment.le_iff]
      omega
  have hlines : (as.mergeSort Attachment.le).Pairwise fun a b => a.line ≠ b.line :=
    List.pairwise_map.mp (((List.mergeSort_perm as Attachment.le).map _).nodup_iff.mpr h)
  refine (hsorted.and hlines).imp ?_
  rintro a b ⟨hle, hne⟩
  rw [Attachment.le_iff] at hle
  unfold Attachment.Precedes
  omega

theorem unnumbered_of_ofLine? {line : Text} {number : Nat} {a : Attachment}
    (h : ofLine? line number = some a) : a.unnumbered = a ∧ a.line = number := by
  rcases ofLine?_eq_some_iff.mp h with ⟨p, _, hspelled⟩
  refine ⟨?_, hspelled.line⟩
  have hinput := hspelled.input
  have hlocation := hspelled.location
  cases a
  simp_all [Attachment.unnumbered]

theorem map_unnumbered_declaredFrom (number : Nat) (ls : List Text) :
    (declaredFrom number ls).map Attachment.unnumbered = declaredFrom number ls := by
  induction ls generalizing number with
  | nil => rfl
  | cons l ls ih =>
      rw [declaredFrom, List.map_append, ih]
      cases hline : ofLine? l number with
      | none => rfl
      | some a => exact congrArg (· :: _) (unnumbered_of_ofLine? hline).1

theorem pairwise_line_declaredFrom (number : Nat) (ls : List Text) :
    (forall a, a ∈ declaredFrom number ls -> number ≤ a.line) ∧
      (declaredFrom number ls).Pairwise fun a b => a.line < b.line := by
  induction ls generalizing number with
  | nil => exact ⟨by simp [declaredFrom], List.Pairwise.nil⟩
  | cons l ls ih =>
      rcases ih (number + 1) with ⟨hlater, hpairwise⟩
      rw [declaredFrom]
      cases hline : ofLine? l number with
      | none => exact ⟨fun a ha => Nat.le_of_succ_le (hlater a ha), hpairwise⟩
      | some a =>
          have hnumber := (unnumbered_of_ofLine? hline).2
          refine ⟨List.forall_mem_cons.mpr ⟨Nat.le_of_eq hnumber.symm, ?_⟩,
            List.pairwise_cons.mpr ⟨?_, hpairwise⟩⟩
          · exact fun b hb => Nat.le_of_succ_le (hlater b hb)
          · intro b hb
            have hb := hlater b hb
            omega

/-!
# Expansions
-/

/-- The declarations stand in the place of the marker, or else of the first pragma of an
attachment. -/
def IsPlace (before : List Text) (line : Text) (after : List Text) : Prop :=
  isMarker line = true ∧ (forall l, l ∈ before ++ after -> isMarker l = false) ∨
    (forall l, l ∈ before ++ line :: after -> isMarker l = false) ∧
      isDeclaration line = true ∧ forall l, l ∈ before -> isDeclaration l = false

theorem exists_of_findIdx?_eq_some {ls : List Text} {p : Text -> Bool} {i : Nat}
    (h : ls.findIdx? p = some i) : exists before l after, ls = before ++ l :: after ∧
      before.length = i ∧ p l = true ∧ forall k, k ∈ before -> p k = false := by
  rcases List.findIdx?_eq_some_iff_getElem.mp h with ⟨hi, hp, hbefore⟩
  refine ⟨ls.take i, ls[i], ls.drop (i + 1), ?_, by simp [Nat.le_of_lt hi], hp, ?_⟩
  · rw [← List.drop_eq_getElem_cons hi, List.take_append_drop]
  · intro k hk
    rcases List.mem_take_iff_getElem.mp hk with ⟨j, hj, rfl⟩
    simpa using hbefore j (by omega)

theorem Survey.Covers.exists_place {s : Survey} {ls : List Text} {place : Nat} (hs : s.Covers ls)
    (h : s.marker.or s.first = some place) : exists before line after,
      ls = before ++ line :: after ∧ before.length = place ∧ IsPlace before line after := by
  rw [hs.marker, hs.first] at h
  rcases Option.or_eq_some_iff.mp h with hmarker | ⟨hnone, hfirst⟩
  · rcases exists_of_findIdx?_eq_some hmarker with ⟨before, line, after, rfl, hlength, hline,
      hbefore⟩
    refine ⟨before, line, after, rfl, hlength, Or.inl ⟨hline, ?_⟩⟩
    have hsingle := hs.single
    rw [List.countP_append, List.countP_cons_of_pos hline] at hsingle
    have hafter : after.countP isMarker = 0 := by omega
    intro l hl
    rcases List.mem_append.mp hl with hl | hl
    · exact hbefore l hl
    · simpa using List.countP_eq_zero.mp hafter l hl
  · rcases exists_of_findIdx?_eq_some hfirst with ⟨before, line, after, rfl, hlength, hline,
      hbefore⟩
    exact ⟨before, line, after, rfl, hlength,
      Or.inr ⟨List.findIdx?_eq_none_iff.mp hnone, hline, hbefore⟩⟩

theorem newline_not_mem_blanked {l : Text} (hl : Byte.newline ∉ l) : Byte.newline ∉ blanked l := by
  unfold blanked
  split
  · exact List.not_mem_nil
  · exact hl

theorem lines_set_block {before after : List Text} {line : Text} {as : List Attachment}
    (hbefore : forall l, l ∈ before -> Byte.newline ∉ l)
    (hafter : forall l, l ∈ after -> Byte.newline ∉ l) (has : forall a, a ∈ as -> a.IsInline) :
    (Text.unlines ((before ++ line :: after).set before.length
      (Text.unlines (blockLines as)))).lines = before ++ (blockLines as ++ after) := by
  have hblock := newline_not_mem_blockLines has
  have hne : blockLines as ≠ [] := by simp [blockLines]
  rw [List.set_append_right _ _ (Nat.le_refl _), Nat.sub_self, List.set_cons_zero,
    Text.unlines_unlines before hne after]
  refine Text.lines_unlines (by simp [hne]) ?_
  simp only [List.mem_append]
  rintro l (hl | hl | hl)
  · exact hbefore l hl
  · exact hblock l hl
  · exact hafter l hl

/-- The attachments of a source are numbered in the order of their lines and sorted by direction,
aspect and line.  Their declarations take the place of the marker or of the first pragma, the
other pragmas become empty lines, and the lines around them stay. -/
theorem expand_emission {code : Text} {lines : LineMap} {e : Expansion}
    (h : expand code lines = .ok e) (hne : e.attachments ≠ []) :
    (exists numbered, numbered.map Attachment.unnumbered = declared code ∧
      numbered.Pairwise (fun a b => a.line < b.line) ∧ IsNumbered numbered ∧
      e.attachments.Perm numbered) ∧
    e.attachments.Pairwise Attachment.Precedes ∧
    exists before line after, code.lines = before ++ line :: after ∧ IsPlace before line after ∧
      e.code.lines = before.map blanked ++ (blockLines e.attachments ++ after.map blanked) := by
  unfold expand at h
  cases hsurvey : code.lines.foldlM Survey.read ⟨[], [], none, none⟩ with
  | error e =>
      rw [hsurvey] at h
      cases h
  | ok survey =>
      rw [hsurvey] at h
      have hcovers := Survey.covers hsurvey
      dsimp only at h
      split at h
      · rename_i place a rest hplace hattachments
        rw [← hattachments, hcovers.attachments, hcovers.lines] at h
        cases h
        rcases hcovers.exists_place hplace with ⟨before, line, after, hlines, hlength, hisPlace⟩
        have hascending : (assign 0 0 (declaredFrom 1 code.lines)).Pairwise
            fun a b => a.line < b.line := by
          apply List.pairwise_map.mp
          rw [map_assign 0 0 _ fun _ _ _ => rfl]
          exact List.pairwise_map.mpr (pairwise_line_declaredFrom 1 code.lines).2
        have hkept : forall ls : List Text, ls ⊆ code.lines ->
            forall l, l ∈ ls.map blanked -> Byte.newline ∉ l := by
          intro ls hls l hl
          rcases List.mem_map.mp hl with ⟨k, hk, rfl⟩
          exact newline_not_mem_blanked (Text.not_mem_of_mem_lines (hls hk))
        have hstart : Survey.IsInline ⟨[], [], none, none⟩ := ⟨by simp, by simp, by simp, by simp⟩
        have hread := (hstart.foldlM (fun l => Text.not_mem_of_mem_lines) hsurvey).1.attachments
        have hinline := isInline_assign (hcovers.attachments ▸ hread) 0 0
        refine ⟨⟨assign 0 0 (declaredFrom 1 code.lines), ?_, hascending, isNumbered_assign _,
          List.mergeSort_perm _ _⟩, ?_, before, line, after, hlines, hisPlace, ?_⟩
        · rw [map_assign 0 0 _ fun _ _ _ => rfl]
          exact map_unnumbered_declaredFrom 1 code.lines
        · exact pairwise_mergeSort_le (List.pairwise_map.mpr (hascending.imp Nat.ne_of_lt))
        · dsimp only
          rw [hlines, List.map_append, List.map_cons, ← hlength]
          have hlength' : before.length = (before.map blanked).length := by rw [List.length_map]
          rw [hlength']
          refine lines_set_block ?_ ?_ ?_
          · exact hkept before (by simp [hlines])
          · exact hkept after (by simp [hlines])
          · exact fun b hb => hinline b (by rw [hlines]; exact List.mem_mergeSort.mp hb)
      · cases h
        exact absurd rfl hne

/-- The depth attachment of the last line comes first, and the declarations stand at the marker. -/
theorem expand_emission_marked :
    exists e before line after,
      expand "#pragma subpassColor inout a\nint x;\n#pragma subpass\n#pragma subpassDepth in d"
        LineMap.identity = .ok e ∧
      e.attachments = [⟨.depth, .input, .float, [], "d", 4, some 1, none⟩,
        ⟨.color, .both, .float, [], "a", 1, some 0, some 0⟩] ∧
      Text.lines
      "#pragma subpassColor inout a\nint x;\n#pragma subpass\n#pragma subpassDepth in d" =
        before ++ line :: after ∧
      isMarker line = true ∧
      e.code.lines = before.map blanked ++ (blockLines e.attachments ++ after.map blanked) := by
  have hsurvey : (Text.lines
      "#pragma subpassColor inout a\nint x;\n#pragma subpass\n#pragma subpassDepth in d").foldlM
      Survey.read ⟨[], [], none, none⟩ = .ok
      ⟨[[], [], "int x;", []], [⟨.color, .both, .float, [], "a", 1, none, none⟩,
        ⟨.depth, .input, .float, [], "d", 4, none, none⟩], some 2, some 0⟩ := by
    decide +kernel
  rcases exists_expand hsurvey rfl (by simp) LineMap.identity with ⟨e, hexpand, hattachments⟩
  have hsorted : e.attachments = [⟨.depth, .input, .float, [], "d", 4, some 1, none⟩,
      ⟨.color, .both, .float, [], "a", 1, some 0, some 0⟩] := by
    rw [hattachments]
    exact (mergeSort_pair _ _ _).trans (by decide +kernel)
  rcases expand_emission hexpand (by simp [hsorted]) with
    ⟨_, _, before, line, after, hlines, hplace, hcode⟩
  refine ⟨e, before, line, after, hexpand, hsorted, hlines, ?_, hcode⟩
  rcases hplace with ⟨hmarker, _⟩ | ⟨hnone, _⟩
  · exact hmarker
  · have hmem : Text.ofString "#pragma subpass" ∈ before ++ line :: after := by
      rw [← hlines]
      decide +kernel
    exact absurd (hnone _ hmem) (by decide +kernel)

end Subpass

end EffectShader
