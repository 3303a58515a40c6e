import EffectShader.Proofs.Fold.Runs
import EffectShader.Proofs.Resource.Decorated
import EffectShader.Proofs.Subpass.Attachments

/-!
# The lines of subpass declarations

A line that is written for an attachment is a macro definition or a declaration of
one variable.  Wherever the line stands, it reads back as what it was written for.
-/

namespace EffectShader

namespace Subpass

open Lexer Declaration Decorate Fold

/-!
# Words
-/

theorem takeChars_word {s : Text} (h : forall b, b ∈ s -> Byte.isWord b = true) :
    Text.takeChars isWordChar s = s := by
  induction s with
  | nil => rw [Text.takeChars]
  | cons b s ih =>
      rcases List.forall_mem_cons.mp h with ⟨hb, hs⟩
      have hbyte : b < 0x80 ∧ isWordChar (Char.ofNat b.toNat) = true :=
        Directive.of_isWord (P := fun b => b < 0x80 ∧ isWordChar (Char.ofNat b.toNat) = true) hb
          (by decide)
      have hfirst : Rune.first b s = ⟨Char.ofNat b.toNat, [b]⟩ := by
        rw [Rune.first, if_pos hbyte.1]
      rw [Text.takeChars, hfirst]
      dsimp only
      rw [if_pos hbyte.2]
      exact congrArg (b :: ·) (ih hs)

def word (s : Text) : Piece :=
  ⟨classify s, s⟩

theorem kind_word (s : Text) :
    (word s).kind = .ident ∨ (word s).kind = .keyword ∨ (word s).kind = .builtin := by
  show classify s = _ ∨ classify s = _ ∨ classify s = _
  unfold classify
  split
  · exact Or.inr (Or.inl rfl)
  · split
    · exact Or.inr (Or.inr rfl)
    · exact Or.inl rfl

theorem isPlain_word (s : Text) : (word s).isPlain = true :=
  IsHead.isPlain_of_word (kind_word s)

theorem word_ne_strayHash (s : Text) : word s ≠ strayHash := by
  intro heq
  have hkind := kind_word s
  rw [heq] at hkind
  rcases hkind with hkind | hkind | hkind <;> cases hkind

theorem isBoundary_word (s : Text) : (word s).isBoundary = false := by
  unfold Piece.isBoundary
  rcases kind_word s with hkind | hkind | hkind <;> rw [hkind] <;> rfl

theorem isWord_of_isIdentifier {s : Text} (h : isIdentifier s = true) :
    s ≠ [] ∧ forall b, b ∈ s -> Byte.isWord b = true := by
  cases s with
  | nil => cases h
  | cons b s =>
      rw [isIdentifier, Bool.and_eq_true, List.all_eq_true] at h
      refine ⟨List.cons_ne_nil b s, List.forall_mem_cons.mpr ⟨?_, h.2⟩⟩
      unfold Byte.isWord
      rw [h.1]
      rfl

theorem isCut_word {s : Text} (h : isIdentifier s = true) : IsCut (word s) := by
  cases s with
  | nil => cases h
  | cons b s =>
      have hword := (isWord_of_isIdentifier h).2 b List.mem_cons_self
      rw [isIdentifier, Bool.and_eq_true, List.all_eq_true] at h
      have hbyte : (b < 0x80 ∧ isSeparator b = false ∧ b ≠ Byte.slash ∧ b ≠ Byte.dot) ∧
          (Byte.isWordStart b = true -> Byte.isDigit b = false ∧
            isWordStart (Char.ofNat b.toNat) = true) :=
        Directive.of_isWord (P := fun b => (b < 0x80 ∧ isSeparator b = false ∧ b ≠ Byte.slash ∧
          b ≠ Byte.dot) ∧ (Byte.isWordStart b = true -> Byte.isDigit b = false ∧
          isWordStart (Char.ofNat b.toNat) = true)) hword (by decide)
      rcases hbyte with ⟨⟨hsmall, hsep, hslash, hdot⟩, hstart⟩
      rcases hstart h.1 with ⟨hdigit, hletter⟩
      have hfirst : Rune.first b s = ⟨Char.ofNat b.toNat, [b]⟩ := by
        rw [Rune.first, if_pos hsmall]
      have hextent : wordExtent b s = s.length := by
        unfold wordExtent
        rw [hfirst]
        show 0 + (Text.takeChars isWordChar s).length = s.length
        rw [takeChars_word h.2, Nat.zero_add]
      have hplain : plainExtent b s = (classify (b :: s), s.length) := by
        unfold plainExtent
        rw [if_neg (by simp [hdigit, hdot]), if_pos (by rw [hfirst]; exact hletter), hextent,
          List.take_length]
      have hform : form false b s.head? = .plain := by
        unfold form
        simp [hsep, hslash]
      refine ⟨false, b, s, [], rfl, ?_⟩
      rw [List.append_nil, extent?_eq, hform]
      exact congrArg some hplain

theorem head?_of_isIdentifier {s : Text} (h : isIdentifier s = true) :
    exists c, s.head? = some c ∧ isSeparator c = false := by
  have htoken := isSeparator_of_isToken ((isCut_word h).isToken (isPlain_word s)) []
  cases s with
  | nil => cases h
  | cons b s => exact ⟨b, rfl, htoken b rfl⟩

def wordToken (s : Text) : Token :=
  ⟨classify s, s, Position.start⟩

theorem isWord_wordToken (s : Text) : (wordToken s).isWord = true := by
  rcases kind_word s with hkind | hkind | hkind <;>
    simp [Token.isWord, show (wordToken s).kind = _ from hkind]

/-!
# Declarations of one variable
-/

theorem readsHead_word {w : Text} {q : Qualifiers} (hw : isIdentifier w = true)
    (hlayout : isLayoutWord (wordToken w) = false)
    (hq : qualifyWord? Qualifiers.none (wordToken w) = some q) : ReadsHead w [word w] q := by
  have hcut := isCut_word hw
  refine ⟨by simp [word], ?_, ?_, ?_, [wordToken w], ?_,
    Qualifies.Words.cons hlayout hq (Qualifies.Words.nil q)⟩
  · exact fun r f => ⟨false, cuts_of_isCut hcut (isPlain_word w) (word_ne_strayHash w) rfl f r⟩
  · intro u hu
    rw [List.mem_singleton.mp hu]
    exact isHead_of_qualifyWord? (t := wordToken w) hcut hq
  · intro u hu
    cases hu
    rcases kind_word w with hkind | hkind | hkind <;> rw [hkind] <;> decide
  · rw [solid_eq_self (by simpa using isPlain_word w)]
    rfl

theorem readsHead_append {text w : Text} {ms : List Piece} {q q' : Qualifiers}
    (h : ReadsHead text ms q) (hne : ms ≠ []) (hw : isIdentifier w = true)
    (hlayout : isLayoutWord (wordToken w) = false)
    (hq : qualifyWord? q (wordToken w) = some q') :
    ReadsHead (text ++ (" " ++ w)) (ms ++ ([space] ++ [word w])) q' := by
  have hcut := isCut_word hw
  rcases h.reads with ⟨words, hsolid, hwords⟩
  refine ⟨?_, ?_, ?_, ?_, words ++ [wordToken w], ?_,
    hwords.append (Qualifies.Words.cons hlayout hq (Qualifies.Words.nil q'))⟩
  · rw [spell_append, h.spell_eq]
    simp [space, word]
    rfl
  · intro r
    refine CutsAnywhere.append (h.cuts _) (CutsAnywhere.append ?_ ?_)
    · rcases head?_of_isIdentifier hw with ⟨c, hc, hsep⟩
      rcases List.head?_eq_some_iff.mp hc with ⟨rest, rfl⟩
      exact cutsAnywhere_space hsep
    · exact fun f => ⟨false, cuts_of_isCut hcut (isPlain_word w) (word_ne_strayHash w) rfl f r⟩
  · intro u hu
    simp only [List.mem_append, List.mem_singleton] at hu
    rcases hu with hu | rfl | rfl
    · exact h.isHead u hu
    · exact IsHead.space _
    · exact isHead_of_qualifyWord? (t := wordToken w) hcut hq
  · intro u hu
    apply h.first u
    rw [List.head?_append_of_ne_nil _ hne] at hu
    exact hu
  · have hword : solid [word w] = [word w] := solid_eq_self (by simpa using isPlain_word w)
    rw [solid_append, solid_append, hsolid, List.map_append, hword]
    rfl

theorem readsVariable_word {name : Text} (h : isIdentifier name = true) :
    ReadsVariable name [word name] ⟨name, none, 0, 0, 0⟩ := by
  have hcut := isCut_word h
  refine ⟨by simp [word], ?_, ?_, head?_of_isIdentifier h, [wordToken name], ?_, ?_⟩
  · exact fun f r => cuts_of_isCut hcut (isPlain_word name) (word_ne_strayHash name) rfl f r
  · intro u hu
    rw [List.mem_singleton.mp hu]
    exact isBoundary_word name
  · rw [solid_eq_self (by simpa using isPlain_word name)]
    rfl
  · have hspells : SpellsVariable [wordToken name] ⟨name, none, (wordToken name).line,
        (wordToken name).offset, (wordToken name).stop⟩ :=
      ⟨wordToken name, [], 0, rfl, isWord_wordToken name, rfl, rfl, rfl⟩
    intro names hnames
    rcases hspells.spellsNames names hnames with ⟨vs, hvs, hsame⟩
    exact ⟨vs, hvs, hsame⟩

def qualifiersText (storage : Storage) (precision : Text) : Text :=
  Text.ofString storage.keyword ++ (if precision.isEmpty then [] else (" " : Text) ++ precision)

theorem qualifyWord?_precision {w : Text} (h : Word.isPrecision w = true) (q : Qualifiers) :
    qualifyWord? q (wordToken w) = some { q with precision := w } := by
  have hother : Storage.ofKeyword? w = none ∧ otherQualifiers.contains w = false := by
    simp only [Word.isPrecision, Bool.or_eq_true, beq_iff_eq] at h
    rcases h with (rfl | rfl) | rfl <;> exact ⟨by decide, by decide⟩
  unfold qualifyWord?
  rw [show (wordToken w).text = w from rfl, hother.1, hother.2, h]
  simp

theorem isLayoutWord_wordToken {w : Text} (h : w ≠ "layout") :
    isLayoutWord (wordToken w) = false := by
  have htext : (w == ("layout" : Text)) = false := beq_eq_false_iff_ne.mpr h
  unfold isLayoutWord
  rw [show (wordToken w).text = w from rfl, htext, Bool.and_false]

theorem readsHead_storage (storage : Storage) :
    ReadsHead (Text.ofString storage.keyword) [word (Text.ofString storage.keyword)]
      ⟨some storage, none, [], []⟩ := by
  have hall : forall s, s ∈ Storage.all -> isIdentifier (Text.ofString s.keyword) = true ∧
      classify (Text.ofString s.keyword) = .keyword ∧
      Storage.ofKeyword? (Text.ofString s.keyword) = some s ∧
      Text.ofString s.keyword ≠ "layout" := by
    decide +kernel
  rcases hall storage (by cases storage <;> decide) with ⟨hword, hkind, hread, hlayout⟩
  refine readsHead_word hword (isLayoutWord_wordToken hlayout) ?_
  unfold qualifyWord?
  rw [show (wordToken (Text.ofString storage.keyword)).kind = .keyword from hkind,
    show (wordToken (Text.ofString storage.keyword)).text = Text.ofString storage.keyword from rfl,
    hread]
  rfl

theorem exists_readsHead_storage (storage : Storage) {precision : Text}
    (hprecision : precision = [] ∨ Word.isPrecision precision = true) :
    exists ms, ReadsHead (qualifiersText storage precision) ms
      ⟨some storage, none, [], precision⟩ := by
  have hfirst := readsHead_storage storage
  rcases hprecision with rfl | hprecision
  · have htext : qualifiersText storage [] = Text.ofString storage.keyword := List.append_nil _
    rw [htext]
    exact ⟨_, hfirst⟩
  · have hmore : isIdentifier precision = true ∧ precision ≠ "layout" ∧
        precision.isEmpty = false := by
      simp only [Word.isPrecision, Bool.or_eq_true, beq_iff_eq] at hprecision
      rcases hprecision with (rfl | rfl) | rfl <;> exact ⟨by decide, by decide, rfl⟩
    rcases hmore with ⟨hword, hlayout, hempty⟩
    have htext : qualifiersText storage precision =
        Text.ofString storage.keyword ++ (" " ++ precision) := by
      rw [qualifiersText, hempty]
      rfl
    rw [htext]
    exact ⟨_, readsHead_append hfirst (List.cons_ne_nil _ _) hword
      (isLayoutWord_wordToken hlayout) (qualifyWord?_precision hprecision _)⟩

def declaration (storage : Storage) (key : Text) (n : Nat) (precision type name : Text) :
    Declaration where
  storage := storage
  layout := some ⟨[⟨key, Text.ofNat n⟩], 0, 0⟩
  qualifiers := []
  precision := precision
  type := type
  typeOffset := 0
  body := .variables [⟨name, none, 0, 0, 0⟩]
  start := 0
  stop := 0
  line := 0

theorem isQualifier_wordToken {w : Text} (hlayout : w ≠ "layout") (hw : w ∉ qualifierWords) :
    isQualifier (wordToken w) = false := by
  unfold isQualifier
  rw [isLayoutWord_wordToken hlayout, Bool.false_or, Option.isSome_eq_false_iff,
    Option.isNone_iff_eq_none]
  cases hq : qualifyWord? Qualifiers.none (wordToken w) with
  | none => rfl
  | some q => exact absurd (mem_qualifierWords hq) hw

theorem Yields.congr {text : Text} {ds ds' : List Declaration} (h : Yields text ds)
    (hds : ds.map unplaced = ds'.map unplaced) : Yields text ds' := by
  rcases h with ⟨us, hspell, hstart, hcuts, hdeclares⟩
  refine ⟨us, hspell, hstart, hcuts, ?_⟩
  intro ws es hws ts hts
  rcases hdeclares ws es hws ts hts with ⟨es', hunits, hsame⟩
  refine ⟨es', hunits, ?_⟩
  rw [hsame, List.map_append, List.map_append, hds]

section Declarations

variable {key : Text} {n : Nat} {precision type name : Text}

theorem yields_declaration (storage : Storage) (hitem : LayoutItem.Readable ⟨key, Text.ofNat n⟩)
    (hprecision : precision = [] ∨ Word.isPrecision precision = true)
    (htype : isIdentifier type = true) (hplain : type ≠ "layout" ∧ type ∉ qualifierWords)
    (hname : isIdentifier name = true) :
    Yields (Layout.render ⟨[⟨key, Text.ofNat n⟩], 0, 0⟩ ++ (" " ++
        ((qualifiersText storage precision ++ (" " ++ (type ++ (" " ++ name)))) ++
          [Byte.semicolon])))
      [declaration storage key n precision type name] := by
  rcases exists_readsHead_storage storage hprecision with ⟨ms, hhead⟩
  have hcut : IsCut (wordToken type).piece := isCut_word htype
  have hpart := readsPart hhead (by simp) (isWord_wordToken type) hcut (readsVariable_word hname)
  rcases hhead.reads with ⟨words, _, hwords⟩
  have hsome : (words ++ wordToken type :: [wordToken name]).head?.isSome = true := by
    cases words <;> rfl
  rcases Option.isSome_iff_exists.mp hsome with ⟨first, hfirst⟩
  have hvars : declarators? [wordToken name] = some [⟨name, none, (wordToken name).line,
      (wordToken name).offset, (wordToken name).stop⟩] := by
    unfold declarators?
    rw [SpellsVariable.parse (v := ⟨name, none, (wordToken name).line, (wordToken name).offset,
      (wordToken name).stop⟩) ⟨wordToken name, [], 0, rfl, isWord_wordToken name, rfl, rfl, rfl⟩]
    rfl
  let parts : Parts (words ++ wordToken type :: [wordToken name]) (wordToken [])
      ⟨storage, none, [], precision, type, (wordToken type).offset, .variables [⟨name, none,
        (wordToken name).line, (wordToken name).offset, (wordToken name).stop⟩], first.offset,
        (wordToken []).stop, first.line⟩ :=
    { quals := words
      q := ⟨some storage, none, [], precision⟩
      type := wordToken type
      names := [wordToken name]
      vars := [⟨name, none, (wordToken name).line, (wordToken name).offset, (wordToken name).stop⟩]
      first := first
      split := rfl
      head := hfirst
      qualifies := hwords.qualifies
      notQualifier := isQualifier_wordToken hplain.1 hplain.2
      isWord := isWord_wordToken type
      storage := rfl
      declares := hvars
      eq := rfl }
  have hitems : forall i, i ∈ [LayoutItem.mk key (Text.ofNat n)] -> LayoutItem.Readable i := by
    simpa using hitem
  rcases exists_cuts_render hitems false _ with ⟨us, hus, hcuts, hinner, hreads⟩
  rcases exists_head_of_isLower hcuts (by rw [hus]; exact head?_render _) rfl with
    ⟨w, hw, hwplain, hwhash⟩
  have hyields := yields_layout_part parts (r := []) hpart hcuts hinner hreads hw hwplain hwhash
  rw [hus] at hyields
  exact Yields.congr hyields rfl

end Declarations

theorem render_number (key : Text) (n : Nat) :
    Layout.render ⟨[⟨key, Text.ofNat n⟩], 0, 0⟩ =
      "layout(" ++ (key ++ (" = " ++ (Text.ofNat n ++ ")"))) := by
  have hvalue : (Text.ofNat n).isEmpty = false := by
    rw [Text.ofNat]
    split
    · rfl
    · simp
  simp [Layout.render, Text.joinWith, LayoutItem.render, hvalue]

theorem yields_generated {a : Attachment} (ha : a.IsDeclared) (storage : Storage) {key : Text}
    {n : Nat} (hitem : LayoutItem.Readable ⟨key, Text.ofNat n⟩) {type name : Text}
    (htype : isIdentifier type = true) (hplain : type ≠ "layout" ∧ type ∉ qualifierWords)
    (hname : isIdentifier name = true) :
    Yields ("layout(" ++ key ++ " = " ++ Text.ofNat n ++ ") " ++
        Text.ofString storage.keyword ++ " " ++ a.qualified type ++ " " ++ name ++ ";")
      [declaration storage key n a.precision type name] := by
  have hyields := yields_declaration storage hitem ha.precision htype hplain hname
  have htext : Layout.render ⟨[⟨key, Text.ofNat n⟩], 0, 0⟩ ++ (" " ++
      ((qualifiersText storage a.precision ++ (" " ++ (type ++ (" " ++ name)))) ++
        [Byte.semicolon])) =
      "layout(" ++ key ++ " = " ++ Text.ofNat n ++ ") " ++ Text.ofString storage.keyword ++ " " ++
        a.qualified type ++ " " ++ name ++ ";" := by
    have hend : Text.ofString ") " = Text.ofString ")" ++ Text.ofString " " := rfl
    rw [render_number, hend]
    unfold qualifiersText Attachment.qualified
    cases hempty : a.precision.isEmpty <;> simp <;> rfl
  rw [htext] at hyields
  exact hyields

theorem isIdentifier_inputName {a : Attachment} (ha : a.IsDeclared) :
    isIdentifier a.inputName = true := by
  unfold Attachment.inputName
  split
  · cases hname : a.name with
    | nil =>
        have hidentifier := ha.name
        rw [hname] at hidentifier
        cases hidentifier
    | cons b s =>
        have hidentifier := ha.name
        rw [hname, isIdentifier, Bool.and_eq_true] at hidentifier
        rw [List.cons_append, isIdentifier, hidentifier.1, List.all_append, hidentifier.2]
        rfl
  · exact ha.name

namespace Attachment

def inputDeclaration (a : Attachment) : Declaration :=
  declaration .uniform "input_attachment_index" (a.input.getD 0) a.precision (inputType a.scalar)
    a.inputName

def outputDeclaration (a : Attachment) (storage : Storage) : Declaration :=
  declaration storage "location" (a.location.getD 0) a.precision (vectorType a.scalar) a.name

end Attachment

theorem yields_inputLine {a : Attachment} (ha : a.IsDeclared) :
    Yields ("layout(input_attachment_index = " ++ Text.ofNat (a.input.getD 0) ++ ") uniform " ++
        a.qualified (inputType a.scalar) ++ " " ++ a.inputName ++ ";") [a.inputDeclaration] := by
  have htype : isIdentifier (inputType a.scalar) = true ∧ inputType a.scalar ≠ "layout" ∧
      inputType a.scalar ∉ qualifierWords := by
    cases a.scalar <;> decide
  have hitem : LayoutItem.Readable ⟨"input_attachment_index", Text.ofNat (a.input.getD 0)⟩ :=
    readable_ofInt ((isCut_word (by decide)).isToken (isPlain_word _)) (by decide)
      (a.input.getD 0 : Nat)
  have hyields := yields_generated ha .uniform hitem htype.1 htype.2 (isIdentifier_inputName ha)
  have hstart : Text.ofString "layout(input_attachment_index = " =
      Text.ofString "layout(" ++ Text.ofString "input_attachment_index" ++ Text.ofString " = " :=
        rfl
  have hend : Text.ofString ") uniform " =
      Text.ofString ") " ++ Text.ofString "uniform" ++ Text.ofString " " := rfl
  rw [hstart, hend]
  simpa [Storage.keyword, Attachment.inputDeclaration] using hyields

theorem yields_outputLine {a : Attachment} (ha : a.IsDeclared) (storage : Storage) :
    Yields (a.outputLine (Text.ofString storage.keyword)) [a.outputDeclaration storage] := by
  have htype : isIdentifier (vectorType a.scalar) = true ∧ vectorType a.scalar ≠ "layout" ∧
      vectorType a.scalar ∉ qualifierWords := by
    cases a.scalar <;> decide
  have hitem : LayoutItem.Readable ⟨"location", Text.ofNat (a.location.getD 0)⟩ :=
    readable_number (Or.inl rfl) (a.location.getD 0 : Nat)
  have hyields := yields_generated ha storage hitem htype.1 htype.2 ha.name
  have hstart : Text.ofString "layout(location = " =
      Text.ofString "layout(" ++ Text.ofString "location" ++ Text.ofString " = " := rfl
  unfold Attachment.outputLine Attachment.locationText
  rw [hstart]
  simpa [Attachment.outputDeclaration] using hyields

/-!
# Macro definitions
-/

def isMacroByte (b : UInt8) : Bool :=
  Byte.isWord b || b == Byte.openParen || b == Byte.closeParen || b == Byte.openBracket ||
    b == Byte.closeBracket || b == Byte.dot

def IsMacroText (v : Text) : Prop :=
  v ≠ [] ∧ forall b, b ∈ v -> isMacroByte b = true

theorem IsMacroText.append {v w : Text} (hv : IsMacroText v) (hw : IsMacroText w) :
    IsMacroText (v ++ w) := by
  refine ⟨fun hnil => hv.1 (List.append_eq_nil_iff.mp hnil).1, ?_⟩
  intro b hb
  rcases List.mem_append.mp hb with hb | hb
  · exact hv.2 b hb
  · exact hw.2 b hb

theorem isMacroText_of_all {v : Text} (h : (!v.isEmpty && v.all isMacroByte) = true) :
    IsMacroText v := by
  rw [Bool.and_eq_true, List.all_eq_true] at h
  refine ⟨?_, h.2⟩
  rintro rfl
  cases h.1

theorem isMacroText_of_words {v : Text} (hne : v ≠ [])
    (hv : forall b, b ∈ v -> Byte.isWord b = true) : IsMacroText v := by
  refine ⟨hne, fun b hb => ?_⟩
  unfold isMacroByte
  rw [hv b hb]
  rfl

theorem isMacroText_of_isIdentifier {v : Text} (h : isIdentifier v = true) : IsMacroText v :=
  isMacroText_of_words (isWord_of_isIdentifier h).1 (isWord_of_isIdentifier h).2

theorem isMacroText_ofNat (n : Nat) : IsMacroText (Text.ofNat n) := by
  refine isMacroText_of_words ?_ ?_
  · rw [Text.ofNat]
    split
    · exact List.cons_ne_nil _ _
    · simp
  · intro b hb
    unfold Byte.isWord
    rw [Text.isDigit_of_mem_ofNat hb, Bool.or_true]

theorem IsMacroText.bytes {v : Text} (h : IsMacroText v) {b : UInt8} (hb : b ∈ v) :
    b ≠ Byte.newline ∧ b ≠ Byte.slash ∧ b ≠ Byte.backslash ∧ Text.mayEndBlank b = false := by
  have hbyte := h.2 b hb
  simp only [isMacroByte, Bool.or_eq_true, beq_iff_eq, or_assoc] at hbyte
  rcases hbyte with hword | rfl | rfl | rfl | rfl | rfl
  · exact Directive.of_isWord (P := fun b => b ≠ Byte.newline ∧ b ≠ Byte.slash ∧
      b ≠ Byte.backslash ∧ Text.mayEndBlank b = false) hword (by decide)
  all_goals decide

theorem spellsDirective_define {x v : Text} (hx : IsMacroText x) (hv : IsMacroText v) :
    SpellsDirective ("#define " ++ (x ++ (" " ++ v))) ⟨"define", x ++ (" " ++ v)⟩ := by
  have hspace : (" " : Text) = [Byte.space] := rfl
  refine spellsDirective_named (w := "define") (t := x ++ (" " ++ v)) (by decide)
    (isWord_of_isIdentifier (by decide)).2 (by simp [hx.1]) ?_ ?_ ?_
  · intro b hb
    simp only [hspace, List.mem_append, List.mem_singleton] at hb
    rcases hb with hb | rfl | hb
    · exact ⟨(hx.bytes hb).1, (hx.bytes hb).2.1⟩
    · decide
    · exact ⟨(hv.bytes hb).1, (hv.bytes hb).2.1⟩
  · intro c hc
    rw [List.head?_append_of_ne_nil _ hx.1] at hc
    exact (hx.bytes (List.mem_of_head? hc)).2.2.2
  · intro c hc
    rw [← List.append_assoc, List.getLast?_append_of_ne_nil _ hv.1] at hc
    have hbyte := hv.bytes (List.mem_of_getLast? hc)
    exact ⟨hbyte.2.2.2, hbyte.2.2.1⟩

end Subpass

end EffectShader
