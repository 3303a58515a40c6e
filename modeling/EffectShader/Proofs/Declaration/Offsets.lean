import EffectShader.Proofs.Declaration.Members
import EffectShader.Proofs.Declaration.Replacements
import EffectShader.Proofs.Token.Positions

/-!
# Offsets of declarations

A declaration says where its parts stand in the source.  Each offset is that of a token,
and the tokens are read in the order of the source, so the parts stand where the
declaration says and follow each other as they are read.
-/

namespace EffectShader

/-!
# Tokens in order
-/

/-- Each token ends before the later ones start. -/
def InOrder (ts : List Token) : Prop :=
  ts.Pairwise fun t u => t.stop ≤ u.offset

theorem Token.offset_le_stop (t : Token) : t.offset ≤ t.stop :=
  Nat.le_add_right _ _

theorem inOrder_of_placed {o : Nat} {ts : List Token} (h : Placed o ts) : InOrder ts := by
  induction ts generalizing o with
  | nil => exact List.Pairwise.nil
  | cons t ts ih => exact List.Pairwise.cons (fun u hu => (h.2.within hu).1) (ih h.2)

namespace InOrder

variable {ts us : List Token} {t u : Token}

theorem stop_le (h : InOrder (ts ++ us)) (ht : t ∈ ts) (hu : u ∈ us) : t.stop ≤ u.offset :=
  (List.pairwise_append.mp h).2.2 t ht u hu

theorem offset_le_of_head? (h : InOrder ts) (ht : ts.head? = some t) (hu : u ∈ ts) :
    t.offset ≤ u.offset := by
  cases ts with
  | nil => cases ht
  | cons s ts =>
      cases ht
      rcases List.mem_cons.mp hu with rfl | hu
      · exact Nat.le_refl _
      · exact Nat.le_trans t.offset_le_stop ((List.pairwise_cons.mp h).1 u hu)

theorem stop_le_of_getLast? (h : InOrder ts) (hu : ts.getLast? = some u) (ht : t ∈ ts) :
    t.stop ≤ u.stop := by
  rcases List.getLast?_eq_some_iff.mp hu with ⟨front, rfl⟩
  rcases List.mem_append.mp ht with ht | ht
  · exact Nat.le_trans (h.stop_le ht (List.mem_singleton_self u)) u.offset_le_stop
  · rw [List.mem_singleton.mp ht]

end InOrder

namespace Lexer

theorem slice_of_mem {code : Text} {ts : List Token} (h : tokenize code = .ok ts) {t : Token}
    (ht : t ∈ ts) : Text.slice code t.offset t.stop = t.text := by
  rcases List.append_of_mem ht with ⟨x, y, rfl⟩
  have htext : code.drop 0 = textOf x ++ (t.text ++ textOf y) := by
    rw [List.drop_zero, ← Declaration.textOf_of_tokenize h, textOf_append, textOf_cons]
  rcases (Declaration.placed_of_tokenize h).offset with ⟨hoffset, hstop⟩
  rw [hoffset, hstop]
  exact Text.slice_of_drop htext

theorem text_ne_nil_of_isWord {code : Text} {ts : List Token} (h : tokenize code = .ok ts)
    {t : Token} (ht : t ∈ ts) (hword : t.isWord = true) : t.text ≠ [] := by
  rcases tokenize_eq_ok_iff.mp h with ⟨ws, hws, rfl⟩
  rcases ended_place hws Position.start with ⟨init, q, hplace, _, hinit⟩
  rw [hplace] at ht
  rcases List.mem_append.mp ht with ht | ht
  · exact (hinit t ht).2
  · rw [List.mem_singleton.mp ht] at hword
    cases hword

end Lexer

namespace Declaration

open Lexer

/-!
# Variables in order
-/

def allVars (d : Declaration) : List Variable :=
  d.vars ++ d.members.flatMap BlockMember.vars

def DeclaredIn (ts : List Token) (vs : List Variable) : Prop :=
  exists runs : List (List Token), runs.flatten.Sublist ts ∧ List.Forall₂ SpellsVariable runs vs

namespace DeclaredIn

variable {ts us : List Token} {vs ws : List Variable}

theorem nil (ts : List Token) : DeclaredIn ts [] :=
  ⟨[], List.nil_sublist ts, List.Forall₂.nil⟩

theorem mono (h : DeclaredIn ts vs) (hus : ts.Sublist us) : DeclaredIn us vs := by
  rcases h with ⟨runs, hsub, hruns⟩
  exact ⟨runs, hsub.trans hus, hruns⟩

theorem append (hts : DeclaredIn ts vs) (hus : DeclaredIn us ws) :
    DeclaredIn (ts ++ us) (vs ++ ws) := by
  rcases hts with ⟨runs, hsub, hruns⟩
  rcases hus with ⟨runs', hsub', hruns'⟩
  refine ⟨runs ++ runs', ?_, List.rel_append hruns hruns'⟩
  rw [List.flatten_append]
  exact hsub.append hsub'

theorem exists_name (h : DeclaredIn ts vs) {v : Variable} (hv : v ∈ vs) :
    exists t, t ∈ ts ∧ t.isWord = true ∧ v.name = t.text ∧ v.start = t.offset := by
  rcases h with ⟨runs, hsub, hruns⟩
  induction hruns with
  | nil => cases hv
  | @cons run v' runs vs hrun _ ih =>
      rw [List.flatten_cons] at hsub
      rcases List.mem_cons.mp hv with rfl | hv
      · rcases hrun.ends with ⟨name, _, hhead, _, ⟨hword, hname⟩, hstart, _⟩
        have hmem := List.mem_append_left runs.flatten (List.mem_of_mem_head? hhead)
        exact ⟨name, hsub.subset hmem, hword, hname, hstart⟩
      · exact ih hv ((List.sublist_append_right _ _).trans hsub)

end DeclaredIn

structure Follow (first last : Nat) (vs : List Variable) : Prop where
  inside : forall v, v ∈ vs -> first ≤ v.start ∧ v.start < v.stop ∧ v.stop ≤ last
  apart : vs.Pairwise fun v w => v.stop ≤ w.start

theorem DeclaredIn.follow {ts : List Token} {vs : List Variable} (h : DeclaredIn ts vs)
    (horder : InOrder ts) (hwords : forall t, t ∈ ts -> t.isWord = true -> t.text ≠ [])
    {first last : Nat} (hfirst : forall t, t ∈ ts -> first ≤ t.offset)
    (hlast : forall t, t ∈ ts -> t.stop ≤ last) : Follow first last vs := by
  rcases h with ⟨runs, hsub, hruns⟩
  have horder := List.Pairwise.sublist hsub horder
  have hmem {t : Token} (ht : t ∈ runs.flatten) : t ∈ ts := hsub.subset ht
  clear hsub
  induction hruns with
  | nil => exact ⟨by simp, List.Pairwise.nil⟩
  | @cons run v runs vs hrun hruns ih =>
      rw [List.flatten_cons] at horder
      simp only [List.flatten_cons, List.mem_append] at hmem
      rcases List.pairwise_append.mp horder with ⟨hrunOrder, hrestOrder, hbetween⟩
      have hrest := ih hrestOrder fun ht => hmem (Or.inr ht)
      rcases hrun.ends with ⟨a, b, ha, hb, ⟨hword, _⟩, hstart, hstop⟩
      have hamem := List.mem_of_mem_head? ha
      have hbmem := List.mem_of_getLast? hb
      have hpositive : a.offset < a.stop :=
        Nat.lt_add_of_pos_right (List.length_pos_iff.mpr (hwords a (hmem (Or.inl hamem)) hword))
      have hspan : a.offset < b.stop :=
        Nat.lt_of_lt_of_le hpositive (InOrder.stop_le_of_getLast? hrunOrder hb hamem)
      refine ⟨List.forall_mem_cons.mpr ⟨?_, hrest.inside⟩, List.Pairwise.cons ?_ hrest.apart⟩
      · rw [hstart, hstop]
        exact ⟨hfirst a (hmem (Or.inl hamem)), hspan, hlast b (hmem (Or.inl hbmem))⟩
      · intro w hw
        have hnames : DeclaredIn runs.flatten vs := ⟨runs, List.Sublist.refl _, hruns⟩
        rcases hnames.exists_name hw with ⟨t, ht, _, _, htstart⟩
        rw [hstop, htstart]
        exact hbetween b hbmem t ht

/-!
# Variables of statements and members
-/

theorem SpellsVariables.declaredIn {ts : List Token} {vs : List Variable}
    (h : SpellsVariables ts vs) : DeclaredIn ts vs := by
  induction h with
  | nil => exact DeclaredIn.nil []
  | @single ts v hv => exact ⟨[ts], by simp, List.Forall₂.cons hv List.Forall₂.nil⟩
  | @cons ts us comma v vs hv _ _ ih =>
      have hone : DeclaredIn ts [v] := ⟨[ts], by simp, List.Forall₂.cons hv List.Forall₂.nil⟩
      exact hone.append (ih.mono (List.sublist_cons_self comma us))

theorem declaredIn_of_declarators? {ts : List Token} {vs : List Variable}
    (h : declarators? ts = some vs) : DeclaredIn ts vs :=
  (spellsVariables_of_declarators? h).declaredIn

theorem declaredIn_of_parseMember {block : Text} {ts : List Token} {m : BlockMember}
    (h : parseMember block ts = .ok m) : DeclaredIn ts m.vars := by
  by_cases hm : m.vars = []
  · rw [hm]
    exact DeclaredIn.nil ts
  · rcases parts_of_parseMember h hm with ⟨parts⟩
    have hsub : parts.names.Sublist (parts.quals ++ parts.type :: parts.names) :=
      (List.sublist_cons_self _ _).trans (List.sublist_append_right _ _)
    rw [← parts.split] at hsub
    exact (declaredIn_of_declarators? parts.declares).mono hsub

def MembersIn (ts : List Token) (ms : List BlockMember) : Prop :=
  exists runs : List (List Token), runs.flatten.Sublist ts ∧
    List.Forall₂ (fun run m => exists block, parseMember block run = .ok m) runs ms

namespace MembersIn

variable {ts us : List Token} {ms : List BlockMember}

theorem mono (h : MembersIn ts ms) (hus : ts.Sublist us) : MembersIn us ms := by
  rcases h with ⟨runs, hsub, hruns⟩
  exact ⟨runs, hsub.trans hus, hruns⟩

theorem cons {block : Text} {member : List Token} {m : BlockMember}
    (hm : parseMember block member = .ok m) (h : MembersIn ts ms) :
    MembersIn (member ++ ts) (m :: ms) := by
  rcases h with ⟨runs, hsub, hruns⟩
  exact ⟨member :: runs, (List.Sublist.refl member).append hsub,
    List.Forall₂.cons ⟨block, hm⟩ hruns⟩

theorem declaredIn (h : MembersIn ts ms) : DeclaredIn ts (ms.flatMap BlockMember.vars) := by
  rcases h with ⟨runs, hsub, hruns⟩
  refine DeclaredIn.mono ?_ hsub
  clear hsub
  induction hruns with
  | nil => exact DeclaredIn.nil _
  | @cons run m runs ms hrun _ ih =>
      rcases hrun with ⟨block, hm⟩
      exact (declaredIn_of_parseMember hm).append ih

end MembersIn

/-- The members are read one after the other from what is used up; `member` has been read of the
first one. -/
theorem membersIn_of_parseMembers {block : Text} {line : Nat} {member ts rest : List Token}
    {ms : List BlockMember} {closing : Token}
    (h : parseMembers block line member ts = .ok (ms, closing, rest)) :
    exists used, ts = used ++ rest ∧ MembersIn (member ++ used) ms := by
  induction ts generalizing member ms with
  | nil => cases h
  | cons t ts ih =>
      have hskip {x us : List Token} : (x ++ us).Sublist (x ++ t :: us) :=
        (List.Sublist.refl x).append (List.sublist_cons_self t us)
      rw [parseMembers] at h
      split at h
      · rcases ih h with ⟨used, rfl, hused⟩
        exact ⟨t :: used, rfl, hused.mono hskip⟩
      · split at h
        · cases h
        · split at h
          · cases h
          · split at h
            · cases h
            · split at h
              · cases hfirst : parseMember block member with
                | error e =>
                    rw [hfirst] at h
                    cases h
                | ok m =>
                    rw [hfirst] at h
                    dsimp only at h
                    split at h
                    · cases h
                    · rename_i hrest
                      cases h
                      rcases ih hrest with ⟨used, rfl, hused⟩
                      exact ⟨t :: used, rfl, (MembersIn.cons hfirst hused).mono hskip⟩
              · split at h
                · split at h
                  · cases h
                    exact ⟨[closing], rfl, [], List.nil_sublist _, List.Forall₂.nil⟩
                  · cases h
                · rcases ih h with ⟨used, rfl, hused⟩
                  refine ⟨t :: used, rfl, ?_⟩
                  rwa [List.append_assoc] at hused

theorem BlockParts.membersIn {st ts after : List Token} {d : Declaration}
    (parts : BlockParts st ts d after) :
    MembersIn parts.body d.members ∧ d.type = parts.name.text := by
  have h := parts.reads
  cases st with
  | nil => cases h
  | cons first st =>
      rw [ofBlock?_cons] at h
      cases hparse : parseQualifiers Qualifiers.none (first :: st) with
      | error e =>
          rw [hparse] at h
          cases h
      | ok read =>
          rcases read with ⟨q, rest⟩
          rw [hparse] at h
          dsimp only at h
          rcases exists_of_parseQualifiers hparse with ⟨quals, hsplit, hquals, hrest⟩
          split at h
          · rename_i storage name hstorage
            split at h
            · split at h
              · cases h
              · rename_i members closing after₀ hmembers
                rcases hinstance : parseInstance after₀ with ⟨instanceName, after₁⟩
                rw [hinstance] at h
                dsimp only at h
                split at h
                · rename_i hsemi
                  cases h
                  rcases membersIn_of_parseMembers hmembers with ⟨used, hused, hdeclared⟩
                  rcases exists_of_parseInstance hinstance hsemi with ⟨used₂, rfl, _⟩
                  -- the body is what the members and the instance name use up
                  have hbody : parts.body = used ++ used₂ := by
                    have hshape : (parts.body ++ [parts.semi]) ++ Stream.tailSignificant after₁ =
                        ((used ++ used₂) ++ [Stream.peekSignificant after₁]) ++
                          Stream.tailSignificant after₁ := by
                      simpa using parts.tokens.symm.trans hused
                    exact List.append_inj_left' (List.append_cancel_right hshape) rfl
                  have hname : [name] = [parts.name] :=
                    List.append_inj_right' (hsplit.symm.trans parts.split) rfl
                  refine ⟨?_, congrArg Token.text (List.singleton_inj.mp hname)⟩
                  rw [hbody]
                  exact hdeclared.mono (List.sublist_append_left used used₂)
                · cases h
            · cases h
          · cases h

theorem BlockParts.declaredIn {st ts after : List Token} {d : Declaration}
    (parts : BlockParts st ts d after) : DeclaredIn parts.body d.allVars := by
  have hvars : d.vars = [] := by
    have hblock := parts.isBlock
    unfold Declaration.isBlock at hblock
    unfold vars
    split at hblock
    · rename_i hbody
      rw [hbody]
    · cases hblock
  unfold allVars
  rw [hvars]
  exact parts.membersIn.1.declaredIn

theorem BlockParts.exists_situated_member {code s : Text} {o : Nat} {f g : Bool}
    {raw ts after : List Token} {brace : Token} {d : Declaration}
    (parts : BlockParts (solidTokens raw) ts d after)
    (h : Situated code o f g (raw ++ brace :: (parts.body ++ [parts.semi])) s) {m : BlockMember}
    {v : Variable} (hm : m ∈ d.members) (hv : v ∈ m.vars) :
    exists o' f' g' raw' semi s', Situated code o' f' g' (raw' ++ [semi]) s' ∧ IsOpen raw' ∧
      raw'.Sublist parts.body ∧ Nonempty (MemberParts (solidTokens raw') m) := by
  rcases parts.holdsMember m hm with ⟨block, x, raw', semi, y, hbody, hopen, _, hparse⟩
  have hshape : raw ++ brace :: (parts.body ++ [parts.semi]) =
      (raw ++ brace :: x) ++ ((raw' ++ [semi]) ++ (y ++ [parts.semi])) := by
    rw [hbody]
    simp
  rw [hshape] at h
  rcases h.split with ⟨_, _, hrest⟩
  rcases hrest.split with ⟨_, hmember, _⟩
  refine ⟨_, _, _, raw', semi, _, hmember, hopen, ?_,
    parts_of_parseMember hparse (List.ne_nil_of_mem hv)⟩
  rw [hbody]
  exact (List.sublist_append_left raw' _).trans (List.sublist_append_right x _)

/-!
# The tokens of a declaration
-/

/-- The tokens that a declaration takes its offsets from: the qualifiers, the type or the name of a
block, what holds the variables, and the semicolon. -/
structure Anchors (us : List Token) (d : Declaration) where
  quals : List Token
  q : Qualifiers
  type : Token
  tail : List Token
  semi : Token
  first : Token
  sublist : (quals ++ type :: (tail ++ [semi])).Sublist us
  qualifies : Qualifies Qualifiers.none quals q
  layout : d.layout = q.layout
  isWord : type.isWord = true
  type_eq : d.type = type.text
  typeOffset : d.typeOffset = type.offset
  head : (quals ++ [type]).head? = some first
  start : d.start = first.offset
  isSemi : semi.isOp ";" = true
  stop : d.stop = semi.stop
  declaredIn : DeclaredIn tail d.allVars

theorem sublist_of_solidTokens {raw st : List Token} (h : solidTokens raw = st) :
    st.Sublist raw := by
  rw [← h]
  exact List.filter_sublist

theorem head?_of_split {quals names : List Token} {type first : Token}
    (h : (quals ++ type :: names).head? = some first) : (quals ++ [type]).head? = some first := by
  cases quals <;> exact h

theorem Chunk.anchors {us : List Token} {d : Declaration} (h : Chunk us (some d)) :
    Nonempty (Anchors us d) := by
  cases h with
  | @statement raw semi _ hopen hsemi hstatement =>
      rcases parts_of_ofStatement? hstatement with ⟨parts⟩
      have hvars : d.allVars = parts.vars := by
        unfold allVars vars members
        rw [congrArg body parts.eq]
        exact List.append_nil _
      have hsub := (sublist_of_solidTokens parts.split).append (List.Sublist.refl [semi])
      have hhead := (congrArg List.head? parts.split).symm.trans parts.head
      rw [List.append_assoc, List.cons_append] at hsub
      refine ⟨⟨parts.quals, parts.q, parts.type, parts.names, semi, parts.first, hsub,
        parts.qualifies, congrArg Declaration.layout parts.eq, parts.isWord,
        congrArg Declaration.type parts.eq, congrArg Declaration.typeOffset parts.eq,
        head?_of_split hhead, congrArg Declaration.start parts.eq, hsemi,
        congrArg Declaration.stop parts.eq, ?_⟩⟩
      rw [hvars]
      exact declaredIn_of_declarators? parts.declares
  | @block raw ts after brace _ hopen hbrace parts =>
      have hsub := (sublist_of_solidTokens parts.split).append
        (List.sublist_cons_self brace (parts.body ++ [parts.semi]))
      have hhead := (congrArg List.head? parts.split).symm.trans parts.head
      rw [List.append_assoc, List.singleton_append] at hsub
      have hdeclared := parts.declaredIn
      have htype := parts.membersIn.2
      exact ⟨⟨parts.quals, parts.q, parts.name, parts.body, parts.semi, parts.first, hsub,
        parts.qualifies, parts.layout, parts.isWord, htype, parts.typeOffset, hhead, parts.start,
        parts.isSemi, parts.stop, hdeclared⟩⟩

/-!
# What stands at the offsets
-/

/-- The offsets of a declaration are those of its parts in the source. -/
structure Indexes (code : Text) (d : Declaration) : Prop where
  span : d.start < d.stop ∧ d.stop ≤ code.length
  semicolon : Text.slice code (d.stop - 1) d.stop = ";"
  layout : forall l, d.layout = some l -> d.start ≤ l.start ∧ l.stop ≤ d.typeOffset ∧
    exists inner, Text.slice code l.start l.stop = "layout" ++ (inner ++ ")")
  type : d.start ≤ d.typeOffset ∧
    Text.slice code d.typeOffset (d.typeOffset + d.type.length) = d.type
  names : forall v, v ∈ d.allVars ->
    Text.slice code v.start (v.start + v.name.length) = v.name
  follow : Follow (d.typeOffset + d.type.length) d.stop d.allVars

section Source

variable {code : Text} {ts us : List Token} {d : Declaration} (htokens : tokenize code = .ok ts)

include htokens

theorem slice_between {t u : Token} (ht : t ∈ ts) (hu : u ∈ ts) (h : t.stop ≤ u.offset) :
    Text.slice code t.offset u.stop =
      t.text ++ (Text.slice code t.stop u.offset ++ u.text) := by
  rw [← slice_of_mem htokens ht, ← slice_of_mem htokens hu,
    Text.slice_append_slice h u.offset_le_stop,
    Text.slice_append_slice t.offset_le_stop (Nat.le_trans h u.offset_le_stop)]

theorem layout_of_qualifies {quals : List Token} {q : Qualifiers} {l : Layout}
    (h : Qualifies Qualifiers.none quals q) (hl : q.layout = some l) (horder : InOrder quals)
    (hquals : forall t, t ∈ quals -> t ∈ ts) :
    exists word last inner, word ∈ quals ∧ last ∈ quals ∧ l.start = word.offset ∧
      l.stop = last.stop ∧ Text.slice code l.start l.stop = "layout" ++ (inner ++ ")") := by
  rcases h.split_layout with hwords | ⟨before, span, after, l', q₁, rfl, hspan, _, hafter⟩
  · rw [show q.layout = none from hwords.layout_eq] at hl
    cases hl
  · rw [show q.layout = some l' from hafter.layout_eq] at hl
    cases hl
    rcases hspan with ⟨word, paren, inner, rfl, hword, _, hstart, hitems⟩
    rcases exists_of_layoutItems? hitems with ⟨mid, last, rfl, hstop, hlast, _⟩
    have hwordmem : word ∈ before ++ (word :: paren :: (mid ++ last :: []) ++ after) := by simp
    have hlastmem : last ∈ before ++ (word :: paren :: (mid ++ last :: []) ++ after) := by simp
    have hspan := (List.pairwise_append.mp (List.pairwise_append.mp horder).2.1).1
    have hle := (List.pairwise_cons.mp hspan).1 last (by simp)
    refine ⟨word, last, Text.slice code word.stop last.offset, hwordmem, hlastmem, hstart, hstop,
      ?_⟩
    rw [hstart, hstop, slice_between htokens (hquals word hwordmem) (hquals last hlastmem) hle,
      show word.text = ("layout" : Text) from eq_of_beq (Bool.and_eq_true_iff.mp hword).2,
      show last.text = (")" : Text) from eq_of_beq (Bool.and_eq_true_iff.mp hlast).2]

theorem Anchors.indexes (a : Anchors us d) (hus : us.Sublist ts) : Indexes code d := by
  have hsub := a.sublist.trans hus
  have horder : InOrder (a.quals ++ a.type :: (a.tail ++ [a.semi])) :=
    List.Pairwise.sublist hsub (inOrder_of_placed (placed_of_tokenize htokens))
  have hmem {t : Token} (ht : t ∈ a.quals ++ a.type :: (a.tail ++ [a.semi])) : t ∈ ts :=
    hsub.subset ht
  have hsemi : a.semi ∈ ts := hmem (by simp)
  have hsemicolon : a.semi.text = (";" : Text) := eq_of_beq (Bool.and_eq_true_iff.mp a.isSemi).2
  have hone : a.semi.stop = a.semi.offset + 1 := congrArg (a.semi.offset + ·.length) hsemicolon
  have hhead : (a.quals ++ a.type :: (a.tail ++ [a.semi])).head? = some a.first := by
    rw [← a.head]
    cases a.quals <;> rfl
  have hfirst {t : Token} (ht : t ∈ a.quals ++ a.type :: (a.tail ++ [a.semi])) :
      d.start ≤ t.offset := by
    rw [a.start]
    exact horder.offset_le_of_head? hhead ht
  have htype : d.typeOffset + d.type.length = a.type.stop := by
    rw [a.typeOffset, a.type_eq]
    rfl
  rcases List.pairwise_append.mp horder with ⟨hqualsOrder, hrestOrder, hquals⟩
  rcases List.pairwise_cons.mp hrestOrder with ⟨hafterType, htailOrder⟩
  refine ⟨⟨?_, ?_⟩, ?_, ?_, ⟨?_, ?_⟩, ?_, ?_⟩
  · have hle := hfirst (t := a.semi) (by simp)
    rw [a.stop, hone]
    omega
  · have hwithin := ((placed_of_tokenize htokens).within hsemi).2
    rw [textOf_of_tokenize htokens, Nat.zero_add] at hwithin
    rw [a.stop]
    exact hwithin
  · rw [a.stop, hone, Nat.add_sub_cancel, ← hone, slice_of_mem htokens hsemi, hsemicolon]
  · intro l hl
    rw [a.layout] at hl
    rcases layout_of_qualifies htokens a.qualifies hl hqualsOrder
      (fun t ht => hmem (List.mem_append_left _ ht)) with
      ⟨word, last, inner, hword, hlast, hstart, hstop, hslice⟩
    rw [hstart, hstop, a.typeOffset]
    rw [hstart, hstop] at hslice
    exact ⟨hfirst (List.mem_append_left _ hword), hquals last hlast a.type List.mem_cons_self,
      inner, hslice⟩
  · rw [a.typeOffset]
    exact hfirst (by simp)
  · rw [htype, a.typeOffset, slice_of_mem htokens (hmem (by simp)), a.type_eq]
  · intro v hv
    rcases a.declaredIn.exists_name hv with ⟨t, ht, _, hname, hstart⟩
    rw [hstart, hname]
    exact slice_of_mem htokens (hmem (by simp [ht]))
  · rw [htype, a.stop]
    have htail {t : Token} (ht : t ∈ a.tail) : t ∈ a.tail ++ [a.semi] := List.mem_append_left _ ht
    apply a.declaredIn.follow (List.pairwise_append.mp htailOrder).1
    · exact fun t ht => text_ne_nil_of_isWord htokens (hmem (by simp [ht]))
    · exact fun t ht => hafterType t (htail ht)
    · exact fun t ht => InOrder.stop_le_of_getLast? htailOrder List.getLast?_concat (htail ht)

end Source

theorem Chunks.pairwise_spans {ts : List Token} {ds : List Declaration} (h : Chunks ts ds) {o : Nat}
    (hplaced : Placed o ts) : ds.Pairwise fun d e => d.stop ≤ e.start := by
  induction h generalizing o with
  | finish => exact List.Pairwise.nil
  | skip _ _ ih => exact ih hplaced.2
  | @chunk us ts d ds hchunk hchunks ih =>
      rcases placed_append.mp hplaced with ⟨hunit, hrest⟩
      cases d with
      | none => exact ih hrest
      | some d =>
          refine List.Pairwise.cons (fun e he => ?_) (ih hrest)
          rw [(hchunk.span hunit).2]
          exact hchunks.start_le hrest e he

/-- The declarations of a source follow each other, and each says where its semicolon, its layout,
its type and its variables stand. -/
theorem declarations_index {code : Text} {ds : List Declaration} (h : ofText? code = some ds) :
    (ds.Pairwise fun d e => d.stop ≤ e.start) ∧ forall d, d ∈ ds -> Indexes code d := by
  rcases ofText?_eq_some_iff.mp h with ⟨ts, htokens, hds⟩
  have hchunks := chunks_of_units (ofTokens_eq_ok_iff.mp hds)
  refine ⟨hchunks.pairwise_spans (placed_of_tokenize htokens), fun d hd => ?_⟩
  rcases hchunks.exists_chunk d hd with ⟨x, us, y, rfl, hchunk⟩
  rcases hchunk.anchors with ⟨a⟩
  refine a.indexes htokens ?_
  exact (List.sublist_append_left us y).trans (List.sublist_append_right x _)

def layoutAndBlock : Text :=
  "layout(binding = 0) uniform vec4 s, t;\nuniform B \x7b vec4 a[2]; \x7d;\n"

theorem offsets_layoutAndBlock :
    ((ofText? layoutAndBlock).map fun ds =>
      ds.map fun d => (d.start, d.typeOffset, d.stop, d.allVars.map Variable.start)) =
      some [(0, 28, 38, [33, 36]), (39, 47, 64, [56])] := by
  decide +kernel

theorem declarations_index_layoutAndBlock :
    exists ds, ofText? layoutAndBlock = some ds ∧ ds.map Declaration.start = [0, 39] ∧
      (ds.Pairwise fun d e => d.stop ≤ e.start) ∧
      forall d, d ∈ ds -> Indexes layoutAndBlock d := by
  rcases Option.map_eq_some_iff.mp offsets_layoutAndBlock with ⟨ds, hds, hoffsets⟩
  have hstarts := congrArg (List.map Prod.fst) hoffsets
  rw [List.map_map] at hstarts
  exact ⟨ds, hds, hstarts, declarations_index hds⟩

end Declaration

end EffectShader
