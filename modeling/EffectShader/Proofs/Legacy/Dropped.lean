import EffectShader.Proofs.Legacy.Interface

/-!
# Members that are dropped

A member of a uniform block whose name is a word only once is not declared in the
converted interface.  The one word is that of its own declaration, the declaration is
replaced, and nothing that is written in its place or in that of another declaration
has the name, so no token of the converted interface is this word.
-/

namespace EffectShader

namespace Declaration

open Lexer

/-!
# Words of a block
-/

def wordsOf (ts : List Token) : List Text :=
  (ts.filter Token.isWord).map Token.text

theorem wordsOf_append (ts us : List Token) : wordsOf (ts ++ us) = wordsOf ts ++ wordsOf us := by
  simp [wordsOf]

theorem wordsOf_sublist {ts us : List Token} (h : ts.Sublist us) :
    (wordsOf ts).Sublist (wordsOf us) :=
  (h.filter _).map _

theorem wordCount_eq (ts : List Token) (name : Text) :
    Legacy.wordCount ts name = (wordsOf ts).count name := by
  unfold Legacy.wordCount wordsOf List.count
  rw [List.countP_map, List.countP_filter]
  congr 1
  funext t
  simp [Bool.and_comm]

theorem DeclaredIn.names_sublist {ts : List Token} {vs : List Variable} (h : DeclaredIn ts vs) :
    (vs.map Variable.name).Sublist (wordsOf ts) := by
  rcases h with ⟨runs, hsub, hruns⟩
  refine List.Sublist.trans ?_ (wordsOf_sublist hsub)
  clear hsub
  induction hruns with
  | nil => exact List.nil_sublist _
  | @cons run v runs vs hrun _ ih =>
      rcases hrun.ends with ⟨name, _, hhead, _, ⟨hword, hname⟩, _⟩
      rcases List.head?_eq_some_iff.mp hhead with ⟨tail, rfl⟩
      rw [List.map_cons, List.flatten_cons, wordsOf_append, hname]
      have hone : [name.text].Sublist (wordsOf (name :: tail)) := by simp [wordsOf, hword]
      exact hone.append ih

theorem parseMember_words {block : Text} {ts : List Token} {m : BlockMember}
    (h : parseMember block ts = .ok m) (hm : m.vars ≠ []) :
    (m.type :: m.vars.map Variable.name).Sublist (wordsOf ts) := by
  rcases parts_of_parseMember h hm with ⟨parts⟩
  have hwords : wordsOf ts = wordsOf parts.quals ++ parts.type.text :: wordsOf parts.names := by
    conv => lhs; rw [parts.split]
    simp [wordsOf, parts.isWord]
  rw [hwords, parts.type_eq]
  exact ((declaredIn_of_declarators? parts.declares).names_sublist.cons_cons _).trans
    (List.sublist_append_right _ _)

theorem count_members_le {runs : List (List Token)} {ms : List BlockMember}
    (h : List.Forall₂ (fun run m => exists block, parseMember block run = .ok m) runs ms)
    (name : Text) :
    ((ms.filter fun m => !m.vars.isEmpty).map BlockMember.type).count name +
      ((ms.flatMap BlockMember.vars).map Variable.name).count name ≤
        (wordsOf runs.flatten).count name := by
  induction h with
  | nil => exact Nat.le_refl 0
  | @cons run m runs ms hrun _ ih =>
      rcases hrun with ⟨block, hm⟩
      rw [List.flatten_cons, wordsOf_append, List.count_append, List.flatMap_cons, List.map_append,
        List.count_append]
      by_cases hvars : m.vars = []
      · rw [List.filter_cons_of_neg (by simp [hvars]), hvars]
        simp only [List.map_nil, List.count_nil]
        omega
      · have hone := (parseMember_words hm hvars).count_le name
        rw [List.filter_cons_of_pos (by simp [hvars]), List.map_cons, List.count_cons]
        rw [List.count_cons] at hone
        omega

theorem MembersIn.two_le_count {ts : List Token} {ms : List BlockMember} (h : MembersIn ts ms)
    {m m' : BlockMember} {v : Variable} (hm : m ∈ ms) (hvars : m.vars ≠ []) (hm' : m' ∈ ms)
    (hv : v ∈ m'.vars) (hname : m.type = v.name) : 2 ≤ (wordsOf ts).count v.name := by
  rcases h with ⟨runs, hsub, hruns⟩
  refine Nat.le_trans ?_ ((wordsOf_sublist hsub).count_le v.name)
  have htypes : 0 < ((ms.filter fun m => !m.vars.isEmpty).map BlockMember.type).count v.name := by
    apply List.count_pos_iff.mpr
    rw [← hname]
    exact List.mem_map_of_mem (List.mem_filter.mpr ⟨hm, by simp [hvars]⟩)
  have hnames : 0 < ((ms.flatMap BlockMember.vars).map Variable.name).count v.name :=
    List.count_pos_iff.mpr (List.mem_map_of_mem (List.mem_flatMap.mpr ⟨m', hm', hv⟩))
  have htotal := count_members_le hruns v.name
  omega

theorem MembersIn.type_mem {ts : List Token} {ms : List BlockMember} (h : MembersIn ts ms)
    {m : BlockMember} (hm : m ∈ ms) (hvars : m.vars ≠ []) : m.type ∈ wordsOf ts := by
  rcases h with ⟨runs, hsub, hruns⟩
  refine (wordsOf_sublist hsub).subset ?_
  clear hsub
  induction hruns with
  | nil => cases hm
  | @cons run m' runs ms hrun _ ih =>
      rw [List.flatten_cons, wordsOf_append, List.mem_append]
      rcases List.mem_cons.mp hm with rfl | hm
      · rcases hrun with ⟨block, hparse⟩
        exact Or.inl ((parseMember_words hparse hvars).subset List.mem_cons_self)
      · exact Or.inr (ih hm)

theorem piece_of_isWord {code : Text} {ts : List Token} (h : tokenize code = .ok ts) {t : Token}
    (ht : t ∈ ts) (hword : t.isWord = true) : t.piece = Subpass.word t.text := by
  have hkind := Decorate.kind_of_isWord hword
  rcases isCut_of_tokenize h ht with ⟨f, b, w, r, hbytes, hextent⟩ | hend
  · have hclass : t.kind = classify t.text := by
      rw [show t.text = b :: w from hbytes]
      exact classify_of_extent? hextent hkind
    unfold Token.piece Subpass.word
    rw [hclass]
  · rw [show t.kind = .eof from congrArg Piece.kind hend] at hkind
    rcases hkind with hkind | hkind | hkind <;> cases hkind

end Declaration

namespace Legacy

open Lexer Declaration Decorate Subpass

/-!
# The only word
-/

structure Dropped (ts : List Token) (ds : List Declaration) (d : Declaration) (v : Variable)
    (t : Token) : Prop where
  mem : d ∈ ds
  isBlock : d.isBlock = true
  isUniform : d.storage = .uniform
  declares : v ∈ d.members.flatMap BlockMember.vars
  once : wordCount ts v.name < 2
  token : t ∈ ts
  piece : t.piece = word v.name
  offset : t.offset = v.start

theorem apart_of_pairwise {α : Type} {first last : α -> Nat} {as : List α}
    (h : as.Pairwise fun a b => last a ≤ first b) {a b : α} (ha : a ∈ as) (hb : b ∈ as)
    (hne : a ≠ b) : last a ≤ first b ∨ last b ≤ first a := by
  have hsymm : Std.Symm fun a b : α => last a ≤ first b ∨ last b ≤ first a := ⟨fun _ _ => Or.symm⟩
  have heither : as.Pairwise fun a b => last a ≤ first b ∨ last b ≤ first a :=
    h.imp fun hle => Or.inl hle
  exact heither.forall ha hb hne

namespace Dropped

variable {code : Text} {ts : List Token} {ds : List Declaration} {d : Declaration} {v : Variable}
  {t : Token}

/-- A member that is not mentioned elsewhere stands where it is declared. -/
theorem exists_token (hds : ofText? code = some ds) (htokens : tokenize code = .ok ts)
    (hd : d ∈ ds) (hblock : d.isBlock = true) (huniform : d.storage = .uniform)
    (hv : v ∈ d.members.flatMap BlockMember.vars) (honce : wordCount ts v.name < 2) :
    exists t, Dropped ts ds d v t := by
  rcases ofText?_eq_some_iff.mp hds with ⟨ts', htokens', hunits⟩
  rw [htokens] at htokens'
  cases htokens'
  rcases (chunks_of_units (ofTokens_eq_ok_iff.mp hunits)).exists_chunk d hd with ⟨x, us, y, hts,
    hchunk⟩
  rcases hchunk.anchors with ⟨a⟩
  rcases a.declaredIn.exists_name (List.mem_append_right d.vars hv) with ⟨t, ht, hword, htext,
    hstart⟩
  have hmem : t ∈ ts := by
    rw [hts]
    refine List.mem_append_right _ (List.mem_append_left _ (a.sublist.subset ?_))
    simp [ht]
  have hpiece : t.piece = word v.name := by
    rw [htext]
    exact piece_of_isWord htokens hmem hword
  exact ⟨t, hd, hblock, huniform, hv, honce, hmem, hpiece, hstart.symm⟩

theorem eq_of_piece (h : Dropped ts ds d v t) (hname : classify v.name = .ident) {u : Token}
    (hu : u ∈ ts) (hpiece : u.piece = word v.name) : u = t := by
  have hcounted {u : Token} (hu : u ∈ ts) (hpiece : u.piece = word v.name) :
      u ∈ ts.filter fun u => u.isWord && u.text == v.name := by
    have hkind : u.kind = .ident := (congrArg Piece.kind hpiece).trans hname
    have htext : u.text = v.name := congrArg Piece.text hpiece
    refine List.mem_filter.mpr ⟨hu, ?_⟩
    unfold Token.isWord
    simp [hkind, htext]
  have honce := h.once
  unfold wordCount at honce
  rw [List.countP_eq_length_filter] at honce
  have hu := hcounted hu hpiece
  have ht := hcounted h.token h.piece
  generalize ts.filter (fun u => u.isWord && u.text == v.name) = us at honce hu ht
  match us, honce, hu, ht with
  | [x], _, hu, ht => rw [List.mem_singleton.mp hu, List.mem_singleton.mp ht]

theorem within (h : Dropped ts ds d v t) (hindexes : Indexes code d) :
    d.start ≤ t.offset ∧ t.offset < v.stop ∧ v.stop ≤ d.stop := by
  have hinside := hindexes.follow.inside v (List.mem_append_right d.vars h.declares)
  have htype := hindexes.type.1
  rw [h.offset]
  omega

theorem ne_of_mem_mentioned (h : Dropped ts ds d v t) {e : Declaration} {m : BlockMember}
    {w : Variable} (hw : (m, w) ∈ mentioned ts e) : w.name ≠ v.name := by
  intro heq
  have honce := h.once
  rcases List.mem_flatMap.mp hw with ⟨m', _, hw⟩
  rcases List.mem_map.mp hw with ⟨w', hw', hpair⟩
  cases hpair
  have htwice := of_decide_eq_true (List.mem_filter.mp hw').2
  rw [heq] at htwice
  omega

section Block

variable {e : Declaration} {body : List Token} (h : Dropped ts ds d v t)
  (hfound : forall u, u ∈ body -> u.piece = word v.name -> u = t ∧ e = d)

include h hfound

theorem type_ne (htokens : tokenize code = .ok ts) (hmembers : MembersIn body e.members)
    (hbody : body.Sublist ts) {m : BlockMember} (hm : m ∈ e.members) (hvars : m.vars ≠ []) :
    m.type ≠ v.name := by
  intro htype
  rcases List.mem_map.mp (hmembers.type_mem hm hvars) with ⟨u, hu, hutype⟩
  rcases List.mem_filter.mp hu with ⟨hu, hword⟩
  have hpiece := piece_of_isWord htokens (hbody.subset hu) hword
  rw [hutype, htype] at hpiece
  rcases hfound u hu hpiece with ⟨rfl, rfl⟩
  rcases List.mem_flatMap.mp h.declares with ⟨m', hm', hv⟩
  have htwo := hmembers.two_le_count hm hvars hm' hv htype
  have hle := (wordsOf_sublist hbody).count_le v.name
  have honce := h.once
  rw [wordCount_eq] at honce
  omega

theorem offset_apart (hds : ofText? code = some ds) (he : e ∈ ds) {m : BlockMember} {w : Variable}
    (hw : (m, w) ∈ mentioned ts e) {u : Token} (hu : u ∈ body) (hpiece : u.piece = word v.name) :
    u.offset < w.start ∨ w.stop ≤ u.offset := by
  rcases mem_of_mem_mentioned hw with ⟨hm, hwm⟩
  rcases hfound u hu hpiece with ⟨rfl, rfl⟩
  have hfollow := ((declarations_index hds).2 e he).follow
  have hv := List.mem_append_right e.vars h.declares
  have hw' := List.mem_append_right e.vars (List.mem_flatMap.mpr ⟨m, hm, hwm⟩)
  have hinside := hfollow.inside v hv
  have hbetween := apart_of_pairwise hfollow.apart hw' hv
    (fun heq => h.ne_of_mem_mentioned hw (congrArg Variable.name heq))
  rw [h.offset]
  omega

end Block

section Source

variable (h : Dropped ts ds d v t) (hname : classify v.name = .ident) (hds : ofText? code = some ds)
  {e : Declaration} (he : e ∈ ds)

include h hname hds he

theorem eq_of_mem {o : Nat} {f g : Bool} {us : List Token} {s : Text} (hchunk : Chunk us (some e))
    (hs : Situated code o f g us s) (hus : us.Sublist ts) {u : Token} (hu : u ∈ us)
    (hpiece : u.piece = word v.name) : u = t ∧ e = d := by
  have heq := h.eq_of_piece hname (hus.subset hu) hpiece
  refine ⟨heq, ?_⟩
  rcases declarations_index hds with ⟨hspans, hindexes⟩
  have hwithin := h.within (hindexes d h.mem)
  rcases hchunk.span hs.placed with ⟨hstart, hstop⟩
  have hplaced := hs.placed.within hu
  have hpositive := hs.offset_lt_stop hu
  by_contra hne
  have hapart := apart_of_pairwise hspans he h.mem hne
  rw [heq] at hplaced hpositive
  omega

theorem omits_statement {stage : Stages} {o : Nat} {f g : Bool} {raw : List Token} {semi : Token}
    {s text : Text} (hopen : IsOpen raw) (hsemi : semi.isOp ";" = true)
    (hstatement : ofStatement? (solidTokens raw) semi = .ok (some e))
    (hs : Situated code o f g (raw ++ [semi]) s) (hus : (raw ++ [semi]).Sublist ts)
    (htext : substitute? code ts stage e = some text) : text = [] ∨ Lacks (word v.name) text := by
  have hblock : e.isBlock = false := by
    rcases parts_of_ofStatement? hstatement with ⟨parts⟩
    exact congrArg Declaration.isBlock parts.eq
  rcases substitute?_of_variables hblock htext with ⟨rfl, _⟩ | ⟨storage, rfl, _⟩
  · exact Or.inl rfl
  · refine Or.inr (lacks_redeclare hs hopen hstatement hname (fun hmem => ?_) storage)
    rcases List.mem_map.mp hmem with ⟨u, hu, hpiece⟩
    have heq := (h.eq_of_mem hname hds he (.statement hopen hsemi hstatement) hs hus hu hpiece).2
    rw [heq, h.isBlock] at hblock
    cases hblock

theorem omits_block (htokens : tokenize code = .ok ts) {stage : Stages} {o : Nat} {f g : Bool}
    {raw us after : List Token} {brace : Token} {s text : Text} (hopen : IsOpen raw)
    (hbrace : brace.isOp Op.openBrace = true) (parts : BlockParts (solidTokens raw) us e after)
    (hs : Situated code o f g (raw ++ brace :: (parts.body ++ [parts.semi])) s)
    (hus : (raw ++ brace :: (parts.body ++ [parts.semi])).Sublist ts)
    (htext : substitute? code ts stage e = some text) : text = [] ∨ Lacks (word v.name) text := by
  have hbody : parts.body.Sublist (raw ++ brace :: (parts.body ++ [parts.semi])) :=
    ((List.sublist_append_left _ _).trans (List.sublist_cons_self brace _)).trans
      (List.sublist_append_right raw _)
  have hfound : forall u, u ∈ parts.body -> u.piece = word v.name -> u = t ∧ e = d :=
    fun u hu hpiece => h.eq_of_mem hname hds he (.block hopen hbrace parts) hs hus
      (hbody.subset hu) hpiece
  unfold substitute? at htext
  rw [if_pos parts.isBlock] at htext
  split at htext
  · rw [← Option.some.inj htext, unpackBlock_eq]
    by_cases hnone : mentioned ts e = []
    · rw [hnone]
      exact Or.inl rfl
    · refine Or.inr (lacks_joinWith (isPlain_word v.name)
        (fun x : BlockMember × Variable => memberUniform code x.1 x.2) hnone ?_)
      rintro ⟨m, w⟩ hx
      rcases mem_of_mem_mentioned hx with ⟨hm, hw⟩
      rcases parts.exists_situated_member hs hm hw with
        ⟨_, _, _, raw', semi, _, hmember, hopen', hraw', ⟨member⟩⟩
      have htype := h.type_ne hfound htokens parts.membersIn.1 (hbody.trans hus) hm
        (List.ne_nil_of_mem hw)
      exact lacks_memberUniform hmember hopen' member hw hname htype
        fun u hu => h.offset_apart hfound hds he hx (hraw'.subset hu)
  · cases htext

theorem omits (htokens : tokenize code = .ok ts) {stage : Stages} {o : Nat} {f g : Bool}
    {us : List Token} {s text : Text} (hchunk : Chunk us (some e)) (hs : Situated code o f g us s)
    (hus : us.Sublist ts) (htext : written? code ts stage e = some text) :
    Omits (word v.name) text := by
  rcases Option.map_eq_some_iff.mp htext with ⟨front, hfront, rfl⟩
  refine ⟨front, _, rfl, fun c hc => List.eq_of_mem_replicate hc, ?_⟩
  cases hchunk with
  | statement hopen hsemi hstatement =>
      exact h.omits_statement hname hds he hopen hsemi hstatement hs hus hfront
  | block hopen hbrace parts =>
      exact h.omits_block hname hds he htokens hopen hbrace parts hs hus hfront

end Source

end Dropped

/-!
# The converted interface without the member
-/

/-- The members of uniform blocks that are not mentioned outside their own declaration. -/
def droppedNames (ts : List Token) (ds : List Declaration) : List Text :=
  (ds.filter fun d => d.isBlock && d.storage == .uniform).flatMap fun d =>
    ((d.members.flatMap BlockMember.vars).map Variable.name).filter fun name =>
      wordCount ts name < 2

theorem exists_dropped {code : Text} {ts : List Token} {ds : List Declaration}
    (htokens : tokenize code = .ok ts) (hds : ofTokens ts = .ok ds) {name : Text}
    (h : name ∈ droppedNames ts ds) : exists d v t, v.name = name ∧ Dropped ts ds d v t := by
  rcases List.mem_flatMap.mp h with ⟨d, hd, hfound⟩
  rcases List.mem_filter.mp hd with ⟨hmem, hblock⟩
  rcases Bool.and_eq_true_iff.mp hblock with ⟨hblock, huniform⟩
  rcases List.mem_filter.mp hfound with ⟨hvar, honce⟩
  rcases List.mem_map.mp hvar with ⟨v, hv, rfl⟩
  rcases Dropped.exists_token (ofText?_eq_some_iff.mpr ⟨ts, htokens, hds⟩) htokens hmem hblock
    (eq_of_beq huniform) hv (of_decide_eq_true honce) with ⟨t, ht⟩
  exact ⟨d, v, t, rfl, ht⟩

theorem Dropped.not_mem {code : Text} {ts ts' : List Token} {ds : List Declaration}
    {d : Declaration}
    {v : Variable} {t : Token} (h : Dropped ts ds d v t) (hname : classify v.name = .ident)
    (htokens : tokenize code = .ok ts) (hds : ofTokens ts = .ok ds)
    (hhash : strayHash ∉ ts.map Token.piece) {stage : Stages}
    (htokens' : tokenize (convertFrom code ts stage 0 ds) = .ok ts') :
    word v.name ∉ ts'.map Token.piece := by
  have hoftext : ofText? code = some ds := ofText?_eq_some_iff.mpr ⟨ts, htokens, hds⟩
  have hchunks := chunks_of_units (ofTokens_eq_ok_iff.mp hds)
  rcases rest_of_tokenize htokens with ⟨ws, hrest⟩
  rw [convertFrom_eq] at htokens'
  have honly : OnlyReplaced (written? code ts stage) (word v.name) ts ds := by
    intro u hu hpiece
    have hwithin := h.within ((declarations_index hoftext).2 d h.mem)
    refine ⟨d, h.mem, ?_, ?_⟩
    · unfold written? substitute?
      rw [if_pos h.isBlock, h.isUniform]
      rfl
    · rw [h.eq_of_piece hname hu hpiece]
      omega
  rcases (hchunks.exists_lexes_omitting (isPlain_word v.name) hrest hhash
    (List.Sublist.refl ts) honly
    fun he hchunk hs hus htext => h.omits hname hoftext he htokens hchunk hs hus htext).1 with
    ⟨ws', hws', hnot⟩
  rw [tokenize_eq_ok_iff.mpr ⟨ws', hws', rfl⟩] at htokens'
  rw [← Except.ok.inj htokens', map_piece_place, List.mem_append, not_or]
  refine ⟨hnot, fun hend => ?_⟩
  have hkind : classify v.name = .eof := congrArg Piece.kind (List.mem_singleton.mp hend)
  rw [hname] at hkind
  cases hkind

end Legacy

end EffectShader
