import EffectShader.Proofs.Declaration.Replacements
import EffectShader.Proofs.Resource.Split

/-!
# Decorated sources

A source is decorated unit by unit: what declares no numbered resource is copied,
the rest is rewritten.  The decorated source is read as the declarations of the
source with the layouts that they were given.
-/

namespace EffectShader

namespace Decorate

open Declaration Lexer

/-!
# Decorated declarations
-/

def decoratedBy (d : Declaration) (params : List (Option Param)) : List Declaration :=
  match params with
  | [some p] => [{ d with layout := partLayout d (some p) }]
  | _ => (d.vars.zip params).map fun x =>
      { d with layout := partLayout d x.2, body := .variables [x.1] }

def decorated (stage : Stages) (info : ShaderInfo) (d : Declaration) : List Declaration :=
  match paramsFor? d stage info with
  | none => [d]
  | some params => decoratedBy d params

theorem paramsFor?_of_isBlock {d : Declaration} {stage : Stages} {info : ShaderInfo}
    {params : List (Option Param)} (hd : d.isBlock = true)
    (h : paramsFor? d stage info = some params) : exists p, params = [some p] := by
  unfold paramsFor? at h
  rw [if_pos hd] at h
  rcases Option.bind_eq_some_iff.mp h with ⟨p, _, hp⟩
  split at hp
  · exact ⟨p, (Option.some.inj hp).symm⟩
  · cases hp

theorem paramsFor?_of_variables {d : Declaration} {stage : Stages} {info : ShaderInfo}
    {params : List (Option Param)} (hd : d.isBlock = false)
    (h : paramsFor? d stage info = some params) :
    params.length = d.vars.length ∧ params.any Option.isSome = true := by
  unfold paramsFor? at h
  rw [if_neg (by simp [hd])] at h
  split at h
  · dsimp only at h
    split at h
    · rename_i hsome
      rw [← Option.some.inj h]
      exact ⟨List.length_map _, (Bool.and_eq_true_iff.mp hsome).2⟩
    · cases h
  · cases h

theorem yields_joinWith {α : Type} (text : α -> Text) (ds : α -> List Declaration) :
    forall {as : List α}, as ≠ [] -> (forall a, a ∈ as -> Yields (text a) (ds a)) ->
      Yields (Text.joinWith " " (as.map text)) (as.flatMap ds)
  | [], hne, _ => absurd rfl hne
  | [a], _, h => by
      have hyields := h a List.mem_cons_self
      simpa [Text.joinWith] using hyields
  | a :: b :: as, _, h => by
      have hrest := yields_joinWith text ds (List.cons_ne_nil b as)
        fun c hc => h c (List.mem_cons_of_mem _ hc)
      have hyields := (h a List.mem_cons_self).join hrest
      rw [List.map_cons, List.map_cons, Text.joinWith_cons_cons, List.flatMap_cons]
      exact hyields

/-- The declaration can be rewritten: no comment starts in the values of its layout and, if it is
split, its qualifiers are words. -/
structure Clean (ts : List Token) (d : Declaration) : Prop where
  noComments : NoComments d.layout
  plainHead : 1 < d.vars.length -> PlainHead ts d

instance (ts : List Token) (d : Declaration) : Decidable (Clean ts d) :=
  decidable_of_iff (NoComments d.layout ∧ (1 < d.vars.length -> PlainHead ts d))
    ⟨fun h => ⟨h.1, h.2⟩, fun h => ⟨h.noComments, h.plainHead⟩⟩

def Rewrites (text : Text) (ds : List Declaration) : Prop :=
  exists body ends, text = body ++ ends ∧ (forall c, c ∈ ends -> c = Byte.newline) ∧ Yields body ds

theorem decoratedBy_of_many {d : Declaration} {params : List (Option Param)}
    (h : ¬ exists p, params = [some p]) :
    decoratedBy d params = (d.vars.zip params).map fun x =>
      { d with layout := partLayout d x.2, body := .variables [x.1] } := by
  unfold decoratedBy
  split
  · exact absurd ⟨_, rfl⟩ h
  · rfl

theorem decorateDeclaration_of_many {code : Text} {d : Declaration} {params : List (Option Param)}
    (h : ¬ exists p, params = [some p]) :
    decorateDeclaration code d params =
      Text.joinWith " " ((d.vars.zip params).map fun x =>
        splitPart code d (splitHead code d) x.1 x.2) ++
        List.replicate (Text.newlines (Text.slice code d.start d.stop)) Byte.newline := by
  unfold decorateDeclaration
  split
  · exact absurd ⟨_, rfl⟩ h
  · rfl

theorem rewrites_statement {code s : Text} {o : Nat} {f g : Bool} {raw : List Token} {semi : Token}
    {d : Declaration} {stage : Stages} {info : ShaderInfo} {params : List (Option Param)}
    (h : Situated code o f g (raw ++ [semi]) s) (hopen : IsOpen raw) (hsemi : semi.isOp ";" = true)
    (hd : ofStatement? (solidTokens raw) semi = .ok (some d)) (hclean : Clean raw d)
    (hparams : paramsFor? d stage info = some params) :
    Rewrites (decorateDeclaration code d params) (decoratedBy d params) := by
  have hblock : d.isBlock = false := by
    rcases parts_of_ofStatement? hd with ⟨parts⟩
    exact congrArg Declaration.isBlock parts.eq
  rcases paramsFor?_of_variables hblock hparams with ⟨hlength, hany⟩
  by_cases hone : exists p, params = [some p]
  · rcases hone with ⟨p, rfl⟩
    exact ⟨_, [], (List.append_nil _).symm, by simp,
      yields_qualify_statement p h hopen hsemi hd hclean.noComments⟩
  · have hmany : 1 < d.vars.length := by
      rw [← hlength]
      rcases params with _ | ⟨x, _ | ⟨y, rest⟩⟩
      · simp at hany
      · rcases Option.isSome_iff_exists.1 (by simpa using hany) with ⟨p, rfl⟩
        exact absurd ⟨p, rfl⟩ hone
      · simp
    have hne : d.vars.zip params ≠ [] := by
      intro hnil
      have hzip := congrArg List.length hnil
      rw [List.length_zip, hlength, Nat.min_self, List.length_nil] at hzip
      omega
    have hyields := yields_joinWith (fun x => splitPart code d (splitHead code d) x.1 x.2)
      (fun x => [{ d with layout := partLayout d x.2, body := .variables [x.1] }]) hne
      fun x hx => yields_splitPart x.2 h hopen hd hclean.noComments (hclean.plainHead hmany)
        (List.of_mem_zip hx).1
    rw [← List.map_eq_flatMap] at hyields
    rw [decorateDeclaration_of_many hone, decoratedBy_of_many hone]
    exact ⟨_, _, rfl, fun c hc => List.eq_of_mem_replicate hc, hyields⟩

theorem PlainHead.mono {ts us : List Token} {d : Declaration} (h : PlainHead ts d)
    (hus : forall t, t ∈ us -> t ∈ ts) : PlainHead us d :=
  fun t ht => h t (hus t ht)

theorem Clean.mono {ts us : List Token} {d : Declaration} (h : Clean ts d)
    (hus : forall t, t ∈ us -> t ∈ ts) : Clean us d :=
  ⟨h.noComments, fun hmany => (h.plainHead hmany).mono hus⟩

theorem rewrites_chunk {code s : Text} {o : Nat} {f g : Bool} {us : List Token} {d : Declaration}
    {stage : Stages} {info : ShaderInfo} {params : List (Option Param)} (h : Chunk us (some d))
    (hs : Situated code o f g us s) (hclean : Clean us d)
    (hparams : paramsFor? d stage info = some params) :
    Rewrites (decorateDeclaration code d params) (decoratedBy d params) := by
  cases h with
  | statement hopen hsemi hstatement =>
      exact rewrites_statement hs hopen hsemi hstatement
        (hclean.mono fun t ht => List.mem_append_left _ ht) hparams
  | block hopen hbrace parts =>
      rcases paramsFor?_of_isBlock parts.isBlock hparams with ⟨p, rfl⟩
      exact ⟨_, [], (List.append_nil _).symm, by simp,
        yields_qualify_block p parts hs hopen hbrace hclean.noComments⟩

/-!
# Copied text
-/

def rewritten? (code : Text) (stage : Stages) (info : ShaderInfo) (d : Declaration) :
    Option Text :=
  (paramsFor? d stage info).map (decorateDeclaration code d)

theorem decorateFrom_eq (code : Text) (stage : Stages) (info : ShaderInfo) {ds : List Declaration}
    {o : Nat} (hordered : Edit.Ordered o (replacements (rewritten? code stage info) ds)) :
    decorateFrom code stage info o ds = replaceFrom code (rewritten? code stage info) o ds := by
  induction ds generalizing o with
  | nil => rfl
  | cons d ds ih =>
      unfold replaceFrom
      rw [decorateFrom]
      cases hparams : paramsFor? d stage info with
      | none =>
          have hnone : rewritten? code stage info d = none := by rw [rewritten?, hparams]; rfl
          rw [replacements_cons_none hnone] at hordered ⊢
          exact ih hordered
      | some params =>
          have hsome : rewritten? code stage info d = some (decorateDeclaration code d params) := by
            rw [rewritten?, hparams]
            rfl
          rw [replacements_cons_some hsome] at hordered ⊢
          rcases hordered with ⟨hstart, hspan, hrest⟩
          have hdrop : (code.drop o).drop (d.stop - o) = code.drop d.stop := by
            rw [List.drop_drop, Nat.add_sub_cancel' (Nat.le_trans hstart hspan)]
          rw [Edit.applyFrom, if_neg (Nat.not_lt.mpr hstart), hdrop]
          dsimp only
          rw [ih hrest]
          rfl

/-!
# Reading a decorated source
-/

theorem Rewrites.replaces {text : Text} {ds : List Declaration} (h : Rewrites text ds) :
    Replaces text ds := by
  rcases h with ⟨body, ends, htext, hends, hbody⟩
  exact ⟨body, ends, htext, hends, Or.inl hbody⟩

/-- A declaration that is rewritten can be. -/
def Fits (stage : Stages) (info : ShaderInfo) (ts : List Token) (d : Declaration) : Prop :=
  (paramsFor? d stage info).isSome = true -> Clean ts d

theorem rewriting_decorated (code : Text) (stage : Stages) (info : ShaderInfo) :
    Rewriting code (Fits stage info) (decorated stage info)
      (replaceFrom code (rewritten? code stage info)) := by
  refine rewriting_replaceFrom code ?_ ?_ (fun h hus hsome => (h hsome).mono hus)
  · intro d h
    unfold decorated
    rw [Option.map_eq_none_iff.mp h]
  · intro o f g us s d text hchunk hs hfits htext
    rcases Option.map_eq_some_iff.mp htext with ⟨params, hparams, rfl⟩
    have hclean : Clean us d := hfits (by rw [hparams]; rfl)
    unfold decorated
    rw [hparams]
    exact (rewrites_chunk hchunk hs hclean hparams).replaces

end Decorate

/-- The source can be decorated: no hash sign stands inside a line, and its declarations can be
rewritten. -/
def Decorate.CleanSource (code : Text) : Prop :=
  forall ts, ts ∈ (tokenize code).toOption ->
    Lexer.strayHash ∉ ts.map Token.piece ∧
      forall ds, ds ∈ (Declaration.ofTokens ts).toOption -> forall d, d ∈ ds -> Decorate.Clean ts d

instance (code : Text) : Decidable (Decorate.CleanSource code) :=
  inferInstanceAs (Decidable (forall ts, ts ∈ (tokenize code).toOption -> _))

theorem decorate_eq {code : Text} {ts : List Token} {ds : List Declaration}
    (htokens : tokenize code = .ok ts) (hds : Declaration.ofTokens ts = .ok ds) (stage : Stages)
    (info : ShaderInfo) :
    decorate code stage info =
      .ok (Declaration.replaceFrom code (Decorate.rewritten? code stage info) 0 ds) := by
  have hordered := Declaration.ordered_replacements
    (Declaration.chunks_of_units (Declaration.ofTokens_eq_ok_iff.mp hds))
    (Declaration.placed_of_tokenize htokens) (Decorate.rewritten? code stage info)
  unfold decorate
  rw [htokens]
  dsimp only
  rw [hds]
  dsimp only
  rw [Decorate.decorateFrom_eq code stage info hordered]

theorem exists_ofText?_decorated {code : Text} {ts : List Token} {ds : List Declaration}
    (htokens : tokenize code = .ok ts) (hds : Declaration.ofTokens ts = .ok ds)
    (hhash : Lexer.strayHash ∉ ts.map Token.piece) (stage : Stages) (info : ShaderInfo)
    (hfits : forall d, d ∈ ds -> Decorate.Fits stage info ts d) :
    exists ds',
      Declaration.ofText?
        (Declaration.replaceFrom code (Decorate.rewritten? code stage info) 0 ds) = some ds' ∧
      ds'.map Declaration.unplaced =
        (ds.flatMap (Decorate.decorated stage info)).map Declaration.unplaced := by
  rcases Declaration.rest_of_tokenize htokens with ⟨ws, hrest⟩
  have hchunks := Declaration.chunks_of_units (Declaration.ofTokens_eq_ok_iff.mp hds)
  rcases ((Decorate.rewriting_decorated code stage info).exists_lexes hchunks hrest hhash
    hfits).1 with
    ⟨ws', hlexes, hdeclares⟩
  exact Declaration.exists_ofText? hlexes hdeclares

theorem exists_decorate {code : Text} {ds : List Declaration}
    (h : Declaration.ofText? code = some ds) (hclean : Decorate.CleanSource code) (stage : Stages)
    (info : ShaderInfo) :
    exists text ds', decorate code stage info = .ok text ∧ Declaration.ofText? text = some ds' ∧
      ds'.map Declaration.unplaced =
        (ds.flatMap (Decorate.decorated stage info)).map Declaration.unplaced := by
  rcases Declaration.ofText?_eq_some_iff.mp h with ⟨ts, htokens, hds⟩
  rcases hclean ts (toOption_eq_some_iff.mpr htokens) with ⟨hhash, hclean⟩
  rcases exists_ofText?_decorated htokens hds hhash stage info
    (fun d hd _ => hclean ds (toOption_eq_some_iff.mpr hds) d hd) with ⟨ds', hread, hsame⟩
  exact ⟨_, ds', decorate_eq htokens hds stage info, hread, hsame⟩

end EffectShader
