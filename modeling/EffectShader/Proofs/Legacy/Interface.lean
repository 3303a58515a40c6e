import EffectShader.Proofs.Declaration.Replacements
import EffectShader.Proofs.Legacy.Declarations

/-!
# The interface that remains

The interface is converted chunk by chunk: a declaration is replaced by those that
take its place, everything else is copied.  The converted text is read as these
declarations.
-/

namespace EffectShader

namespace Legacy

open Declaration Decorate Lexer

/-!
# What takes the place of a declaration
-/

def mentioned (ts : List Token) (d : Declaration) : List (BlockMember × Variable) :=
  d.members.flatMap fun m => (m.vars.filter fun v => 2 ≤ wordCount ts v.name).map fun v => (m, v)

def converted (ts : List Token) (stage : Stages) (d : Declaration) : List Declaration :=
  if d.isBlock then
    if d.storage == .uniform then (mentioned ts d).map fun x => plainUniform x.1 x.2 else [d]
  else
    match d.storage with
    | .uniform | .buffer => [d]
    | .input | .attribute => [redeclared d (if stage == .vertexOnly then .attribute else .varying)]
    | .varying => [redeclared d .varying]
    | .output | .both => if stage == .vertexOnly then [redeclared d .varying] else []

theorem unpackBlock_eq (code : Text) (ts : List Token) (d : Declaration) :
    unpackBlock code ts d =
      Text.joinWith " " ((mentioned ts d).map fun x => memberUniform code x.1 x.2) := by
  unfold unpackBlock mentioned
  simp only [List.map_flatMap, List.map_map]
  rfl

theorem mem_of_mem_mentioned {ts : List Token} {d : Declaration} {m : BlockMember} {v : Variable}
    (h : (m, v) ∈ mentioned ts d) : m ∈ d.members ∧ v ∈ m.vars := by
  rcases List.mem_flatMap.mp h with ⟨m', hm', hv⟩
  rcases List.mem_map.mp hv with ⟨v', hv', heq⟩
  cases heq
  exact ⟨hm', (List.mem_filter.mp hv').1⟩

def Converts (text : Text) (ds : List Declaration) : Prop :=
  (text = [] ∧ ds = []) ∨ Yields text ds

def PlainMembers (d : Declaration) : Prop :=
  forall m, m ∈ d.members -> Storage.ofKeyword? m.type = none

theorem substitute?_of_variables {code text : Text} {ts : List Token} {stage : Stages}
    {d : Declaration} (hblock : d.isBlock = false) (h : substitute? code ts stage d = some text) :
    (text = [] ∧ converted ts stage d = []) ∨ exists storage : Storage,
      text = redeclare code d (Text.ofString storage.keyword) ∧
        converted ts stage d = [redeclared d storage] := by
  unfold substitute? at h
  unfold converted
  rw [if_neg (by simp [hblock])] at h ⊢
  cases hstorage : d.storage with
  | uniform | buffer =>
      rw [hstorage] at h
      cases h
  | input | «attribute» =>
      rw [hstorage] at h
      rw [← Option.some.inj h]
      cases stage == .vertexOnly with
      | true => exact Or.inr ⟨.attribute, rfl, rfl⟩
      | false => exact Or.inr ⟨.varying, rfl, rfl⟩
  | varying =>
      rw [hstorage] at h
      rw [← Option.some.inj h]
      exact Or.inr ⟨.varying, rfl, rfl⟩
  | output | both =>
      rw [hstorage] at h
      rw [← Option.some.inj h]
      cases stage == .vertexOnly with
      | true => exact Or.inr ⟨.varying, rfl, rfl⟩
      | false => exact Or.inl ⟨rfl, rfl⟩

theorem converts_statement {code s : Text} {o : Nat} {f g : Bool} {raw : List Token} {semi : Token}
    {d : Declaration} (h : Situated code o f g (raw ++ [semi]) s) (hopen : IsOpen raw)
    (hd : ofStatement? (solidTokens raw) semi = .ok (some d)) {ts : List Token} {stage : Stages}
    {text : Text} (htext : substitute? code ts stage d = some text) :
    Converts text (converted ts stage d) := by
  have hblock : d.isBlock = false := by
    rcases parts_of_ofStatement? hd with ⟨parts⟩
    exact congrArg Declaration.isBlock parts.eq
  rcases substitute?_of_variables hblock htext with ⟨rfl, hnone⟩ | ⟨storage, rfl, hone⟩
  · exact Or.inl ⟨rfl, hnone⟩
  · rw [hone]
    exact Or.inr (yields_redeclare h hopen hd storage)

theorem converts_block {code s : Text} {o : Nat} {f g : Bool} {raw ts after : List Token}
    {brace : Token} {d : Declaration} (parts : BlockParts (solidTokens raw) ts d after)
    (h : Situated code o f g (raw ++ brace :: (parts.body ++ [parts.semi])) s)
    (hmembers : PlainMembers d) {all : List Token} {stage : Stages} {text : Text}
    (htext : substitute? code all stage d = some text) :
    Converts text (converted all stage d) := by
  unfold substitute? at htext
  unfold converted
  rw [if_pos parts.isBlock] at htext ⊢
  split at htext
  · rename_i huniform
    rw [if_pos huniform, ← Option.some.inj htext, unpackBlock_eq]
    by_cases hnone : mentioned all d = []
    · rw [hnone]
      exact Or.inl ⟨rfl, rfl⟩
    · have hyields : forall x, x ∈ mentioned all d ->
          Yields (memberUniform code x.1 x.2) [plainUniform x.1 x.2] := by
        rintro ⟨m, v⟩ hx
        rcases mem_of_mem_mentioned hx with ⟨hm, hv⟩
        rcases parts.exists_situated_member h hm hv with
          ⟨_, _, _, _, _, _, hmember, hopen, _, ⟨member⟩⟩
        exact yields_memberUniform hmember hopen member (hmembers m hm) hv
      have hjoin := yields_joinWith
        (fun x : BlockMember × Variable => memberUniform code x.1 x.2)
        (fun x => [plainUniform x.1 x.2]) hnone hyields
      rw [← List.map_eq_flatMap] at hjoin
      exact Or.inr hjoin
  · cases htext

theorem converts_chunk {code s : Text} {o : Nat} {f g : Bool} {us : List Token} {d : Declaration}
    (h : Chunk us (some d)) (hs : Situated code o f g us s) (hmembers : PlainMembers d)
    {ts : List Token} {stage : Stages} {text : Text}
    (htext : substitute? code ts stage d = some text) : Converts text (converted ts stage d) := by
  cases h with
  | statement hopen _ hstatement => exact converts_statement hs hopen hstatement htext
  | block _ _ parts => exact converts_block parts hs hmembers htext

theorem converted_of_substitute?_eq_none {code : Text} {ts : List Token} {stage : Stages}
    {d : Declaration} (h : substitute? code ts stage d = none) : converted ts stage d = [d] := by
  unfold substitute? at h
  unfold converted
  split at h
  · rename_i hblock
    rw [if_pos hblock]
    split at h
    · cases h
    · rename_i huniform
      rw [if_neg huniform]
  · rename_i hblock
    rw [if_neg hblock]
    cases hstorage : d.storage with
    | uniform | buffer => rfl
    | _ =>
        rw [hstorage] at h
        cases h

/-!
# Converting chunk by chunk
-/

def declarationEdits (code : Text) (ts : List Token) (stage : Stages) (ds : List Declaration) :
    List Edit :=
  ds.filterMap (declarationEdit? code ts stage)

/-- The source from an offset on, with these declarations converted. -/
def convertFrom (code : Text) (ts : List Token) (stage : Stages) (o : Nat)
    (ds : List Declaration) : Text :=
  Edit.applyFrom o (code.drop o) (declarationEdits code ts stage ds)

def written? (code : Text) (ts : List Token) (stage : Stages) (d : Declaration) : Option Text :=
  (substitute? code ts stage d).map fun text =>
    text ++ Edit.blank (Text.slice code d.start d.stop)

theorem declarationEdits_eq (code : Text) (ts : List Token) (stage : Stages)
    (ds : List Declaration) :
    declarationEdits code ts stage ds = replacements (written? code ts stage) ds := by
  unfold declarationEdits replacements declarationEdit? written?
  simp only [Option.map_map, Function.comp_def]

theorem convertFrom_eq (code : Text) (ts : List Token) (stage : Stages) :
    convertFrom code ts stage = replaceFrom code (written? code ts stage) := by
  funext o ds
  unfold convertFrom replaceFrom
  rw [declarationEdits_eq]

theorem Converts.replaces {text ends : Text} {ds : List Declaration} (h : Converts text ds)
    (hends : forall c, c ∈ ends -> c = Byte.newline) : Replaces (text ++ ends) ds :=
  ⟨text, ends, rfl, hends, h.symm⟩

theorem rewriting_convertFrom (code : Text) (ts : List Token) (stage : Stages) :
    Rewriting code (fun _ => PlainMembers) (converted ts stage) (convertFrom code ts stage) := by
  rw [convertFrom_eq]
  refine rewriting_replaceFrom code ?_ ?_ (fun h _ => h)
  · exact fun h => converted_of_substitute?_eq_none (Option.map_eq_none_iff.mp h)
  · intro o f g us s d text hchunk hs hmembers htext
    rcases Option.map_eq_some_iff.mp htext with ⟨front, hfront, rfl⟩
    have hends : forall c, c ∈ Edit.blank (Text.slice code d.start d.stop) -> c = Byte.newline :=
      fun c hc => List.eq_of_mem_replicate hc
    exact (converts_chunk hchunk hs hmembers hfront).replaces hends

/-!
# The converted interface
-/

theorem convertInterface_eq (code : Text) (info : Option ShaderInfo) (stage : Stages) :
    convertInterface code info stage =
      match tokenize code with
      | .error e => .error (.plain e.message none)
      | .ok ts =>
          match ofTokens ts with
          | .error e => .error (.diagnostic e)
          | .ok ds =>
              .ok (convertFrom code ts stage 0 ds,
                ⟨stage, outputTargets (locateOutputs info stage ds), instanceNames ds,
                  uniformTypes ds⟩, locateOutputs info stage ds) := by
  unfold convertInterface
  cases htokens : tokenize code with
  | error e => rfl
  | ok ts =>
      dsimp only
      cases hds : ofTokens ts with
      | error e => rfl
      | ok ds =>
          have hordered := ordered_replacements (chunks_of_units (ofTokens_eq_ok_iff.mp hds))
            (placed_of_tokenize htokens) (written? code ts stage)
          rw [← declarationEdits_eq] at hordered
          dsimp only
          unfold convertFrom
          rw [List.drop_zero, ← Edit.apply_of_ordered hordered]
          rfl

/-- The interface can be converted: no hash sign stands inside a line, and no member of a block has
the name of a storage qualifier for its type. -/
def CleanInterface (code : Text) : Prop :=
  forall ts, ts ∈ (tokenize code).toOption ->
    strayHash ∉ ts.map Token.piece ∧
      forall ds, ds ∈ (ofTokens ts).toOption -> forall d, d ∈ ds -> PlainMembers d

instance (d : Declaration) : Decidable (PlainMembers d) :=
  inferInstanceAs (Decidable (forall m, m ∈ d.members -> _))

instance (code : Text) : Decidable (CleanInterface code) :=
  inferInstanceAs (Decidable (forall ts, ts ∈ (tokenize code).toOption -> _))

theorem exists_ofText?_convertFrom {code : Text} {ts : List Token} {ds : List Declaration}
    (htokens : tokenize code = .ok ts) (hds : ofTokens ts = .ok ds) (hclean : CleanInterface code)
    (stage : Stages) :
    exists ds', ofText? (convertFrom code ts stage 0 ds) = some ds' ∧
      ds'.map Declaration.unplaced =
        (ds.flatMap (converted ts stage)).map Declaration.unplaced := by
  rcases hclean ts (toOption_eq_some_iff.mpr htokens) with ⟨hhash, hmembers⟩
  rcases rest_of_tokenize htokens with ⟨ws, hrest⟩
  have hchunks := chunks_of_units (ofTokens_eq_ok_iff.mp hds)
  rcases ((rewriting_convertFrom code ts stage).exists_lexes hchunks hrest hhash
    (hmembers ds (toOption_eq_some_iff.mpr hds))).1 with ⟨ws', hlexes, hdeclares⟩
  exact exists_ofText? hlexes hdeclares

/-!
# Plain uniforms
-/

def plainNames (d : Declaration) : List Text :=
  if !d.isBlock && d.storage == .uniform then d.vars.map Variable.name else []

/-- The names of the plain uniforms of a source, in their order. -/
def plainUniforms (ds : List Declaration) : List Text :=
  ds.flatMap plainNames

/-- The names of the plain uniforms that a declaration becomes: its variables, or the members of a
block that are mentioned outside their own declaration. -/
def uniformNames (ts : List Token) (d : Declaration) : List Text :=
  if d.isBlock && d.storage == .uniform then (mentioned ts d).map fun x => x.2.name
  else plainNames d

theorem plainNames_unplaced (d : Declaration) : plainNames d.unplaced = plainNames d := by
  unfold plainNames Declaration.isBlock Declaration.vars Declaration.unplaced
    DeclarationBody.unplaced
  cases d.body <;> simp [Variable.unplaced, Function.comp_def]

theorem plainUniforms_congr {ds ds' : List Declaration}
    (h : ds'.map Declaration.unplaced = ds.map Declaration.unplaced) :
    plainUniforms ds' = plainUniforms ds := by
  have hmap : forall ds : List Declaration,
      plainUniforms ds = (ds.map Declaration.unplaced).flatMap plainNames := by
    intro ds
    rw [List.flatMap_map]
    simp only [plainNames_unplaced]
    rfl
  rw [hmap, h, ← hmap]

theorem plainNames_of_ne_uniform {d : Declaration} (h : d.storage ≠ .uniform) :
    plainNames d = [] := by
  unfold plainNames
  rw [beq_false_of_ne h, Bool.and_false]
  rfl

theorem plainUniforms_converted (ts : List Token) (stage : Stages) (d : Declaration) :
    plainUniforms (converted ts stage d) = uniformNames ts d := by
  have hself : plainUniforms [d] = plainNames d := by simp [plainUniforms]
  unfold converted uniformNames
  cases hblock : d.isBlock with
  | true =>
      cases huniform : d.storage == .uniform with
      | true =>
          unfold plainUniforms
          rw [if_pos rfl, if_pos rfl, Bool.and_self, if_pos rfl, List.flatMap_map,
            List.map_eq_flatMap]
          rfl
      | false => simpa using hself
  | false =>
      rw [if_neg Bool.false_ne_true, Bool.false_and, if_neg Bool.false_ne_true]
      cases hstorage : d.storage with
      | uniform | buffer => exact hself
      | input | «attribute» =>
          rw [plainNames_of_ne_uniform (by rw [hstorage]; decide)]
          cases stage == .vertexOnly <;> rfl
      | varying =>
          rw [plainNames_of_ne_uniform (by rw [hstorage]; decide)]
          rfl
      | output | both =>
          rw [plainNames_of_ne_uniform (by rw [hstorage]; decide)]
          cases stage == .vertexOnly <;> rfl

theorem plainUniforms_convertFrom {ts : List Token} {ds ds' : List Declaration} {stage : Stages}
    (h : ds'.map Declaration.unplaced =
      (ds.flatMap (converted ts stage)).map Declaration.unplaced) :
    plainUniforms ds' = ds.flatMap (uniformNames ts) := by
  rw [plainUniforms_congr h]
  unfold plainUniforms
  rw [List.flatMap_assoc]
  exact congrArg (ds.flatMap ·) (funext fun d => plainUniforms_converted ts stage d)

end Legacy

end EffectShader
