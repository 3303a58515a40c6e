import EffectShader.Proofs.Condition.Source

/-!
# The grammar of conditions

Conditions have eight levels: the binary operators from disjunction up to
products, then the prefix operators, then the primaries.  A condition is read
from a source exactly if the tokens of the source derive it.
-/

namespace EffectShader

def BinaryOp.level : BinaryOp -> Nat
  | .or => 0
  | .and => 1
  | .eq | .ne => 2
  | .lt | .le | .gt | .ge => 3
  | .add | .sub => 4
  | .mul | .div | .mod => 5

theorem BinaryOp.level_lt (op : BinaryOp) : op.level < 6 := by
  cases op <;> decide

namespace Condition

/-- The words that are not names of macros. -/
def isReserved (t : Token) : Bool :=
  (t.kind == .keyword && (t.text == ("true" : Text) || t.text == ("false" : Text))) ||
    (t.kind == .ident && t.text == ("defined" : Text))

/-- The tokens are a condition of a level or of a tighter one.  Binary operators nest to the left
and prefix operators to the right. -/
inductive Derives : Nat -> List Token -> Condition -> Prop where
  | tighter {level : Nat} {ts : List Token} {c : Condition} :
      Derives (level + 1) ts c -> Derives level ts c
  | binary {op : BinaryOp} {t : Token} {ts us : List Token} {left right : Condition} :
      t.isOp op.symbol = true -> Derives op.level ts left -> Derives (op.level + 1) us right ->
      Derives op.level (ts ++ t :: us) (.binary op left right)
  | unary {op : UnaryOp} {t : Token} {ts : List Token} {x : Condition} :
      t.isOp op.symbol = true -> Derives 6 ts x -> Derives 6 (t :: ts) (.unary op x)
  | integer {t : Token} {v : Value} :
      t.kind = .integer -> integerValue? t.text = some v -> Derives 7 [t] (.literal v)
  | float {t : Token} {v : Value} :
      t.kind = .float -> floatValue? t.text = some v -> Derives 7 [t] (.literal v)
  | yes {t : Token} :
      t.kind = .keyword -> t.text = "true" -> Derives 7 [t] (.literal (.bool true))
  | no {t : Token} :
      t.kind = .keyword -> t.text = "false" -> Derives 7 [t] (.literal (.bool false))
  | name {t : Token} :
      t.isWord = true -> isReserved t = false -> Derives 7 [t] (.ident t.text)
  | defined {t name : Token} :
      t.kind = .ident -> t.text = "defined" -> name.isWord = true ->
      Derives 7 [t, name] (.defined name.text)
  | definedIn {t opening name closing : Token} :
      t.kind = .ident -> t.text = "defined" -> opening.isOp "(" = true -> name.isWord = true ->
      closing.isOp ")" = true -> Derives 7 [t, opening, name, closing] (.defined name.text)
  | paren {opening closing : Token} {ts : List Token} {c : Condition} :
      opening.isOp "(" = true -> Derives 0 ts c -> closing.isOp ")" = true ->
      Derives 7 (opening :: (ts ++ [closing])) c

namespace Derives

theorem loosen {n : Nat} {ts : List Token} {c : Condition} (h : Derives n ts c) {m : Nat}
    (hm : m ≤ n) : Derives m ts c := by
  induction hm with
  | refl => exact h
  | step _ ih => exact ih h.tighter

theorem ne_nil {n : Nat} {ts : List Token} {c : Condition} (h : Derives n ts c) : ts ≠ [] := by
  induction h with
  | tighter _ ih => exact ih
  | binary => simp
  | unary | integer | float | yes | no | name | defined | definedIn | paren =>
      exact List.cons_ne_nil _ _

theorem kind_ne_eof {n : Nat} {ts : List Token} {c : Condition} (h : Derives n ts c) :
    forall t, t ∈ ts -> t.kind ≠ .eof := by
  have hop {t : Token} {op : Text} (h : t.isOp op = true) : t.kind ≠ .eof := by
    intro heof
    simp [Token.isOp, heof] at h
  have hword {t : Token} (h : t.isWord = true) : t.kind ≠ .eof :=
    kind_ne_eof_of_isPart (isPart_of_isWord h)
  induction h with
  | tighter _ ih => exact ih
  | binary ht _ _ ihl ihr =>
      intro u hu
      rcases List.mem_append.mp hu with hu | hu
      · exact ihl u hu
      · rcases List.mem_cons.mp hu with rfl | hu
        · exact hop ht
        · exact ihr u hu
  | unary ht _ ih => exact List.forall_mem_cons.mpr ⟨hop ht, ih⟩
  | integer hkind | float hkind | yes hkind | no hkind => simp [hkind]
  | name ht => simpa using hword ht
  | defined hkind _ hname => simp [hkind, hword hname]
  | definedIn hkind _ hopen hname hclose => simp [hkind, hop hopen, hword hname, hop hclose]
  | paren hopen _ hclose ih =>
      refine List.forall_mem_cons.mpr ⟨hop hopen, ?_⟩
      intro u hu
      rcases List.mem_append.mp hu with hu | hu
      · exact ih u hu
      · rw [List.mem_singleton.mp hu]
        exact hop hclose

end Derives

/-!
# Operators of a level
-/

theorem mem_levelOps_iff {op : BinaryOp} {level : Nat} :
    op ∈ levelOps level ↔ op.level = level := by
  match level with
  | 0 | 1 | 2 | 3 | 4 | 5 => cases op <;> decide
  | level + 6 =>
      have hlt := op.level_lt
      constructor
      · intro hmem
        cases hmem
      · intro hlevel
        omega

theorem symbol_binary_inj {op op' : BinaryOp} (h : op.symbol = op'.symbol) : op = op' := by
  revert h
  cases op <;> cases op' <;> decide

theorem text_of_isOp {t : Token} {op : Text} (h : t.isOp op = true) : t.text = op := by
  simp only [Token.isOp, Bool.and_eq_true, beq_iff_eq] at h
  exact h.2

theorem binaryOf?_eq_some_iff {level : Nat} {t : Token} {op : BinaryOp} :
    binaryOf? level t = some op ↔ op.level = level ∧ t.isOp op.symbol = true := by
  constructor
  · intro h
    exact ⟨mem_levelOps_iff.mp (List.mem_of_find?_eq_some h), by simpa using List.find?_some h⟩
  · rintro ⟨hlevel, hop⟩
    cases hfind : binaryOf? level t with
    | none =>
        have hnone := List.find?_eq_none.mp hfind op (mem_levelOps_iff.mpr hlevel)
        exact absurd hop hnone
    | some op' =>
        have hop' : t.isOp op'.symbol = true := by simpa using List.find?_some hfind
        rw [symbol_binary_inj ((text_of_isOp hop').symm.trans (text_of_isOp hop))]

theorem isOp_of_isWord {t : Token} {op : Text} (h : t.isWord = true) : t.isOp op = false := by
  cases hop : t.isOp op with
  | false => rfl
  | true =>
      simp only [Token.isOp, Bool.and_eq_true, beq_iff_eq] at hop
      simp [Token.isWord, hop.1] at h

theorem unaryOf?_of_isOp {t : Token} {op : UnaryOp} (h : t.isOp op.symbol = true) :
    unaryOf? t = some op := by
  have htext := text_of_isOp h
  have hkind : t.kind = .operator := by
    simp only [Token.isOp, Bool.and_eq_true, beq_iff_eq] at h
    exact h.1
  unfold unaryOf?
  simp only [Token.isOp, hkind, htext]
  cases op <;> decide

/-!
# What is read is derived

A chain goes on from a left operand that was read before it.
-/

def Spans (level : Nat) (ts rest : List Token) (c : Condition) : Prop :=
  exists used, ts = used ++ rest ∧ Derives level used c

theorem spans_of_definedName {t : Token} (hkind : t.kind = .ident) (htext : t.text = "defined")
    {ts : List Token} {r : Extended ts} (h : definedName ts = .ok r) :
    Spans 7 (t :: ts) r.rest r.value := by
  unfold definedName at h
  split at h
  · cases h
  · rename_i u rest
    split at h
    · rename_i hopen
      split at h
      · cases h
      · rename_i name after
        split at h
        · cases h
        · rename_i hword
          split at h
          · cases h
          · rename_i close after'
            split at h
            · rename_i hclose
              cases h
              exact ⟨_, rfl, Derives.definedIn hkind htext hopen (by simpa using hword) hclose⟩
            · cases h
    · split at h
      · rename_i hword
        cases h
        exact ⟨[t, u], rfl, Derives.defined hkind htext hword⟩
      · cases h

mutual

theorem spans_of_parseLevel (level : Nat) (hlevel : level ≤ 6) (ts : List Token) {r : Parsed ts}
    (h : parseLevel level ts = .ok r) : Spans level ts r.rest r.value := by
  rw [parseLevel] at h
  split at h
  · rename_i hunary
    rw [Nat.le_antisymm hlevel hunary]
    exact spans_of_parseUnary ts h
  · rename_i hbinary
    split at h
    · cases h
    · rename_i left rest hlt hleft
      rcases spans_of_parseLevel (level + 1) (by omega) ts hleft with ⟨used, hsplit, hused⟩
      split at h
      · cases h
      · rename_i value rest' hle hchain
        cases h
        exact spans_of_parseChain level (by omega) left rest hchain ⟨used, hsplit, hused.tighter⟩
  termination_by (ts.length, 6 - level + 2)

theorem spans_of_parseChain (level : Nat) (hlevel : level < 6) (left : Condition) :
    (ts : List Token) -> {r : Extended ts} -> parseChain level left ts = .ok r ->
    {before : List Token} -> Spans level before ts left -> Spans level before r.rest r.value
  | [], _, h, _, hbefore => by
      rw [parseChain] at h
      cases h
      exact hbefore
  | t :: rest, _, h, _, hbefore => by
      rw [parseChain] at h
      split at h
      · cases h
        exact hbefore
      · rename_i op hop
        split at h
        · cases h
        · rename_i right rest' hlt hright
          rcases spans_of_parseLevel (level + 1) hlevel rest hright with ⟨us, hus, hder⟩
          split at h
          · cases h
          · rename_i value rest'' hle hchain
            cases h
            apply spans_of_parseChain level hlevel (.binary op left right) rest' hchain
            rcases hbefore with ⟨used, rfl, hused⟩
            rcases binaryOf?_eq_some_iff.mp hop with ⟨rfl, hsymbol⟩
            exact ⟨used ++ t :: us, by simp [hus], Derives.binary hsymbol hused hder⟩
  termination_by ts => (ts.length, 0)

theorem spans_of_parseUnary : (ts : List Token) -> {r : Parsed ts} -> parseUnary ts = .ok r ->
    Spans 6 ts r.rest r.value
  | [], _, h => by
      rw [parseUnary] at h
      cases h
  | t :: rest, _, h => by
      rw [parseUnary] at h
      split at h
      · rename_i op hop
        split at h
        · cases h
        · rename_i x rest' hlt hx
          cases h
          rcases spans_of_parseUnary rest hx with ⟨us, hus, hder⟩
          exact ⟨t :: us, congrArg (t :: ·) hus,
            Derives.unary (by simpa using List.find?_some hop) hder⟩
      · rcases spans_of_parsePrimary t rest h with ⟨used, hsplit, hused⟩
        exact ⟨used, hsplit, hused.tighter⟩
  termination_by ts => (ts.length, 1)

theorem spans_of_parsePrimary (t : Token) (rest : List Token) {r : Parsed (t :: rest)}
    (h : parsePrimary t rest = .ok r) : Spans 7 (t :: rest) r.rest r.value := by
  rw [parsePrimary] at h
  split at h
  · rename_i hnumber
    split at h
    · cases h
    · rename_i v hv
      cases h
      refine ⟨[t], rfl, ?_⟩
      unfold number at hv
      split at hv
      · rename_i hfloat
        split at hv
        · rename_i hvalue
          cases hv
          exact Derives.float (beq_iff_eq.mp hfloat) hvalue
        · cases hv
      · rename_i hfloat
        split at hv
        · rename_i hvalue
          cases hv
          exact Derives.integer (by simpa [hfloat] using hnumber) hvalue
        · cases hv
  · split at h
    · rename_i hword
      cases h
      simp only [Bool.and_eq_true, beq_iff_eq] at hword
      exact ⟨[t], rfl, Derives.yes hword.1 hword.2⟩
    · split at h
      · rename_i hword
        cases h
        simp only [Bool.and_eq_true, beq_iff_eq] at hword
        exact ⟨[t], rfl, Derives.no hword.1 hword.2⟩
      · split at h
        · rename_i hword
          simp only [Bool.and_eq_true, beq_iff_eq] at hword
          split at h
          · cases h
          · rename_i value rest' hle hname
            cases h
            exact spans_of_definedName hword.1 hword.2 hname
        · rename_i htrue hfalse hdefined
          split at h
          · rename_i hword
            cases h
            refine ⟨[t], rfl, Derives.name hword ?_⟩
            simp_all [isReserved]
          · split at h
            · rename_i hopen
              split at h
              · cases h
              · cases h
              · rename_i value close rest' hlt hvalue
                rcases spans_of_parseLevel 0 (by decide) rest hvalue with ⟨us, hus, hder⟩
                split at h
                · rename_i hclose
                  cases h
                  exact ⟨t :: (us ++ [close]), by simp [hus], Derives.paren hopen hder hclose⟩
                · cases h
            · split at h
              · cases h
              · cases h
  termination_by (rest.length + 1, 0)

end

/-!
# What is derived is read

A derivation of some level is read in front of any tokens that do not start with
a tighter operator; a chain of its level goes on behind it.
-/

def Accepts (level : Nat) (ts : List Token) (c : Condition) (rest : List Token) : Prop :=
  exists h, parseLevel level ts = .ok ⟨c, rest, h⟩

def Continues (level : Nat) (left : Condition) (ts : List Token) (c : Condition)
    (rest : List Token) : Prop :=
  exists h, parseChain level left ts = .ok ⟨c, rest, h⟩

/-- An operator that comes next is looser than the level. -/
def Follows (level : Nat) (ts : List Token) : Prop :=
  forall op : BinaryOp, (Stream.peek ts).isOp op.symbol = true -> op.level < level

theorem Follows.mono {m n : Nat} {ts : List Token} (h : Follows m ts) (hmn : m ≤ n) :
    Follows n ts := by
  intro op hop
  exact Nat.lt_of_lt_of_le (h op hop) hmn

theorem follows_of_six_le {level : Nat} (hlevel : 6 ≤ level) (ts : List Token) :
    Follows level ts := by
  intro op _
  exact Nat.lt_of_lt_of_le op.level_lt hlevel

theorem follows_of_isOp {t : Token} {op : BinaryOp} (h : t.isOp op.symbol = true)
    (ts : List Token) : Follows (op.level + 1) (t :: ts) := by
  intro op' hop'
  have htext : op'.symbol = op.symbol := (text_of_isOp hop').symm.trans (text_of_isOp h)
  rw [symbol_binary_inj htext]
  exact Nat.lt_succ_self op.level

theorem follows_of_close {t : Token} (h : t.isOp ")" = true) (level : Nat) (ts : List Token) :
    Follows level (t :: ts) := by
  intro op hop
  have htext : op.symbol = ")" := (text_of_isOp hop).symm.trans (text_of_isOp h)
  exact absurd htext (by cases op <;> decide)

theorem follows_of_eof {t : Token} (h : t.kind = .eof) (level : Nat) (ts : List Token) :
    Follows level (t :: ts) := by
  intro op hop
  simp [Stream.peek, Token.isOp, h] at hop

theorem Continues.stop {level : Nat} {ts : List Token} (h : Follows level ts) (c : Condition) :
    Continues level c ts c ts := by
  cases ts with
  | nil => exact ⟨length_le_same [], by rw [parseChain]; rfl⟩
  | cons t ts =>
      have hnone : binaryOf? level t = none := by
        cases hop : binaryOf? level t with
        | none => rfl
        | some op =>
            rcases binaryOf?_eq_some_iff.mp hop with ⟨hlevel, hsymbol⟩
            exact absurd hlevel (Nat.ne_of_lt (h op hsymbol))
      exact ⟨length_le_same _, by rw [parseChain, hnone]; rfl⟩

theorem Continues.operator {op : BinaryOp} {t : Token} (hop : t.isOp op.symbol = true)
    {us ts rest : List Token} {left right c : Condition}
    (hright : Accepts (op.level + 1) us right ts)
    (hrest : Continues op.level (.binary op left right) ts c rest) :
    Continues op.level left (t :: us) c rest := by
  rcases hright with ⟨hlt, hright⟩
  rcases hrest with ⟨hle, hrest⟩
  refine ⟨le_cons_of_le_of_lt t hlt hle, ?_⟩
  rw [parseChain, binaryOf?_eq_some_iff.mpr ⟨rfl, hop⟩]
  simp only [hright, hrest]

theorem Accepts.chain {level : Nat} (hlevel : level < 6) {ts us rest : List Token}
    {left c : Condition} (hleft : Accepts (level + 1) ts left us)
    (hrest : Continues level left us c rest) : Accepts level ts c rest := by
  rcases hleft with ⟨hlt, hleft⟩
  rcases hrest with ⟨hle, hrest⟩
  refine ⟨lt_of_le_of_lt hlt hle, ?_⟩
  rw [parseLevel, if_neg (Nat.not_le.mpr hlevel)]
  simp only [hleft, hrest]

theorem accepts_iff_of_six_le {level : Nat} (hlevel : 6 ≤ level) {ts rest : List Token}
    {c : Condition} : Accepts level ts c rest ↔ exists h, parseUnary ts = .ok ⟨c, rest, h⟩ := by
  unfold Accepts
  rw [parseLevel, if_pos hlevel]

theorem Accepts.prefix {op : UnaryOp} {t : Token} (hop : t.isOp op.symbol = true)
    {ts rest : List Token} {x : Condition} (hx : Accepts 6 ts x rest) :
    Accepts 6 (t :: ts) (.unary op x) rest := by
  rw [accepts_iff_of_six_le (Nat.le_refl 6)] at hx ⊢
  rcases hx with ⟨hlt, hx⟩
  refine ⟨lt_cons_of_lt t hlt, ?_⟩
  rw [parseUnary, unaryOf?_of_isOp hop]
  simp only [hx]

theorem accepts_primary {t : Token} (ht : unaryOf? t = none) {ts rest : List Token}
    {c : Condition} (h : exists hlt, parsePrimary t ts = .ok ⟨c, rest, hlt⟩) :
    Accepts 7 (t :: ts) c rest := by
  rw [accepts_iff_of_six_le (by decide)]
  rcases h with ⟨hlt, h⟩
  refine ⟨hlt, ?_⟩
  rw [parseUnary, ht]
  exact h

theorem unaryOf?_eq_none {t : Token} (h : t.kind ≠ .operator) : unaryOf? t = none := by
  apply List.find?_eq_none.mpr
  intro op _
  simp [Token.isOp, h]

theorem accepts_number {t : Token} {v : Value} (hkind : t.kind = .integer ∨ t.kind = .float)
    (h : number t = .ok v) (rest : List Token) : Accepts 7 (t :: rest) (.literal v) rest := by
  have hnumber : (t.kind == .integer || t.kind == .float) = true := by
    rcases hkind with hkind | hkind <;> rw [hkind] <;> rfl
  refine accepts_primary (unaryOf?_eq_none ?_) ⟨length_lt_cons t rest, ?_⟩
  · rcases hkind with hkind | hkind <;> simp [hkind]
  · rw [parsePrimary, if_pos hnumber]
    simp only [h]

theorem accepts_name {t : Token} (hword : t.isWord = true) (h : isReserved t = false)
    (rest : List Token) : Accepts 7 (t :: rest) (.ident t.text) rest := by
  have hkind : t.kind = .ident ∨ t.kind = .keyword ∨ t.kind = .builtin := by
    simpa [Token.isWord, or_assoc] using hword
  refine accepts_primary (unaryOf?_eq_none ?_) ⟨length_lt_cons t rest, ?_⟩
  · rcases hkind with hkind | hkind | hkind <;> simp [hkind]
  · rw [parsePrimary]
    rcases hkind with hkind | hkind | hkind <;> simp_all [isReserved, Token.isWord]

theorem accepts_defined {t : Token} (hkind : t.kind = .ident) (htext : t.text = "defined")
    {ts rest : List Token} {c : Condition}
    (h : exists hle, definedName ts = .ok ⟨c, rest, hle⟩) : Accepts 7 (t :: ts) c rest := by
  rcases h with ⟨hle, h⟩
  refine accepts_primary (unaryOf?_eq_none (by simp [hkind])) ⟨lt_cons_of_le t hle, ?_⟩
  rw [parsePrimary]
  simp [hkind, htext, h]

theorem accepts_paren {opening closing : Token} (hopen : opening.isOp "(" = true)
    (hclose : closing.isOp ")" = true) {ts rest : List Token} {c : Condition}
    (h : Accepts 0 ts c (closing :: rest)) : Accepts 7 (opening :: ts) c rest := by
  rcases h with ⟨hlt, h⟩
  have hkind : opening.kind = .operator ∧ opening.text = "(" := by
    simpa [Token.isOp] using hopen
  have hunary : unaryOf? opening = none := by
    unfold unaryOf?
    simp only [Token.isOp, hkind.1, hkind.2]
    decide
  refine accepts_primary hunary ⟨lt_cons_of_cons_lt opening closing hlt, ?_⟩
  rw [parsePrimary]
  simp [hkind.1, Token.isWord, hopen, h, hclose]

theorem Continues.eq_of_six_le {level : Nat} (hlevel : 6 ≤ level) {ts rest : List Token}
    {left c : Condition} (h : Continues level left ts c rest) : c = left ∧ rest = ts := by
  rcases h with ⟨_, h⟩
  rcases Continues.stop (follows_of_six_le hlevel ts) left with ⟨_, hstop⟩
  rw [hstop] at h
  cases h
  exact ⟨rfl, rfl⟩

theorem Derives.accepts {level : Nat} {us : List Token} {d : Condition}
    (hder : Derives level us d) {ts rest : List Token} {c : Condition}
    (hfollows : Follows (level + 1) ts) (hrest : Continues level d ts c rest) :
    Accepts level (us ++ ts) c rest := by
  induction hder generalizing ts rest c with
  | @tighter level us d _ ih =>
      have hleft := ih (hfollows.mono (Nat.le_succ _)) (Continues.stop hfollows d)
      rcases Nat.lt_or_ge level 6 with hlevel | hlevel
      · exact hleft.chain hlevel hrest
      · rcases hrest.eq_of_six_le hlevel with ⟨rfl, rfl⟩
        rw [accepts_iff_of_six_le (Nat.le_succ_of_le hlevel)] at hleft
        rwa [accepts_iff_of_six_le hlevel]
  | @binary op t us vs left right hop _ _ ihl ihr =>
      have hright := ihr (hfollows.mono (Nat.le_succ _)) (Continues.stop hfollows right)
      rw [List.append_assoc]
      exact ihl (follows_of_isOp hop _) (Continues.operator hop hright hrest)
  | @unary op t us x hop _ ih =>
      rcases hrest.eq_of_six_le (Nat.le_refl 6) with ⟨rfl, rfl⟩
      have hx := ih hfollows (Continues.stop (follows_of_six_le (Nat.le_refl 6) _) x)
      exact hx.prefix hop
  | @integer t v hkind hvalue =>
      rcases hrest.eq_of_six_le (by decide) with ⟨rfl, rfl⟩
      exact accepts_number (Or.inl hkind) (by simp [number, hkind, hvalue]) _
  | @float t v hkind hvalue =>
      rcases hrest.eq_of_six_le (by decide) with ⟨rfl, rfl⟩
      exact accepts_number (Or.inr hkind) (by simp [number, hkind, hvalue]) _
  | @yes t hkind htext =>
      rcases hrest.eq_of_six_le (by decide) with ⟨rfl, rfl⟩
      refine accepts_primary (unaryOf?_eq_none (by simp [hkind])) ⟨length_lt_cons t rest, ?_⟩
      rw [parsePrimary]
      simp [hkind, htext]
  | @no t hkind htext =>
      rcases hrest.eq_of_six_le (by decide) with ⟨rfl, rfl⟩
      have hfalse : ("false" : Text) ≠ ("true" : Text) := by decide
      refine accepts_primary (unaryOf?_eq_none (by simp [hkind])) ⟨length_lt_cons t rest, ?_⟩
      rw [parsePrimary]
      simp [hkind, htext, hfalse]
  | name hword hreserved =>
      rcases hrest.eq_of_six_le (by decide) with ⟨rfl, rfl⟩
      exact accepts_name hword hreserved _
  | @defined t name hkind htext hword =>
      rcases hrest.eq_of_six_le (by decide) with ⟨rfl, rfl⟩
      have hparen : name.isOp "(" = false := isOp_of_isWord hword
      refine accepts_defined hkind htext ⟨length_le_cons name rest, ?_⟩
      simp [definedName, hparen, hword]
  | @definedIn t opening name closing hkind htext hopen hword hclose =>
      rcases hrest.eq_of_six_le (by decide) with ⟨rfl, rfl⟩
      refine accepts_defined hkind htext ⟨length_le_three opening name closing rest, ?_⟩
      simp [definedName, hopen, hword, hclose]
  | @paren opening closing us d hopen _ hclose ih =>
      rcases hrest.eq_of_six_le (by decide) with ⟨rfl, rfl⟩
      have hinner := ih (follows_of_close hclose 1 rest)
        (Continues.stop (follows_of_close hclose 0 rest) _)
      rw [List.cons_append, List.append_assoc]
      exact accepts_paren hopen hclose hinner

/-!
# Sources
-/

/-- A whole stream is read exactly if what stands before its end marker is derived. -/
theorem parseTokens_eq_ok_iff {ts : List Token} (hts : forall t, t ∈ ts -> t.kind ≠ .eof)
    (q : Position) {c : Condition} :
    parseTokens (ts ++ [Token.endAt q]) = .ok c ↔ Derives 0 ts c := by
  constructor
  · intro h
    unfold parseTokens at h
    split at h
    · cases h
    · split at h
      · cases h
      · rename_i r hlevel
        split at h
        · rename_i hend
          cases h
          rcases spans_of_parseLevel 0 (by decide) _ hlevel with ⟨used, hsplit, hused⟩
          have heq : ts = used := used_eq_of_atEnd hsplit hts hused.kind_ne_eof hend
          subst heq
          exact hused
        · cases h
  · intro h
    have hfollows : forall n, Follows n [Token.endAt q] := fun n => follows_of_eof rfl n []
    rcases h.accepts (hfollows 1) (Continues.stop (hfollows 0) c) with ⟨hlt, hlevel⟩
    have hstart : Stream.atEnd (ts ++ [Token.endAt q]) = false := by
      cases ts with
      | nil => exact absurd rfl h.ne_nil
      | cons t ts => simpa [Stream.atEnd, Stream.peek] using hts t List.mem_cons_self
    unfold parseTokens
    rw [hstart, hlevel]
    rfl

theorem exists_significant_eq {source : Text} {ts : List Token} (h : tokenize source = .ok ts) :
    exists us q, significant ts = us ++ [Token.endAt q] ∧ forall u, u ∈ us -> u.kind ≠ .eof := by
  rcases Lexer.tokenize_eq_ok_iff.mp h with ⟨ws, hlexes, rfl⟩
  rcases hlexes.place_eq Position.start with ⟨ts, q, hplace, hts⟩
  refine ⟨significant ts, q, ?_, ?_⟩
  · rw [hplace, significant, List.filter_append]
    rfl
  · intro u hu
    exact (hts u (List.mem_filter.mp hu).1).1

theorem parse_eq_ok_iff {source : Text} {c : Condition} :
    parse source = .ok c ↔
      exists ts, tokenize source = .ok ts ∧ Derives 0 (significant ts).dropLast c := by
  have hbody {ts : List Token} (htokens : tokenize source = .ok ts) :
      parseTokens (significant ts) = .ok c ↔ Derives 0 (significant ts).dropLast c := by
    rcases exists_significant_eq htokens with ⟨us, q, hus, heof⟩
    rw [hus, List.dropLast_concat]
    exact parseTokens_eq_ok_iff heof q
  constructor
  · intro h
    unfold parse at h
    split at h
    · cases h
    · rename_i ts htokens
      split at h
      · cases h
      · rename_i c' hparse
        cases h
        exact ⟨ts, htokens, (hbody htokens).mp hparse⟩
  · rintro ⟨ts, htokens, hder⟩
    exact parse_of_tokenize htokens ((hbody htokens).mpr hder)

end Condition

end EffectShader
