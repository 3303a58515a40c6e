import EffectShader.Check.Grammar.Basic
import EffectShader.Token.Stream

/-!
# Runs of a production

A production is put together from a few ways of reading: one part after another, a choice
by the next token, a choice by the next two.  Such a production never looks behind the
end marker, and little further than it reads.  What it recognizes does not depend on
what follows, as long as the next token stays or is the end marker; where it fails is
decided by the tokens before, the failing one and one more, and if the source is cut
off there, the production does not fail before the cut.  The recognized tokens close the
brackets that are open when the production starts, and all that they open themselves.
-/

namespace EffectShader

/-!
# Brackets

Brackets are balanced if every one that is opened is closed by one of its kind, inside
of what encloses it.  This is so exactly if the closing ones can be taken off a stack of
the open ones.
-/

inductive Bracket where
  | round
  | square
  | curly
  deriving DecidableEq, Repr

namespace Bracket

def all : List Bracket := [.round, .square, .curly]

def opening : Bracket -> Text
  | .round => "("
  | .square => "["
  | .curly => Op.openBrace

def closing : Bracket -> Text
  | .round => ")"
  | .square => "]"
  | .curly => Op.closeBrace

def isText (s : Text) : Bool :=
  all.any fun b => s == b.opening || s == b.closing

def opened? (t : Token) : Option Bracket :=
  all.find? fun b => t.isOp b.opening

def closed? (t : Token) : Option Bracket :=
  all.find? fun b => t.isOp b.closing

def isBracket (t : Token) : Bool :=
  t.kind == .operator && isText t.text

def step? (st : List Bracket) (t : Token) : Option (List Bracket) :=
  match opened? t with
  | some b => some (b :: st)
  | none =>
      match closed? t with
      | none => some st
      | some b => if st.head? = some b then some st.tail else none

def scan? (st : List Bracket) (ts : List Token) : Option (List Bracket) :=
  ts.foldlM step? st

@[simp] theorem scan?_nil (st : List Bracket) : scan? st [] = some st := rfl

theorem scan?_cons (st : List Bracket) (t : Token) (ts : List Token) :
    scan? st (t :: ts) = (step? st t).bind fun st => scan? st ts := rfl

theorem scan?_append (st : List Bracket) (ts us : List Token) :
    scan? st (ts ++ us) = (scan? st ts).bind fun st => scan? st us :=
  List.foldlM_append

/-!
# Single tokens
-/

theorem step?_of_opening {t : Token} {b : Bracket} (h : t.isOp b.opening = true)
    (st : List Bracket) : step? st t = some (b :: st) := by
  unfold Token.isOp at h
  rw [Bool.and_eq_true, beq_iff_eq, beq_iff_eq] at h
  unfold step? opened? Token.isOp
  rw [h.1, h.2]
  cases b <;> rfl

theorem step?_of_closing {t : Token} {b : Bracket} (h : t.isOp b.closing = true)
    (st : List Bracket) : step? (b :: st) t = some st := by
  unfold Token.isOp at h
  rw [Bool.and_eq_true, beq_iff_eq, beq_iff_eq] at h
  unfold step? opened? closed? Token.isOp
  rw [h.1, h.2]
  cases b <;> rfl

theorem mem_all (b : Bracket) : b ∈ all := by
  cases b <;> decide

theorem opened?_eq_some {t : Token} {b : Bracket} (h : opened? t = some b) :
    t.isOp b.opening = true :=
  List.find?_some (p := fun b => t.isOp (opening b)) h

theorem closed?_eq_some {t : Token} {b : Bracket} (h : closed? t = some b) :
    t.isOp b.closing = true :=
  List.find?_some (p := fun b => t.isOp (closing b)) h

theorem isBracket_iff {t : Token} :
    isBracket t = true ↔ exists b : Bracket, t.isOp b.opening = true ∨ t.isOp b.closing = true := by
  unfold isBracket isText Token.isOp
  rw [Bool.and_eq_true, List.any_eq_true]
  constructor
  · rintro ⟨hkind, b, _, htext⟩
    exact ⟨b, by simpa [hkind] using htext⟩
  · rintro ⟨b, h⟩
    have htext : (t.kind == .operator) = true ∧ (t.text = b.opening ∨ t.text = b.closing) := by
      simpa [← and_or_left] using h
    exact ⟨htext.1, b, mem_all b, by simpa using htext.2⟩

theorem isBracket_eq_false_iff {t : Token} :
    isBracket t = false ↔ opened? t = none ∧ closed? t = none := by
  unfold opened? closed?
  rw [Bool.eq_false_iff, ne_eq, isBracket_iff, List.find?_eq_none, List.find?_eq_none]
  constructor
  · intro h
    exact ⟨fun b _ ho => h ⟨b, Or.inl ho⟩, fun b _ hc => h ⟨b, Or.inr hc⟩⟩
  · rintro ⟨hopened, hclosed⟩ ⟨b, ho | hc⟩
    · exact hopened b (mem_all b) ho
    · exact hclosed b (mem_all b) hc

theorem step?_of_not_isBracket {t : Token} (h : isBracket t = false) (st : List Bracket) :
    step? st t = some st := by
  rcases isBracket_eq_false_iff.mp h with ⟨hopened, hclosed⟩
  unfold step?
  rw [hopened, hclosed]

theorem scan?_filter {keep : Token -> Bool} {ts : List Token}
    (h : forall t, t ∈ ts -> keep t = false -> isBracket t = false) (st : List Bracket) :
    scan? st (ts.filter keep) = scan? st ts := by
  induction ts generalizing st with
  | nil => rfl
  | cons t ts ih =>
      have hrest : forall u, u ∈ ts -> keep u = false -> isBracket u = false :=
        fun u hu => h u (List.mem_cons_of_mem t hu)
      rw [List.filter_cons, scan?_cons]
      split
      · rw [scan?_cons]
        congr 1
        funext st'
        exact ih hrest st'
      · rename_i hkeep
        rw [step?_of_not_isBracket (h t List.mem_cons_self (by simpa using hkeep))]
        exact ih hrest st

/-!
# Balanced tokens
-/

/-- Every bracket is closed by one of its kind, and what stands between the two is balanced. -/
inductive Balanced : List Token -> Prop where
  | nil : Balanced []
  | other {t : Token} {ts : List Token} : isBracket t = false -> Balanced ts -> Balanced (t :: ts)
  | group {o c : Token} {b : Bracket} {ts us : List Token} : o.isOp b.opening = true ->
      c.isOp b.closing = true -> Balanced ts -> Balanced us -> Balanced (o :: (ts ++ c :: us))

theorem Balanced.append {ts us : List Token} (hts : Balanced ts) (hus : Balanced us) :
    Balanced (ts ++ us) := by
  induction hts with
  | nil => exact hus
  | other ht _ ih => exact Balanced.other ht ih
  | group ho hc hinside _ _ ih =>
      rw [List.cons_append, List.append_assoc, List.cons_append]
      exact Balanced.group ho hc hinside ih

inductive Closes : List Bracket -> List Token -> Prop where
  | balanced {ts : List Token} : Balanced ts -> Closes [] ts
  | close {b : Bracket} {st : List Bracket} {ts us : List Token} {c : Token} : Balanced ts ->
      c.isOp b.closing = true -> Closes st us -> Closes (b :: st) (ts ++ c :: us)

theorem Closes.prepend {st : List Bracket} {ts us : List Token} (hts : Balanced ts)
    (h : Closes st us) : Closes st (ts ++ us) := by
  cases h with
  | balanced hus => exact Closes.balanced (hts.append hus)
  | close hinside hc hrest =>
      rw [← List.append_assoc]
      exact Closes.close (hts.append hinside) hc hrest

theorem closes_of_scan? {st : List Bracket} {ts : List Token} (h : scan? st ts = some []) :
    Closes st ts := by
  induction ts generalizing st with
  | nil =>
      cases h
      exact Closes.balanced Balanced.nil
  | cons t ts ih =>
      rw [scan?_cons] at h
      rcases Option.bind_eq_some_iff.mp h with ⟨st', hstep, hrest⟩
      have hcloses := ih hrest
      unfold step? at hstep
      split at hstep
      · rename_i b hopened
        cases hstep
        cases hcloses with
        | close hinside hc hafter =>
            have hgroup := Balanced.group (opened?_eq_some hopened) hc hinside Balanced.nil
            rw [List.append_cons, ← List.cons_append]
            exact hafter.prepend hgroup
      · split at hstep
        · rename_i hopened _ hclosed
          cases hstep
          change Closes st ([t] ++ ts)
          apply hcloses.prepend
          exact Balanced.other (isBracket_eq_false_iff.mpr ⟨hopened, hclosed⟩) Balanced.nil
        · rename_i b hclosed
          split at hstep
          · rename_i hhead
            cases hstep
            cases st with
            | nil => cases hhead
            | cons top st =>
                cases hhead
                exact Closes.close Balanced.nil (closed?_eq_some hclosed) hcloses
          · cases hstep

theorem balanced_of_scan? {ts : List Token} (h : scan? [] ts = some []) : Balanced ts := by
  cases closes_of_scan? h with
  | balanced hts => exact hts

end Bracket

namespace Grammar

open EffectShader.Stream (peek)

/-!
# Ways of reading
-/

abbrev Production := List Token -> Except Mismatch (List Token)

def view (f : (ts : List Token) -> Recognized ts) : Production :=
  fun ts => (f ts).map fun r => r.val

def viewAny (f : (ts : List Token) -> Continued ts) : Production :=
  fun ts => (f ts).map fun r => r.val

theorem length_of_view {f : (ts : List Token) -> Recognized ts} {ts r : List Token}
    (h : view f ts = .ok r) : r.length < ts.length := by
  unfold view at h
  cases hf : f ts with
  | error e =>
      rw [hf] at h
      cases h
  | ok s =>
      rw [hf] at h
      cases h
      exact s.property

theorem length_of_viewAny {f : (ts : List Token) -> Continued ts} {ts r : List Token}
    (h : viewAny f ts = .ok r) : r.length ≤ ts.length := by
  unfold viewAny at h
  cases hf : f ts with
  | error e =>
      rw [hf] at h
      cases h
  | ok s =>
      rw [hf] at h
      cases h
      exact s.property

def done : Production := Except.ok

def fail (x : Expected) : Production := mismatch x

def andThen (f g : Production) : Production :=
  fun ts => (f ts).bind g

def onNext (p : Token -> Bool) (f : Token -> Production) (g : Production) : Production :=
  fun ts => if p (peek ts) then f (peek ts) ts.tail else g ts

theorem onNext_cons (p : Token -> Bool) (f : Token -> Production) (g : Production) (t : Token)
    (ts : List Token) : onNext p f g (t :: ts) = if p t then f t ts else g (t :: ts) := rfl

def onTwo (p q : Token -> Bool) (f g : Production) : Production :=
  fun ts => if p (peek ts) && q (peek ts.tail) then f ts.tail.tail else g ts

def unlessEnd (x : Expected) (f : Production) : Production :=
  fun ts => if Stream.atEnd ts then fail x ts else f ts

def token (x : Expected) (p : Token -> Bool) : Production :=
  onNext p (fun _ => done) (fail x)

def IsEnd (t : Token) : Prop :=
  t.kind = .eof ∧ t.text = []

theorem isEnd_peek_nil : IsEnd (peek []) := ⟨rfl, rfl⟩

structure Reads (p : Token -> Bool) (before after : List Bracket) : Prop where
  inside : forall t, p t = true -> ¬ IsEnd t
  step : forall t, p t = true -> forall st,
    Bracket.step? (before ++ st) t = some (after ++ st)

namespace Reads

variable {p q : Token -> Bool} {before after : List Bracket}

theorem of_not_isBracket (h : forall t, p t = true -> ¬ IsEnd t ∧ Bracket.isBracket t = false)
    (st : List Bracket) : Reads p st st :=
  ⟨fun t ht => (h t ht).1, fun t ht _ => Bracket.step?_of_not_isBracket (h t ht).2 _⟩

theorem of_kind (h : forall t, p t = true -> t.kind ≠ .operator ∧ t.kind ≠ .eof)
    (st : List Bracket) : Reads p st st := by
  apply of_not_isBracket
  intro t ht
  rcases h t ht with ⟨hoperator, heof⟩
  refine ⟨fun hend => heof hend.1, ?_⟩
  unfold Bracket.isBracket
  rw [beq_false_of_ne hoperator]
  rfl

theorem not_isEnd_of_isOp {t : Token} {op : Text} (h : t.isOp op = true) : ¬ IsEnd t := by
  rintro ⟨hkind, _⟩
  unfold Token.isOp at h
  rw [hkind] at h
  cases h

theorem op {s : Text} (h : Bracket.isText s = false) (st : List Bracket) :
    Reads (fun t => t.isOp s) st st := by
  apply of_not_isBracket
  intro t ht
  refine ⟨not_isEnd_of_isOp ht, ?_⟩
  unfold Token.isOp at ht
  rw [Bool.and_eq_true, beq_iff_eq, beq_iff_eq] at ht
  unfold Bracket.isBracket
  rw [ht.2, h, Bool.and_false]

theorem opening (b : Bracket) (st : List Bracket) :
    Reads (fun t => t.isOp b.opening) st (b :: st) :=
  ⟨fun _ ht => not_isEnd_of_isOp ht, fun _ ht _ => Bracket.step?_of_opening ht _⟩

theorem closing (b : Bracket) (st : List Bracket) :
    Reads (fun t => t.isOp b.closing) (b :: st) st :=
  ⟨fun _ ht => not_isEnd_of_isOp ht, fun _ ht _ => Bracket.step?_of_closing ht _⟩

theorem eq_false_of_isEnd (h : Reads p before after) {t : Token} (ht : IsEnd t) : p t = false :=
  Bool.eq_false_iff.mpr fun hp => h.inside t hp ht

end Reads

/-!
# Tokens that follow
-/

/-- The next token is the same, or there is none. -/
def Fits (ts us : List Token) : Prop :=
  peek us = peek ts ∨ IsEnd (peek us)

/-- The next token is the same, and so is the one after it, unless there is none. -/
def Alike (ts us : List Token) : Prop :=
  peek us = peek ts ∧ (IsEnd (peek ts) ∨ peek us.tail = peek ts.tail)

section Follow

variable {ts us : List Token} {p q : Token -> Bool} {before after : List Bracket}

theorem Fits.refl (ts : List Token) : Fits ts ts := Or.inl rfl

theorem Alike.refl (ts : List Token) : Alike ts ts := ⟨rfl, Or.inr rfl⟩

theorem Alike.fits (h : Alike ts us) : Fits ts us := Or.inl h.1

theorem Fits.append (w : List Token) (h : Fits ts us) : Fits (w ++ ts) (w ++ us) := by
  cases w with
  | nil => exact h
  | cons t w => exact Or.inl rfl

theorem fits_of_isEnd (h : IsEnd (peek us)) : Fits ts us := Or.inr h

theorem Fits.eq_false (h : Fits ts us) (hp : Reads p before after) (hts : p (peek ts) = false) :
    p (peek us) = false := by
  rcases h with h | h
  · rw [h, hts]
  · exact hp.eq_false_of_isEnd h

def FitsTwo (ts us : List Token) : Prop :=
  (peek us = peek ts ∧ Fits ts.tail us.tail) ∨ IsEnd (peek us)

theorem Fits.cons (t : Token) (h : Fits ts us) : FitsTwo (t :: ts) (t :: us) :=
  Or.inl ⟨rfl, h⟩

theorem Alike.append (w : List Token) (h : Alike ts us) : FitsTwo (w ++ ts) (w ++ us) := by
  cases w with
  | nil =>
      rcases h with ⟨hfirst, hend | hsecond⟩
      · exact Or.inr (hfirst ▸ hend)
      · exact Or.inl ⟨hfirst, Or.inl hsecond⟩
  | cons t w => exact (h.fits.append w).cons t

theorem fitsTwo_of_isEnd (w : List Token) (h : IsEnd (peek us)) :
    FitsTwo (w ++ ts) (w ++ us) := by
  cases w with
  | nil => exact Or.inr h
  | cons t w => exact ((fits_of_isEnd h).append w).cons t

theorem FitsTwo.eq_false {middle : List Bracket} (h : FitsTwo ts us) (hp : Reads p before middle)
    (hq : Reads q middle after) (hts : (p (peek ts) && q (peek ts.tail)) = false) :
    (p (peek us) && q (peek us.tail)) = false := by
  rcases h with ⟨hfirst, hsecond⟩ | h
  · rw [hfirst]
    cases hpeek : p (peek ts) with
    | false => rfl
    | true =>
        rw [hpeek, Bool.true_and] at hts
        exact hsecond.eq_false hq hts
  · rw [hp.eq_false_of_isEnd h]
    rfl

end Follow

/-!
# Local productions
-/

/-- The production recognizes these tokens, whatever comes behind the next one. -/
structure Consumes (f : Production) (opened : List Bracket) (w r : List Token) : Prop where
  inside : forall t, t ∈ w -> ¬ IsEnd t
  brackets : forall st, Bracket.scan? (opened ++ st) w = some st
  run : forall us, Fits r us -> f (w ++ us) = .ok us

/-- The production fails behind these tokens, whatever comes behind the next two. -/
structure StopsAt {α : Type} (f : List Token -> Except Mismatch α) (w r : List Token)
    (m : Mismatch) : Prop where
  inside : forall t, t ∈ w -> ¬ IsEnd t
  found : m.found = peek r
  run : forall us, Alike r us -> f (w ++ us) = .error m
  cut : forall us, IsEnd (peek us) -> exists x, f (w ++ us) = .error ⟨x, peek us⟩

/-- On some tokens the production comes to an end without looking far ahead; where it is
successful it closes the given brackets. -/
inductive Local (f : Production) (opened : List Bracket) (ts : List Token) : Prop where
  | ok {w r : List Token} : ts = w ++ r -> Consumes f opened w r -> Local f opened ts
  | error {w r : List Token} {m : Mismatch} : ts = w ++ r -> StopsAt f w r m -> Local f opened ts

namespace Local

variable {f g : Production} {p q : Token -> Bool} {opened opened' middle : List Bracket}
  {ts : List Token}

theorem length_le (h : Local f opened ts) {r : List Token} (hr : f ts = .ok r) :
    r.length ≤ ts.length := by
  cases h with
  | @ok w s hts hconsumes =>
      subst hts
      rw [hconsumes.run s (Fits.refl s)] at hr
      cases hr
      rw [List.length_append]
      exact Nat.le_add_left _ _
  | @error w s m hts hstops =>
      subst hts
      rw [hstops.run s (Alike.refl s)] at hr
      cases hr

theorem done (ts : List Token) : Local done [] ts := by
  refine ok (w := []) (r := ts) rfl ⟨by simp, fun _ => rfl, fun _ _ => rfl⟩

theorem fail (x : Expected) (opened : List Bracket) (ts : List Token) :
    Local (fail x) opened ts := by
  refine error (w := []) (r := ts) (m := ⟨x, peek ts⟩) rfl ⟨by simp, rfl, ?_, fun _ _ => ⟨x, rfl⟩⟩
  intro us h
  change Except.error (Mismatch.mk x (peek us)) = _
  rw [h.1]

theorem andThen_append (hf : Local f opened ts)
    (hg : forall r, f ts = .ok r -> Local g opened' r) :
    Local (andThen f g) (opened ++ opened') ts := by
  cases hf with
  | error hts hstops =>
      refine error hts ⟨hstops.inside, hstops.found, ?_, ?_⟩
      · intro us hus
        rw [Grammar.andThen, hstops.run us hus]
        rfl
      · intro us hus
        rcases hstops.cut us hus with ⟨x, hx⟩
        refine ⟨x, ?_⟩
        rw [Grammar.andThen, hx]
        rfl
  | @ok w r hts hconsumes =>
      have hrun : f ts = .ok r := hts ▸ hconsumes.run r (Fits.refl r)
      have hfirst {us : List Token} (hus : Fits r us) :
          Grammar.andThen f g (w ++ us) = g us := by
        rw [Grammar.andThen, hconsumes.run us hus]
        rfl
      have hinside {v : List Token} (hv : forall t, t ∈ v -> ¬ IsEnd t) :
          forall t, t ∈ w ++ v -> ¬ IsEnd t := by
        intro t ht
        exact (List.mem_append.mp ht).elim (hconsumes.inside t) (hv t)
      cases hg r hrun with
      | @error v s m hr hstops =>
          subst hr
          refine error (w := w ++ v) (by rw [hts, List.append_assoc])
            ⟨hinside hstops.inside, hstops.found, ?_, ?_⟩
          · intro us hus
            rw [List.append_assoc, hfirst (hus.fits.append v)]
            exact hstops.run us hus
          · intro us hus
            rw [List.append_assoc, hfirst ((fits_of_isEnd hus).append v)]
            exact hstops.cut us hus
      | @ok v s hr hnext =>
          subst hr
          refine ok (w := w ++ v) (by rw [hts, List.append_assoc])
            ⟨hinside hnext.inside, ?_, ?_⟩
          · intro st
            rw [List.append_assoc, Bracket.scan?_append, hconsumes.brackets, Option.bind_some]
            exact hnext.brackets st
          · intro us hus
            rw [List.append_assoc, hfirst (hus.append v)]
            exact hnext.run us hus

theorem andThen (hf : Local f [] ts) (hg : forall r, f ts = .ok r -> Local g opened r) :
    Local (Grammar.andThen f g) opened ts :=
  andThen_append hf hg

theorem closeThen (hf : Local f opened ts) (hg : forall r, f ts = .ok r -> Local g [] r) :
    Local (Grammar.andThen f g) opened ts := by
  rw [← List.append_nil opened]
  exact andThen_append hf hg

theorem inside_cons {t : Token} {w : List Token} (ht : ¬ IsEnd t)
    (hw : forall u, u ∈ w -> ¬ IsEnd u) : forall u, u ∈ t :: w -> ¬ IsEnd u :=
  List.forall_mem_cons.mpr ⟨ht, hw⟩

theorem cons {t : Token} {rest : List Token} (hts : ts = t :: rest)
    (hp : Reads p opened middle) (ht : p t = true) (hf : Local f middle rest)
    (hrun : forall us, g (t :: us) = f us) : Local g opened ts := by
  subst hts
  cases hf with
  | @ok w r hrest hconsumes =>
      refine ok (w := t :: w) (by rw [hrest]; rfl)
        ⟨inside_cons (hp.inside t ht) hconsumes.inside, ?_, ?_⟩
      · intro st
        rw [Bracket.scan?_cons, hp.step t ht, Option.bind_some]
        exact hconsumes.brackets st
      · intro us hus
        rw [List.cons_append, hrun]
        exact hconsumes.run us hus
  | @error w r m hrest hstops =>
      refine error (w := t :: w) (by rw [hrest]; rfl)
        ⟨inside_cons (hp.inside t ht) hstops.inside, hstops.found, ?_, ?_⟩
      · intro us hus
        rw [List.cons_append, hrun]
        exact hstops.run us hus
      · intro us hus
        rw [List.cons_append, hrun]
        exact hstops.cut us hus

theorem congr (hg : Local g opened ts)
    (hok : forall w r us, ts = w ++ r -> g ts = .ok r -> Fits r us -> f (w ++ us) = g (w ++ us))
    (herror : forall us, FitsTwo ts us -> f us = g us) : Local f opened ts := by
  cases hg with
  | @ok w r hts hconsumes =>
      have hrun : g ts = .ok r := hts ▸ hconsumes.run r (Fits.refl r)
      refine ok hts ⟨hconsumes.inside, hconsumes.brackets, ?_⟩
      intro us hus
      rw [hok w r us hts hrun hus]
      exact hconsumes.run us hus
  | @error w r m hts hstops =>
      refine error hts ⟨hstops.inside, hstops.found, ?_, ?_⟩
      · intro us hus
        rw [herror _ (hts ▸ hus.append w)]
        exact hstops.run us hus
      · intro us hus
        rw [herror _ (hts ▸ fitsTwo_of_isEnd w hus)]
        exact hstops.cut us hus

theorem onNext {f : Token -> Production} (hp : Reads p opened middle)
    (hf : forall t rest, ts = t :: rest -> p t = true -> Local (f t) middle rest)
    (hg : p (peek ts) = false -> Local g opened ts) : Local (onNext p f g) opened ts := by
  cases hpeek : p (peek ts) with
  | false =>
      have helse {us : List Token} (hus : Fits ts us) : Grammar.onNext p f g us = g us := by
        rw [Grammar.onNext, hus.eq_false hp hpeek]
        rfl
      apply (hg hpeek).congr
      · intro w r us hts _ hus
        exact helse (hts ▸ hus.append w)
      · intro us hus
        exact helse (hus.imp_left And.left)
  | true =>
      cases ts with
      | nil => exact absurd isEnd_peek_nil (hp.inside _ hpeek)
      | cons t rest =>
          apply cons rfl hp hpeek (hf t rest rfl hpeek)
          intro us
          exact if_pos hpeek

theorem onTwo {after : List Bracket} (hp : Reads p opened middle) (hq : Reads q middle after)
    (hf : forall t u rest, ts = t :: u :: rest -> p t = true -> q u = true -> Local f after rest)
    (hg : Local g opened ts)
    (hlength : (p (peek ts) && q (peek ts.tail)) = false ->
      forall r, g ts = .ok r -> r.length < ts.length) :
    Local (onTwo p q f g) opened ts := by
  cases hpeek : p (peek ts) && q (peek ts.tail) with
  | false =>
      have helse {us : List Token} (hus : FitsTwo ts us) : Grammar.onTwo p q f g us = g us := by
        rw [Grammar.onTwo, hus.eq_false hp hq hpeek]
        rfl
      apply hg.congr
      · intro w r us hts hrun hus
        have hlt := hlength hpeek r hrun
        subst hts
        cases w with
        | nil => exact absurd hlt (Nat.lt_irrefl _)
        | cons t w => exact helse ((hus.append w).cons t)
      · intro us hus
        exact helse hus
  | true =>
      rcases Bool.and_eq_true_iff.mp hpeek with ⟨hfirst, hsecond⟩
      match ts with
      | [] => exact absurd isEnd_peek_nil (hp.inside _ hfirst)
      | [t] => exact absurd isEnd_peek_nil (hq.inside _ hsecond)
      | t :: u :: rest =>
          have hnext : Local (Grammar.onTwo p q f g ∘ List.cons t) middle (u :: rest) := by
            apply cons rfl hq hsecond (hf t u rest rfl hfirst hsecond)
            intro us
            exact if_pos hpeek
          exact cons rfl hp hfirst hnext fun _ => rfl

theorem unlessEnd {x : Expected} (hg : Stream.atEnd ts = false -> Local g opened ts)
    (hlength : Stream.atEnd ts = false -> forall r, g ts = .ok r -> r.length < ts.length) :
    Local (unlessEnd x g) opened ts := by
  cases hend : Stream.atEnd ts with
  | true =>
      refine error (w := []) (r := ts) (m := ⟨x, peek ts⟩) rfl ⟨by simp, rfl, ?_, ?_⟩
      · intro us hus
        rw [Stream.atEnd, ← hus.1] at hend
        rw [List.nil_append, Grammar.unlessEnd, Stream.atEnd, if_pos hend, ← hus.1]
        rfl
      · intro us hus
        refine ⟨x, if_pos ?_⟩
        rw [List.nil_append, Stream.atEnd, hus.1]
        rfl
  | false =>
      have helse (us : List Token) (hus : peek us = peek ts) :
          Grammar.unlessEnd x g us = g us := by
        rw [Grammar.unlessEnd, Stream.atEnd, hus, ← Stream.atEnd, hend]
        rfl
      cases hg hend with
      | @ok w r hts hconsumes =>
          have hrun : g ts = .ok r := hts ▸ hconsumes.run r (Fits.refl r)
          have hlt := hlength hend r hrun
          subst hts
          refine ok rfl ⟨hconsumes.inside, hconsumes.brackets, ?_⟩
          intro us hus
          cases w with
          | nil => exact absurd hlt (Nat.lt_irrefl _)
          | cons t w =>
              rw [helse (t :: w ++ us) rfl]
              exact hconsumes.run us hus
      | @error w r m hts hstops =>
          subst hts
          refine error rfl ⟨hstops.inside, hstops.found, ?_, ?_⟩
          · intro us hus
            rw [helse]
            · exact hstops.run us hus
            · cases w with
              | nil => exact hus.1
              | cons t w => rfl
          · intro us hus
            cases w with
            | nil =>
                refine ⟨x, if_pos ?_⟩
                rw [List.nil_append, Stream.atEnd, hus.1]
                rfl
            | cons t w =>
                rw [helse (t :: w ++ us) rfl]
                exact hstops.cut us hus

theorem token {x : Expected} (hp : Reads p opened []) (ts : List Token) :
    Local (token x p) opened ts :=
  onNext hp (fun _ rest _ _ => done rest) fun _ => fail x opened ts

end Local

end Grammar

end EffectShader
