import EffectShader.Proofs.Effect.TrailingBlanks
import EffectShader.Proofs.Token.LineStarts

/-!
# Cleaning keeps the program

The code is cleaned line by line, while pragmas and comments are tokens that may
reach over several lines.  Reading the code and the clean code side by side, both
are in the same comment or directive after each line that is kept, and the clean
code is outside of both while a pragma is removed.
-/

namespace EffectShader

/-- A directive that is a pragma of the effect compiler's own. -/
def Content.isCustom : Content -> Bool
  | .directive d => (d.bind Directive.pragma?).any fun p => !p.isStandard
  | .text _ _ => false

namespace Effect

open Lexer Directive

theorem isCustom_directive (line : Nat) (text : Text) :
    (Lexeme.content ⟨.directive, text, line⟩).isCustom = isCustomPragma text := rfl

theorem isCustom_eq_false {x : Lexeme} (h : x.kind ≠ .directive) : x.content.isCustom = false := by
  unfold Lexeme.content
  rw [if_neg h]
  rfl

theorem isCustomPragma_append_trailing {l z : Text} (hl : Byte.newline ∉ l) (hz : Trailing z) :
    isCustomPragma (l ++ z) = isCustomPragma l := by
  unfold isCustomPragma
  rw [parse?_append_trailing hl hz]

theorem isCustomPragma_iff {l : Text} :
    isCustomPragma l = true ↔ exists p, Pragma.of? l = some p ∧ p.isStandard = false := by
  show (Pragma.of? l).any (fun p => !p.isStandard) = true ↔ _
  cases Pragma.of? l with
  | none => simp
  | some p => simp

theorem exists_hash_of_isCustomPragma {l : Text} (h : isCustomPragma l = true) :
    exists s, l.dropWhile Byte.isBlank = Byte.hash :: s ∧
      isCustomPragma (Byte.hash :: s) = true := by
  rcases isCustomPragma_iff.mp h with ⟨p, hp, hstandard⟩
  rcases Pragma.exists_hash_of_of? hp with ⟨s, hhash, hp⟩
  exact ⟨s, hhash, isCustomPragma_iff.mpr ⟨p, hp, hstandard⟩⟩

theorem isCustomPragma_goesOn {s : Text} (hs : Byte.newline ∉ s) (hopen : endsOpen s = true)
    (h : isCustomPragma (Byte.hash :: s) = true) (more : Text) :
    isCustomPragma (Byte.hash :: (s ++ Byte.newline :: more)) = true := by
  rcases isCustomPragma_iff.mp h with ⟨p, hp, hstandard⟩
  rcases of?_goesOn hs hopen more hp with ⟨p', hp', hname, _⟩
  refine isCustomPragma_iff.mpr ⟨p', hp', ?_⟩
  unfold Pragma.isStandard at hstandard ⊢
  rw [hname]
  exact hstandard

/-!
# What is expected of the code
-/

/-- The rest of a source, from a line on, can be cleaned: no directive ends in a backslash, a custom
pragma is one on the line where it starts, and a line that is one stands alone, or belongs to one
that is removed, or to a comment that goes on behind it. -/
structure Cleanable (n : Nat) (ls : List Text) (xs : List Lexeme) : Prop where
  closed : Closed xs
  whole : forall x, x ∈ xs -> x.content.isCustom = true -> n ≤ x.line ->
    ls[x.line - n]?.any isCustomPragma = true
  apart : forall l, l ∈ ls.zipIdx n -> isCustomPragma l.1 = true ->
    forall x, x ∈ xs -> x.reaches l.2 = true ->
      x.content.isCustom = true ∨
        x.kind = .blockComment ∧ Text.cut? "*/" l.1 = none ∧ endsInBackslash l.1 = false

theorem Cleanable.tail {n : Nat} {l : Text} {ls : List Text} {rs xs : List Lexeme}
    (h : Cleanable n (l :: ls) (rs ++ xs)) : Cleanable (n + 1) ls xs := by
  constructor
  · exact fun x hx => h.closed x (List.mem_append_right rs hx)
  · intro x hx hcustom hline
    have hfound := h.whole x (List.mem_append_right rs hx) hcustom (Nat.le_of_succ_le hline)
    rwa [show x.line - n = x.line - (n + 1) + 1 by omega, List.getElem?_cons_succ] at hfound
  · intro k hk hcustom x hx hreach
    exact h.apart k (List.mem_cons_of_mem (l, n) hk) hcustom x (List.mem_append_right rs hx) hreach

/-!
# Where tokens start
-/

theorem line_of_scanLine (n : Nat) (fresh : Bool) (l : Text) :
    (forall x, x ∈ (scanLine n fresh l).1 -> x.line = n) ∧
      forall a t, (scanLine n fresh l).2 = .directive a t -> a = n := by
  fun_induction scanLine n fresh l with
  | case1 => simp
  | case2 => simp
  | case3 => simp_all
  | case4 => simp_all
  | case5 fresh b l kind k hextent hkind text rest ih =>
      refine ⟨?_, ih.2⟩
      intro x hx
      unfold emit at hx
      split at hx
      · exact ih.1 x hx
      · rcases List.mem_cons.mp hx with rfl | hx
        · rfl
        · exact ih.1 x hx

theorem origin_of_read (n : Nat) (l : Text) (o : Opening) :
    (forall x, x ∈ (o.read n l).1 -> x.line = n ∨ x.kind = .blockComment ∨
      exists a t, o = .directive a t ∧ (o.read n l).1 = [x]) ∧
    forall a t, (o.read n l).2 = .directive a t ->
      a = n ∨ (exists u, o = .directive a u) ∧ (o.read n l).1 = [] := by
  cases o with
  | outside =>
      rcases line_of_scanLine n true l with ⟨htokens, hopening⟩
      exact ⟨fun x hx => Or.inl (htokens x hx), fun a t h => Or.inl (hopening a t h)⟩
  | comment start text =>
      rw [Opening.read]
      cases Text.cut? "*/" l with
      | none => simp
      | some parts =>
          rcases line_of_scanLine n true parts.2 with ⟨htokens, hopening⟩
          refine ⟨?_, fun a t h => Or.inl (hopening a t h)⟩
          intro x hx
          rcases List.mem_cons.mp hx with rfl | hx
          · exact Or.inr (Or.inl rfl)
          · exact Or.inl (htokens x hx)
  | directive start text =>
      rw [Opening.read]
      split
      · simp
      · simp

theorem read_trailing {z : Text} (hz : Trailing z) (n : Nat) (o : Opening) :
    (forall a t, (o.read n z).2 ≠ .directive a t) ∧
      ((forall a t, o ≠ .directive a t) -> (o.read n z).1 = [] ∧
        forall o', Alike o o' -> Alike (o.read n z).2 o') := by
  have hcut : Text.cut? "*/" z = none := by
    have happend := cut?_append_trailing hz []
    rwa [List.nil_append, show Text.cut? "*/" [] = none by rfl, Option.map_none] at happend
  cases o with
  | outside =>
      rw [Opening.read, scanLine_trailing hz]
      simp
  | comment start text =>
      rw [Opening.read, hcut]
      refine ⟨by simp, fun _ => ⟨rfl, ?_⟩⟩
      intro o' ho'
      cases ho'
      exact .comment
  | directive start text =>
      have hopen : endsOpen z = false := by
        rw [Bool.eq_false_iff]
        intro hopen
        rcases endsInBackslash_iff.mp (endsInBackslash_of_endsOpen hopen) with ⟨a, y, _, rfl⟩
        exact hz.not_mem (b := Byte.backslash) (by rfl) (by simp)
      rw [Opening.read, hopen]
      simp

/-!
# What is kept
-/

/-- What the tokens say that are neither comments nor custom pragmas. -/
def kept (xs : List Lexeme) : List Content :=
  (contents xs).filter fun c => !c.isCustom

theorem kept_append (xs ys : List Lexeme) : kept (xs ++ ys) = kept xs ++ kept ys := by
  unfold kept
  rw [contents_append, List.filter_append]

theorem kept_cons_of_isCustom {x : Lexeme} (h : x.content.isCustom = true) (xs : List Lexeme) :
    kept (x :: xs) = kept xs := by
  unfold kept
  rw [contents_cons]
  cases x.isComment <;> simp [h]

theorem kept_eq_contents {xs : List Lexeme} (h : forall x, x ∈ xs -> x.content.isCustom = false) :
    kept xs = contents xs := by
  unfold kept contents
  rw [List.filter_eq_self]
  intro c hc
  rcases List.mem_map.mp hc with ⟨x, hx, rfl⟩
  simp [h x (List.mem_of_mem_filter hx)]

/-!
# Reading side by side
-/

/-- What a line of the code and the next line of the clean code start in: the same, or the clean
code is outside of the custom pragma that is removed. -/
inductive InStep (empty : Bool) (xs : List Lexeme) : (continued : Bool) -> Opening -> Opening ->
    Prop
  where
  | keep {o o' : Opening} (halike : Alike o o')
      (hopen : forall a t, o = .directive a t ->
        empty = false ∧ forall x, xs.head? = some x -> x.content.isCustom = false) :
      InStep empty xs false o o'
  | drop {a : Nat} {t : Text} (hcustom : forall x, xs.head? = some x -> x.content.isCustom = true) :
      InStep empty xs true (.directive a t) .outside

theorem InStep.outside (empty : Bool) (xs : List Lexeme) :
    InStep empty xs false .outside .outside :=
  .keep .outside (by simp)

section Step

variable {n : Nat} {l : Text} {empty : Bool} {ys : List Lexeme}

theorem inStep_of_drop {a : Nat} {t : Text} {r : List Lexeme × Opening}
    (hr : r = (Opening.directive a t).read n l) (hclosed : Closed (r.1 ++ ys))
    (hcustom : forall x, (r.1 ++ ys).head? = some x -> x.content.isCustom = true) :
    kept (r.1 ++ ys) = kept ys ∧ InStep empty ys (endsInBackslash l) r.2 .outside := by
  rw [Opening.read] at hr
  split at hr
  · rename_i hopen
    subst hr
    rw [endsInBackslash_of_endsOpen hopen]
    exact ⟨rfl, .drop hcustom⟩
  · subst hr
    have hend := hclosed _ List.mem_cons_self rfl
    have hline : endsInBackslash l = false := by
      rw [Bool.eq_false_iff]
      intro htrue
      have hlong := endsInBackslash_append htrue (t ++ [Byte.newline])
      rw [List.append_assoc, List.singleton_append, hend] at hlong
      cases hlong
    rw [hline]
    exact ⟨kept_cons_of_isCustom (hcustom _ rfl) ys, .outside empty ys⟩

/-- A line that is a custom pragma, where none is being removed. -/
theorem inStep_of_isCustomPragma {o o' : Opening} {ls : List Text} (hl : Byte.newline ∉ l)
    (hcustom : isCustomPragma l = true)
    (h : lexLines (n + 1) (o.read n l).2 ls = some ys) (hpre : o.Precedes n)
    (hclean : Cleanable n (l :: ls) ((o.read n l).1 ++ ys))
    (hstep : InStep empty ((o.read n l).1 ++ ys) false o o') :
    kept ((o.read n l).1 ++ ys) = kept ys ∧
      InStep empty ys (endsInBackslash l) (o.read n l).2 o' := by
  have hwhole : lexLines n o (l :: ls) = some ((o.read n l).1 ++ ys) := by
    rw [lexLines_cons, onLine, h]
    rfl
  cases hstep with
  | keep halike hopen =>
      cases halike with
      | outside =>
          rcases exists_hash_of_isCustomPragma hcustom with ⟨s, hhash, hs⟩
          have hend : endsInBackslash l = endsInBackslash (Byte.hash :: s) := by
            rw [← List.takeWhile_append_dropWhile (p := Byte.isBlank) (l := l), hhash]
            exact endsInBackslash_append_cons (by rfl) _ s
          have hs' : Byte.newline ∉ s := by
            intro hmem
            apply hl
            apply (List.dropWhile_suffix Byte.isBlank).subset
            rw [hhash]
            exact List.mem_cons_of_mem _ hmem
          have hread := scanLine_hash n hl hhash
          rw [Opening.read, hread] at h hclean ⊢
          cases hopenLine : endsOpen s with
          | true =>
              rw [hopenLine] at h
              have hmark : endsInBackslash ([Byte.hash] ++ s) = true :=
                endsInBackslash_append (endsInBackslash_of_endsOpen hopenLine) [Byte.hash]
              rw [hend, show endsInBackslash (Byte.hash :: s) = true from hmark]
              refine ⟨rfl, .drop ?_⟩
              intro x hx
              rcases exists_of_lexLines_directive h with ⟨more, rest, rfl, hmore⟩
              cases hx
              rw [isCustom_directive]
              rcases hmore with ⟨rfl, _⟩ | hmore
              · rwa [List.append_nil]
              · rcases List.head?_eq_some_iff.mp hmore with ⟨more, rfl⟩
                exact isCustomPragma_goesOn hs' hopenLine hs more
          | false =>
              rw [hopenLine] at hclean
              rw [hend, hclean.closed _ List.mem_cons_self rfl]
              exact ⟨kept_cons_of_isCustom (x := ⟨.directive, Byte.hash :: s, n⟩) hs ys,
                .outside empty ys⟩
      | @comment a a' t t' =>
          -- the comment may go on behind the line, but only if nothing of it is lost with the line
          rcases exists_of_lexLines_comment hwhole with ⟨more, rest, hxs⟩
          rcases exists_reaches hwhole hpre (List.cons_ne_nil l ls) with hout | ⟨x, hx, hreach⟩
          · cases hout
          · have hmem := List.mem_of_head? hx
            rw [hxs] at hx
            cases hx
            rcases hclean.apart (l, n) List.mem_cons_self hcustom _ hmem hreach with
              hpragma | ⟨_, hcut, hend⟩
            · cases hpragma
            · rw [Opening.read, hcut, hend]
              exact ⟨rfl, .keep .comment (by simp)⟩
      | @directive a a' u u' p hu hu' hmark =>
          rcases exists_of_lexLines_directive hwhole with ⟨more, rest, hxs, _⟩
          rcases exists_reaches hwhole hpre (List.cons_ne_nil l ls) with hout | ⟨x, hx, hreach⟩
          · cases hout
          · have hnot := (hopen _ _ rfl).2 x hx
            rcases hclean.apart (l, n) List.mem_cons_self hcustom x
              (List.mem_of_head? hx) hreach with
              hpragma | ⟨hkind, _⟩
            · rw [hnot] at hpragma
              cases hpragma
            · rw [hxs] at hx
              cases hx
              cases hkind

theorem inStep_of_trailing {o o' : Opening} (hz : Trailing l)
    (hstep : InStep true ((o.read n l).1 ++ ys) false o o') :
    kept ((o.read n l).1 ++ ys) = kept ys ∧ InStep true ys false (o.read n l).2 o' := by
  cases hstep with
  | keep halike hopen =>
      have hout : forall a t, o ≠ .directive a t :=
        fun a t ho => absurd (hopen a t ho).1 (by decide)
      rcases read_trailing hz n o with ⟨hnext, hsame⟩
      rcases hsame hout with ⟨hnil, halike'⟩
      rw [hnil]
      exact ⟨rfl, .keep (halike' o' halike) fun a t ho => absurd ho (hnext a t)⟩

theorem inStep_of_keep {o o' : Opening} {z : Text} {ls : List Text} (m : Nat) (hz : Trailing z)
    (hl : Byte.newline ∉ l) (hcustom : isCustomPragma (l ++ z) = false)
    (h : lexLines (n + 1) (o.read n (l ++ z)).2 ls = some ys)
    (hclean : Cleanable n ((l ++ z) :: ls) ((o.read n (l ++ z)).1 ++ ys))
    (hstep : InStep empty ((o.read n (l ++ z)).1 ++ ys) false o o') :
    kept ((o.read n (l ++ z)).1 ++ ys) = contents (o'.read m l).1 ++ kept ys ∧
      InStep l.isEmpty ys false (o.read n (l ++ z)).2 (o'.read m l).2 := by
  have hhere : forall x, x ∈ (o.read n (l ++ z)).1 ++ ys -> x.line = n ->
      x.content.isCustom = false := by
    intro x hx hline
    rw [Bool.eq_false_iff]
    intro htrue
    have hfound := hclean.whole x hx htrue (Nat.le_of_eq hline.symm)
    rw [hline, Nat.sub_self, List.getElem?_cons_zero, Option.any_some, hcustom] at hfound
    cases hfound
  rcases origin_of_read n (l ++ z) o with ⟨htokens, hopening⟩
  cases hstep with
  | keep halike hopen =>
      have hread := halike.read hz n m hl fun x hx => hclean.closed x (List.mem_append_left ys hx)
      have hnone : forall x, x ∈ (o.read n (l ++ z)).1 -> x.content.isCustom = false := by
        intro x hx
        rcases htokens x hx with hline | hkind | ⟨a, t, ho, hone⟩
        · exact hhere x (List.mem_append_left ys hx) hline
        · exact isCustom_eq_false (by rw [hkind]; decide)
        · exact (hopen a t ho).2 x (by rw [hone]; rfl)
      refine ⟨?_, .keep hread.opening ?_⟩
      · rw [kept_append, kept_eq_contents hnone, hread.contents]
      · intro a t ho
        constructor
        · cases l with
          | nil => exact absurd ho ((read_trailing hz n o).1 a t)
          | cons b l => rfl
        · intro x hx
          rcases hopening a t ho with rfl | ⟨⟨u, ho'⟩, hnil⟩
          · rw [ho] at h
            rcases exists_of_lexLines_directive h with ⟨more, rest, rfl, _⟩
            cases hx
            exact hhere _ (List.mem_append_right _ List.mem_cons_self) rfl
          · exact (hopen a u ho').2 x (by rw [hnil]; exact hx)

end Step

theorem lexLines_blank (m : Nat) {blanks : List Text} (h : forall l, l ∈ blanks -> l = []) :
    lexLines m .outside blanks = some [] := by
  induction blanks generalizing m with
  | nil => rfl
  | cons l blanks ih =>
      rcases List.forall_mem_cons.mp h with ⟨rfl, hrest⟩
      rw [lexLines_cons, Opening.read, scanLine, onLine, ih (m + 1) hrest]
      rfl

theorem exists_lexLines_cleanLines {blanks : List Text} (hblanks : forall l, l ∈ blanks -> l = [])
    {n m : Nat} {o o' : Opening} {empty continued : Bool} {ls : List Text} {xs : List Lexeme}
    (h : lexLines n o ls = some xs) (hpre : o.Precedes n)
    (hls : forall l, l ∈ ls -> Byte.newline ∉ l) (hclean : Cleanable n ls xs)
    (hstep : InStep empty xs continued o o') :
    exists ys, lexLines m o' (cleanLines empty continued ls ++ blanks) = some ys ∧
      contents ys = kept xs := by
  induction ls generalizing n m o o' empty continued xs with
  | nil =>
      cases hstep with
      | keep halike hopen =>
          cases halike with
          | outside =>
              cases h
              exact ⟨[], lexLines_blank m hblanks, rfl⟩
          | comment => cases h
          | @directive a a' u u' p hu hu' hmark =>
              cases h
              have hend : endsInBackslash ([Byte.hash] ++ u) = false :=
                hclean.closed _ List.mem_cons_self rfl
              rw [endsInBackslash_append hmark] at hend
              cases hend
      | drop hcustom =>
          cases h
          exact ⟨[], lexLines_blank m hblanks, (kept_cons_of_isCustom (hcustom _ rfl) []).symm⟩
  | cons l ls ih =>
      rcases List.forall_mem_cons.mp hls with ⟨hl, hrest⟩
      rw [lexLines_cons] at h
      rcases Option.map_eq_some_iff.mp h with ⟨ys, hys, rfl⟩
      have hnext := hpre.read hl
      rcases exists_trailing l with ⟨z, hz, hsplit⟩
      rw [cleanLines]
      generalize hl' : Text.dropEndWhile isTrailing l = l' at hsplit
      have hlast : (l'.getLast? == some Byte.backslash) = endsInBackslash l := by
        rw [endsInBackslash, hl']
      have hnewline : Byte.newline ∉ l' := by
        intro hmem
        rw [hsplit] at hl
        exact hl (List.mem_append_left z hmem)
      have hcustom : isCustomPragma l' = isCustomPragma l := by
        rw [hsplit, isCustomPragma_append_trailing hnewline hz]
      -- a line that is not kept gives no token, or a custom pragma
      have hskip {empty' continued' : Bool} {p' : Opening}
          (hresult : kept ((o.read n l).1 ++ ys) = kept ys ∧
            InStep empty' ys continued' (o.read n l).2 p') :
          exists zs, lexLines m p' (cleanLines empty' continued' ls ++ blanks) = some zs ∧
            contents zs = kept ((o.read n l).1 ++ ys) := by
        rcases ih hys hnext hrest hclean.tail hresult.2 with ⟨zs, hzs, hcontents⟩
        exact ⟨zs, hzs, hcontents.trans hresult.1.symm⟩
      rw [hcustom, hlast]
      cases continued with
      | true =>
          cases hstep with
          | drop hpragma => exact hskip (inStep_of_drop rfl hclean.closed hpragma)
      | false =>
          cases hpragma : isCustomPragma l with
          | true => exact hskip (inStep_of_isCustomPragma hl hpragma hys hpre hclean hstep)
          | false =>
              cases hblank : l'.isEmpty && empty with
              | true =>
                  rw [Bool.and_eq_true, List.isEmpty_iff] at hblank
                  rcases hblank with ⟨rfl, rfl⟩
                  rw [List.nil_append] at hsplit
                  subst hsplit
                  exact hskip (inStep_of_trailing hz hstep)
              | false =>
                  subst hsplit
                  rcases inStep_of_keep m hz hnewline hpragma hys hclean hstep with ⟨hkept, hstep⟩
                  rcases ih hys hnext hrest hclean.tail hstep with ⟨zs, hzs, hcontents⟩
                  refine ⟨(o'.read m l').1 ++ zs, ?_, ?_⟩
                  · show lexLines m o' (l' :: (cleanLines l'.isEmpty false ls ++ blanks)) = _
                    rw [lexLines_cons, onLine, hzs]
                    rfl
                  · rw [contents_append, hcontents, hkept]

/-!
# The end of the text
-/

theorem exists_cleanLines (empty continued : Bool) (ls : List Text) :
    exists ks k, cleanLines empty continued ls = ks ++ List.replicate k [] ∧ k ≤ 1 ∧
      ks.getLast? ≠ some [] ∧ (empty = true -> ks = [] -> k = 0) := by
  induction ls generalizing empty continued with
  | nil => exact ⟨[], 0, rfl, by omega, by simp, fun _ _ => rfl⟩
  | cons l ls ih =>
      rw [cleanLines]
      split
      · exact ih empty _
      · split
        · rename_i hblank
          rcases ih true false with ⟨ks, k, heq, hk, hlast, hempty⟩
          exact ⟨ks, k, heq, hk, hlast, fun _ => hempty rfl⟩
        · rename_i hblank
          generalize Text.dropEndWhile isTrailing l = l' at hblank ⊢
          rcases ih l'.isEmpty false with ⟨ks, k, heq, hk, hlast, hempty⟩
          rw [heq]
          cases ks with
          | cons l'' ks =>
              refine ⟨l' :: l'' :: ks, k, rfl, hk, ?_, by simp⟩
              simpa [List.getLast?_cons_cons] using hlast
          | nil =>
              cases l' with
              | cons b l' => exact ⟨[b :: l'], k, rfl, hk, by simp, by simp⟩
              | nil =>
                  have hk : k = 0 := hempty rfl rfl
                  subst hk
                  refine ⟨[], 1, rfl, Nat.le_refl 1, by simp, ?_⟩
                  rintro rfl
                  simp at hblank

theorem newline_not_mem_cleanLines (empty continued : Bool) {ls : List Text}
    (hls : forall l, l ∈ ls -> Byte.newline ∉ l) :
    forall l, l ∈ cleanLines empty continued ls -> Byte.newline ∉ l := by
  induction ls generalizing empty continued with
  | nil => simp [cleanLines]
  | cons l ls ih =>
      rcases List.forall_mem_cons.mp hls with ⟨hl, hls⟩
      rw [cleanLines]
      split
      · exact ih _ _ hls
      · split
        · exact ih _ _ hls
        · refine List.forall_mem_cons.mpr ⟨?_, ih _ _ hls⟩
          rcases exists_trailing l with ⟨z, _, hsplit⟩
          intro hmem
          rw [hsplit] at hl
          exact hl (List.mem_append_left z hmem)

theorem exists_lines_clean (code : Text) :
    exists blanks, (forall l, l ∈ blanks -> l = []) ∧
      Text.lines (clean code) = cleanLines true false (Text.lines code) ++ blanks := by
  rcases exists_cleanLines true false (Text.lines code) with ⟨ks, k, heq, hk, hlast, hempty⟩
  have hlines := newline_not_mem_cleanLines true false
    fun l (hl : l ∈ Text.lines code) => Text.not_mem_of_mem_lines hl
  unfold clean
  rw [heq] at hlines ⊢
  rcases List.eq_nil_or_concat ks with rfl | ⟨init, l, rfl⟩
  · rw [hempty rfl rfl]
    exact ⟨[[], []], by simp, rfl⟩
  · rw [List.concat_eq_append] at hlast hlines ⊢
    have hl : l ≠ [] := by simpa using hlast
    have htext (k : Nat) : Text.unlines (init ++ [l] ++ List.replicate k []) =
        Text.ended init ++ l ++ List.replicate k Byte.newline := by
      rw [List.append_assoc, List.singleton_append, Text.unlines_append_cons, List.append_assoc]
      induction k with
      | zero => rfl
      | succ k ih => simpa [List.replicate_succ] using ih
    have hend : Text.dropEndWhile (· == Byte.newline) (Text.ended init ++ l) =
        Text.ended init ++ l := by
      rcases List.eq_nil_or_concat l with rfl | ⟨s, b, rfl⟩
      · exact absurd rfl hl
      · have hb : b ≠ Byte.newline := by
          rintro rfl
          exact hlines (s.concat Byte.newline) (by simp) (by simp)
        rw [Text.dropEndWhile, if_neg (by simpa using hb)]
    rw [htext, Text.dropEndWhile_append (by simp), hend]
    refine ⟨List.replicate (1 - k) [], by simp, ?_⟩
    have hone := htext 1
    rw [List.replicate_one, List.replicate_one] at hone
    rw [← hone, Text.lines_unlines (by simp)]
    · rw [List.append_assoc _ (List.replicate k []), List.replicate_append_replicate,
        Nat.add_sub_cancel' hk]
      rfl
    · intro r hr
      rcases List.mem_append.mp hr with hr | hr
      · exact hlines r (List.mem_append_left _ hr)
      · rw [List.mem_singleton.mp hr]
        exact List.not_mem_nil

/-!
# The tokens of clean code
-/

theorem contents_visible_cons {t : Token} (h : t.kind ≠ .eof) (ts : List Token) :
    contents (visible (t :: ts)) =
      (lexemes [t]).map Lexeme.content ++ contents (visible ts) := by
  rcases t with ⟨kind, text, start⟩
  cases kind
  case eof => exact absurd rfl h
  all_goals rfl

theorem map_content_lexemes {s : Text} {ts : List Token} (h : tokenize s = .ok ts) :
    (lexemes ts).map Lexeme.content = contents (visible ts) ++ [.text .eof []] := by
  unfold tokenize at h
  generalize Position.start = p at h
  generalize true = fresh at h
  induction p, fresh, s using scan.induct generalizing ts with
  | case1 p fresh =>
      rw [scan] at h
      cases h
      rfl
  | case2 p fresh b s hnone =>
      rw [scan, hnone] at h
      cases h
  | case3 p fresh b s kind n hextent text =>
      rename_i ih
      rw [scan, hextent] at h
      simp only [show b :: s.take n = text from rfl] at h
      cases hrest : scan (p.advance text) (staysFresh fresh kind text) (s.drop n) with
      | error e =>
          rw [hrest] at h
          cases h
      | ok rest =>
          rw [hrest] at h
          cases h
          have heof : kind ≠ .eof := kind_ne_eof_of_extent? hextent
          have hsplit : lexemes (⟨kind, text, p⟩ :: rest) =
              lexemes [⟨kind, text, p⟩] ++ lexemes rest := by
            unfold lexemes significant
            rw [← List.map_append, ← List.filter_append, List.singleton_append]
          show (lexemes (⟨kind, text, p⟩ :: rest)).map Lexeme.content = _
          rw [contents_visible_cons heof, hsplit, List.map_append, ih hrest, List.append_assoc]

/-- The clean code has the tokens of the code but for the custom pragmas. -/
theorem contents_clean {code : Text} {ts : List Token} (h : tokenize code = .ok ts)
    (hclean : Cleanable 1 (Text.lines code) (visible ts)) :
    exists us, tokenize (clean code) = .ok us ∧
      (lexemes us).map Lexeme.content =
        ((lexemes ts).map Lexeme.content).filter fun c => !c.isCustom := by
  rcases exists_lines_clean code with ⟨blanks, hblanks, hlines⟩
  rcases exists_lexLines_cleanLines hblanks (m := 1) (lexLines_eq_some_iff.mpr ⟨ts, h, rfl⟩) trivial
    (fun l => Text.not_mem_of_mem_lines) hclean (.outside true _) with ⟨ys, hys, hcontents⟩
  rw [← hlines] at hys
  rcases lexLines_eq_some_iff.mp hys with ⟨us, hus, rfl⟩
  refine ⟨us, hus, ?_⟩
  rw [map_content_lexemes hus, map_content_lexemes h, List.filter_append, hcontents]
  rfl

/-- A comment around a pragma, a directive and a pragma of two lines each, and blanks. -/
theorem contents_clean_continued :
    let code : Text := "/*\n#pragma a\n*/\n#define A \\\r\n 1 \n#pragma b \\\n c\nx \n\n\ny"
    exists ts us, tokenize code = .ok ts ∧ Cleanable 1 (Text.lines code) (visible ts) ∧
      tokenize (clean code) = .ok us ∧
      (lexemes us).map Lexeme.content = [.directive (some ⟨"define", "A   1"⟩),
        .text .ident "x", .text .ident "y", .text .eof []] := by
  intro code
  let ts : List Token := [⟨.blockComment, "/*\n#pragma a\n*/", ⟨1, 1, 0⟩⟩,
    ⟨.whitespace, "\n", ⟨3, 3, 15⟩⟩, ⟨.directive, "#define A \\\r\n 1 ", ⟨4, 1, 16⟩⟩,
    ⟨.whitespace, "\n", ⟨5, 4, 32⟩⟩, ⟨.directive, "#pragma b \\\n c", ⟨6, 1, 33⟩⟩,
    ⟨.whitespace, "\n", ⟨7, 3, 47⟩⟩, ⟨.ident, "x", ⟨8, 1, 48⟩⟩,
    ⟨.whitespace, " \n\n\n", ⟨8, 2, 49⟩⟩, ⟨.ident, "y", ⟨11, 1, 53⟩⟩, ⟨.eof, [], ⟨11, 2, 54⟩⟩]
  have htokens : tokenize code = .ok ts := by decide +kernel
  have hclean : Cleanable 1 (Text.lines code) (visible ts) := by
    refine ⟨?_, by decide +kernel, by decide +kernel⟩
    unfold Closed
    decide +kernel
  rcases contents_clean htokens hclean with ⟨us, hus, hcontents⟩
  exact ⟨ts, us, htokens, hclean, hus, hcontents.trans (by decide +kernel)⟩

/-- A pragma on the line where a comment ends takes the end with it. -/
theorem clean_loses_comment_end :
    (exists ts, tokenize "/*\n#pragma a */\nx" = .ok ts) ∧
      exists e, tokenize (clean "/*\n#pragma a */\nx") = .error e := by
  constructor
  · exact ⟨[⟨.blockComment, "/*\n#pragma a */", ⟨1, 1, 0⟩⟩, ⟨.whitespace, "\n", ⟨2, 13, 15⟩⟩,
      ⟨.ident, "x", ⟨3, 1, 16⟩⟩, ⟨.eof, [], ⟨3, 2, 17⟩⟩], by decide +kernel⟩
  · exact ⟨⟨1, 1⟩, by decide +kernel⟩

end Effect

end EffectShader
