import EffectShader.Proofs.Declaration.Block

/-!
# The top level of a source

A source is a sequence of units: statements up to a semicolon, blocks, bodies of
functions, and what stands between them.  Scanning for declarations reads one unit
after the other, and every sequence of units is scanned.
-/

namespace EffectShader

/-- The tokens without white space, comments and directives. -/
def solidTokens (ts : List Token) : List Token :=
  ts.filter fun t => t.piece.isPlain

@[simp] theorem solidTokens_nil : solidTokens [] = [] := rfl

@[simp] theorem solidTokens_append (ts us : List Token) :
    solidTokens (ts ++ us) = solidTokens ts ++ solidTokens us := by
  simp [solidTokens]

theorem map_piece_solidTokens (ts : List Token) :
    (solidTokens ts).map Token.piece = Lexer.solid (ts.map Token.piece) := by
  unfold solidTokens Lexer.solid
  rw [List.filter_map]
  rfl

namespace Declaration

/-- The tokens are the beginning of a statement: they start with syntax and reach over no
boundary. -/
structure IsOpen (ts : List Token) : Prop where
  head : forall t, ts.head? = some t -> t.piece.isPlain = true
  inner : forall t, t ∈ ts -> t.piece.isBoundary = false

inductive Units : List Token -> List Declaration -> Prop where
  | finish {raw ts : List Token} : IsOpen raw -> Stream.atEnd ts = true -> Units (raw ++ ts) []
  | skip {t : Token} {ts : List Token} {ds : List Declaration} :
      t.piece.isPlain = false -> Units ts ds -> Units (t :: ts) ds
  | statement {raw ts : List Token} {semi : Token} {d : Option Declaration}
      {ds : List Declaration} :
      IsOpen raw -> semi.isOp ";" = true -> ofStatement? (solidTokens raw) semi = .ok d ->
      Units ts ds -> Units (raw ++ semi :: ts) (d.toList ++ ds)
  | block {raw ts after : List Token} {brace : Token} {d : Declaration} {ds : List Declaration} :
      IsOpen raw -> brace.isOp Op.openBrace = true ->
      ofBlock? (solidTokens raw) ts = .ok (some (d, after)) -> Units after ds ->
      Units (raw ++ brace :: ts) (d :: ds)
  | group {raw ts : List Token} {brace : Token} {ds : List Declaration} :
      IsOpen raw -> brace.isOp Op.openBrace = true -> ofBlock? (solidTokens raw) ts = .ok none ->
      Units (Stream.skipBalanced Op.openBrace Op.closeBrace ts).2 ds ->
      Units (raw ++ brace :: ts) ds
  | close {raw ts : List Token} {brace : Token} {ds : List Declaration} :
      IsOpen raw -> brace.isOp Op.closeBrace = true -> Units ts ds ->
      Units (raw ++ brace :: ts) ds

/-!
# One step of the scan
-/

theorem scan_trivia {t : Token} (ht : t.isTrivia = true) (fuel : Nat) (st ts : List Token) :
    scan (fuel + 1) st (t :: ts) = scan (fuel + 1) st ts := by
  rw [scan, scan]
  unfold Stream.skipTrivia
  rw [List.dropWhile_cons_of_pos ht]

theorem scan_cons {t : Token} (ht : t.isTrivia = false) (fuel : Nat) (st rest : List Token) :
    scan (fuel + 1) st (t :: rest) =
      if t.kind == .eof then .ok []
      else if t.isDirective then scan fuel st rest
      else if t.isOp ";" then
        match ofStatement? st t with
        | .error e => .error e
        | .ok d =>
            match scan fuel [] rest with
            | .error e => .error e
            | .ok ds => .ok (d.toList ++ ds)
      else if t.isOp Op.openBrace then
        match ofBlock? st rest with
        | .error e => .error e
        | .ok none => scan fuel [] (Stream.skipBalanced Op.openBrace Op.closeBrace rest).2
        | .ok (some (d, after)) =>
            match scan fuel [] after with
            | .error e => .error e
            | .ok ds => .ok (d :: ds)
      else if t.isOp Op.closeBrace then scan fuel [] rest
      else scan fuel (st ++ [t]) rest := by
  have hskip : Stream.skipTrivia (t :: rest) = t :: rest :=
    List.dropWhile_cons_of_neg (by simp [ht])
  have hscan := scan.eq_2 st (t :: rest) fuel
  rw [hskip] at hscan
  exact hscan

theorem isPlain_eq (t : Token) : t.piece.isPlain = (!t.isTrivia && !t.isDirective) := by
  unfold Lexer.Piece.isPlain Token.isTrivia Token.isDirective
  rw [Token.kind_piece]
  cases t.kind <;> rfl

theorem isBoundary_eq (t : Token) :
    t.piece.isBoundary =
      (t.kind == .eof || t.isOp ";" || t.isOp Op.openBrace || t.isOp Op.closeBrace) := by
  unfold Lexer.Piece.isBoundary Token.isOp
  rw [Token.kind_piece, Token.text_piece]
  cases t.kind == .operator <;> simp [Bool.or_assoc]

theorem isBoundary_of_not_isPlain {t : Token} (h : t.piece.isPlain = false) :
    t.piece.isBoundary = false := by
  unfold Lexer.Piece.isPlain at h
  unfold Lexer.Piece.isBoundary
  rw [Token.kind_piece] at h ⊢
  cases hkind : t.kind <;> first | rfl | (rw [hkind] at h; cases h)

theorem IsOpen.nil : IsOpen [] :=
  ⟨by simp, by simp⟩

theorem IsOpen.append {raw : List Token} {t : Token} (h : IsOpen raw)
    (ht : t.piece.isBoundary = false) (hhead : raw ≠ [] ∨ t.piece.isPlain = true) :
    IsOpen (raw ++ [t]) := by
  constructor
  · intro u hu
    cases raw with
    | nil =>
        rw [← Option.some.inj hu]
        exact hhead.resolve_left (fun hne => hne rfl)
    | cons v raw => exact h.head u hu
  · intro u hu
    rcases List.mem_append.mp hu with hu | hu
    · exact h.inner u hu
    · rw [List.mem_singleton.mp hu]
      exact ht

/-!
# Scans are sequences of units
-/

/-- Trivia and directives extend a statement that has started, and are skipped otherwise. -/
theorem units_of_loose {raw ts : List Token} {t : Token} {ds : List Declaration} (hraw : IsOpen raw)
    (hplain : t.piece.isPlain = false)
    (h : forall raw', IsOpen raw' -> solidTokens raw' = solidTokens raw -> Units (raw' ++ ts) ds) :
    Units (raw ++ t :: ts) ds := by
  cases raw with
  | nil => exact Units.skip hplain (h [] IsOpen.nil rfl)
  | cons u raw =>
      have hsolid : solidTokens ((u :: raw) ++ [t]) = solidTokens (u :: raw) := by
        rw [solidTokens_append, show solidTokens [t] = [] from by simp [solidTokens, hplain],
          List.append_nil]
      have hboundary := isBoundary_of_not_isPlain hplain
      have hunits := h ((u :: raw) ++ [t]) (hraw.append hboundary (Or.inl (by simp))) hsolid
      simpa using hunits

theorem units_of_scan {fuel : Nat} {st raw ts : List Token} {ds : List Declaration}
    (h : scan fuel st ts = .ok ds) (hfuel : ts.length ≤ fuel) (hraw : IsOpen raw)
    (hst : st = solidTokens raw) : Units (raw ++ ts) ds := by
  induction hn : ts.length using Nat.strong_induction_on generalizing fuel st raw ts ds with
  | _ n ih =>
      subst hn
      cases ts with
      | nil =>
          have hds : ds = [] := by
            cases fuel with
            | zero =>
                cases h
                rfl
            | succ fuel =>
                rw [scan] at h
                cases h
                rfl
          rw [hds]
          exact Units.finish hraw rfl
      | cons t ts =>
          rcases Nat.exists_eq_add_one_of_ne_zero (n := fuel) (by simp at hfuel; omega) with
            ⟨fuel, rfl⟩
          have hle : ts.length ≤ fuel := by simpa using hfuel
          have hlt : ts.length < (t :: ts).length := by simp
          cases htrivia : t.isTrivia with
          | true =>
              rw [scan_trivia htrivia] at h
              refine units_of_loose hraw (by rw [isPlain_eq, htrivia]; rfl) ?_
              intro raw' hraw' hsolid
              exact ih ts.length hlt h (by omega) hraw' (hst.trans hsolid.symm) rfl
          | false =>
              rw [scan_cons htrivia] at h
              split at h
              · rename_i heof
                cases h
                exact Units.finish hraw heof
              · rename_i heof
                split at h
                · rename_i hdirective
                  refine units_of_loose hraw (by rw [isPlain_eq, hdirective, Bool.not_true,
                    Bool.and_false]) ?_
                  intro raw' hraw' hsolid
                  exact ih ts.length hlt h hle hraw' (hst.trans hsolid.symm) rfl
                · rename_i hdirective
                  split at h
                  · rename_i hsemi
                    split at h
                    · cases h
                    · rename_i d hstatement
                      split at h
                      · cases h
                      · rename_i ds' hrest
                        cases h
                        rw [hst] at hstatement
                        exact Units.statement hraw hsemi hstatement
                          (ih ts.length hlt hrest hle IsOpen.nil rfl rfl)
                  · rename_i hsemi
                    split at h
                    · rename_i hopen
                      rw [hst] at h
                      split at h
                      · cases h
                      · rename_i hgroup
                        have hlen : (Stream.skipBalanced Op.openBrace Op.closeBrace ts).2.length ≤
                            ts.length := Stream.length_closeGroup_le _ _ 1 ts
                        exact Units.group hraw hopen hgroup
                          (ih _ (by omega) h (by omega) IsOpen.nil rfl rfl)
                      · rename_i d after hblock
                        split at h
                        · cases h
                        · rename_i ds' hrest
                          cases h
                          rcases parts_of_ofBlock? hblock with ⟨parts⟩
                          have hlen : after.length < ts.length := by
                            rw [parts.tokens]
                            simp only [List.length_append, List.length_cons]
                            omega
                          exact Units.block hraw hopen hblock
                            (ih after.length (by omega) hrest (by omega) IsOpen.nil rfl rfl)
                    · rename_i hopen
                      split at h
                      · rename_i hclose
                        exact Units.close hraw hclose (ih ts.length hlt h hle IsOpen.nil rfl rfl)
                      · rename_i hclose
                        have hplain : t.piece.isPlain = true := by
                          rw [isPlain_eq, htrivia]
                          simpa using hdirective
                        have hboundary : t.piece.isBoundary = false := by
                          rw [isBoundary_eq]
                          simp [heof, hsemi, hopen, hclose]
                        have hsolid : st ++ [t] = solidTokens (raw ++ [t]) := by
                          rw [solidTokens_append, ← hst, show solidTokens [t] = [t] from by
                            simp [solidTokens, hplain]]
                        have hunits := ih ts.length hlt h hle
                          (hraw.append hboundary (Or.inr hplain)) hsolid rfl
                        simpa using hunits

/-!
# Sequences of units are scanned
-/

theorem scan_append {raw : List Token} (hraw : forall t, t ∈ raw -> t.piece.isBoundary = false)
    (fuel : Nat) (st ts : List Token) (hfuel : (raw ++ ts).length ≤ fuel) :
    exists fuel', ts.length ≤ fuel' ∧
      scan fuel st (raw ++ ts) = scan fuel' (st ++ solidTokens raw) ts := by
  induction raw generalizing fuel st with
  | nil => exact ⟨fuel, hfuel, by simp⟩
  | cons t raw ih =>
      rw [List.cons_append, List.length_cons] at hfuel
      rcases Nat.exists_eq_add_one_of_ne_zero (n := fuel) (by omega) with ⟨fuel, rfl⟩
      have hrest : forall u, u ∈ raw -> u.piece.isBoundary = false :=
        fun u hu => hraw u (List.mem_cons_of_mem t hu)
      rw [List.cons_append]
      cases htrivia : t.isTrivia with
      | true =>
          rcases ih hrest (fuel + 1) st (by omega) with ⟨fuel', hle, hscan⟩
          refine ⟨fuel', hle, ?_⟩
          rw [scan_trivia htrivia, hscan, show solidTokens (t :: raw) = solidTokens raw from by
            simp [solidTokens, isPlain_eq, htrivia]]
      | false =>
          have hboundary := hraw t List.mem_cons_self
          rw [isBoundary_eq] at hboundary
          simp only [Bool.or_eq_false_iff] at hboundary
          rcases hboundary with ⟨⟨⟨heof, hsemi⟩, hopen⟩, hclose⟩
          rw [scan_cons htrivia]
          simp only [heof, hsemi, hopen, hclose, Bool.false_eq_true, if_false]
          cases hdirective : t.isDirective with
          | true =>
              rcases ih hrest fuel st (by omega) with ⟨fuel', hle, hscan⟩
              refine ⟨fuel', hle, ?_⟩
              rw [if_pos rfl, hscan, show solidTokens (t :: raw) = solidTokens raw from by
                simp [solidTokens, isPlain_eq, hdirective]]
          | false =>
              rcases ih hrest fuel (st ++ [t]) (by omega) with ⟨fuel', hle, hscan⟩
              refine ⟨fuel', hle, ?_⟩
              rw [if_neg (by simp), hscan,
                show solidTokens (t :: raw) = t :: solidTokens raw from by
                simp [solidTokens, isPlain_eq, hdirective, htrivia]]
              simp

theorem scan_atEnd {ts : List Token} (h : Stream.atEnd ts = true) {fuel : Nat}
    (hfuel : ts.length ≤ fuel) (st : List Token) : scan fuel st ts = .ok [] := by
  cases fuel with
  | zero => rfl
  | succ fuel =>
      cases ts with
      | nil => rw [scan]; rfl
      | cons t ts =>
          have heof : t.kind == .eof := h
          have htrivia : t.isTrivia = false := by
            unfold Token.isTrivia
            rw [eq_of_beq heof]
            rfl
          rw [scan_cons htrivia, if_pos heof]

theorem scan_boundary {raw : List Token} (hraw : IsOpen raw) {t : Token} {op : Text}
    (ht : t.isOp op = true) (fuel : Nat) (ts : List Token)
    (hfuel : (raw ++ t :: ts).length ≤ fuel) :
    exists fuel', ts.length ≤ fuel' ∧
      scan fuel [] (raw ++ t :: ts) =
        if t.isOp ";" then
          match ofStatement? (solidTokens raw) t with
          | .error e => .error e
          | .ok d =>
              match scan fuel' [] ts with
              | .error e => .error e
              | .ok ds => .ok (d.toList ++ ds)
        else if t.isOp Op.openBrace then
          match ofBlock? (solidTokens raw) ts with
          | .error e => .error e
          | .ok none => scan fuel' [] (Stream.skipBalanced Op.openBrace Op.closeBrace ts).2
          | .ok (some (d, after)) =>
              match scan fuel' [] after with
              | .error e => .error e
              | .ok ds => .ok (d :: ds)
        else if t.isOp Op.closeBrace then scan fuel' [] ts
        else scan fuel' (solidTokens raw ++ [t]) ts := by
  rcases scan_append hraw.inner fuel [] (t :: ts) hfuel with ⟨fuel', hle, hscan⟩
  rw [List.length_cons] at hle
  rcases Nat.exists_eq_add_one_of_ne_zero (n := fuel') (by omega) with ⟨fuel', rfl⟩
  refine ⟨fuel', by omega, ?_⟩
  have hkind := kind_of_isOp ht
  have hdirective : t.isDirective = false := by
    unfold Token.isDirective
    rw [hkind]
    rfl
  rw [hscan, scan_cons (isTrivia_of_isOp ht), hkind, hdirective, List.nil_append]
  rfl

theorem scan_of_units {ts : List Token} {ds : List Declaration} (h : Units ts ds) {fuel : Nat}
    (hfuel : ts.length ≤ fuel) : scan fuel [] ts = .ok ds := by
  induction h generalizing fuel with
  | @finish raw ts hraw hend =>
      rcases scan_append hraw.inner fuel [] ts hfuel with ⟨fuel', hle, hscan⟩
      rw [hscan]
      exact scan_atEnd hend hle _
  | @skip t ts ds hplain _ ih =>
      have hopen : forall u, u ∈ [t] -> u.piece.isBoundary = false := by
        intro u hu
        rw [List.mem_singleton.mp hu]
        exact isBoundary_of_not_isPlain hplain
      rcases scan_append hopen fuel [] ts hfuel with ⟨fuel', hle, hscan⟩
      rw [show solidTokens [t] = [] from by simp [solidTokens, hplain]] at hscan
      exact hscan.trans (ih hle)
  | @statement raw ts semi d ds hraw hsemi hstatement _ ih =>
      rcases scan_boundary hraw hsemi fuel ts hfuel with ⟨fuel', hle, hscan⟩
      rw [hscan, if_pos hsemi, hstatement]
      dsimp only
      rw [ih hle]
  | @block raw ts after brace d ds hraw hopen hblock _ ih =>
      rcases scan_boundary hraw hopen fuel ts hfuel with ⟨fuel', hle, hscan⟩
      rcases parts_of_ofBlock? hblock with ⟨parts⟩
      have hlen : after.length ≤ fuel' := by
        rw [parts.tokens, List.length_append, List.length_cons] at hle
        omega
      have hsemi : brace.isOp ";" = false := isOp_eq_false hopen (by decide)
      rw [hscan, if_neg (by simp [hsemi]), if_pos hopen, hblock]
      dsimp only
      rw [ih hlen]
  | @group raw ts brace ds hraw hopen hblock _ ih =>
      rcases scan_boundary hraw hopen fuel ts hfuel with ⟨fuel', hle, hscan⟩
      have hlen : (Stream.skipBalanced Op.openBrace Op.closeBrace ts).2.length ≤ fuel' :=
        Nat.le_trans (Stream.length_closeGroup_le _ _ 1 ts) hle
      have hsemi : brace.isOp ";" = false := isOp_eq_false hopen (by decide)
      rw [hscan, if_neg (by simp [hsemi]), if_pos hopen, hblock]
      exact ih hlen
  | @close raw ts brace ds hraw hclose _ ih =>
      rcases scan_boundary hraw hclose fuel ts hfuel with ⟨fuel', hle, hscan⟩
      have hsemi : brace.isOp ";" = false := isOp_eq_false hclose (by decide)
      have hopen : brace.isOp Op.openBrace = false := isOp_eq_false hclose (by decide)
      rw [hscan, if_neg (by simp [hsemi]), if_neg (by simp [hopen]), if_pos hclose]
      exact ih hle

theorem ofTokens_eq_ok_iff {ts : List Token} {ds : List Declaration} :
    ofTokens ts = .ok ds ↔ Units ts ds := by
  constructor
  · intro h
    exact units_of_scan h (Nat.le_refl _) IsOpen.nil rfl
  · intro h
    exact scan_of_units h (Nat.le_refl _)

end Declaration

/-!
# What pieces declare

Where tokens stand has no influence on what they declare.  Declarations are
therefore found in pieces, up to the places of their parts, and rewritten sources
are compared by the pieces they are cut into.
-/

namespace Declaration

open Lexer

def endPiece : Piece :=
  ⟨.eof, []⟩

/-- A source that is cut into the pieces has these declarations, up to their places. -/
def Declares (ws : List Piece) (ds : List Declaration) : Prop :=
  forall ts, ts.map Token.piece = ws ++ [endPiece] ->
    exists ds', Units ts ds' ∧ ds'.map unplaced = ds.map unplaced

structure IsOpenPieces (us : List Piece) : Prop where
  head : forall u, us.head? = some u -> u.isPlain = true
  inner : forall u, u ∈ us -> u.isBoundary = false

theorem IsOpen.pieces {raw : List Token} (h : IsOpen raw) : IsOpenPieces (raw.map Token.piece) := by
  constructor
  · intro u hu
    rw [List.head?_map] at hu
    rcases Option.map_eq_some_iff.mp hu with ⟨t, ht, rfl⟩
    exact h.head t ht
  · intro u hu
    rcases List.mem_map.mp hu with ⟨t, ht, rfl⟩
    exact h.inner t ht

theorem IsOpenPieces.tokens {us : List Piece} (h : IsOpenPieces us) {raw : List Token}
    (hraw : raw.map Token.piece = us) : IsOpen raw := by
  subst hraw
  constructor
  · intro t ht
    exact h.head t.piece (by rw [List.head?_map, ht]; rfl)
  · intro t ht
    exact h.inner t.piece (List.mem_map_of_mem ht)

/-!
# Building what pieces declare
-/

theorem Declares.skip {w : Piece} {ws : List Piece} {ds : List Declaration}
    (hw : w.isPlain = false) (h : Declares ws ds) : Declares (w :: ws) ds := by
  intro ts hts
  rw [List.cons_append] at hts
  rcases List.map_eq_cons_iff.mp hts with ⟨t, rest, rfl, ht, hrest⟩
  rcases h rest hrest with ⟨ds', hunits, hds⟩
  exact ⟨ds', Units.skip (by rw [ht, hw]) hunits, hds⟩

theorem units_of_skip {t : Token} {ts : List Token} {ds : List Declaration}
    (ht : t.piece.isPlain = false) (h : Units (t :: ts) ds) : Units ts ds := by
  have hop : forall op, t.isOp op = true -> False := by
    intro op hop
    have hkind := kind_of_isOp hop
    unfold Piece.isPlain at ht
    rw [Token.kind_piece, hkind] at ht
    cases ht
  -- no other unit starts with such a token
  have hraw : forall {raw rest : List Token} {u : Token}, IsOpen raw ->
      raw ++ u :: rest = t :: ts -> u = t := by
    intro raw rest u hopen heq
    cases raw with
    | nil => exact (List.cons.inj heq).1
    | cons v raw =>
        have hplain := hopen.head v rfl
        rw [(List.cons.inj heq).1, ht] at hplain
        cases hplain
  generalize hx : t :: ts = x at h
  cases h with
  | @finish raw rest hopen hend =>
      cases raw with
      | nil =>
          rw [List.nil_append] at hx
          subst hx
          have hkind : t.kind = .eof := eq_of_beq hend
          unfold Piece.isPlain at ht
          rw [Token.kind_piece, hkind] at ht
          cases ht
      | cons v raw =>
          have hplain := hopen.head v rfl
          rw [← (List.cons.inj hx).1, ht] at hplain
          cases hplain
  | skip _ hunits =>
      rw [(List.cons.inj hx).2]
      exact hunits
  | statement hopen hsemi _ _ =>
      rw [hraw hopen hx.symm] at hsemi
      exact (hop _ hsemi).elim
  | block hopen hbrace _ _ =>
      rw [hraw hopen hx.symm] at hbrace
      exact (hop _ hbrace).elim
  | group hopen hbrace _ _ =>
      rw [hraw hopen hx.symm] at hbrace
      exact (hop _ hbrace).elim
  | close hopen hbrace _ =>
      rw [hraw hopen hx.symm] at hbrace
      exact (hop _ hbrace).elim

theorem Declares.of_skip {w : Piece} {ws : List Piece} {ds : List Declaration}
    (hw : w.isPlain = false) (h : Declares (w :: ws) ds) : Declares ws ds := by
  intro ts hts
  let t : Token := ⟨w.kind, w.text, Position.start⟩
  have hall : (t :: ts).map Token.piece = w :: ws ++ [endPiece] := by
    rw [List.map_cons, hts]
    rfl
  rcases h (t :: ts) hall with ⟨ds', hunits, hds⟩
  have ht : t.piece.isPlain = false := hw
  exact ⟨ds', units_of_skip ht hunits, hds⟩

theorem Declares.finish {us : List Piece} (h : IsOpenPieces us) : Declares us [] := by
  intro ts hts
  rcases List.map_eq_append_iff.mp hts with ⟨raw, rest, rfl, hraw, hrest⟩
  rcases List.map_eq_singleton_iff.mp hrest with ⟨t, rfl, ht⟩
  refine ⟨[], Units.finish (h.tokens hraw) ?_, rfl⟩
  show (t.kind == .eof) = true
  rw [show t.kind = .eof from congrArg Piece.kind ht]
  rfl

def StatementDeclares (us : List Piece) (d : Option Declaration) : Prop :=
  forall raw semi, raw.map Token.piece = us ->
    exists d', ofStatement? (solidTokens raw) semi = .ok d' ∧ d'.map unplaced = d.map unplaced

theorem Declares.statement {us ws : List Piece} {d : Option Declaration} {ds : List Declaration}
    (hopen : IsOpenPieces us) (hd : StatementDeclares us d) (h : Declares ws ds) :
    Declares (us ++ ⟨.operator, [Byte.semicolon]⟩ :: ws) (d.toList ++ ds) := by
  intro ts hts
  rw [List.append_assoc, List.cons_append] at hts
  rcases List.map_eq_append_iff.mp hts with ⟨raw, rest, rfl, hraw, hrest⟩
  rcases List.map_eq_cons_iff.mp hrest with ⟨semi, rest, rfl, hsemi, hrest⟩
  rcases h rest hrest with ⟨ds', hunits, hds⟩
  rcases hd raw semi hraw with ⟨d', hstatement, hd'⟩
  refine ⟨d'.toList ++ ds', Units.statement (hopen.tokens hraw) (isOp_of_piece hsemi) hstatement
    hunits, ?_⟩
  rw [List.map_append, List.map_append, hds]
  congr 1
  cases d' <;> cases d <;> simp_all

theorem Declares.close {us ws : List Piece} {ds : List Declaration} (hopen : IsOpenPieces us)
    (h : Declares ws ds) : Declares (us ++ ⟨.operator, Op.closeBrace⟩ :: ws) ds := by
  intro ts hts
  rw [List.append_assoc, List.cons_append] at hts
  rcases List.map_eq_append_iff.mp hts with ⟨raw, rest, rfl, hraw, hrest⟩
  rcases List.map_eq_cons_iff.mp hrest with ⟨brace, rest, rfl, hbrace, hrest⟩
  rcases h rest hrest with ⟨ds', hunits, hds⟩
  exact ⟨ds', Units.close (hopen.tokens hraw) (isOp_of_piece hbrace) hunits, hds⟩

theorem statementDeclares_of_ofStatement? {raw : List Token} {semi : Token}
    {d : Option Declaration} (h : ofStatement? (solidTokens raw) semi = .ok d) :
    StatementDeclares (raw.map Token.piece) d := by
  intro raw' semi' hraw
  apply ofStatement?_alike h
  rw [map_piece_solidTokens, map_piece_solidTokens, hraw]

/-- Pieces of a block: its statement, and what follows the brace up to the semicolon. -/
def BlockDeclares (us body : List Piece) (d : Declaration) : Prop :=
  forall raw inner semi after, raw.map Token.piece = us -> inner.map Token.piece = body ->
    semi.isOp ";" = true ->
    exists d', ofBlock? (solidTokens raw) (inner ++ semi :: after) = .ok (some (d', after)) ∧
      d'.unplaced = d.unplaced

theorem Declares.block {us body ws : List Piece} {d : Declaration} {ds : List Declaration}
    (hopen : IsOpenPieces us) (hd : BlockDeclares us body d) (h : Declares ws ds) :
    Declares (us ++ ⟨.operator, Op.openBrace⟩ :: (body ++ ⟨.operator, [Byte.semicolon]⟩ :: ws))
      (d :: ds) := by
  intro ts hts
  simp only [List.append_assoc, List.cons_append] at hts
  rcases List.map_eq_append_iff.mp hts with ⟨raw, rest, rfl, hraw, hrest⟩
  rcases List.map_eq_cons_iff.mp hrest with ⟨brace, rest, rfl, hbrace, hrest⟩
  rcases List.map_eq_append_iff.mp hrest with ⟨inner, rest, rfl, hinner, hrest⟩
  rcases List.map_eq_cons_iff.mp hrest with ⟨semi, rest, rfl, hsemi, hrest⟩
  rcases h rest hrest with ⟨ds', hunits, hds⟩
  rcases hd raw inner semi rest hraw hinner (isOp_of_piece hsemi) with ⟨d', hblock, hd'⟩
  exact ⟨d' :: ds', Units.block (hopen.tokens hraw) (isOp_of_piece hbrace) hblock hunits,
    by simp [hd', hds]⟩

theorem BlockParts.blockDeclares {raw ts after : List Token} {d : Declaration}
    (parts : BlockParts (solidTokens raw) ts d after) :
    BlockDeclares (raw.map Token.piece) (parts.body.map Token.piece) d := by
  intro raw' inner semi after' hraw hinner hsemi
  have hsolid : (solidTokens raw').map Token.piece = (solidTokens raw).map Token.piece := by
    rw [map_piece_solidTokens, map_piece_solidTokens, hraw]
  rw [parts.split, List.map_append] at hsolid
  rcases List.map_eq_append_iff.mp hsolid with ⟨quals', rest, hsplit, hquals, hrest⟩
  rcases List.map_eq_singleton_iff.mp hrest with ⟨name', rfl, hname⟩
  rcases parts.qualifies.alike hquals rfl with ⟨q', hq', hunplaced⟩
  rcases Qualifiers.parts_of_unplaced hunplaced with ⟨hstorage, hlayout, hothers, hprecision⟩
  rcases parts.copy after' hq' hstorage hothers hprecision hname hinner hsemi with
    ⟨d', hblock, hd'⟩
  refine ⟨d', by rw [hsplit]; exact hblock, hd'.trans ?_⟩
  simp [unplaced, hlayout, parts.layout]

/-- A group that is closed, after a statement that opens no block. -/
theorem Declares.group {raw ts used : List Token} {close : Token} {ws : List Piece}
    {ds : List Declaration} (hopen : IsOpen raw)
    (hnone : ofBlock? (solidTokens raw) ts = .ok none)
    (hgroup : forall used' close' after', used'.map Token.piece = used.map Token.piece ->
      close'.piece = close.piece ->
      Stream.closeGroup Op.openBrace Op.closeBrace 1 (used' ++ close' :: after') =
        (close', after')) (h : Declares ws ds) :
    Declares (raw.map Token.piece ++ ⟨.operator, Op.openBrace⟩ ::
      (used.map Token.piece ++ close.piece :: ws)) ds := by
  intro ts' hts
  simp only [List.append_assoc, List.cons_append] at hts
  rcases List.map_eq_append_iff.mp hts with ⟨raw', rest, rfl, hraw, hrest⟩
  rcases List.map_eq_cons_iff.mp hrest with ⟨brace, rest, rfl, hbrace, hrest⟩
  rcases List.map_eq_append_iff.mp hrest with ⟨used', rest, rfl, hused, hrest⟩
  rcases List.map_eq_cons_iff.mp hrest with ⟨close', rest, rfl, hclose, hrest⟩
  rcases h rest hrest with ⟨ds', hunits, hds⟩
  have hnone' : ofBlock? (solidTokens raw') (used' ++ close' :: rest) = .ok none := by
    apply ofBlock?_none_alike hnone
    rw [map_piece_solidTokens, map_piece_solidTokens, hraw]
  have hskip : (Stream.skipBalanced Op.openBrace Op.closeBrace (used' ++ close' :: rest)).2 =
    rest :=
    congrArg Prod.snd (hgroup used' close' rest hused hclose)
  refine ⟨ds', Units.group (hopen.pieces.tokens hraw) (isOp_of_piece hbrace) hnone' ?_, hds⟩
  rw [hskip]
  exact hunits

theorem Declares.openGroup {raw ts : List Token} {ws : List Piece} (hopen : IsOpen raw)
    (hnone : ofBlock? (solidTokens raw) ts = .ok none)
    (hgroup : Stream.atEnd (Stream.skipBalanced Op.openBrace Op.closeBrace ts).2 = true)
    (hts : ts.map Token.piece = ws ++ [endPiece]) :
    Declares (raw.map Token.piece ++ ⟨.operator, Op.openBrace⟩ :: ws) [] := by
  intro ts' hts'
  simp only [List.append_assoc, List.cons_append] at hts'
  rcases List.map_eq_append_iff.mp hts' with ⟨raw', rest, rfl, hraw, hrest⟩
  rcases List.map_eq_cons_iff.mp hrest with ⟨brace, rest, rfl, hbrace, hrest⟩
  have hnone' : ofBlock? (solidTokens raw') rest = .ok none := by
    apply ofBlock?_none_alike hnone
    rw [map_piece_solidTokens, map_piece_solidTokens, hraw]
  have hsame : (Stream.skipBalanced Op.openBrace Op.closeBrace rest).2.map Token.piece =
      (Stream.skipBalanced Op.openBrace Op.closeBrace ts).2.map Token.piece :=
    Stream.closeGroup_alike 1 (by rw [hrest, hts])
  refine ⟨[], Units.group (hopen.pieces.tokens hraw) (isOp_of_piece hbrace) hnone' ?_, rfl⟩
  exact Units.finish IsOpen.nil ((Stream.atEnd_alike hsame).trans hgroup)

end Declaration

end EffectShader
