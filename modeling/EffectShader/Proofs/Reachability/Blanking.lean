import EffectShader.Proofs.Macro.KeptLines
import EffectShader.Proofs.Subpass
import EffectShader.Proofs.Token.Positions
import EffectShader.Reachability

/-!
# Removed functions leave their lines

A removed function is replaced by its newlines.  It ends behind its start, because
the tokens of a source stand in the order of their offsets, so what is kept and what
is blanked make up the whole text.
-/

namespace EffectShader

/-!
# Groups of a source that ends
-/

namespace Stream

/-- The end marker is among the tokens. -/
def Ends (ts : List Token) : Prop :=
  exists t, t ∈ ts ∧ t.kind = .eof

theorem Ends.tail {t : Token} {ts : List Token} (h : Ends (t :: ts)) (ht : t.kind ≠ .eof) :
    Ends ts := by
  rcases h with ⟨u, hu, heof⟩
  rcases List.mem_cons.mp hu with rfl | hu
  · exact absurd heof ht
  · exact ⟨u, hu, heof⟩

theorem Ends.skipTrivia {ts : List Token} (h : Ends ts) : Ends (skipTrivia ts) := by
  induction ts with
  | nil => exact h
  | cons t ts ih =>
      rw [Stream.skipTrivia, List.dropWhile_cons]
      split
      · rename_i ht
        apply ih (h.tail _)
        intro heof
        simp [Token.isTrivia, heof] at ht
      · exact h

theorem tail_suffix (ts : List Token) : Stream.tail ts <:+ ts := by
  cases ts with
  | nil => exact List.suffix_rfl
  | cons t ts =>
      rw [Stream.tail]
      split
      · exact List.suffix_rfl
      · exact List.suffix_cons t ts

theorem Ends.tailSignificant {ts : List Token} (h : Ends ts) : Ends (tailSignificant ts) := by
  have hskip := h.skipTrivia
  unfold Stream.tailSignificant
  cases hts : Stream.skipTrivia ts with
  | nil =>
      rw [hts] at hskip
      exact hskip
  | cons t rest =>
      rw [hts] at hskip
      rw [Stream.tail]
      split
      · exact hskip
      · rename_i ht
        exact hskip.tail (by simpa using ht)

theorem tailSignificant_suffix (ts : List Token) : tailSignificant ts <:+ ts :=
  (tail_suffix _).trans (List.dropWhile_suffix _)

theorem closeGroup_ends (opening closing : Text) (depth : Nat) {ts : List Token} (h : Ends ts) :
    (closeGroup opening closing depth ts).1 ∈ ts ∧
      (closeGroup opening closing depth ts).2 <:+ ts ∧
      Ends (closeGroup opening closing depth ts).2 := by
  induction ts generalizing depth with
  | nil =>
      rcases h with ⟨t, ht, _⟩
      cases ht
  | cons t ts ih =>
      rw [closeGroup]
      split
      · exact ⟨List.mem_cons_self, List.suffix_rfl, h⟩
      · rename_i ht
        have hts : Ends ts := h.tail (by simpa using ht)
        have hlater : forall d, (closeGroup opening closing d ts).1 ∈ t :: ts ∧
            (closeGroup opening closing d ts).2 <:+ t :: ts ∧
            Ends (closeGroup opening closing d ts).2 := by
          intro d
          rcases ih d hts with ⟨hmem, hsuffix, hends⟩
          exact ⟨List.mem_cons_of_mem t hmem, hsuffix.trans (List.suffix_cons t ts), hends⟩
        split
        · exact hlater _
        · split
          · split
            · exact ⟨List.mem_cons_self, List.suffix_cons t ts, hts⟩
            · exact hlater _
          · exact hlater _

end Stream

namespace ShaderFunction

/-!
# Definitions end behind their starts
-/

/-- The tokens of a heading stand before the tokens to come, which are in order. -/
structure Precedes (heading ts : List Token) : Prop where
  heading : forall h, h ∈ heading -> forall t, t ∈ ts -> h.offset ≤ t.offset
  ordered : ts.Pairwise fun t u => t.offset ≤ u.offset
  ends : Stream.Ends ts

namespace Precedes

variable {heading ts us : List Token}

theorem suffix (h : Precedes heading ts) (hsuffix : us <:+ ts) (hends : Stream.Ends us) :
    Precedes heading us :=
  ⟨fun k hk t ht => h.heading k hk t (hsuffix.subset ht), h.ordered.sublist hsuffix.sublist, hends⟩

theorem forget (h : Precedes heading ts) : Precedes [] ts :=
  ⟨by simp, h.ordered, h.ends⟩

theorem push {t : Token} (h : Precedes heading (t :: ts)) (ht : t.kind ≠ .eof) :
    Precedes (t :: heading) ts := by
  refine ⟨?_, h.ordered.of_cons, h.ends.tail ht⟩
  intro k hk u hu
  rcases List.mem_cons.mp hk with rfl | hk
  · exact List.rel_of_pairwise_cons h.ordered hu
  · exact h.heading k hk u (List.mem_cons_of_mem t hu)

theorem next {t : Token} {rest : List Token} (h : Precedes heading ts)
    (hs : Stream.skipTrivia ts = t :: rest) (ht : ¬ (t.kind == .eof) = true) :
    Precedes (t :: heading) rest := by
  have hskip := h.suffix (List.dropWhile_suffix Token.isTrivia) h.ends.skipTrivia
  rw [show ts.dropWhile Token.isTrivia = t :: rest from hs] at hskip
  exact hskip.push (by simpa using ht)

theorem group (h : Precedes heading ts) (opening closing : Text) (depth : Nat) :
    Precedes heading (Stream.closeGroup opening closing depth ts).2 := by
  rcases Stream.closeGroup_ends opening closing depth h.ends with ⟨_, hsuffix, hends⟩
  exact h.suffix hsuffix hends

end Precedes

theorem headingStart_mem (type : Token) (earlier : List Token) :
    headingStart type earlier ∈ type :: earlier := by
  unfold headingStart
  split
  · split
    · exact List.mem_cons_of_mem _ List.mem_cons_self
    · exact List.mem_cons_self
  · exact List.mem_cons_self

theorem start_le_stop_of_scan {heading ts : List Token} (h : Precedes heading ts) :
    forall d, d ∈ scan heading ts -> d.start ≤ d.stop := by
  fun_induction scan heading ts with
  | case1 => simp
  | case2 => simp
  | case3 heading ts t rest hs _ ht _ ih => exact ih (h.next hs ht).forget
  | case4 heading ts t rest hs _ ht _ _ _ ih => exact ih ((h.next hs ht).group _ _ 1).forget
  | case5 ts t rest hs _ ht _ _ _ after _ name type earlier _ inside _ closing _ ih =>
      -- The closing brace, or the end marker in its place, comes after the whole heading.
      have hafter : Precedes (t :: name :: type :: earlier) after := (h.next hs ht).group _ _ 1
      have hinside : Precedes (t :: name :: type :: earlier) inside :=
        hafter.suffix (Stream.tailSignificant_suffix after) hafter.ends.tailSignificant
      have hclosing : closing.1 ∈ inside :=
        (Stream.closeGroup_ends Op.openBrace Op.closeBrace 1 hinside.ends).1
      have hmem : headingStart type earlier ∈ t :: name :: type :: earlier :=
        List.mem_cons_of_mem t (List.mem_cons_of_mem name (headingStart_mem type earlier))
      have hstart := hinside.heading _ hmem _ hclosing
      exact List.forall_mem_cons.mpr
        ⟨Nat.le_trans hstart (Nat.le_add_right _ _), ih (hinside.group _ _ 1).forget⟩
  | case6 ts t rest hs _ ht _ _ _ after _ name type earlier _ ih =>
      exact ih ((h.next hs ht).group _ _ 1)
  | case7 heading ts t rest hs _ ht _ _ _ after _ _ ih => exact ih ((h.next hs ht).group _ _ 1)
  | case8 heading ts t rest hs _ ht _ _ _ ih => exact ih (h.next hs ht)

theorem precedes_of_tokenize {code : Text} {ts : List Token} (h : tokenize code = .ok ts) :
    Precedes [] ts := by
  have hcovers := Lexer.covers_of_tokenize h
  refine ⟨by simp, ?_, ?_⟩
  · have hchain : (ts.map Token.offset).IsChain (· ≤ ·) := by
      rw [List.isChain_map]
      apply hcovers.adjacent.imp
      intro t u hu
      rw [hu]
      exact Nat.le_add_right _ _
    rw [List.isChain_iff_pairwise, List.pairwise_map] at hchain
    exact hchain
  · rcases hcovers.ended with ⟨init, p, rfl, _, _⟩
    exact ⟨Token.endAt p, List.mem_append_right _ List.mem_cons_self, rfl⟩

theorem start_le_stop_of_ofTokens {code : Text} {ts : List Token} (h : tokenize code = .ok ts) :
    forall f, f ∈ ofTokens ts -> f.start ≤ f.stop := by
  intro f hf
  simp only [ofTokens, List.map_map, List.mem_map, Function.comp_apply] at hf
  rcases hf with ⟨d, hd, rfl⟩
  exact start_le_stop_of_scan (precedes_of_tokenize h) d hd

/-!
# Blanked functions
-/

theorem newlines_keepLive {live : List Text} {fns : List ShaderFunction}
    (h : forall f, f ∈ fns -> f.start ≤ f.stop) (offset removed : Nat) (code : Text) :
    Text.newlines (keepLive live offset removed code fns).code = Text.newlines code := by
  induction fns generalizing offset removed code with
  | nil => rfl
  | cons f fns ih =>
      rcases List.forall_mem_cons.mp h with ⟨hf, hfns⟩
      rw [keepLive]
      split
      · exact ih hfns offset removed code
      · have hle : f.start - offset ≤ f.stop - offset := Nat.sub_le_sub_right hf offset
        have hdrop : code.drop (f.stop - offset) =
            (code.drop (f.start - offset)).drop (f.stop - offset - (f.start - offset)) := by
          rw [List.drop_drop, Nat.add_sub_cancel' hle]
        simp only [Text.newlines_append, Text.newlines_replicate, ih hfns, Text.slice]
        rw [Nat.add_assoc, hdrop, ← Text.newlines_append, List.take_append_drop,
          ← Text.newlines_append, List.take_append_drop]

theorem exists_eliminate {code : Text} (h : (tokenize code).isOk = true) (entry : Text) :
    exists e, eliminate code entry = .ok e := by
  unfold eliminate
  cases hts : tokenize code with
  | error err =>
      rw [hts] at h
      cases h
  | ok ts =>
      dsimp only
      split
      · exact ⟨_, rfl⟩
      · exact ⟨_, rfl⟩

theorem newlines_eliminate {code entry : Text} {e : Elimination}
    (h : eliminate code entry = .ok e) :
    Text.newlines e.remainder.code = Text.newlines code := by
  unfold eliminate at h
  split at h
  · cases h
  · rename_i ts hts
    have hspans := start_le_stop_of_ofTokens hts
    split at h
    · cases h
      rfl
    · rename_i f rest hfns
      cases h
      rw [hfns] at hspans
      exact newlines_keepLive hspans 0 0 code

end ShaderFunction

/-!
# The line map through the passes

A resolved source goes through four passes before it is split into stages: subpass
pragmas become declarations, literal and function macros are expanded, and functions
that the entry does not reach are blanked.  The first and the third change the
number of lines and record it; the other two leave it as it is.
-/

open LineMap

/-- The line map is true of the text after every pass. -/
theorem lineMap_follows {source entry code : Text} {e : Subpass.Expansion}
    {rest : ShaderFunction.Elimination}
    (hsubpass : Subpass.expand source (.ofText source) = .ok e)
    (hfunctions : (FunctionMacro.expand (LiteralMacro.expand e.code).1 e.lines).result = .ok code)
    (heliminate : ShaderFunction.eliminate code entry = .ok rest) :
    let literal := (LiteralMacro.expand e.code).1
    let lines := (FunctionMacro.expand literal e.lines).lines
    let rewrites := FunctionMacro.rewrites literal e.lines ++ Subpass.rewrites source
    Follows source e.code e.lines (Subpass.rewrites source) ∧
      Follows source literal e.lines (Subpass.rewrites source) ∧
      Follows source code lines rewrites ∧
      Follows source rest.remainder.code lines rewrites := by
  intro literal lines rewrites
  have hdeclared := Subpass.tracks_expand (tracks_ofText source) hsubpass
  rw [List.append_nil] at hdeclared
  have hliteral : Tracks (source.newlines + 1) (Text.newlines literal + 1) e.lines
      (Subpass.rewrites source) := by
    rw [LiteralMacro.newlines_expand]
    exact hdeclared
  have hexpanded : Tracks (source.newlines + 1) (Text.newlines code + 1) lines rewrites :=
    FunctionMacro.tracks_expand hliteral hfunctions
  have hkept : Tracks (source.newlines + 1) (Text.newlines rest.remainder.code + 1) lines
      rewrites := by
    rw [ShaderFunction.newlines_eliminate heliminate]
    exact hexpanded
  exact ⟨hdeclared.follows, hliteral.follows, hexpanded.follows, hkept.follows⟩

theorem lineMap_follows_moved :
    let pragmas : Text := "#pragma define M(x) x\\\nx\n#pragma define N 1;\n"
    let source : Text := "float g;\n#pragma subpassColor out a\n" ++ pragmas ++
      "void f() \x7b\n\x7d\nvoid main() \x7b\nM(N)\n\x7d"
    let declared : Text := "float g;\n#if __VERSION__ >= 450\nlayout(location = 0) out vec4 a;\n" ++
      "#elif __VERSION__ >= 300\nlayout(location = 0) out vec4 a;\n" ++
      "#else\n#define a gl_FragData[0]\n#endif\n"
    let code : Text := declared ++ "\n\n\nvoid f() \x7b\n\x7d\nvoid main() \x7b\n1;\n1;\n\x7d"
    exists e rest, Subpass.expand source (.ofText source) = .ok e ∧
      (FunctionMacro.expand (LiteralMacro.expand e.code).1 e.lines).result = .ok code ∧
      ShaderFunction.eliminate code "main" = .ok rest ∧
      Follows source rest.remainder.code
        ⟨[1, 2, 2, 2, 2, 2, 2, 2, 3, 4, 5, 6, 7, 8, 9, 9, 10]⟩ [⟨14, 1⟩, ⟨1, 8⟩] := by
  intro pragmas source declared code
  let called : Text := declared ++ pragmas ++ "void f() \x7b\n\x7d\nvoid main() \x7b\nM(N)\n\x7d"
  let lines : LineMap := ⟨[1, 2, 2, 2, 2, 2, 2, 2, 3, 4, 5, 6, 7, 8, 9, 10]⟩
  have hsubpass : (Subpass.expand source (.ofText source)).toOption.map
      (fun e => (e.code, e.lines)) = some (called, lines) := by
    decide +kernel
  have hplace : Subpass.rewrites source = [⟨1, 8⟩] := by
    decide +kernel
  have hfunctions : (FunctionMacro.expand (LiteralMacro.expand called).1 lines).result =
      .ok code := by
    decide +kernel
  have hlines : (FunctionMacro.expand (LiteralMacro.expand called).1 lines).lines =
      ⟨[1, 2, 2, 2, 2, 2, 2, 2, 3, 4, 5, 6, 7, 8, 9, 9, 10]⟩ := by
    decide +kernel
  have hcalls : FunctionMacro.rewrites (LiteralMacro.expand called).1 lines = [⟨14, 1⟩] := by
    decide +kernel
  have htokens : (tokenize code).isOk = true := by
    decide +kernel
  rcases ShaderFunction.exists_eliminate htokens "main" with ⟨rest, heliminate⟩
  cases hexpand : Subpass.expand source (.ofText source) with
  | error err =>
      rw [hexpand] at hsubpass
      cases hsubpass
  | ok e =>
      rw [hexpand] at hsubpass
      rcases Prod.mk.inj (Option.some.inj hsubpass) with ⟨hcode, hmap⟩
      rw [← hcode, ← hmap] at hfunctions hlines hcalls
      have hfollows := (lineMap_follows hexpand hfunctions heliminate).2.2.2
      rw [hlines, hcalls, hplace] at hfollows
      exact ⟨e, rest, rfl, hfunctions, heliminate, hfollows⟩

end EffectShader
