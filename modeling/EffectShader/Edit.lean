import EffectShader.Text.Basic

/-!
# Text edits

A pass that changes parts of a source collects edits and applies them at the
end.  An edit replaces a span of bytes; what stands between the spans is kept.
-/

namespace EffectShader

structure Edit where
  start : Nat
  /-- The offset just past the span. -/
  stop : Nat
  text : Text
  deriving DecidableEq, Repr

namespace Edit

/-- The line ends of a text, which take its place where it is removed: later lines keep their
numbers. -/
def blank (s : Text) : Text :=
  List.replicate (Text.newlines s) Byte.newline

/-- Applies edits in the order of their spans to `rest`, which starts at the offset `last`.  An edit
that starts inside an earlier one is dropped. -/
def applyFrom (last : Nat) (rest : Text) : List Edit -> Text
  | [] => rest
  | e :: es =>
      if e.start < last then applyFrom last rest es
      else
        rest.take (e.start - last) ++ e.text ++ applyFrom e.stop (rest.drop (e.stop - last)) es

/-- Applies edits to a source; edits that start together keep their order. -/
def apply (code : Text) (edits : List Edit) : Text :=
  applyFrom 0 code (edits.mergeSort fun a b => a.start ≤ b.start)

end Edit

end EffectShader
