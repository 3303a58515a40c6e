import EffectShader.Token.Basic

/-!
# Token streams

A parser consumes a list of tokens that ends in the end marker.  The marker
itself is never consumed, so reading past the end yields it again and again.
-/

namespace EffectShader

namespace Stream

def peek : List Token -> Token
  | [] => Token.endAt ⟨0, 0, 0⟩
  | t :: _ => t

def tail : List Token -> List Token
  | [] => []
  | t :: ts => if t.kind == .eof then t :: ts else ts

def atEnd (ts : List Token) : Bool :=
  (peek ts).kind == .eof

def skipTrivia (ts : List Token) : List Token :=
  ts.dropWhile Token.isTrivia

def peekSignificant (ts : List Token) : Token :=
  peek (skipTrivia ts)

def tailSignificant (ts : List Token) : List Token :=
  tail (skipTrivia ts)

/-- The stream after the given operator, if that is the next token that is not trivia. -/
def acceptOp? (op : Text) (ts : List Token) : Option (List Token) :=
  if (peekSignificant ts).isOp op then some (tailSignificant ts) else none

/-- The token closing a group of which `depth` levels are open, and the stream after it.  An
unterminated group is closed by the end marker. -/
def closeGroup (opening closing : Text) : (depth : Nat) -> List Token -> Token × List Token
  | _, [] => (Token.endAt ⟨0, 0, 0⟩, [])
  | depth, t :: ts =>
      if t.kind == .eof then (t, t :: ts)
      else if t.isOp opening then closeGroup opening closing (depth + 1) ts
      else if t.isOp closing then
        if depth ≤ 1 then (t, ts) else closeGroup opening closing (depth - 1) ts
      else closeGroup opening closing depth ts

/-- Skips a group whose opening operator has been consumed. -/
def skipBalanced (opening closing : Text) (ts : List Token) : Token × List Token :=
  closeGroup opening closing 1 ts

theorem length_skipTrivia_le (ts : List Token) : (skipTrivia ts).length ≤ ts.length :=
  (List.dropWhile_sublist _).length_le

theorem length_tail_le (ts : List Token) : (tail ts).length ≤ ts.length := by
  cases ts with
  | nil => simp [tail]
  | cons t ts =>
      rw [tail]
      split <;> simp

theorem length_tailSignificant_le (ts : List Token) :
    (tailSignificant ts).length ≤ ts.length :=
  Nat.le_trans (length_tail_le _) (length_skipTrivia_le ts)

theorem length_closeGroup_le (opening closing : Text) (depth : Nat) (ts : List Token) :
    (closeGroup opening closing depth ts).2.length ≤ ts.length := by
  induction ts generalizing depth with
  | nil => simp [closeGroup]
  | cons t ts ih =>
      rw [closeGroup]
      split
      · simp
      · split
        · exact Nat.le_succ_of_le (ih _)
        · split
          · split
            · simp
            · exact Nat.le_succ_of_le (ih _)
          · exact Nat.le_succ_of_le (ih _)

end Stream

/-!
# Cursors

A cursor is a stream that can also be moved back to an earlier token.
-/

structure Cursor where
  tokens : List Token
  pos : Nat
  deriving Repr

namespace Cursor

/-- The list with an end marker just past its last token, unless it ends in one. -/
def closed (ts : List Token) : List Token :=
  match ts.getLast? with
  | none => [Token.endAt ⟨0, 0, 0⟩]
  | some t => if t.kind == .eof then ts else ts ++ [Token.endAt ⟨0, 0, t.stop⟩]

def ofTokens (ts : List Token) : Cursor :=
  ⟨closed ts, 0⟩

def rest (c : Cursor) : List Token :=
  c.tokens.drop c.pos

def resume (c : Cursor) (rest : List Token) : Cursor :=
  { c with pos := c.tokens.length - rest.length }

/-- The cursor at a token index, held inside the list. -/
def seek (c : Cursor) (pos : Int) : Cursor :=
  { c with pos := min pos.toNat (c.tokens.length - 1) }

def done (c : Cursor) : Bool :=
  Stream.atEnd c.rest

def peek (c : Cursor) : Token :=
  Stream.peek c.rest

def next (c : Cursor) : Token × Cursor :=
  (c.peek, c.resume (Stream.tail c.rest))

def skipTrivia (c : Cursor) : Cursor :=
  c.resume (Stream.skipTrivia c.rest)

def peekSignificant (c : Cursor) : Token :=
  Stream.peekSignificant c.rest

def nextSignificant (c : Cursor) : Token × Cursor :=
  c.skipTrivia.next

/-- Consumes the next token that is not trivia if it is the given operator. -/
def acceptOp (c : Cursor) (op : Text) : Bool × Cursor :=
  match Stream.acceptOp? op c.rest with
  | some rest => (true, c.resume rest)
  | none => (false, c)

/-- Consumes a group whose opening operator has been consumed. -/
def skipBalanced (c : Cursor) (opening closing : Text) : Token × Cursor :=
  let (t, rest) := Stream.skipBalanced opening closing c.rest
  (t, c.resume rest)

end Cursor

end EffectShader
