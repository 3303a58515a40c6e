import EffectShader.Check.Grammar.Expression

/-!
# Declarations and statements
-/

namespace EffectShader

namespace Grammar

def declarationQualifiers : List Text :=
  ["const", "attribute", "varying", "uniform", "invariant", "lowp", "mediump", "highp"]

def parameterQualifiers : List Text :=
  ["const", "in", "out", "inout", "lowp", "mediump", "highp"]

def arrayLength (ts : List Token) : Continued ts :=
  match acceptOp? "[" ts with
  | none => .ok (RestOrAll.all ts)
  | some ⟨r1, h1⟩ =>
      match expression r1 with
      | .error e => .error e
      | .ok ⟨r2, h2⟩ =>
          match expectOp "]" r2 with
          | .error e => .error e
          | .ok r3 => .ok (Rest.after h1 (Rest.after h2 r3)).orAll

def initializer (ts : List Token) : Continued ts :=
  match acceptOp? "=" ts with
  | none => .ok (RestOrAll.all ts)
  | some ⟨r1, h1⟩ =>
      match assignment r1 with
      | .error e => .error e
      | .ok r2 => .ok (Rest.after h1 r2).orAll

def declaratorTail (ts : List Token) : Recognized ts :=
  match arrayLength ts with
  | .error e => .error e
  | .ok ⟨r1, h1⟩ =>
      match initializer r1 with
      | .error e => .error e
      | .ok ⟨r2, h2⟩ =>
          match acceptOp? "," r2 with
          | none =>
              match expectOp ";" r2 with
              | .error e => .error e
              | .ok r3 => .ok (Rest.afterAny h1 (Rest.afterAny h2 r3))
          | some ⟨r3, h3⟩ =>
              match identifier r3 with
              | .error e => .error e
              | .ok ⟨r4, h4⟩ =>
                  match declaratorTail r4 with
                  | .error e => .error e
                  | .ok r5 =>
                      .ok (Rest.afterAny h1
                        (Rest.afterAny h2 (Rest.after h3 (Rest.after h4 r5))))
  termination_by ts.length

def declarators (ts : List Token) : Recognized ts :=
  match identifier ts with
  | .error e => .error e
  | .ok ⟨r1, h1⟩ =>
      match declaratorTail r1 with
      | .error e => .error e
      | .ok r2 => .ok (Rest.after h1 r2)

def structMembers (ts : List Token) : Recognized ts :=
  match acceptOp? Op.closeBrace ts with
  | some r => .ok r
  | none =>
      if Stream.atEnd ts then mismatch (.op Op.closeBrace) ts
      else
        let ⟨r1, h1⟩ := qualifiers declarationQualifiers ts
        match typeName r1 with
        | .error e => .error e
        | .ok ⟨r2, h2⟩ =>
            match declarators r2 with
            | .error e => .error e
            | .ok ⟨r3, h3⟩ =>
                match structMembers r3 with
                | .error e => .error e
                | .ok r4 =>
                    .ok (Rest.afterAny h1 (Rest.after h2 (Rest.after h3 r4)))
  termination_by ts.length

def structBody (ts : List Token) : Recognized ts :=
  let ⟨r1, h1⟩ : RestOrAll ts :=
    match accept? (fun t => t.kind == .ident) ts with
    | some r => r.orAll
    | none => RestOrAll.all ts
  match expectOp Op.openBrace r1 with
  | .error e => .error e
  | .ok ⟨r2, h2⟩ =>
      match structMembers r2 with
      | .error e => .error e
      | .ok r3 => .ok (Rest.afterAny h1 (Rest.after h2 r3))

def structDeclaration (ts : List Token) : Recognized ts :=
  match structBody ts with
  | .error e => .error e
  | .ok ⟨r1, h1⟩ =>
      match acceptOp? ";" r1 with
      | some r2 => .ok (Rest.after h1 r2)
      | none =>
          match declarators r1 with
          | .error e => .error e
          | .ok r2 => .ok (Rest.after h1 r2)

/-!
# Statements
-/

def startsDeclaration : List Token -> Bool
  | [] => false
  | t :: ts =>
      let beforeName := (Stream.peek ts).kind == .ident
      if t.kind == .keyword && (declarationQualifiers.contains t.text || isKeyword "struct" t) then
        true
      else (isTypeKeyword t || t.kind == .ident) && beforeName

def localDeclaration (ts : List Token) : Recognized ts :=
  let ⟨r1, h1⟩ := qualifiers declarationQualifiers ts
  match accept? (isKeyword "struct") r1 with
  | some ⟨r2, h2⟩ =>
      match structDeclaration r2 with
      | .error e => .error e
      | .ok r3 => .ok (Rest.afterAny h1 (Rest.after h2 r3))
  | none =>
      match typeName r1 with
      | .error e => .error e
      | .ok ⟨r2, h2⟩ =>
          match declarators r2 with
          | .error e => .error e
          | .ok r3 => .ok (Rest.afterAny h1 (Rest.after h2 r3))

def expressionBefore (op : Text) (ts : List Token) : Recognized ts :=
  match expression ts with
  | .error e => .error e
  | .ok ⟨r1, h1⟩ =>
      match expectOp op r1 with
      | .error e => .error e
      | .ok r2 => .ok (Rest.after h1 r2)

def optionalBefore (op : Text) (ts : List Token) : Recognized ts :=
  match acceptOp? op ts with
  | some r => .ok r
  | none => expressionBefore op ts

def condition (ts : List Token) : Recognized ts :=
  match expectOp "(" ts with
  | .error e => .error e
  | .ok ⟨r1, h1⟩ =>
      match expressionBefore ")" r1 with
      | .error e => .error e
      | .ok r2 => .ok (Rest.after h1 r2)

def loopStart (ts : List Token) : Recognized ts :=
  match acceptOp? ";" ts with
  | some r => .ok r
  | none => if startsDeclaration ts then localDeclaration ts else expressionBefore ";" ts

def loopHead (ts : List Token) : Recognized ts :=
  match expectOp "(" ts with
  | .error e => .error e
  | .ok ⟨r1, h1⟩ =>
      match loopStart r1 with
      | .error e => .error e
      | .ok ⟨r2, h2⟩ =>
          match optionalBefore ";" r2 with
          | .error e => .error e
          | .ok ⟨r3, h3⟩ =>
              match optionalBefore ")" r3 with
              | .error e => .error e
              | .ok r4 => .ok (Rest.after h1 (Rest.after h2 (Rest.after h3 r4)))

def isJump (t : Token) : Bool :=
  isKeyword "break" t || isKeyword "continue" t || isKeyword "discard" t

mutual

def statement (ts : List Token) : Recognized ts :=
  match ts with
  | [] => mismatch .expression []
  | t :: rest =>
      if t.isOp Op.openBrace then
        match statements rest with
        | .error e => .error e
        | .ok r1 => .ok (Rest.past t r1)
      else if t.isOp ";" then .ok (Rest.tail t rest)
      else if isKeyword "if" t then
        match guarded rest with
        | .error e => .error e
        | .ok ⟨r1, h1⟩ =>
            match accept? (isKeyword "else") r1 with
            | none => .ok (Rest.past t ⟨r1, h1⟩)
            | some ⟨r2, h2⟩ =>
                match statement r2 with
                | .error e => .error e
                | .ok r3 => .ok (Rest.past t (Rest.after h1 (Rest.after h2 r3)))
      else if isKeyword "for" t then
        match loopHead rest with
        | .error e => .error e
        | .ok ⟨r1, h1⟩ =>
            match statement r1 with
            | .error e => .error e
            | .ok r2 => .ok (Rest.past t (Rest.after h1 r2))
      else if isKeyword "while" t then
        match guarded rest with
        | .error e => .error e
        | .ok r1 => .ok (Rest.past t r1)
      else if isKeyword "do" t then
        match statement rest with
        | .error e => .error e
        | .ok ⟨r1, h1⟩ =>
            match expect .whileWord (isKeyword "while") r1 with
            | .error e => .error e
            | .ok ⟨r2, h2⟩ =>
                match condition r2 with
                | .error e => .error e
                | .ok ⟨r3, h3⟩ =>
                    match expectOp ";" r3 with
                    | .error e => .error e
                    | .ok r4 =>
                        .ok (Rest.past t
                          (Rest.after h1 (Rest.after h2 (Rest.after h3 r4))))
      else if isKeyword "return" t then
        match optionalBefore ";" rest with
        | .error e => .error e
        | .ok r1 => .ok (Rest.past t r1)
      else if isJump t then
        match expectOp ";" rest with
        | .error e => .error e
        | .ok r1 => .ok (Rest.past t r1)
      else if startsDeclaration (t :: rest) then localDeclaration (t :: rest)
      else expressionBefore ";" (t :: rest)
  termination_by (ts.length, 1)

def guarded (ts : List Token) : Recognized ts :=
  match condition ts with
  | .error e => .error e
  | .ok ⟨r1, h1⟩ =>
      match statement r1 with
      | .error e => .error e
      | .ok r2 => .ok (Rest.after h1 r2)
  termination_by (ts.length, 0)

def statements (ts : List Token) : Recognized ts :=
  match acceptOp? Op.closeBrace ts with
  | some r => .ok r
  | none =>
      if Stream.atEnd ts then mismatch (.op Op.closeBrace) ts
      else
        match statement ts with
        | .error e => .error e
        | .ok ⟨r1, h1⟩ =>
            match statements r1 with
            | .error e => .error e
            | .ok r2 => .ok (Rest.after h1 r2)
  termination_by (ts.length, 2)

end

/-!
# Global declarations
-/

def parameter (ts : List Token) : Recognized ts :=
  let ⟨r1, h1⟩ := qualifiers parameterQualifiers ts
  match typeName r1 with
  | .error e => .error e
  | .ok ⟨r2, h2⟩ =>
      let ⟨r3, h3⟩ : RestOrAll r2 :=
        match accept? isName r2 with
        | some r => r.orAll
        | none => RestOrAll.all r2
      match arrayLength r3 with
      | .error e => .error e
      | .ok r4 => .ok (Rest.afterAny h1 (RestOrAll.after h2 (RestOrAll.afterAny h3 r4)))

def parameterList (ts : List Token) : Recognized ts :=
  match parameter ts with
  | .error e => .error e
  | .ok ⟨r1, h1⟩ =>
      match acceptOp? "," r1 with
      | none =>
          match expectOp ")" r1 with
          | .error e => .error e
          | .ok r2 => .ok (Rest.after h1 r2)
      | some ⟨r2, h2⟩ =>
          match parameterList r2 with
          | .error e => .error e
          | .ok r3 => .ok (Rest.after h1 (Rest.after h2 r3))
  termination_by ts.length

def parameters (ts : List Token) : Recognized ts :=
  match acceptOp? ")" ts with
  | some r => .ok r
  | none =>
      match voidList? ts with
      | some r => .ok r
      | none => parameterList ts

/-- A function after the opening parenthesis of its parameters: a prototype, or a body. -/
def functionRest (ts : List Token) : Recognized ts :=
  match parameters ts with
  | .error e => .error e
  | .ok ⟨r1, h1⟩ =>
      match acceptOp? ";" r1 with
      | some r2 => .ok (Rest.after h1 r2)
      | none =>
          match expectOp Op.openBrace r1 with
          | .error e => .error e
          | .ok ⟨r2, h2⟩ =>
              match statements r2 with
              | .error e => .error e
              | .ok r3 => .ok (Rest.after h1 (Rest.after h2 r3))

def precisionRest (ts : List Token) : Recognized ts :=
  match expect .precision (fun t => Word.isPrecision t.text) ts with
  | .error e => .error e
  | .ok ⟨r1, h1⟩ =>
      match typeName r1 with
      | .error e => .error e
      | .ok ⟨r2, h2⟩ =>
          match expectOp ";" r2 with
          | .error e => .error e
          | .ok r3 => .ok (Rest.after h1 (Rest.after h2 r3))

/-- A variable or a function after its qualifiers. -/
def unqualified (ts : List Token) : Recognized ts :=
  match typeName ts with
  | .error e => .error e
  | .ok ⟨r1, h1⟩ =>
      match identifier r1 with
      | .error e => .error e
      | .ok ⟨r2, h2⟩ =>
          match acceptOp? "(" r2 with
          | some ⟨r3, h3⟩ =>
              match functionRest r3 with
              | .error e => .error e
              | .ok r4 => .ok (Rest.after h1 (Rest.after h2 (Rest.after h3 r4)))
          | none =>
              match declaratorTail r2 with
              | .error e => .error e
              | .ok r3 => .ok (Rest.after h1 (Rest.after h2 r3))

def external (ts : List Token) : Recognized ts :=
  match accept? (isKeyword "precision") ts with
  | some ⟨r1, h1⟩ =>
      match precisionRest r1 with
      | .error e => .error e
      | .ok r2 => .ok (Rest.after h1 r2)
  | none =>
      let ⟨r1, h1⟩ := qualifiers declarationQualifiers ts
      match accept? (isKeyword "struct") r1 with
      | some ⟨r2, h2⟩ =>
          match structDeclaration r2 with
          | .error e => .error e
          | .ok r3 => .ok (Rest.afterAny h1 (Rest.after h2 r3))
      | none =>
          match unqualified r1 with
          | .error e => .error e
          | .ok r2 => .ok (Rest.afterAny h1 r2)

def globalDeclarations (ts : List Token) : Except Mismatch Unit :=
  if Stream.atEnd ts then .ok ()
  else
    match acceptOp? ";" ts with
    | some ⟨r, _⟩ => globalDeclarations r
    | none =>
        match external ts with
        | .error e => .error e
        | .ok ⟨r, _⟩ => globalDeclarations r
  termination_by ts.length

end Grammar

/-- Recognizes a token list as a GLSL ES 1.00 source.  Directives are skipped, so every branch of a
conditional must fit. -/
def checkGrammar (ts : List Token) : Except Grammar.Mismatch Unit :=
  Grammar.globalDeclarations (ts.filter fun t => !t.isTrivia && !t.isDirective)

end EffectShader
