import EffectShader.Declaration.Basic
import EffectShader.Diagnostic.Basic
import EffectShader.Token.Stream
import EffectShader.Token.Word

/-!
# Reading interface declarations

The top level of a shader is cut into statements at semicolons and braces.  A
statement that starts with qualifiers, one of them a storage qualifier, and goes
on with a type and declarators is an interface declaration; a statement of
qualifiers and a name before a brace opens a block.  Function bodies and
everything else are skipped.
-/

namespace EffectShader

namespace Declaration

/-!
# Layout qualifiers
-/

def layoutItem? : List Text -> Option LayoutItem
  | [] => none
  | key :: equals :: v :: vs =>
      some ⟨key, if equals == ("=" : Text) then (v :: vs).flatten else []⟩
  | key :: _ => some ⟨key, []⟩

/-- The entries up to the closing parenthesis, the offset past it and the tokens that follow; `item`
holds the texts of the entry being read. -/
def layoutItems? (item : List Text) : List Token -> Option (List LayoutItem × Nat × List Token)
  | [] => none
  | t :: ts =>
      if t.isOp ")" then some ((layoutItem? item).toList, t.stop, ts)
      else if t.isOp "," then
        (layoutItems? [] ts).map fun (items, stop, rest) =>
          ((layoutItem? item).toList ++ items, stop, rest)
      else layoutItems? (item ++ [t.text]) ts

theorem length_of_layoutItems? {item : List Text} {ts rest : List Token}
    {items : List LayoutItem} {stop : Nat}
    (h : layoutItems? item ts = some (items, stop, rest)) : rest.length < ts.length := by
  induction ts generalizing item items with
  | nil => simp [layoutItems?] at h
  | cons t ts ih =>
      rw [layoutItems?] at h
      split at h
      · simp only [Option.some.injEq, Prod.mk.injEq] at h
        simp [h.2.2]
      · split at h
        · obtain ⟨⟨items', stop', rest'⟩, hr, he⟩ := Option.map_eq_some_iff.1 h
          simp only [Prod.mk.injEq] at he
          obtain ⟨_, rfl, rfl⟩ := he
          exact Nat.lt_succ_of_lt (ih hr)
        · exact Nat.lt_succ_of_lt (ih h)

structure ParsedLayout (ts : List Token) where
  layout : Layout
  rest : List Token
  noLonger : rest.length ≤ ts.length

/-- Reads a layout qualifier after its first word, which is the token `word`. -/
def parseLayout (word : Token) (ts : List Token) : Except Diagnostic (ParsedLayout ts) :=
  match ts with
  | [] => .error (Diagnostic.error word.line "expected '(' after layout")
  | t :: ts =>
      if t.isOp "(" then
        match h : layoutItems? [] ts with
        | none => .error (Diagnostic.error word.line "unterminated layout qualifier")
        | some (items, stop, rest) =>
            .ok ⟨⟨items, word.offset, stop⟩, rest, by
              have := length_of_layoutItems? h
              simp only [List.length_cons]
              omega⟩
      else .error (Diagnostic.error word.line "expected '(' after layout")

/-!
# Qualifiers
-/

def otherQualifiers : List Text :=
  Text.words "flat smooth noperspective centroid sample invariant precise const shared" ++
  Text.words "readonly writeonly coherent volatile restrict"

structure Qualifiers where
  storage : Option Storage
  layout : Option Layout
  others : List Text
  precision : Text
  deriving DecidableEq, Repr

def Qualifiers.none : Qualifiers := ⟨.none, .none, [], []⟩

def isLayoutWord (t : Token) : Bool :=
  t.kind == .keyword && t.text == ("layout" : Text)

/-- Reads the qualifiers at the start of a statement; later ones override earlier ones. -/
def parseQualifiers (q : Qualifiers) (ts : List Token) :
    Except Diagnostic (Qualifiers × List Token) :=
  match ts with
  | [] => .ok (q, [])
  | t :: ts =>
      if isLayoutWord t then
        match parseLayout t ts with
        | .error e => .error e
        | .ok ⟨layout, rest, _⟩ => parseQualifiers { q with layout := some layout } rest
      else if t.kind == .keyword && (Storage.ofKeyword? t.text).isSome then
        parseQualifiers { q with storage := Storage.ofKeyword? t.text } ts
      else if t.kind == .keyword && otherQualifiers.contains t.text then
        parseQualifiers { q with others := q.others ++ [t.text] } ts
      else if Word.isPrecision t.text then parseQualifiers { q with precision := t.text } ts
      else .ok (q, t :: ts)
  termination_by ts.length

/-!
# Declarators
-/

def bracketed? : (depth : Nat) -> List Token -> Option (List Text × List Token)
  | _, [] => none
  | depth, t :: ts =>
      if t.isOp "]" && depth ≤ 1 then some ([], t :: ts)
      else
        let depth :=
          if t.isOp "[" then depth + 1 else if t.isOp "]" then depth - 1 else depth
        (bracketed? depth ts).map fun (texts, rest) => (t.text :: texts, rest)

/-- How many tokens an initializer spans: up to a comma outside brackets. -/
def initializerExtent : (depth : Int) -> List Token -> Nat
  | _, [] => 0
  | depth, t :: ts =>
      if t.isOp "," && depth ≤ 0 then 0
      else
        let depth :=
          if t.isOp "(" || t.isOp "[" then depth + 1
          else if t.isOp ")" || t.isOp "]" then depth - 1
          else depth
        initializerExtent depth ts + 1

def arrayExtent? (ts : List Token) : Option (Nat × Option Text) :=
  match ts with
  | t :: rest =>
      if t.isOp "[" then
        (bracketed? 1 rest).map fun (texts, _) =>
          (texts.length + 2, some (Text.joinWith " " texts))
      else some (0, none)
  | [] => some (0, none)

def initializer (ts : List Token) : Nat :=
  match ts with
  | t :: _ => if t.isOp "=" then initializerExtent 0 ts else 0
  | [] => 0

def parseDeclarators? (ts : List Token) : Option (List Variable) :=
  match ts with
  | [] => some []
  | name :: ts =>
      if !name.isWord then none
      else
        match arrayExtent? ts with
        | none => none
        | some (brackets, length) =>
            let extent := brackets + initializer (ts.drop brackets)
            let last := (ts.take extent).getLast?.getD name
            let v : Variable := ⟨name.text, length, name.line, name.offset, last.stop⟩
            match ts.drop extent with
            | [] => some [v]
            | comma :: _ =>
                if comma.isOp "," then
                  (parseDeclarators? (ts.drop (extent + 1))).map (v :: ·)
                else none
  termination_by ts.length
  decreasing_by simp only [List.length_drop, List.length_cons]; omega

def declarators? (ts : List Token) : Option (List Variable) :=
  (parseDeclarators? ts).bind fun vs => if vs.isEmpty then none else some vs

/-!
# Statements
-/

/-- Reads a statement that ends at the semicolon `semi`; `none` if it is no interface
declaration. -/
def ofStatement? (statement : List Token) (semi : Token) :
    Except Diagnostic (Option Declaration) :=
  match statement with
  | [] => .ok none
  | first :: _ =>
      match parseQualifiers Qualifiers.none statement with
      | .error e => .error e
      | .ok (q, rest) =>
          match q.storage, rest with
          | some storage, type :: names =>
              if type.isWord then
                .ok ((declarators? names).map fun vars =>
                  { storage
                    layout := q.layout
                    qualifiers := q.others
                    precision := q.precision
                    type := type.text
                    typeOffset := type.offset
                    body := .variables vars
                    start := first.offset
                    stop := semi.stop
                    line := first.line })
              else .ok none
          | _, _ => .ok none

/-!
# Blocks
-/

/-- Skips the qualifiers of a member; the last precision among them counts. -/
def memberQualifiers (precision : Text) (ts : List Token) :
    Except Diagnostic (Text × List Token) :=
  match ts with
  | [] => .ok (precision, [])
  | t :: ts =>
      if Word.isPrecision t.text then memberQualifiers t.text ts
      else if otherQualifiers.contains t.text then memberQualifiers precision ts
      else if isLayoutWord t then
        match parseLayout t ts with
        | .error e => .error e
        | .ok ⟨_, rest, _⟩ => memberQualifiers precision rest
      else .ok (precision, t :: ts)
  termination_by ts.length

def parseMember (block : Text) (ts : List Token) : Except Diagnostic BlockMember :=
  match ts with
  | [] => .ok ⟨[], [], [], 0⟩
  | first :: _ =>
      let invalid :=
        Diagnostic.error first.line ("invalid member declaration in block '" ++ block ++ "'")
      match memberQualifiers [] ts with
      | .error e => .error e
      | .ok (_, []) => .error invalid
      | .ok (precision, type :: names) =>
          if !type.isWord then .error invalid
          else if type.kind == .keyword && type.text == ("struct" : Text) then
            .error (Diagnostic.error first.line
              ("struct members are not allowed in block '" ++ block ++ "'"))
          else
            match declarators? names with
            | none => .error invalid
            | some vars => .ok ⟨precision, type.text, vars, first.line⟩

/-- The members of a block whose name is `block`, its closing brace and the tokens after it;
`member` holds the tokens of the member being read. -/
def parseMembers (block : Text) (line : Nat) (member : List Token) :
    List Token -> Except Diagnostic (List BlockMember × Token × List Token)
  | [] => .error (Diagnostic.error line ("unterminated block '" ++ block ++ "'"))
  | t :: ts =>
      if t.isTrivia then parseMembers block line member ts
      else if t.kind == .eof then
        .error (Diagnostic.error line ("unterminated block '" ++ block ++ "'"))
      else if t.isDirective then
        .error (Diagnostic.error t.line
          ("preprocessor directives are not allowed inside block '" ++ block ++ "'"))
      else if t.isOp Op.openBrace then
        .error (Diagnostic.error t.line
          ("struct members are not allowed in block '" ++ block ++ "'"))
      else if t.isOp ";" then
        match parseMember block member with
        | .error e => .error e
        | .ok m =>
            match parseMembers block line [] ts with
            | .error e => .error e
            | .ok (ms, closing, rest) => .ok (m :: ms, closing, rest)
      else if t.isOp Op.closeBrace then
        if member.isEmpty then .ok ([], t, ts)
        else
          .error (Diagnostic.error t.line
            ("missing ';' after member of block '" ++ block ++ "'"))
      else parseMembers block line (member ++ [t]) ts

def parseInstance (ts : List Token) : Text × List Token :=
  let next := Stream.peekSignificant ts
  if next.kind == .ident then
    let rest := Stream.tailSignificant ts
    match Stream.acceptOp? "[" rest with
    | some inside => (next.text, (Stream.skipBalanced "[" "]" inside).2)
    | none => (next.text, rest)
  else ([], ts)

/-- Reads a block after its opening brace; `none` if the statement before the brace does not open
one. -/
def ofBlock? (statement : List Token) (ts : List Token) :
    Except Diagnostic (Option (Declaration × List Token)) :=
  match statement with
  | [] => .ok none
  | first :: _ =>
      match parseQualifiers Qualifiers.none statement with
      | .error e => .error e
      | .ok (q, rest) =>
          match q.storage, rest with
          | some storage, [name] =>
              if (storage == .uniform || storage == .buffer) && name.isWord then
                match parseMembers name.text first.line [] ts with
                | .error e => .error e
                | .ok (members, closing, after) =>
                    let (instanceName, after) := parseInstance after
                    let semi := Stream.peekSignificant after
                    if semi.isOp ";" then
                      .ok (some (
                        { storage
                          layout := q.layout
                          qualifiers := q.others
                          precision := q.precision
                          type := name.text
                          typeOffset := name.offset
                          body := .block members instanceName
                          start := first.offset
                          stop := semi.stop
                          line := first.line },
                        Stream.tailSignificant after))
                    else
                      .error (Diagnostic.error closing.line
                        ("block '" ++ name.text ++
                          "' must be followed by ';' or an instance name and ';'"))
              else .ok none
          | _, _ => .ok none

/-!
# The top level
-/

/-- Reads declarations; `statement` holds the tokens since the last boundary and `fuel` bounds the
number of tokens. -/
def scan : (fuel : Nat) -> (statement : List Token) -> List Token ->
    Except Diagnostic (List Declaration)
  | 0, _, _ => .ok []
  | fuel + 1, statement, ts =>
      match Stream.skipTrivia ts with
      | [] => .ok []
      | t :: rest =>
          if t.kind == .eof then .ok []
          else if t.isDirective then scan fuel statement rest
          else if t.isOp ";" then
            match ofStatement? statement t with
            | .error e => .error e
            | .ok d =>
                match scan fuel [] rest with
                | .error e => .error e
                | .ok ds => .ok (d.toList ++ ds)
          else if t.isOp Op.openBrace then
            match ofBlock? statement rest with
            | .error e => .error e
            | .ok none => scan fuel [] (Stream.skipBalanced Op.openBrace Op.closeBrace rest).2
            | .ok (some (d, after)) =>
                match scan fuel [] after with
                | .error e => .error e
                | .ok ds => .ok (d :: ds)
          else if t.isOp Op.closeBrace then scan fuel [] rest
          else scan fuel (statement ++ [t]) rest

/-- The interface declarations at the top level of a shader. -/
def ofTokens (ts : List Token) : Except Diagnostic (List Declaration) :=
  scan ts.length [] ts

end Declaration

end EffectShader
