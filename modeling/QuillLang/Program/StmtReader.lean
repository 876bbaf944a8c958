import QuillLang.Program.ExprReader
/-!
# Reading statements

A statement is known by its first token.  Blocks run up to their own closing keyword: `endif` for `if`, `repeat` for `as`,
`end` for `func`.  Another closing keyword inside a block is an error there, one outside all blocks an error of its own,
and a block that the input ends in is blamed on the keyword that opened it.

Statements and blocks take a bound on the depth of their calls; as each statement takes a token, two for each token to
come and two more are never used up.
-/
namespace QuillLang
namespace Stmt

/-- Names up to the first token that is none or that begins an assignment. -/
def readParams (c : Cursor) : List Token → List Ident × Cursor
  | ⟨.identifier name, span⟩ :: rest =>
    if Token.startsAssignment (⟨.identifier name, span⟩ :: rest) then ([], c)
    else
      let (params, c) := readParams (c.past ⟨.identifier name, span⟩ rest) rest
      (⟨name, span⟩ :: params, c)
  | _ => ([], c)

def argumentComes (c : Cursor) : Bool :=
  match c.rest with
  | t :: _ => t.kind.startsExpression && !Token.startsAssignment c.rest
  | [] => false

/-- Expressions as long as they come, at most as many as there are tokens. -/
def readArgs : Nat → Reader (List Expr)
  | 0, c => .ok ([], c)
  | n + 1, c =>
    if argumentComes c then do
      let (arg, c) ← Expr.read c
      let (args, c) ← readArgs n c
      .ok (arg :: args, c)
    else .ok ([], c)

/-- The name after `into`, if the keyword comes. -/
def readInto? : Reader (Option Ident) := fun c =>
  if c.sees (.keyword .into) then do
    let (_, c) ← Cursor.keyword .into c
    let (name, c) ← Cursor.ident c
    .ok (some name, c)
  else .ok (none, c)

/-- `make name expr` or `make name [size]`, past its keyword. -/
def readMake (start : Position) : Reader Stmt := fun c => do
  let (name, c) ← Cursor.ident c
  if c.sees (.delimiter .lbracket) then
    let (_, c) ← Cursor.delimiter .lbracket c
    let (size, c) ← Expr.read c
    let (_, c) ← Cursor.delimiter .rbracket c
    .ok (.makeArray name size ⟨start, c.previous⟩, c)
  else
    let (value, c) ← Expr.read c
    .ok (.make name value ⟨start, c.previous⟩, c)

def readAssign : Reader Stmt := fun c => do
  let (name, c) ← Cursor.ident c
  let (_, c) ← Cursor.operator .assign c
  let (value, c) ← Expr.read c
  .ok (.assign name value ⟨name.span.start, c.previous⟩, c)

def readAssignArray : Reader Stmt := fun c => do
  let (name, c) ← Cursor.ident c
  let (_, c) ← Cursor.delimiter .lbracket c
  let (position, c) ← Expr.read c
  let (_, c) ← Cursor.delimiter .rbracket c
  let (_, c) ← Cursor.operator .assign c
  let (value, c) ← Expr.read c
  .ok (.assignArray name position value ⟨name.span.start, c.previous⟩, c)

/-- `call callee args... [into name]`, past its keyword. -/
def readCall (start : Position) : Reader Stmt := fun c => do
  let (callee, c) ← Cursor.ident c
  let (args, c) ← readArgs c.rest.length c
  let (result, c) ← readInto? c
  .ok (.call callee args result ⟨start, c.previous⟩, c)

/-- The graphics statement of a keyword, past it; nothing for other keywords. -/
def readGraphics? (k : Keyword) : Option (Reader Graphics) :=
  match k with
  | .init => some fun c => .ok (.init, c)
  | .poll => some fun c => .ok (.poll, c)
  | .present => some fun c => .ok (.present, c)
  | .clear => some fun c => .ok (.clear, c)
  | .window => some fun c => do
    let (title, c) ← Expr.read c
    let (width, c) ← Expr.read c
    let (height, c) ← Expr.read c
    .ok (.window title width height, c)
  | .delay => some fun c => do
    let (millis, c) ← Expr.read c
    .ok (.delay millis, c)
  | .surface => some fun c => do
    let (width, c) ← Expr.read c
    let (height, c) ← Expr.read c
    .ok (.surface width height, c)
  | .pixel => some fun c => do
    let (x, c) ← Expr.read c
    let (y, c) ← Expr.read c
    .ok (.pixel x y, c)
  | .getPixel => some fun c => do
    let (x, c) ← Expr.read c
    let (y, c) ← Expr.read c
    let (_, c) ← Cursor.keyword .into c
    let (result, c) ← Cursor.ident c
    .ok (.getPixel x y result, c)
  | .color => some fun c => do
    let (r, c) ← Expr.read c
    let (g, c) ← Expr.read c
    let (b, c) ← Expr.read c
    .ok (.color r g b, c)
  | .line => some fun c => do
    let (x1, c) ← Expr.read c
    let (y1, c) ← Expr.read c
    let (x2, c) ← Expr.read c
    let (y2, c) ← Expr.read c
    .ok (.line x1 y1 x2 y2, c)
  | _ => none

def readNamed (c : Cursor) (t : Token) (rest : List Token) : Except ParseError (Stmt × Cursor) :=
  match rest with
  | ⟨.delimiter .lbracket, _⟩ :: _ => readAssignArray c
  | ⟨.operator .assign, _⟩ :: _ => readAssign c
  | _ => .error ((c.past t rest).unexpected .assignOrIndex)

mutual

def readStmt : Nat → Reader Stmt
  | 0, c => .error (c.unexpected .statement)
  | n + 1, c =>
    match c.rest with
    | [] => .error (c.unexpected .statement)
    | t :: rest =>
      let start := t.span.start
      let after := c.past t rest
      match t.kind with
      | .identifier _ => readNamed c t rest
      | .keyword .make => readMake start after
      | .keyword .ifKw => do
        let (test, c) ← Expr.read after
        let (body, c) ← readBlock n .ifKw t.span .endif c
        .ok (.when test body ⟨start, c.previous⟩, c)
      | .keyword .asKw => do
        let (test, c) ← Expr.read after
        let (body, c) ← readBlock n .asKw t.span .repeatKw c
        .ok (.loop test body ⟨start, c.previous⟩, c)
      | .keyword .func => do
        let (name, c) ← Cursor.ident after
        let (params, c) := readParams c c.rest
        let (body, c) ← readBlock n .func t.span .endKw c
        .ok (.func name params body ⟨start, c.previous⟩, c)
      | .keyword .print => do
        let (value, c) ← Expr.read after
        .ok (.print value ⟨start, c.previous⟩, c)
      | .keyword .free => do
        let (name, c) ← Cursor.ident after
        .ok (.free name ⟨start, c.previous⟩, c)
      | .keyword .returnKw => do
        let (name, c) ← Cursor.ident after
        .ok (.ret name ⟨start, c.previous⟩, c)
      | .keyword .call => readCall start after
      | .keyword k =>
        match readGraphics? k with
        | some reader => do
          let (op, c) ← reader after
          .ok (.graphics op ⟨start, c.previous⟩, c)
        | none => .error (if k.isCloser then .unmatchedCloser k t.span else c.unexpected .statement)
      | _ => .error (c.unexpected .statement)

/-- Statements up to the closing keyword, which is taken too. -/
def readBlock : Nat → (opener : Keyword) → (openedAt : Span) → (closer : Keyword) → Reader (List Stmt)
  | 0, _, _, _, c => .error (c.unexpected .statement)
  | n + 1, opener, openedAt, closer, c =>
    match c.rest with
    | [] => .error (.unclosedBlock opener closer openedAt)
    | t :: rest =>
      if t.kind = .keyword closer then .ok ([], c.past t rest)
      else if isCloserToken t then .error (c.unexpected (.keyword closer))
      else do
        let (s, c) ← readStmt n c
        let (body, c) ← readBlock n opener openedAt closer c
        .ok (s :: body, c)
where
  /-- Is the token a keyword that closes some block? -/
  isCloserToken (t : Token) : Bool :=
    match t.kind with
    | .keyword k => k.isCloser
    | _ => false

end

def readAll : Nat → Reader (List Stmt)
  | 0, c => .error (c.unexpected .statement)
  | n + 1, c =>
    if c.rest.isEmpty then .ok ([], c)
    else do
      let (s, c) ← readStmt (2 * c.rest.length + 2) c
      let (more, c) ← readAll n c
      .ok (s :: more, c)

end Stmt

namespace Program

/-- The program that tokens form.  `stop` is where the input ends, if that is known. -/
def ofTokens (ts : List Token) (stop : Option Position) : Except ParseError Program := do
  let start := (ts.head?.map fun t => t.span.start).getD Position.start
  let (statements, c) ← Stmt.readAll (ts.length + 1) (Cursor.ofTokens ts stop)
  .ok ⟨statements, ⟨start, c.previous⟩⟩

end Program
end QuillLang
