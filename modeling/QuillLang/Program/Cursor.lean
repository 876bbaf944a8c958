import QuillLang.Program.Basic
/-!
# Reading tokens

A cursor stands between two tokens.  It knows the tokens to come, the end of the last one taken, and where the input
ends, which is what a complaint about a missing token points at.  The grammar never looks back, so this is all it needs.
-/
namespace QuillLang

/-- What the grammar asks for at a place. -/
inductive Expectation where
  | identifier
  | expression
  | statement
  | assignOrIndex
  | keyword (k : Keyword)
  | operator (o : Operator)
  | delimiter (d : Delimiter)
  deriving DecidableEq

namespace Expectation

def describe : Expectation → String
  | identifier => "identifier"
  | expression => "expression"
  | statement => "statement"
  | assignOrIndex => "`=` or `[`"
  | keyword k => "`" ++ k.text ++ "`"
  | operator o => "`" ++ o.text ++ "`"
  | delimiter d => "`" ++ d.text ++ "`"

end Expectation

inductive ParseError where
  | unexpectedToken (expected : Expectation) (found : TokenKind) (span : Span)
  | unexpectedEnd (expected : Expectation) (span : Span)
  /-- The place is the opener's. -/
  | unclosedBlock (opener expected : Keyword) (span : Span)
  | unmatchedCloser (closer : Keyword) (span : Span)
  deriving DecidableEq

namespace ParseError

def span : ParseError → Span
  | unexpectedToken _ _ s | unexpectedEnd _ s | unclosedBlock _ _ s | unmatchedCloser _ s => s

def message : ParseError → String
  | unexpectedToken e k s =>
    "unexpected token at " ++ s.start.text ++ ": expected " ++ e.describe ++ ", found " ++ k.describe
  | unexpectedEnd e _ => "unexpected end of input: expected " ++ e.describe
  | unclosedBlock o e s =>
    "expected `" ++ e.text ++ "` to close `" ++ o.text ++ "` block opened at " ++ s.start.text
  | unmatchedCloser k s => "`" ++ k.text ++ "` at " ++ s.start.text ++ " does not close any open block"

end ParseError

structure Cursor where
  rest : List Token
  /-- The end of the last token taken, or the start of the source. -/
  previous : Position
  /-- Where the input ends. -/
  stop : Position
  deriving DecidableEq

/-- A reader takes tokens from a cursor and gives a value and the cursor after them. -/
abbrev Reader (α : Type) := Cursor → Except ParseError (α × Cursor)

namespace Cursor

/-- Before the first token.  Without a given end, the input ends with its last token. -/
def ofTokens (ts : List Token) (stop : Option Position) : Cursor :=
  ⟨ts, Position.start, stop.getD ((ts.getLast?.map fun t => t.span.stop).getD Position.start)⟩

/-- The complaint that the next token is not what was asked for. -/
def unexpected (c : Cursor) (e : Expectation) : ParseError :=
  match c.rest with
  | t :: _ => .unexpectedToken e t.kind t.span
  | [] => .unexpectedEnd e (Span.point c.stop)

/-- Past a token `t`, with `rest` to come. -/
def past (c : Cursor) (t : Token) (rest : List Token) : Cursor :=
  ⟨rest, t.span.stop, c.stop⟩

def sees (c : Cursor) (k : TokenKind) : Bool :=
  match c.rest with
  | t :: _ => t.kind = k
  | [] => false

def take (k : TokenKind) (e : Expectation) : Reader Token := fun c =>
  match c.rest with
  | t :: rest => if t.kind = k then .ok (t, c.past t rest) else .error (c.unexpected e)
  | [] => .error (c.unexpected e)

def keyword (k : Keyword) : Reader Token := take (.keyword k) (.keyword k)

def operator (o : Operator) : Reader Token := take (.operator o) (.operator o)

def delimiter (d : Delimiter) : Reader Token := take (.delimiter d) (.delimiter d)

def ident : Reader Ident := fun c =>
  match c.rest with
  | ⟨.identifier name, span⟩ :: rest => .ok (⟨name, span⟩, c.past ⟨.identifier name, span⟩ rest)
  | _ => .error (c.unexpected .identifier)

end Cursor

/-! ## Where an assignment begins

Line ends are no tokens, so a list of names or arguments ends before a name that begins an assignment: one followed by
`=`, or by a bracketed index and then `=`.
-/

namespace Token

/-- Inside `depth` brackets: does `=` follow the one that closes the outermost? -/
def assignsAfterClose (depth : Nat) : List Token → Bool
  | [] => false
  | t :: rest =>
    match t.kind with
    | .delimiter .lbracket => assignsAfterClose (depth + 1) rest
    | .delimiter .rbracket =>
      if depth ≤ 1 then
        match rest with
        | u :: _ => u.kind = .operator .assign
        | [] => false
      else assignsAfterClose (depth - 1) rest
    | _ => assignsAfterClose depth rest

def startsAssignment : List Token → Bool
  | ⟨.identifier _, _⟩ :: ⟨.operator .assign, _⟩ :: _ => true
  | ⟨.identifier _, _⟩ :: ⟨.delimiter .lbracket, _⟩ :: rest => assignsAfterClose 1 rest
  | _ => false

end Token
end QuillLang
