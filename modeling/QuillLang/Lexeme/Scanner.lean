import QuillLang.Lexeme.Basic
import QuillLang.Text.Utf8
/-!
# The scanner

The scanner reads one glyph at a time and keeps the lexeme it is in the middle of.  A finite automaton says, of the
lexeme at hand and the next character, whether the character goes on with it, ends it, or lies past it; in the last case
the lexeme is handed out and the character begins the next one.  A minus sign has a mode of its own, since it alone may
turn out to be the sign of a number.
-/
namespace QuillLang

/-- What the lexeme at hand is, as far as it has been read. -/
inductive Mode where
  | whitespace
  | identifier
  | number
  /-- A minus sign and nothing else. -/
  | minus
  | operator
  | string (quote : Char)
  | comment
  deriving DecidableEq

namespace Mode

/-- The kind of a lexeme that ends in this mode.  A text that is never closed ends as a text. -/
def kind : Mode → LexemeKind
  | whitespace => .whitespace
  | identifier => .identifier
  | number => .number
  | minus => .operator
  | operator => .operator
  | string _ => .string
  | comment => .comment

/-- What the next character is to the lexeme at hand. -/
inductive Move where
  /-- It belongs to the lexeme, which goes on. -/
  | more (mode : Mode)
  /-- It is the lexeme's last character. -/
  | last
  /-- It lies past the lexeme. -/
  | past
  deriving DecidableEq

def move (m : Mode) (c : Char) : Move :=
  match m, CharClass.of c with
  | whitespace, .whitespace => .more whitespace
  | identifier, .letter => .more identifier
  | identifier, .digit => .more identifier
  | number, .digit => .more number
  | minus, .digit => .more number
  | minus, .operator => .more operator
  | operator, .operator => .more operator
  | comment, .linefeed => .past
  | comment, _ => .more comment
  | string q, _ => if c = q then .last else .more (string q)
  | _, _ => .past

/-- What a character begins: a lexeme that may go on, or one that is whole. -/
inductive Opening where
  | run (mode : Mode)
  | single (kind : LexemeKind)
  deriving DecidableEq

def opening (c : Char) : Opening :=
  match CharClass.of c with
  | .letter => .run identifier
  | .digit => .run number
  | .whitespace => .run whitespace
  | .quote => .run (string c)
  | .operator => .run (if c = '-' then minus else operator)
  | .hash => .run comment
  | .linefeed => .single .linefeed
  | .delimiter => .single .delimiter
  | .other => .single .unknown

end Mode

structure Draft where
  mode : Mode
  text : String
  start : Position
  deriving DecidableEq

structure Scanner where
  draft : Option Draft
  /-- The place of the next character. -/
  here : Position
  deriving DecidableEq

namespace Scanner

def start : Scanner := ⟨none, Position.start⟩

def close (d : Draft) (stop : Position) : Lexeme :=
  ⟨d.mode.kind, d.text, ⟨d.start, stop⟩⟩

def begin (here : Position) (g : Glyph) : Scanner × List Lexeme :=
  let next := here.advance g.char g.width
  match Mode.opening g.char with
  | .run m => (⟨some ⟨m, g.char.toString, here⟩, next⟩, [])
  | .single k => (⟨none, next⟩, [⟨k, g.char.toString, ⟨here, next⟩⟩])

/-- One glyph: the scanner after it, and the lexemes it completes. -/
def step (s : Scanner) (g : Glyph) : Scanner × List Lexeme :=
  match s.draft with
  | none => begin s.here g
  | some d =>
    let next := s.here.advance g.char g.width
    match d.mode.move g.char with
    | .more m => (⟨some ⟨m, d.text.push g.char, d.start⟩, next⟩, [])
    | .last => (⟨none, next⟩, [close ⟨d.mode, d.text.push g.char, d.start⟩ next])
    | .past =>
      let (s', ls) := begin s.here g
      (s', close d s.here :: ls)

/-- The end of the input ends the lexeme at hand, and an empty lexeme marks the place. -/
def finish (s : Scanner) : List Lexeme :=
  let mark : Lexeme := ⟨.endOfInput, "", Span.point s.here⟩
  match s.draft with
  | none => [mark]
  | some d => [close d s.here, mark]

end Scanner
end QuillLang
