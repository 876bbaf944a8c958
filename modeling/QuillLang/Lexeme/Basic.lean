import QuillLang.Source.Position
import QuillLang.Text.CharClass
/-!
# Lexemes

A lexeme is a stretch of the source read as one piece: its kind, its text, and where it stands.  Blanks, line ends and
comments are lexemes too, so that the texts of all lexemes together are the source.
-/
namespace QuillLang

inductive LexemeKind where
  | identifier
  | number
  | string
  | whitespace
  | linefeed
  | operator
  | delimiter
  | comment
  | unknown
  | endOfInput
  deriving DecidableEq

namespace LexemeKind

def name : LexemeKind → String
  | identifier => "identifier"
  | number => "number"
  | string => "string"
  | whitespace => "whitespace"
  | linefeed => "linefeed"
  | operator => "operator"
  | delimiter => "delimiter"
  | comment => "comment"
  | unknown => "unknown"
  | endOfInput => "end of input"

end LexemeKind

structure Lexeme where
  kind : LexemeKind
  text : String
  span : Span
  deriving DecidableEq

/-! ## Classes of characters

What a character can begin or go on with depends only on its class.
-/

inductive CharClass where
  | letter
  | digit
  | whitespace
  | linefeed
  | quote
  | operator
  | hash
  | delimiter
  | other
  deriving DecidableEq

namespace CharClass

def isOperatorChar (c : Char) : Bool :=
  c ∈ ['+', '-', '*', '/', '=', '<', '>', '%', '!']

/-- The class of a character.  The underscore counts as a letter; the tabulator is the only blank but the space. -/
def of (c : Char) : CharClass :=
  if '0' ≤ c ∧ c ≤ '9' then digit
  else if c = ' ' ∨ c = '\t' then whitespace
  else if c = '\n' then linefeed
  else if c = '\'' ∨ c = '"' then quote
  else if isOperatorChar c then operator
  else if c = '#' then hash
  else if c ∈ ['[', ']', '(', ')'] then delimiter
  else if Letter.isLetter c ∨ c = '_' then letter
  else other

end CharClass
end QuillLang
