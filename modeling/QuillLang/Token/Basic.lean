import QuillLang.Source.Position
/-!
# Tokens

Tokens are what the grammar is made of.  Keywords, operators and delimiters are closed sets, each member with one
spelling; names, numbers and texts carry their content.
-/
namespace QuillLang

inductive Keyword where
  | make
  | ifKw
  | endif
  | asKw
  | repeatKw
  | func
  | endKw
  | call
  | into
  | print
  | free
  | returnKw
  | sin
  | cos
  | rand
  | init
  | window
  | delay
  | poll
  | surface
  | pixel
  | getPixel
  | present
  | clear
  | color
  | line
  deriving DecidableEq

namespace Keyword

def all : List Keyword :=
  [make, ifKw, endif, asKw, repeatKw, func, endKw, call, into, print, free, returnKw, sin, cos, rand, init, window,
    delay, poll, surface, pixel, getPixel, present, clear, color, line]

def text : Keyword → String
  | make => "make"
  | ifKw => "if"
  | endif => "endif"
  | asKw => "as"
  | repeatKw => "repeat"
  | func => "func"
  | endKw => "end"
  | call => "call"
  | into => "into"
  | print => "print"
  | free => "free"
  | returnKw => "return"
  | sin => "sin"
  | cos => "cos"
  | rand => "rand"
  | init => "init"
  | window => "window"
  | delay => "delay"
  | poll => "poll"
  | surface => "surface"
  | pixel => "pixel"
  | getPixel => "getpixel"
  | present => "present"
  | clear => "clear"
  | color => "color"
  | line => "line"

/-- The keyword that the whole text is: the longest that it begins with, if no character is left behind. -/
def ofText? (s : String) : Option Keyword :=
  all.find? fun k => k.text == s

def isCloser : Keyword → Bool
  | endif | repeatKw | endKw => true
  | _ => false

end Keyword

inductive Operator where
  | plus
  | minus
  | star
  | slash
  | percent
  | assign
  | eqEq
  | notEq
  | lt
  | gt
  | ltEq
  | gtEq
  deriving DecidableEq

namespace Operator

def all : List Operator :=
  [plus, minus, star, slash, percent, assign, eqEq, notEq, lt, gt, ltEq, gtEq]

def text : Operator → String
  | plus => "+"
  | minus => "-"
  | star => "*"
  | slash => "/"
  | percent => "%"
  | assign => "="
  | eqEq => "=="
  | notEq => "!="
  | lt => "<"
  | gt => ">"
  | ltEq => "<="
  | gtEq => ">="

/-- The operator that the whole text is: the longest that it begins with, if no character is left behind. -/
def ofText? (s : String) : Option Operator :=
  all.find? fun o => o.text == s

def isComparison : Operator → Bool
  | eqEq | notEq | lt | gt | ltEq | gtEq => true
  | _ => false

def isAdditive : Operator → Bool
  | plus | minus => true
  | _ => false

def isMultiplicative : Operator → Bool
  | star | slash | percent => true
  | _ => false

end Operator

inductive Delimiter where
  | lparen
  | rparen
  | lbracket
  | rbracket
  deriving DecidableEq

namespace Delimiter

def all : List Delimiter := [lparen, rparen, lbracket, rbracket]

def text : Delimiter → String
  | lparen => "("
  | rparen => ")"
  | lbracket => "["
  | rbracket => "]"

/-- The delimiter that the whole text is: the longest that it begins with, if no character is left behind. -/
def ofText? (s : String) : Option Delimiter :=
  all.find? fun d => d.text == s

end Delimiter

/-! ## Tokens proper -/

inductive TokenKind where
  | keyword (k : Keyword)
  | identifier (name : String)
  | operator (o : Operator)
  | number (n : Int64)
  /-- The content of a text, without its quotes. -/
  | string (s : String)
  | delimiter (d : Delimiter)
  deriving DecidableEq

namespace TokenKind

/-- A token as messages name it. -/
def describe : TokenKind → String
  | keyword k => "keyword `" ++ k.text ++ "`"
  | identifier name => "identifier `" ++ name ++ "`"
  | operator o => "operator `" ++ o.text ++ "`"
  | number n => "number `" ++ Decimal.ofInt64 n ++ "`"
  | string s => "string '" ++ s ++ "'"
  | delimiter d => "`" ++ d.text ++ "`"

def startsExpression : TokenKind → Bool
  | identifier _ | number _ | string _ => true
  | keyword .sin | keyword .cos | keyword .rand => true
  | operator .minus => true
  | delimiter .lparen => true
  | _ => false

end TokenKind

structure Token where
  kind : TokenKind
  span : Span
  deriving DecidableEq

end QuillLang
