import QuillLang.Text.Decimal
/-!
# Positions and spans

A place in the source is a line and a column for people, both counted from one and the column in characters, and a byte
offset for tools.  A span runs from its first character to just past its last one.
-/
namespace QuillLang

structure Position where
  line : Nat
  column : Nat
  offset : Nat
  deriving DecidableEq

namespace Position

/-- The place of the first character of any source. -/
def start : Position := ⟨1, 1, 0⟩

instance : Inhabited Position := ⟨start⟩

/-- The place after one more character, which took `width` bytes. -/
def advance (p : Position) (c : Char) (width : Nat) : Position :=
  if c = '\n' then ⟨p.line + 1, 1, p.offset + width⟩ else ⟨p.line, p.column + 1, p.offset + width⟩

/-- The place as people read it, `line:column`. -/
def text (p : Position) : String :=
  Decimal.ofNat p.line ++ ":" ++ Decimal.ofNat p.column

end Position

structure Span where
  start : Position
  stop : Position
  deriving DecidableEq

namespace Span

def point (p : Position) : Span := ⟨p, p⟩

instance : Inhabited Span := ⟨point Position.start⟩

/-- Length in bytes; zero when the ends are out of order. -/
def len (s : Span) : Nat := s.stop.offset - s.start.offset

def isEmpty (s : Span) : Bool := s.len == 0

def text (s : Span) : String := s.start.text ++ "-" ++ s.stop.text

end Span
end QuillLang
