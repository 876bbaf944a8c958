import QuillLang.Program.StmtReader
/-!
# Programs written out

A program is written out as the kinds of its tokens, statement after statement and with nothing between them.  There are
two ways to write its expressions.  Written in full, an operand stands in parentheses where it would otherwise be read
with something else, and so does every argument (`Program.unparse`).  Written flat, there are no parentheses at all, so
that the grouping is lost and only the words remain (`Program.flat`).  Statements are written alike in both ways.

Reading gives every node a span.  Two programs that differ in their spans only are equal once these are taken away
(`Program.bare`).
-/
namespace QuillLang

namespace TokenKind

def isParen : TokenKind → Bool
  | delimiter .lparen | delimiter .rparen => true
  | _ => false

def enclosed (ks : List TokenKind) : List TokenKind := .delimiter .lparen :: (ks ++ [.delimiter .rparen])

end TokenKind

/-! ## Expressions -/

namespace Tier

def rank : Tier → Nat
  | comparison => 1
  | additive => 2
  | multiplicative => 3

end Tier

namespace BinaryOp

def operator : BinaryOp → Operator
  | add => .plus
  | sub => .minus
  | mul => .star
  | div => .slash
  | rem => .percent
  | eq => .eqEq
  | ne => .notEq
  | lt => .lt
  | le => .ltEq
  | gt => .gt
  | ge => .gtEq

def tier : BinaryOp → Tier
  | add | sub => .additive
  | mul | div | rem => .multiplicative
  | eq | ne | lt | le | gt | ge => .comparison

end BinaryOp

def TrigFunc.keyword : TrigFunc → Keyword
  | sin => .sin
  | cos => .cos

namespace Expr

/-- How tightly an expression holds together.  The last argument of a sine, a cosine or a random number runs on as far as it
can, so these never stand beside an operator without parentheses. -/
def rank : Expr → Nat
  | trig _ _ _ _ | random _ _ _ => 0
  | binary op _ _ _ => op.tier.rank
  | neg _ _ | var _ _ | number _ _ | string _ _ | index _ _ _ => 4

/-- Tokens of an expression where one of at least rank `r` is wanted. -/
def enclosedBelow (r : Nat) (e : Expr) (ks : List TokenKind) : List TokenKind :=
  if e.rank < r then TokenKind.enclosed ks else ks

/-- An expression with the parentheses that it needs. -/
def written : Expr → List TokenKind
  | var name _ => [.identifier name]
  | number value _ => [.number value]
  | string text _ => [.string text]
  | index array position _ =>
    .identifier array.name :: .delimiter .lbracket :: (position.written ++ [.delimiter .rbracket])
  | binary op left right _ =>
    left.enclosedBelow op.tier.rank left.written ++
      .operator op.operator :: right.enclosedBelow (op.tier.rank + 1) right.written
  | neg operand _ => .operator .minus :: operand.enclosedBelow 4 operand.written
  | trig func degrees scale _ =>
    .keyword func.keyword :: (TokenKind.enclosed degrees.written ++ TokenKind.enclosed scale.written)
  | random seed limit _ => .keyword .rand :: (TokenKind.enclosed seed.written ++ TokenKind.enclosed limit.written)

def writtenArgument (e : Expr) : List TokenKind := TokenKind.enclosed e.written

def writtenAt (r : Nat) (e : Expr) : List TokenKind := e.enclosedBelow r e.written

def flat : Expr → List TokenKind
  | var name _ => [.identifier name]
  | number value _ => [.number value]
  | string text _ => [.string text]
  | index array position _ =>
    .identifier array.name :: .delimiter .lbracket :: (position.flat ++ [.delimiter .rbracket])
  | binary op left right _ => left.flat ++ .operator op.operator :: right.flat
  | neg operand _ => .operator .minus :: operand.flat
  | trig func degrees scale _ => .keyword func.keyword :: (degrees.flat ++ scale.flat)
  | random seed limit _ => .keyword .rand :: (seed.flat ++ limit.flat)

end Expr

/-! ## Statements -/

/-- How expressions are written: on their own, and as arguments. -/
structure Manner where
  expr : Expr → List TokenKind
  argument : Expr → List TokenKind

namespace Manner

def full : Manner := ⟨Expr.written, Expr.writtenArgument⟩

def flat : Manner := ⟨Expr.flat, Expr.flat⟩

end Manner

namespace Graphics

def keyword : Graphics → Keyword
  | init => .init
  | window _ _ _ => .window
  | delay _ => .delay
  | poll => .poll
  | surface _ _ => .surface
  | pixel _ _ => .pixel
  | getPixel _ _ _ => .getPixel
  | present => .present
  | clear => .clear
  | color _ _ _ => .color
  | line _ _ _ _ => .line

def result? : Graphics → Option Ident
  | getPixel _ _ result => some result
  | init | window _ _ _ | delay _ | poll | surface _ _ | pixel _ _ | present | clear | color _ _ _ | line _ _ _ _ => none

end Graphics

namespace Ident

def token (x : Ident) : TokenKind := .identifier x.name

def writtenInto : Option Ident → List TokenKind
  | some x => [.keyword .into, x.token]
  | none => []

end Ident

namespace Stmt

mutual

def written (w : Manner) : Stmt → List TokenKind
  | .make name value _ => .keyword .make :: name.token :: w.expr value
  | .assign name value _ => name.token :: .operator .assign :: w.expr value
  | .makeArray name size _ =>
    .keyword .make :: name.token :: .delimiter .lbracket :: (w.expr size ++ [.delimiter .rbracket])
  | .assignArray name position value _ =>
    name.token :: .delimiter .lbracket ::
      (w.expr position ++ .delimiter .rbracket :: .operator .assign :: w.expr value)
  | .when test body _ => .keyword .ifKw :: (w.expr test ++ (writtenAll w body ++ [.keyword .endif]))
  | .loop test body _ => .keyword .asKw :: (w.expr test ++ (writtenAll w body ++ [.keyword .repeatKw]))
  | .print value _ => .keyword .print :: w.expr value
  | .free name _ => [.keyword .free, name.token]
  | .func name params body _ =>
    .keyword .func :: name.token :: (params.map Ident.token ++ (writtenAll w body ++ [.keyword .endKw]))
  | .ret name _ => [.keyword .returnKw, name.token]
  | .call callee args result _ =>
    .keyword .call :: callee.token :: (args.flatMap w.argument ++ Ident.writtenInto result)
  | .graphics op _ => .keyword op.keyword :: (op.arguments.flatMap w.argument ++ Ident.writtenInto op.result?)

def writtenAll (w : Manner) : List Stmt → List TokenKind
  | [] => []
  | s :: rest => written w s ++ writtenAll w rest

end

end Stmt

namespace Program

def unparse (p : Program) : List TokenKind := Stmt.writtenAll .full p.statements

def flat (p : Program) : List TokenKind := Stmt.writtenAll .flat p.statements

end Program

/-! ## Without spans -/

def Span.nowhere : Span := Span.point Position.start

namespace Ident

def bare (x : Ident) : Ident := ⟨x.name, Span.nowhere⟩

end Ident

namespace Expr

def bare : Expr → Expr
  | var name _ => var name Span.nowhere
  | number value _ => number value Span.nowhere
  | string text _ => string text Span.nowhere
  | index array position _ => index array.bare position.bare Span.nowhere
  | binary op left right _ => binary op left.bare right.bare Span.nowhere
  | neg operand _ => neg operand.bare Span.nowhere
  | trig func degrees scale _ => trig func degrees.bare scale.bare Span.nowhere
  | random seed limit _ => random seed.bare limit.bare Span.nowhere

@[simp] theorem bare_withSpan (s : Span) (e : Expr) : (e.withSpan s).bare = e.bare := by
  cases e <;> rfl

@[simp] theorem flat_withSpan (s : Span) (e : Expr) : (e.withSpan s).flat = e.flat := by
  cases e <;> rfl

end Expr

namespace Graphics

def bare : Graphics → Graphics
  | init => init
  | window t w h => window t.bare w.bare h.bare
  | delay m => delay m.bare
  | poll => poll
  | surface w h => surface w.bare h.bare
  | pixel x y => pixel x.bare y.bare
  | getPixel x y r => getPixel x.bare y.bare r.bare
  | present => present
  | clear => clear
  | color r g b => color r.bare g.bare b.bare
  | line x1 y1 x2 y2 => line x1.bare y1.bare x2.bare y2.bare

end Graphics

namespace Stmt

mutual

def bare : Stmt → Stmt
  | .make name value _ => .make name.bare value.bare Span.nowhere
  | .assign name value _ => .assign name.bare value.bare Span.nowhere
  | .makeArray name size _ => .makeArray name.bare size.bare Span.nowhere
  | .assignArray name position value _ => .assignArray name.bare position.bare value.bare Span.nowhere
  | .when test body _ => .when test.bare (bareAll body) Span.nowhere
  | .loop test body _ => .loop test.bare (bareAll body) Span.nowhere
  | .print value _ => .print value.bare Span.nowhere
  | .free name _ => .free name.bare Span.nowhere
  | .func name params body _ => .func name.bare (params.map Ident.bare) (bareAll body) Span.nowhere
  | .ret name _ => .ret name.bare Span.nowhere
  | .call callee args result _ => .call callee.bare (args.map Expr.bare) (result.map Ident.bare) Span.nowhere
  | .graphics op _ => .graphics op.bare Span.nowhere

def bareAll : List Stmt → List Stmt
  | [] => []
  | s :: rest => bare s :: bareAll rest

end

end Stmt

namespace Program

/-- A program up to spans. -/
def bare (p : Program) : Program := ⟨Stmt.bareAll p.statements, Span.nowhere⟩

end Program

end QuillLang
