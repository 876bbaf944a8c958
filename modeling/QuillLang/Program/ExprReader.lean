import QuillLang.Program.Cursor
/-!
# Reading expressions

Binary operators stand in three tiers, comparison below additive below multiplicative, and group to the left within one.
A minus sign in front binds tighter than any of them.  Parentheses leave no node of their own: the expression inside takes
over their span.

The readers take a bound on the depth of their calls.  Between two tokens at most eight calls nest, so eight for each token
to come and eight more are never used up.
-/
namespace QuillLang

inductive Tier where
  | comparison
  | additive
  | multiplicative
  deriving DecidableEq

namespace Tier

def accepts : Tier → Operator → Bool
  | comparison => Operator.isComparison
  | additive => Operator.isAdditive
  | multiplicative => Operator.isMultiplicative

/-- The operation of this tier that comes next, if one does, and the cursor past its operator. -/
def next? (t : Tier) (c : Cursor) : Option (BinaryOp × Cursor) :=
  match c.rest with
  | ⟨.operator o, span⟩ :: rest =>
    if t.accepts o then (BinaryOp.ofOperator? o).map fun op => (op, c.past ⟨.operator o, span⟩ rest) else none
  | _ => none

end Tier

namespace Expr

mutual

/-- An expression of a tier: operands of the tier above, joined by operators of this one. -/
def readTier : Nat → Tier → Reader Expr
  | 0, _, c => .error (c.unexpected .expression)
  | n + 1, t, c => do
    let (left, c) ← readOperand n t c
    readClimb n t left c

def readOperand : Nat → Tier → Reader Expr
  | 0, _, c => .error (c.unexpected .expression)
  | n + 1, .comparison, c => readTier n .additive c
  | n + 1, .additive, c => readTier n .multiplicative c
  | n + 1, .multiplicative, c => readUnary n c

/-- Operators of a tier and their right operands, as long as they come, joined to what stands on the left. -/
def readClimb : Nat → Tier → Expr → Reader Expr
  | 0, _, _, c => .error (c.unexpected .expression)
  | n + 1, t, left, c =>
    match t.next? c with
    | none => .ok (left, c)
    | some (op, c) => do
      let (right, c) ← readOperand n t c
      readClimb n t (.binary op left right ⟨left.span.start, c.previous⟩) c

def readUnary : Nat → Reader Expr
  | 0, c => .error (c.unexpected .expression)
  | n + 1, c =>
    match c.rest with
    | ⟨.operator .minus, span⟩ :: rest => do
      let (operand, c) ← readUnary n (c.past ⟨.operator .minus, span⟩ rest)
      .ok (.neg operand ⟨span.start, c.previous⟩, c)
    | _ => readPrimary n c

def readPrimary : Nat → Reader Expr
  | 0, c => .error (c.unexpected .expression)
  | n + 1, c =>
    match c.rest with
    | [] => .error (c.unexpected .expression)
    | t :: rest =>
      let after := c.past t rest
      match t.kind with
      | .number value => .ok (.number value t.span, after)
      | .string text => .ok (.string text t.span, after)
      | .identifier name =>
        match rest with
        | ⟨.delimiter .lbracket, span⟩ :: rest => do
          let (position, c) ← readTier n .comparison (after.past ⟨.delimiter .lbracket, span⟩ rest)
          let (_, c) ← Cursor.delimiter .rbracket c
          .ok (.index ⟨name, t.span⟩ position ⟨t.span.start, c.previous⟩, c)
        | _ => .ok (.var name t.span, after)
      | .keyword .sin => do
        let (degrees, c) ← readTier n .comparison after
        let (scale, c) ← readTier n .comparison c
        .ok (.trig .sin degrees scale ⟨t.span.start, c.previous⟩, c)
      | .keyword .cos => do
        let (degrees, c) ← readTier n .comparison after
        let (scale, c) ← readTier n .comparison c
        .ok (.trig .cos degrees scale ⟨t.span.start, c.previous⟩, c)
      | .keyword .rand => do
        let (seed, c) ← readTier n .comparison after
        let (limit, c) ← readTier n .comparison c
        .ok (.random seed limit ⟨t.span.start, c.previous⟩, c)
      | .delimiter .lparen => do
        let (inner, c) ← readTier n .comparison after
        let (_, c) ← Cursor.delimiter .rparen c
        .ok (inner.withSpan ⟨t.span.start, c.previous⟩, c)
      | _ => .error (c.unexpected .expression)

end

def read : Reader Expr := fun c =>
  readTier (8 * c.rest.length + 8) .comparison c

end Expr
end QuillLang
