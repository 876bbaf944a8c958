import QuillLang.Proofs.Grammar.Sound
/-!
# Reading gives exact spans

What is read parses, and every node of what parses has the span of its tokens, all the way up to the program
(`Program.ofTokens_hulls`).
-/
namespace QuillLang

open Token (hull Ordered)

namespace Program

/-- A program whose nodes have the spans of the tokens that they were read from. -/
structure From (ts : List Token) (p : Program) : Prop where
  statements : Stmt.ListFrom ts p.statements
  span : p.span = hull ts

/-- The statements of a program are tidy in it, and so are their parts. -/
structure Nested (le : Position → Position → Prop) (p : Program) : Prop where
  tidy : p.span.Tidy le (p.statements.map Stmt.span)
  statements : ∀ s ∈ p.statements, s.Nested le

theorem From.nested {le : Position → Position → Prop} [IsPreorder Position le] {ts : List Token} {p : Program}
    (h : p.From ts) (ho : Ordered le ts) : p.Nested le := by
  refine ⟨?_, h.statements.nested ho⟩
  have hlaid : Token.Laid (ts ++ []) (p.statements.map Stmt.span) := h.statements.laid []
  rw [List.append_nil] at hlaid
  rw [h.span]
  exact ho.tidy hlaid

/-- **Every node of a program spans exactly the tokens that it was read from.**  So if these are in order, whichever order
of places is meant, the parts of every node lie within it one behind the other. -/
theorem ofTokens_hulls {ts : List Token} {stop : Option Position} {p : Program} (h : ofTokens ts stop = .ok p) :
    p.From ts ∧ ∀ (le : Position → Position → Prop) [IsPreorder Position le], Ordered le ts → p.Nested le := by
  have hfrom : p.From ts := by
    obtain ⟨hparses, hspan⟩ := parses_of_ofTokens h
    exact ⟨hparses.toFrom, hspan⟩
  exact ⟨hfrom, fun le _ ho => hfrom.nested ho⟩

/-- `if (a) print (1 + 2) endif` on one line, each token one character wide and two after the one before. -/
def spacedTokens : List Token :=
  ([.keyword .ifKw, .delimiter .lparen, .identifier "a", .delimiter .rparen, .keyword .print, .delimiter .lparen, .number 1,
    .operator .plus, .number 2, .delimiter .rparen, .keyword .endif] : List TokenKind).mapIdx
    fun i k => ⟨k, ⟨1, 2 * i + 1, 2 * i⟩, ⟨1, 2 * i + 2, 2 * i + 1⟩⟩

/-- From the start of one of them to the end of another. -/
def spacedSpan (first last : Nat) : Span := ⟨⟨1, 2 * first + 1, 2 * first⟩, ⟨1, 2 * last + 2, 2 * last + 1⟩⟩

/-- What they read as: the test and the value of `print` have their parentheses, the block has its closing keyword. -/
def spacedProgram : Program :=
  ⟨[.when (.var "a" (spacedSpan 1 3))
    [.print (.binary .add (.number 1 (spacedSpan 6 6)) (.number 2 (spacedSpan 8 8)) (spacedSpan 5 9)) (spacedSpan 4 9)]
    (spacedSpan 0 10)], spacedSpan 0 10⟩

theorem spacedTokens_hulls : ofTokens spacedTokens none = .ok spacedProgram ∧ spacedProgram.From spacedTokens ∧
    Ordered (fun p q => p.offset ≤ q.offset) spacedTokens ∧ spacedProgram.Nested (fun p q => p.offset ≤ q.offset) := by
  have hread : ofTokens spacedTokens none = .ok spacedProgram := rfl
  have hordered : Ordered (fun p q => p.offset ≤ q.offset) spacedTokens := ⟨by decide, by decide⟩
  have hpreorder : IsPreorder Position (fun p q => p.offset ≤ q.offset) :=
    { refl := fun p => Nat.le_refl p.offset, trans := fun _ _ _ => Nat.le_trans }
  obtain ⟨hfrom, hnested⟩ := ofTokens_hulls hread
  exact ⟨hread, hfrom, hordered, hnested _ hordered⟩

end Program
end QuillLang
