import QuillLang.Proofs.Grammar.Complete
/-!
# Programs one after the other

Every statement opens with a token that goes on with no other, and the grammar looks no further than that
(`Stmt.ListParses.loosen`).  So what is read from two lists of tokens is read from both together.
-/
namespace QuillLang

open Token (firstKind)

theorem Stmt.ListParses.append : ∀ {ts us : List Token} {l l' : List Stmt} {next : Option TokenKind},
    ListParses ts l (firstKind us next) → ListParses us l' next → ListParses (ts ++ us) (l ++ l') next
  | _, _, _, _, _, .nil, h' => h'
  | _, us, _, l', next, @ListParses.cons ts vs s rest _ h hrest, h' => by
    rw [← Token.firstKind_append] at h
    rw [List.append_assoc]
    exact .cons h (hrest.append h')

namespace Program

/-- **Programs one after the other are read as the statements of both**, with the spans they have on their own.  So no
separator is needed between statements. -/
theorem ofTokens_append {ts us : List Token} {stop stop' : Option Position} {p q : Program}
    (hts : ofTokens ts stop = .ok p) (hus : ofTokens us stop' = .ok q) (stop'' : Option Position) :
    ∃ r, ofTokens (ts ++ us) stop'' = .ok r ∧ r.statements = p.statements ++ q.statements := by
  obtain ⟨hp, -⟩ := parses_of_ofTokens hts
  obtain ⟨hq, -⟩ := parses_of_ofTokens hus
  have hopens : Token.Opens us := by
    have h := hq.toFrom.opens .nil
    rwa [List.append_nil] at h
  exact ⟨_, ofTokens_of_parses ((hp.loosen hopens.ends).append hq) stop'', rfl⟩

/-- `call f a`, whose arguments go on as long as expressions come, with no places. -/
def openCall : List Token :=
  ([.keyword .call, .identifier "f", .identifier "a"] : List TokenKind).map fun k => ⟨k, Span.nowhere⟩

/-- `a [ b [ 0 ] ] = a`, which begins like an argument, with no places. -/
def nestedStore : List Token :=
  ([.identifier "a", .delimiter .lbracket, .identifier "b", .delimiter .lbracket, .number 0, .delimiter .rbracket,
    .delimiter .rbracket, .operator .assign, .identifier "a"] : List TokenKind).map fun k => ⟨k, Span.nowhere⟩

theorem openCall_nestedStore : ∃ p q r, ofTokens openCall none = .ok p ∧ ofTokens nestedStore none = .ok q ∧
    ofTokens (openCall ++ nestedStore) none = .ok r ∧ p.statements.length = 1 ∧ q.statements.length = 1 ∧
      r.statements = p.statements ++ q.statements := by
  have hcall : ∃ p, ofTokens openCall none = .ok p ∧ p.statements.length = 1 := ⟨_, rfl, rfl⟩
  have hstore : ∃ q, ofTokens nestedStore none = .ok q ∧ q.statements.length = 1 := ⟨_, rfl, rfl⟩
  obtain ⟨p, hp, hp1⟩ := hcall
  obtain ⟨q, hq, hq1⟩ := hstore
  obtain ⟨r, hr, hstatements⟩ := ofTokens_append hp hq none
  exact ⟨p, q, r, hp, hq, hr, hp1, hq1, hstatements⟩

end Program
end QuillLang
