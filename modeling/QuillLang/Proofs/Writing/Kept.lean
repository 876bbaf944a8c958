import QuillLang.Proofs.Grammar.Sound
/-!
# Reading keeps every token

What is read as an expression or a statement is that expression or statement written flat, with parentheses put in
(`Stmt.ListFrom.words`).  Parentheses and blocks are counted along, so they are balanced (`Program.ofTokens_keeps`).
-/
namespace QuillLang
namespace TokenKind

/-! ## Balance -/

/-- The number of open parentheses after a token; none if there is nothing to close. -/
def countParen (depth : Nat) : TokenKind → Option Nat
  | .delimiter .lparen => some (depth + 1)
  | .delimiter .rparen => if depth = 0 then none else some (depth - 1)
  | _ => some depth

/-- The block whose closing keyword is awaited next is closed; none if `k` is not that keyword. -/
def closeBlock (awaited : List Keyword) (k : Keyword) : Option (List Keyword) :=
  match awaited with
  | [] => none
  | next :: rest => if k = next then some rest else none

/-- The closing keywords awaited after a token, that of the innermost block first. -/
def nest (awaited : List Keyword) : TokenKind → Option (List Keyword)
  | .keyword .ifKw => some (.endif :: awaited)
  | .keyword .asKw => some (.repeatKw :: awaited)
  | .keyword .func => some (.endKw :: awaited)
  | .keyword .endif => closeBlock awaited .endif
  | .keyword .repeatKw => closeBlock awaited .repeatKw
  | .keyword .endKw => closeBlock awaited .endKw
  | _ => some awaited

def ParensBalanced (ks : List TokenKind) : Prop := ks.foldlM countParen 0 = some 0

def BlocksNested (ks : List TokenKind) : Prop := ks.foldlM nest [] = some []

end TokenKind

namespace Token

theorem counts_paren : Counts fun depth t => TokenKind.countParen depth t.kind where
  other := by
    intro s t ht
    unfold TokenKind.countParen
    split
    all_goals simp_all [TokenKind.isPaired]
  pair := by
    intro s t u h
    generalize t.kind = k, u.kind = l at h
    cases h with
    | paren => exact ⟨s + 1, rfl, rfl⟩
    | bracket | block => exact ⟨s, rfl, rfl⟩

theorem counts_nest : Counts fun awaited t => TokenKind.nest awaited t.kind where
  other := by
    intro s t ht
    unfold TokenKind.nest
    split
    all_goals first | rfl | simp_all [TokenKind.isPaired, Keyword.closer?, Keyword.isCloser]
  pair := by
    intro s t u h
    generalize t.kind = k, u.kind = l at h
    cases h with
    | paren | bracket => exact ⟨s, rfl, rfl⟩
    | @block k closer h => cases k <;> cases h <;> exact ⟨_ :: s, rfl, rfl⟩

def words (ts : List Token) : List TokenKind := (ts.map kind).filter fun k => !k.isParen

theorem words_append (ts us : List Token) : words (ts ++ us) = words ts ++ words us := by
  unfold words
  rw [List.map_append, List.filter_append]

theorem words_cons {t : Token} {k : TokenKind} (ht : t.kind = k) (hk : k.isParen = false) (ts : List Token) :
    words (t :: ts) = k :: words ts := by
  unfold words
  rw [List.map_cons, ht, List.filter_cons_of_pos (by simp [hk])]

theorem words_paren {t : Token} {k : TokenKind} (ht : t.kind = k) (hk : k.isParen = true) (ts : List Token) :
    words (t :: ts) = words ts := by
  unfold words
  rw [List.map_cons, ht, List.filter_cons_of_neg (by simp [hk])]

theorem words_names {ts : List Token} {params : List Ident} (h : List.Forall₂ Names ts params) :
    words ts = params.map Ident.token := by
  induction h with
  | nil => rfl
  | cons ht _ ih =>
    rw [words_cons ht.1 rfl, ih]
    rfl

end Token

open Token (words words_append words_cons words_paren)

/-! ## Flat texts -/

theorem Expr.From.words {ts : List Token} {e : Expr} (h : e.From ts) : words ts = e.flat := by
  induction h with
  | var ht | number ht | string ht => exact words_cons ht rfl []
  | index ht ho _ hc hall ih =>
    rw [hall, words_cons ht.1 rfl, words_cons ho rfl, words_append, ih, words_cons hc rfl]
    rfl
  | binary _ ht _ hall ihl ihr =>
    rw [hall, words_append, words_cons ht rfl, ihl, ihr]
    rfl
  | neg ht _ hall ih =>
    rw [hall, words_cons ht rfl, ih]
    rfl
  | trig ht _ _ hall iha ihb | random ht _ _ hall iha ihb =>
    rw [hall, words_cons ht rfl, words_append, iha, ihb]
    rfl
  | paren ho _ hc hall ih =>
    rw [hall, words_paren ho rfl, words_append, words_paren hc rfl, ih, flat_withSpan]
    exact List.append_nil _

theorem Expr.ListFrom.words {ts : List Token} {es : List Expr} (h : ListFrom ts es) :
    words ts = es.flatMap Manner.flat.argument := by
  induction h with
  | nil => rfl
  | cons h _ ih =>
    rw [words_append, h.words, ih]
    rfl

theorem Ident.IntoFrom.words {ts : List Token} {result : Option Ident} (h : IntoFrom ts result) :
    words ts = writtenInto result := by
  cases h with
  | none => rfl
  | some ht hn =>
    rw [words_cons ht rfl, words_cons hn.1 rfl]
    rfl

namespace Stmt

mutual

theorem From.words : ∀ {ts : List Token} {s : Stmt}, From ts s → words ts = s.written .flat
  | _, _, .make ht hn hv hall => by
    rw [hall, words_cons ht rfl, words_cons hn.1 rfl, hv.words]
    rfl
  | _, _, .assign hn ht hv hall => by
    rw [hall, words_cons hn.1 rfl, words_cons ht rfl, hv.words]
    rfl
  | _, _, .makeArray ht hn ho hs hc hall => by
    rw [hall, words_cons ht rfl, words_cons hn.1 rfl, words_cons ho rfl, words_append, hs.words, words_cons hc rfl]
    rfl
  | _, _, .assignArray hn ho hi hc ht hv hall => by
    rw [hall, words_cons hn.1 rfl, words_cons ho rfl, words_append, hi.words, words_cons hc rfl, words_cons ht rfl, hv.words]
    rfl
  | _, _, .when ht htest hbody hc hall | _, _, .loop ht htest hbody hc hall => by
    rw [hall, words_cons ht rfl, words_append, htest.words, words_append, hbody.words, words_cons hc rfl]
    rfl
  | _, _, .print ht hv hall => by
    rw [hall, words_cons ht rfl, hv.words]
    rfl
  | _, _, .free ht hn hall | _, _, .ret ht hn hall => by
    rw [hall, words_cons ht rfl, words_cons hn.1 rfl]
    rfl
  | _, _, .func ht hn hparams hbody hc hall => by
    rw [hall, words_cons ht rfl, words_cons hn.1 rfl, words_append, Token.words_names hparams, words_append, hbody.words,
      words_cons hc rfl]
    rfl
  | _, _, .call ht hn hargs hresult hall => by
    rw [hall, words_cons ht rfl, words_cons hn.1 rfl, words_append, hargs.words, hresult.words]
    rfl
  | _, _, .graphics ht hargs hresult hall => by
    rw [hall, words_cons ht rfl, words_append, hargs.words, hresult.words]
    rfl

theorem ListFrom.words : ∀ {ts : List Token} {l : List Stmt}, ListFrom ts l → words ts = writtenAll .flat l
  | _, _, .nil => rfl
  | _, _, .cons h hrest => by
    rw [words_append, h.words, hrest.words]
    rfl

end

end Stmt

/-! ## Programs -/

namespace Program

/-- **The tokens of a program, parentheses apart, are the program written flat.**  So none is lost, invented or moved; its
parentheses are balanced and its blocks properly nested. -/
theorem ofTokens_keeps {ts : List Token} {stop : Option Position} {p : Program} (h : ofTokens ts stop = .ok p) :
    (ts.map Token.kind).filter (fun k => !k.isParen) = p.flat ∧ TokenKind.BlocksNested (ts.map Token.kind) ∧
      TokenKind.ParensBalanced (ts.map Token.kind) := by
  obtain ⟨hparses, -⟩ := parses_of_ofTokens h
  refine ⟨hparses.toFrom.words, ?_, ?_⟩
  · unfold TokenKind.BlocksNested
    rw [List.foldlM_map]
    exact hparses.toFrom.steady Token.counts_nest []
  · unfold TokenKind.ParensBalanced
    rw [List.foldlM_map]
    exact hparses.toFrom.steady Token.counts_paren 0

/-- `func half n if (n > (1 + 1)) * n return n endif end`, with no places. -/
def halfTokens : List Token :=
  ([.keyword .func, .identifier "half", .identifier "n", .keyword .ifKw, .delimiter .lparen, .identifier "n", .operator .gt,
    .delimiter .lparen, .number 1, .operator .plus, .number 1, .delimiter .rparen, .delimiter .rparen, .operator .star,
    .identifier "n", .keyword .returnKw, .identifier "n", .keyword .endif, .keyword .endKw] : List TokenKind).map
    fun k => ⟨k, Span.nowhere⟩

theorem halfTokens_kept : ∃ p, ofTokens halfTokens none = .ok p ∧ p.statements.length = 1 ∧
    (halfTokens.map Token.kind).filter (fun k => !k.isParen) = p.flat ∧
      TokenKind.BlocksNested (halfTokens.map Token.kind) ∧ TokenKind.ParensBalanced (halfTokens.map Token.kind) :=
  ⟨_, rfl, rfl, ofTokens_keeps rfl⟩

end Program
end QuillLang
