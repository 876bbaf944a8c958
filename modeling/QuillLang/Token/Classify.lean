import QuillLang.Lexeme.Basic
import QuillLang.Token.Basic
/-!
# From lexemes to tokens

Blanks, line ends, comments, unknown characters and the end mark say nothing to the grammar and are passed over; every
other lexeme is one token or an error.  Tokens are asked for one by one.  Once there was an error, there is nothing more.
-/
namespace QuillLang

inductive TokenError where
  | invalidOperator (text : String) (span : Span)
  | invalidNumber (text : String) (span : Span)
  | invalidDelimiter (text : String) (span : Span)
  deriving DecidableEq

namespace TokenError

def span : TokenError → Span
  | invalidOperator _ s | invalidNumber _ s | invalidDelimiter _ s => s

def message : TokenError → String
  | invalidOperator t s => "invalid operator `" ++ t ++ "` at " ++ s.start.text
  | invalidNumber t s => "invalid number `" ++ t ++ "` at " ++ s.start.text
  | invalidDelimiter t s => "invalid delimiter `" ++ t ++ "` at " ++ s.start.text

end TokenError

namespace Lexeme

/-- A quoted text without its opening quote, and without its closing one if it has it. -/
def unquote (text : String) : String :=
  match text.toList with
  | [] => ""
  | q :: inner => String.ofList (if inner.getLast? = some q then inner.dropLast else inner)

/-- The token a lexeme is; nothing for one that the grammar does not see. -/
def token? (x : Lexeme) : Except TokenError (Option Token) :=
  match x.kind with
  | .whitespace | .linefeed | .comment | .unknown | .endOfInput => .ok none
  | .identifier =>
    match Keyword.ofText? x.text with
    | some k => .ok (some ⟨.keyword k, x.span⟩)
    | none => .ok (some ⟨.identifier x.text, x.span⟩)
  | .operator =>
    match Operator.ofText? x.text with
    | some o => .ok (some ⟨.operator o, x.span⟩)
    | none => .error (.invalidOperator x.text x.span)
  | .number =>
    match Decimal.readInt64? x.text with
    | some n => .ok (some ⟨.number n, x.span⟩)
    | none => .error (.invalidNumber x.text x.span)
  | .string => .ok (some ⟨.string (unquote x.text), x.span⟩)
  | .delimiter =>
    match Delimiter.ofText? x.text with
    | some d => .ok (some ⟨.delimiter d, x.span⟩)
    | none => .error (.invalidDelimiter x.text x.span)

/-- The place an end mark marks. -/
def endPlace? (x : Lexeme) : Option Position :=
  if x.kind = .endOfInput then some x.span.start else none

end Lexeme

/-- What became of a stream of lexemes. -/
structure TokenStream where
  tokens : List Token
  failed : Option TokenError
  /-- The last end mark passed, if any. -/
  stop : Option Position
  deriving DecidableEq

structure Tokenizer where
  /-- The lexemes not looked at. -/
  input : List Lexeme
  /-- Was there an error? -/
  failed : Bool
  /-- The last end mark passed, if any. -/
  stop : Option Position
  deriving DecidableEq

namespace Tokenizer

def new (xs : List Lexeme) : Tokenizer :=
  ⟨xs, false, none⟩

/-- The next token or the error in its place, and the tokenizer behind it. -/
def next (t : Tokenizer) : Option (Except TokenError Token) × Tokenizer :=
  if t.failed then (none, t) else go t.stop t.input
where
  go (stop : Option Position) : List Lexeme → Option (Except TokenError Token) × Tokenizer
    | [] => (none, ⟨[], false, stop⟩)
    | x :: rest =>
      let stop := x.endPlace?.or stop
      match x.token? with
      | .error e => (some (.error e), ⟨rest, true, stop⟩)
      | .ok (some token) => (some (.ok token), ⟨rest, false, stop⟩)
      | .ok none => go stop rest

theorem length_next_go (stop : Option Position) (xs : List Lexeme) {r : Except TokenError Token} {t : Tokenizer}
    (h : next.go stop xs = (some r, t)) : t.input.length < xs.length := by
  fun_induction next.go stop xs with
  | case1 => cases h
  | case2 => cases h; exact Nat.lt_succ_self _
  | case3 => cases h; exact Nat.lt_succ_self _
  | case4 _ _ _ _ _ ih => exact Nat.lt_succ_of_lt (ih h)

theorem length_next {t t' : Tokenizer} {r : Except TokenError Token} (h : t.next = (some r, t')) :
    t'.input.length < t.input.length := by
  unfold next at h
  split at h
  · cases h
  · exact length_next_go _ _ h

/-- All tokens, asked for until there is an error or none is left. -/
def collect (t : Tokenizer) : TokenStream :=
  go [] t
where
  go (tokens : List Token) (t : Tokenizer) : TokenStream :=
    match _h : t.next with
    | (some (.ok token), t') => go (token :: tokens) t'
    | (some (.error e), t') => ⟨tokens.reverse, some e, t'.stop⟩
    | (none, t') => ⟨tokens.reverse, none, t'.stop⟩
  termination_by t.input.length
  decreasing_by exact length_next _h

theorem go_eq (tokens : List Token) (t : Tokenizer) :
    collect.go tokens t =
      match t.next with
      | (some (.ok token), t') => collect.go (token :: tokens) t'
      | (some (.error e), t') => ⟨tokens.reverse, some e, t'.stop⟩
      | (none, t') => ⟨tokens.reverse, none, t'.stop⟩ := by
  rw [collect.go]
  split <;> rename_i h <;> rw [h]

theorem next_cons (x : Lexeme) (xs : List Lexeme) (stop : Option Position) :
    next ⟨x :: xs, false, stop⟩ =
      match x.token? with
      | .error e => (some (.error e), ⟨xs, true, x.endPlace?.or stop⟩)
      | .ok (some token) => (some (.ok token), ⟨xs, false, x.endPlace?.or stop⟩)
      | .ok none => next ⟨xs, false, x.endPlace?.or stop⟩ := rfl

theorem go_cons (tokens : List Token) (x : Lexeme) (xs : List Lexeme) (stop : Option Position) :
    collect.go tokens ⟨x :: xs, false, stop⟩ =
      match x.token? with
      | .error e => ⟨tokens.reverse, some e, x.endPlace?.or stop⟩
      | .ok t => collect.go (t.toList ++ tokens) ⟨xs, false, x.endPlace?.or stop⟩ := by
  rw [go_eq, next_cons]
  match x.token? with
  | .error e => rfl
  | .ok (some token) => rfl
  | .ok none => exact (go_eq tokens _).symm

end Tokenizer

namespace TokenStream

def ofLexemes (xs : List Lexeme) : TokenStream :=
  (Tokenizer.new xs).collect

theorem ofLexemes_nil : ofLexemes [] = ⟨[], none, none⟩ := by
  rw [ofLexemes, Tokenizer.collect, Tokenizer.go_eq]
  rfl

theorem collect_go (xs : List Lexeme) : ∀ (tokens : List Token) (stop : Option Position),
    Tokenizer.collect.go tokens ⟨xs, false, stop⟩ =
      ⟨tokens.reverse ++ (ofLexemes xs).tokens, (ofLexemes xs).failed, (ofLexemes xs).stop.or stop⟩ := by
  induction xs with
  | nil =>
    intro tokens stop
    rw [ofLexemes_nil, Tokenizer.go_eq]
    simp [Tokenizer.next, Tokenizer.next.go]
  | cons x xs ih =>
    intro tokens stop
    rw [ofLexemes, Tokenizer.collect, Tokenizer.new, Tokenizer.go_cons, Tokenizer.go_cons]
    cases x.token? with
    | error e => simp
    | ok t => simp [ih, Option.or_assoc]

/-- The stream of lexemes, from the first on. -/
theorem ofLexemes_cons (x : Lexeme) (xs : List Lexeme) :
    ofLexemes (x :: xs) =
      match x.token? with
      | .error e => ⟨[], some e, x.endPlace?⟩
      | .ok t => ⟨t.toList ++ (ofLexemes xs).tokens, (ofLexemes xs).failed, (ofLexemes xs).stop.or x.endPlace?⟩ := by
  rw [ofLexemes, Tokenizer.collect, Tokenizer.new, Tokenizer.go_cons]
  cases x.token? with
  | error e => simp
  | ok t => cases t <;> simp [collect_go]

/-- All tokens, or the error that ended the stream. -/
def all (s : TokenStream) : Except TokenError (List Token) :=
  match s.failed with
  | some e => .error e
  | none => .ok s.tokens

end TokenStream
end QuillLang
