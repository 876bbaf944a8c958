import Mathlib.Algebra.Ring.Int.Defs
import QuillLang.Proofs.Lexing.LongestMatch
/-!
# Which lexemes are tokens

A lexeme that the grammar sees is one token, and which one is read off its text (`Lexeme.Means`).  Two kinds of lexeme may
be none: a run of operator characters that is no operator, and a numeral whose value does not fit in 64 bits
(`Lexeme.Faulty`).  The first such lexeme ends the stream of tokens, and without one the stream goes to the end of the input
(`TokenStream.ofChunks_tokens`).

That a numeral has digits, a text its opening quote and a delimiter one of four characters is known from the way lexemes are
taken, so nothing else can go wrong.
-/
namespace QuillLang

/-! ## Numerals -/

namespace Decimal

/-- The integer that a numeral denotes: the value of its digits, less than zero behind a minus sign. -/
def value (text : String) : Int :=
  match text.toList with
  | '-' :: cs => -(Nat.ofDigitChars 10 cs 0 : Int)
  | cs => Nat.ofDigitChars 10 cs 0

def Fits (n : Int) : Prop := -2 ^ 63 ≤ n ∧ n ≤ 2 ^ 63 - 1

theorem fitsInt64_iff (n : Int) : fitsInt64 n = true ↔ Fits n := by
  have hmin : Int64.minValue.toInt = -2 ^ 63 := by decide
  have hmax : Int64.maxValue.toInt = 2 ^ 63 - 1 := by decide
  unfold fitsInt64 Fits
  rw [Bool.and_eq_true, decide_eq_true_eq, decide_eq_true_eq, hmin, hmax]

theorem toInt_ofInt {n : Int} (h : Fits n) : (Int64.ofInt n).toInt = n :=
  Int64.toInt_ofInt_of_le h.1 (by have := h.2; omega)

theorem isDigit_of_has {c : Char} (h : CharClass.digit.Has c) : c.isDigit = true := by
  simpa [CharClass.Has, Char.isDigit, Char.le_def] using h

theorem unsigned?_digits {cs : List Char} (hcs : cs ≠ []) (h : ∀ c ∈ cs, CharClass.digit.Has c) :
    unsigned? cs = some (Nat.ofDigitChars 10 cs 0) := by
  rw [unsigned?]
  · exact digits?_eq cs 0 fun c hc => isDigit_of_has (h c hc)
  · exact hcs

theorem signed?_of_match {text : String} {rest : List Char} (h : Lexeme.Match .number text.toList rest) :
    signed? text.toList = some (value text) := by
  unfold value
  generalize text.toList = cs at h
  cases h with
  | @number sign cs _ hsign hcs hdigits =>
    rcases hsign with rfl | rfl
    · have hfirst : ∀ c cs', [] ++ cs = c :: cs' → CharClass.digit.Has c := by
        rintro c cs' rfl
        exact hdigits c List.mem_cons_self
      have hminus : ∀ cs', [] ++ cs ≠ '-' :: cs' := fun cs' h => absurd (hfirst _ _ h).1 (by decide)
      have hplus : ∀ cs', [] ++ cs ≠ '+' :: cs' := fun cs' h => absurd (hfirst _ _ h).1 (by decide)
      rw [signed?.eq_3 _ hminus hplus]
      split
      · rename_i cs' heq
        exact absurd heq (hminus cs')
      · rw [List.nil_append, unsigned?_digits hcs hdigits]
        rfl
    · rw [List.singleton_append, signed?, unsigned?_digits hcs hdigits]
      rfl

theorem readInt64?_of_match {text : String} {rest : List Char} (h : Lexeme.Match .number text.toList rest) :
    readInt64? text = if fitsInt64 (value text) then some (Int64.ofInt (value text)) else none := by
  rw [readInt64?, signed?_of_match h]

end Decimal

/-! ## Tokens and faults -/

namespace Lexeme

def isSignificant (x : Lexeme) : Bool :=
  x.kind ∈ [.identifier, .operator, .number, .string, .delimiter]

inductive Means : Lexeme → Token → Prop where
  | keyword (k : Keyword) {span : Span} : Means ⟨.identifier, k.text, span⟩ ⟨.keyword k, span⟩
  | identifier {name : String} {span : Span} (h : ∀ k : Keyword, k.text ≠ name) :
    Means ⟨.identifier, name, span⟩ ⟨.identifier name, span⟩
  | operator (o : Operator) {span : Span} : Means ⟨.operator, o.text, span⟩ ⟨.operator o, span⟩
  | number {text : String} {span : Span} {n : Int64} (h : n.toInt = Decimal.value text) :
    Means ⟨.number, text, span⟩ ⟨.number n, span⟩
  /-- Without both quotes. -/
  | closed {text s : String} {span : Span} {q : Char} (htext : text.toList = q :: (s.toList ++ [q])) (h : q ∉ s.toList) :
    Means ⟨.string, text, span⟩ ⟨.string s, span⟩
  /-- Without the one quote there is. -/
  | unclosed {text s : String} {span : Span} {q : Char} (htext : text.toList = q :: s.toList) (h : q ∉ s.toList) :
    Means ⟨.string, text, span⟩ ⟨.string s, span⟩
  | delimiter (d : Delimiter) {span : Span} : Means ⟨.delimiter, d.text, span⟩ ⟨.delimiter d, span⟩

inductive Faulty : Lexeme → TokenError → Prop where
  | operator {text : String} {span : Span} (h : text ∉ ["+", "-", "*", "/", "%", "=", "==", "!=", "<", ">", "<=", ">="]) :
    Faulty ⟨.operator, text, span⟩ (.invalidOperator text span)
  | number {text : String} {span : Span} (h : ¬Decimal.Fits (Decimal.value text)) :
    Faulty ⟨.number, text, span⟩ (.invalidNumber text span)

def IsTaken (x : Lexeme) : Prop := x.kind = .endOfInput ∨ ∃ rest, Taken x.kind x.text.toList rest

theorem isTaken_ofChunks (keepComments : Bool) (chunks : List (List UInt8)) :
    ∀ x ∈ ofChunks keepComments chunks, x.IsTaken := by
  intro x hx
  have hall : x ∈ ofChunks true chunks := by
    rw [ofChunks_eq] at hx ⊢
    exact List.mem_filter.2 ⟨(List.mem_filter.1 hx).1, rfl⟩
  obtain ⟨xs, hmunches, hxs⟩ := munches_ofChunks chunks
  have hview := List.mem_map_of_mem (f := view) hall
  rw [hxs] at hview
  rcases List.mem_append.1 hview with hview | hview
  · exact .inr (hmunches.exists_taken hview)
  · exact .inl (congrArg Prod.fst (List.mem_singleton.1 hview))

theorem IsTaken.fits {kind : LexemeKind} {text : String} {span : Span} (h : IsTaken ⟨kind, text, span⟩)
    (hend : kind ≠ .endOfInput) (hunknown : kind ≠ .unknown) : ∃ rest, Match kind text.toList rest := by
  obtain ⟨rest, htaken⟩ := h.resolve_left hend
  dsimp only at htaken
  generalize text.toList = cs at htaken
  cases htaken with
  | longest h _ => exact ⟨rest, h⟩
  | unknown _ => exact absurd rfl hunknown

inductive Outcome (x : Lexeme) : Except TokenError (Option Token) → Prop where
  | none (hunseen : x.isSignificant = false) (hsound : ∀ e, ¬x.Faulty e) : Outcome x (.ok none)
  | token {t : Token} (hseen : x.isSignificant = true) (hmeans : x.Means t) (hsound : ∀ e, ¬x.Faulty e) :
    Outcome x (.ok (some t))
  | fault {e : TokenError} (h : x.Faulty e) : Outcome x (.error e)

theorem outcome_operator {text : String} {span : Span} :
    Outcome ⟨.operator, text, span⟩ (token? ⟨.operator, text, span⟩) := by
  unfold token?
  dsimp only
  cases hfind : Operator.ofText? text with
  | some o =>
    have htext : o.text = text := by simpa using List.find?_some hfind
    subst htext
    refine .token rfl (.operator o) ?_
    rintro e (⟨h⟩ | _)
    cases o <;> exact absurd h (by decide)
  | none =>
    refine .fault (.operator fun hmem => ?_)
    have hnone := List.find?_eq_none.1 hfind
    simp only [List.mem_cons, List.not_mem_nil, or_false] at hmem
    rcases hmem with rfl | rfl | rfl | rfl | rfl | rfl | rfl | rfl | rfl | rfl | rfl | rfl <;> revert hnone <;> decide

theorem outcome_number {text : String} {span : Span} {rest : List Char} (h : Match .number text.toList rest) :
    Outcome ⟨.number, text, span⟩ (token? ⟨.number, text, span⟩) := by
  unfold token?
  dsimp only
  rw [Decimal.readInt64?_of_match h]
  by_cases hfits : Decimal.Fits (Decimal.value text)
  · rw [if_pos ((Decimal.fitsInt64_iff _).2 hfits)]
    refine .token rfl (.number (Decimal.toInt_ofInt hfits)) ?_
    rintro e (_ | ⟨hnot⟩)
    exact hnot hfits
  · rw [if_neg fun h => hfits ((Decimal.fitsInt64_iff _).1 h)]
    exact .fault (.number hfits)

theorem outcome_identifier {text : String} {span : Span} :
    Outcome ⟨.identifier, text, span⟩ (token? ⟨.identifier, text, span⟩) := by
  unfold token?
  dsimp only
  cases hfind : Keyword.ofText? text with
  | some k =>
    have htext : k.text = text := by simpa using List.find?_some hfind
    subst htext
    exact .token rfl (.keyword k) nofun
  | none =>
    have hnone := List.find?_eq_none.1 hfind
    refine .token rfl (.identifier fun k => ?_) nofun
    have hall : k ∈ Keyword.all := by cases k <;> decide
    simpa using hnone k hall

theorem outcome_delimiter {text : String} {span : Span} {rest : List Char} (h : Match .delimiter text.toList rest) :
    Outcome ⟨.delimiter, text, span⟩ (token? ⟨.delimiter, text, span⟩) := by
  have htext : ∃ d : Delimiter, text = d.text := by
    rw [← String.ofList_toList (s := text)]
    generalize text.toList = cs at h
    cases h with
    | @delimiter c _ hc =>
      simp only [CharClass.Has, List.mem_cons, List.not_mem_nil, or_false] at hc
      rcases hc with rfl | rfl | rfl | rfl
      · exact ⟨.lbracket, rfl⟩
      · exact ⟨.rbracket, rfl⟩
      · exact ⟨.lparen, rfl⟩
      · exact ⟨.rparen, rfl⟩
  obtain ⟨d, rfl⟩ := htext
  have hfind : Delimiter.ofText? d.text = some d := by cases d <;> decide
  unfold token?
  dsimp only
  rw [hfind]
  exact .token rfl (.delimiter d) fun _ hfaulty => by cases hfaulty

theorem outcome_string {text : String} {span : Span} {rest : List Char} (h : Match .string text.toList rest) :
    Outcome ⟨.string, text, span⟩ (token? ⟨.string, text, span⟩) := by
  refine .token rfl ?_ nofun
  unfold unquote
  generalize htext : text.toList = cs at h
  cases h with
  | @closed q cs _ _ hcs =>
    refine .closed (q := q) ?_ ?_
    · simp [htext]
    · simpa using hcs
  | @unclosed q cs _ hcs =>
    have hlast : cs.getLast? ≠ some q := fun h => hcs (List.mem_of_getLast? h)
    refine .unclosed (q := q) ?_ ?_
    · simp [htext, hlast]
    · simpa [hlast] using hcs

/-- **A lexeme that was taken is passed over, is the token that its text says, or is at fault.** -/
theorem outcome_token? {x : Lexeme} (h : x.IsTaken) : Outcome x x.token? := by
  obtain ⟨kind, text, span⟩ := x
  cases kind with
  | identifier => exact outcome_identifier
  | operator => exact outcome_operator
  | number =>
    obtain ⟨rest, hmatch⟩ := h.fits (by decide) (by decide)
    exact outcome_number hmatch
  | string =>
    obtain ⟨rest, hmatch⟩ := h.fits (by decide) (by decide)
    exact outcome_string hmatch
  | delimiter =>
    obtain ⟨rest, hmatch⟩ := h.fits (by decide) (by decide)
    exact outcome_delimiter hmatch
  | whitespace | linefeed | comment | unknown | endOfInput => exact .none rfl nofun

end Lexeme

/-! ## Streams -/

/-- The tokens, and behind them the error if there is one. -/
def TokenStream.yielded (s : TokenStream) : List (Except TokenError Token) :=
  s.tokens.map Except.ok ++ s.failed.toList.map Except.error

namespace Tokenizer

/-- The answers to so many requests for a token. -/
def answers (t : Tokenizer) : Nat → List (Option (Except TokenError Token))
  | 0 => []
  | n + 1 => t.next.1 :: t.next.2.answers n

theorem answers_of_none {t : Tokenizer} (h : t.next = (none, t)) : ∀ n, t.answers n = (List.range n).map fun _ => none
  | 0 => rfl
  | n + 1 => by
    rw [answers, h, answers_of_none h n]
    simp [List.replicate_succ]

/-- **What a tokenizer hands out, request by request**: the tokens, then the error if there is one, and then nothing. -/
theorem answers_eq (xs : List Lexeme) : ∀ (stop : Option Position) (n : Nat),
    answers ⟨xs, false, stop⟩ n = (List.range n).map fun i => (TokenStream.ofLexemes xs).yielded[i]? := by
  induction xs with
  | nil =>
    intro stop n
    rw [TokenStream.ofLexemes_nil, answers_of_none rfl]
    rfl
  | cons x xs ih =>
    intro stop n
    rw [TokenStream.ofLexemes_cons]
    cases n with
    | zero => rfl
    | succ n =>
      rw [answers, next_cons]
      match x.token? with
      | .error e =>
        rw [answers_of_none rfl, List.range_succ_eq_map, List.map_cons, List.map_map]
        rfl
      | .ok (some token) =>
        rw [List.range_succ_eq_map, List.map_cons, List.map_map]
        exact congrArg (some (.ok token) :: ·) (ih _ n)
      | .ok none => exact ih _ (n + 1)

end Tokenizer

namespace TokenStream
open Lexeme (Means Faulty Outcome)

def Tokens (xs : List Lexeme) (ts : List Token) : Prop := List.Forall₂ Means (xs.filter Lexeme.isSignificant) ts

theorem tokens_skip {x : Lexeme} {xs : List Lexeme} {ts : List Token} (hx : x.isSignificant = false) (h : Tokens xs ts) :
    Tokens (x :: xs) ts := by
  unfold Tokens
  rwa [List.filter_cons_of_neg (by simp [hx])]

theorem tokens_cons {x : Lexeme} {xs : List Lexeme} {t : Token} {ts : List Token} (hx : x.isSignificant = true)
    (ht : x.Means t) (h : Tokens xs ts) : Tokens (x :: xs) (t :: ts) := by
  unfold Tokens
  rw [List.filter_cons_of_pos hx]
  exact .cons ht h

def Refused (xs : List Lexeme) (s : TokenStream) : Prop :=
  ∃ before x after e, xs = before ++ x :: after ∧ (∀ y ∈ before, ∀ e', ¬y.Faulty e') ∧ x.Faulty e ∧ s.failed = some e ∧
    Tokens before s.tokens

def Accepted (xs : List Lexeme) (s : TokenStream) : Prop :=
  (∀ x ∈ xs, ∀ e, ¬x.Faulty e) ∧ s.failed = none ∧ Tokens xs s.tokens

theorem refused_or_accepted_cons {x : Lexeme} {xs : List Lexeme} (hx : x.IsTaken)
    (h : Refused xs (ofLexemes xs) ∨ Accepted xs (ofLexemes xs)) :
    Refused (x :: xs) (ofLexemes (x :: xs)) ∨ Accepted (x :: xs) (ofLexemes (x :: xs)) := by
  have houtcome := Lexeme.outcome_token? hx
  rw [ofLexemes_cons]
  cases houtcome' : x.token? with
  | error e =>
    rw [houtcome'] at houtcome
    cases houtcome with
    | fault hfault => exact .inl ⟨[], x, xs, e, rfl, List.forall_mem_nil _, hfault, rfl, .nil⟩
  | ok t =>
    rw [houtcome'] at houtcome
    have hsound : ∀ e, ¬x.Faulty e := by
      cases houtcome with
      | none _ hsound => exact hsound
      | token _ _ hsound => exact hsound
    have htokens : ∀ {ys ts}, Tokens ys ts → Tokens (x :: ys) (t.toList ++ ts) := by
      intro ys ts hys
      cases houtcome with
      | none hunseen _ => exact tokens_skip hunseen hys
      | token hseen hmeans _ => exact tokens_cons hseen hmeans hys
    rcases h with ⟨before, y, after, e, rfl, hbefore, hfault, hfailed, htokens'⟩ | ⟨hall, hfailed, htokens'⟩
    · exact .inl ⟨x :: before, y, after, e, rfl, List.forall_mem_cons.2 ⟨hsound, hbefore⟩, hfault, hfailed,
        htokens htokens'⟩
    · exact .inr ⟨List.forall_mem_cons.2 ⟨hsound, hall⟩, hfailed, htokens htokens'⟩

/-- **A stream of lexemes that were taken ends at its first fault, or goes to its end.** -/
theorem refused_or_accepted : ∀ {xs : List Lexeme}, (∀ x ∈ xs, x.IsTaken) →
    Refused xs (ofLexemes xs) ∨ Accepted xs (ofLexemes xs)
  | [], _ => by
    rw [ofLexemes_nil]
    exact .inr ⟨nofun, rfl, .nil⟩
  | x :: xs, h => by
    rw [List.forall_mem_cons] at h
    exact refused_or_accepted_cons h.1 (refused_or_accepted h.2)

theorem all_of_failed {s : TokenStream} {e : TokenError} (h : s.failed = some e) : s.all = .error e := by
  rw [all, h]

theorem all_of_not_failed {s : TokenStream} (h : s.failed = none) : s.all = .ok s.tokens := by
  rw [all, h]

theorem stop_of_not_failed {mark : Lexeme} (hmark : mark.kind = .endOfInput) : ∀ {xs : List Lexeme},
    (ofLexemes (xs ++ [mark])).failed = none → (ofLexemes (xs ++ [mark])).stop = some mark.span.start
  | [], _ => by
    have htoken : mark.token? = .ok none := by rw [Lexeme.token?, hmark]
    rw [List.nil_append, ofLexemes_cons, htoken, ofLexemes_nil]
    exact if_pos hmark
  | x :: xs, h => by
    rw [List.cons_append, ofLexemes_cons] at h ⊢
    cases htoken : x.token? with
    | error e =>
      rw [htoken] at h
      cases h
    | ok t =>
      rw [htoken] at h
      dsimp only
      rw [stop_of_not_failed hmark h, Option.some_or]

end TokenStream

theorem Lexeme.ofChunks_endMark (keepComments : Bool) (chunks : List (List UInt8)) :
    ∃ xs, ofChunks keepComments chunks = xs ++ [endMark (Utf8.decode chunks.flatten)] := by
  obtain ⟨xs, hxs, -⟩ := Scanner.tiles_lexemes (Utf8.decode chunks.flatten)
  have hmark : [endMark (Utf8.decode chunks.flatten)].filter (fun x => keepComments || x.kind != .comment) =
      [endMark (Utf8.decode chunks.flatten)] := by
    cases keepComments <;> rfl
  rw [ofChunks_eq, hxs, List.filter_append, hmark]
  exact ⟨_, rfl⟩

namespace TokenStream
open Lexeme (Means Faulty)

/-- **The first fault ends the stream of tokens.**  Bytes are refused exactly if one of their lexemes is a run of operator
characters that is no operator or a numeral that does not fit in 64 bits.  The error is then that of the first such lexeme,
with its text and place, and the tokens are those of the lexemes before it that the grammar sees.  Otherwise there is one
token for each lexeme that the grammar sees, and the stream ends where the input does.  A delimiter is never at fault.
However often a token is asked for, these tokens are handed out, then the error if there is one, and then nothing. -/
theorem ofChunks_tokens (keepComments : Bool) (chunks : List (List UInt8)) :
    ((∃ e, (ofLexemes (Lexeme.ofChunks keepComments chunks)).all = .error e) ↔
        ∃ x ∈ Lexeme.ofChunks keepComments chunks, ∃ e, x.Faulty e) ∧
      (∀ e, (ofLexemes (Lexeme.ofChunks keepComments chunks)).all = .error e →
        ∃ before x after, Lexeme.ofChunks keepComments chunks = before ++ x :: after ∧
          (∀ y ∈ before, ∀ e', ¬y.Faulty e') ∧ x.Faulty e ∧
          List.Forall₂ Means (before.filter Lexeme.isSignificant)
            (ofLexemes (Lexeme.ofChunks keepComments chunks)).tokens) ∧
      (∀ ts, (ofLexemes (Lexeme.ofChunks keepComments chunks)).all = .ok ts →
        List.Forall₂ Means ((Lexeme.ofChunks keepComments chunks).filter Lexeme.isSignificant) ts ∧
          (ofLexemes (Lexeme.ofChunks keepComments chunks)).stop = some (Glyph.place (Utf8.decode chunks.flatten))) ∧
      (∀ text span, (ofLexemes (Lexeme.ofChunks keepComments chunks)).all ≠ .error (.invalidDelimiter text span)) ∧
      ∀ n, (Tokenizer.new (Lexeme.ofChunks keepComments chunks)).answers n =
        (List.range n).map fun i => (ofLexemes (Lexeme.ofChunks keepComments chunks)).yielded[i]? := by
  obtain ⟨xs, hxs⟩ := Lexeme.ofChunks_endMark keepComments chunks
  have hcases := refused_or_accepted (Lexeme.isTaken_ofChunks keepComments chunks)
  have hstop : (ofLexemes (Lexeme.ofChunks keepComments chunks)).failed = none →
      (ofLexemes (Lexeme.ofChunks keepComments chunks)).stop = some (Glyph.place (Utf8.decode chunks.flatten)) := by
    rw [hxs]
    exact stop_of_not_failed rfl
  have hanswers := Tokenizer.answers_eq (Lexeme.ofChunks keepComments chunks) none
  generalize Lexeme.ofChunks keepComments chunks = ys at hcases hstop hanswers
  rcases hcases with ⟨before, x, after, e, rfl, hbefore, hfault, hfailed, htokens⟩ | ⟨hsound, hfailed, htokens⟩
  · rw [all_of_failed hfailed]
    refine ⟨⟨fun _ => ⟨x, by simp, e, hfault⟩, fun _ => ⟨e, rfl⟩⟩, ?_, nofun, ?_, hanswers⟩
    · rintro _ ⟨⟩
      exact ⟨before, x, after, rfl, hbefore, hfault, htokens⟩
    · rintro text span ⟨⟩
      cases hfault
  · rw [all_of_not_failed hfailed]
    refine ⟨⟨nofun, fun ⟨x, hx, e, hfault⟩ => absurd hfault (hsound x hx e)⟩, nofun, ?_, nofun, hanswers⟩
    rintro _ ⟨⟩
    exact ⟨htokens, hstop hfailed⟩

/-- Lexemes with a stray operator among them, and the least number before a text that is not closed. -/
theorem strayOperator_tokens :
    (ofLexemes (Lexeme.ofChunks false [Utf8.bytes "x = 007 <> 'y"])).all =
        .error (.invalidOperator "<>" ⟨⟨1, 9, 8⟩, ⟨1, 11, 10⟩⟩) ∧
      (∃ before x after, Lexeme.ofChunks false [Utf8.bytes "x = 007 <> 'y"] = before ++ x :: after ∧
        (∀ y ∈ before, ∀ e', ¬y.Faulty e') ∧ x.Faulty (.invalidOperator "<>" ⟨⟨1, 9, 8⟩, ⟨1, 11, 10⟩⟩) ∧
        List.Forall₂ Means (before.filter Lexeme.isSignificant)
          (ofLexemes (Lexeme.ofChunks false [Utf8.bytes "x = 007 <> 'y"])).tokens) ∧
      ∃ ts, (ofLexemes (Lexeme.ofChunks false [Utf8.bytes "-9223372036854775808 'it"])).all = .ok ts ∧
        ts.map Token.kind = [.number Int64.minValue, .string "it"] ∧
        List.Forall₂ Means
          ((Lexeme.ofChunks false [Utf8.bytes "-9223372036854775808 'it"]).filter Lexeme.isSignificant) ts := by
  have hrefused : (ofLexemes (Lexeme.ofChunks false [Utf8.bytes "x = 007 <> 'y"])).all =
      .error (.invalidOperator "<>" ⟨⟨1, 9, 8⟩, ⟨1, 11, 10⟩⟩) := by
    rw [Lexeme.ofChunks_eq]
    decide +kernel
  have haccepted : (ofLexemes (Lexeme.ofChunks false [Utf8.bytes "-9223372036854775808 'it"])).all =
      .ok [⟨.number Int64.minValue, ⟨⟨1, 1, 0⟩, ⟨1, 21, 20⟩⟩⟩, ⟨.string "it", ⟨⟨1, 22, 21⟩, ⟨1, 25, 24⟩⟩⟩] := by
    rw [Lexeme.ofChunks_eq]
    decide +kernel
  obtain ⟨-, hfirst, -, -⟩ := ofChunks_tokens false [Utf8.bytes "x = 007 <> 'y"]
  obtain ⟨-, -, htokens, -⟩ := ofChunks_tokens false [Utf8.bytes "-9223372036854775808 'it"]
  exact ⟨hrefused, hfirst _ hrefused, _, haccepted, rfl, (htokens _ haccepted).1⟩

end TokenStream
end QuillLang
