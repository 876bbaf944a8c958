import Mathlib.Data.List.Forall2
import QuillLang.Proofs.Lexing.Lossless
import QuillLang.Token.Classify
/-!
# Reading what is written

A token is written in its own characters: a name and a member of a closed set as they are spelled, a number in decimals,
a text within quotes that it does not hold (`TokenKind.Rendered`).  With a blank between any two, the tokens that are
read are those that were written (`TokenStream.all_rendered`).

The scanner goes through the characters of a lexeme and knows its end by the next one.  That the next one is a blank is
enough for every token to end where it was meant to (`Scanner.Cuts`, `TokenKind.ReadFrom`).
-/
namespace QuillLang

/-! ## Numerals -/

namespace Decimal

theorem bounds_of_isDigit {c : Char} (h : c.isDigit = true) : '0' ≤ c ∧ c ≤ '9' := by
  simpa [Char.isDigit, Char.le_def] using h

theorem digits?_eq : ∀ (cs : List Char) (acc : Nat), (∀ c ∈ cs, c.isDigit = true) →
    digits? acc cs = some (Nat.ofDigitChars 10 cs acc)
  | [], acc, _ => by simp [digits?]
  | c :: cs, acc, h => by
    rw [List.forall_mem_cons] at h
    rw [digits?, if_pos (bounds_of_isDigit h.1), digits?_eq cs _ h.2, Nat.ofDigitChars_cons, Nat.mul_comm]

theorem isDigit_toDigits {n : Nat} {c : Char} (h : c ∈ Nat.toDigits 10 n) : c.isDigit = true :=
  Nat.isDigit_of_mem_toDigits (by decide) (by decide) h

theorem unsigned?_toDigits (n : Nat) : unsigned? (Nat.toDigits 10 n) = some n := by
  have hdigits := digits?_eq (Nat.toDigits 10 n) 0 fun c hc => isDigit_toDigits hc
  rw [Nat.ofDigitChars_ten_toDigits] at hdigits
  rwa [unsigned?]
  exact Nat.toDigits_ne_nil

/-- A numeral is a run of digits, with a minus sign in front of it or not. -/
theorem ofInt_cases (n : Int) :
    (n = -(n.natAbs : Int) ∧ (ofInt n).toList = '-' :: Nat.toDigits 10 n.natAbs) ∨
      (n = n.natAbs ∧ (ofInt n).toList = Nat.toDigits 10 n.natAbs) := by
  unfold ofInt ofNat
  split
  · exact .inl ⟨by omega, by simp⟩
  · exact .inr ⟨by omega, String.toList_ofList⟩

theorem signed?_ofInt (n : Int) : signed? (ofInt n).toList = some n := by
  rcases ofInt_cases n with ⟨hn, htext⟩ | ⟨hn, htext⟩
  · rw [htext, signed?, unsigned?_toDigits]
    exact congrArg some hn.symm
  · have hsign : ∀ c cs, Nat.toDigits 10 n.natAbs = c :: cs → c.isDigit = true :=
      fun c cs h => isDigit_toDigits (by rw [h]; exact List.mem_cons_self)
    rw [htext, signed?, unsigned?_toDigits]
    · exact congrArg some hn.symm
    · intro cs h
      exact absurd (hsign _ _ h) (by decide)
    · intro cs h
      exact absurd (hsign _ _ h) (by decide)

theorem readInt64?_ofInt64 (n : Int64) : readInt64? (ofInt64 n) = some n := by
  have hfits : fitsInt64 n.toInt = true := by
    rw [fitsInt64, decide_eq_true n.minValue_le_toInt, decide_eq_true n.toInt_le, Bool.and_self]
  rw [readInt64?, ofInt64, signed?_ofInt]
  simp only [hfits, if_true, Int64.ofInt_toInt]

end Decimal

/-! ## How tokens are written -/

namespace TokenKind

def IsName (name : String) : Prop :=
  ∃ c cs, name.toList = c :: cs ∧ CharClass.of c = .letter ∧ ∀ d ∈ cs, CharClass.of d = .letter ∨ CharClass.of d = .digit

-- Said with `List.all`, so that `decide` goes through the name and not through all the characters there are.
theorem isName_of_all {name : String} {c : Char} {cs : List Char} (htext : name.toList = c :: cs)
    (hc : CharClass.of c = .letter) (hcs : (cs.all fun d => CharClass.of d = .letter ∨ CharClass.of d = .digit) = true) :
    IsName name :=
  ⟨c, cs, htext, hc, fun d hd => of_decide_eq_true (List.all_eq_true.1 hcs d hd)⟩

/-- Can the token be written?  A keyword cannot be written as a name, nor a text with quotes of both kinds. -/
def Writable : TokenKind → Prop
  | identifier name => IsName name ∧ ∀ k : Keyword, k.text ≠ name
  | string s => '\'' ∉ s.toList ∨ '"' ∉ s.toList
  | _ => True

inductive Rendered : TokenKind → String → Prop where
  | keyword (k : Keyword) : Rendered (.keyword k) k.text
  | identifier (name : String) : Rendered (.identifier name) name
  | operator (o : Operator) : Rendered (.operator o) o.text
  | number (n : Int64) : Rendered (.number n) (Decimal.ofInt64 n)
  | string (s : String) {quote : Char} (hquote : quote = '\'' ∨ quote = '"') (h : quote ∉ s.toList) :
    Rendered (.string s) (String.ofList (quote :: (s.toList ++ [quote])))
  | delimiter (d : Delimiter) : Rendered (.delimiter d) d.text

theorem exists_rendered {k : TokenKind} (h : k.Writable) : ∃ text, k.Rendered text := by
  cases k with
  | string s =>
    rcases h with h | h
    · exact ⟨_, .string s (.inl rfl) h⟩
    · exact ⟨_, .string s (.inr rfl) h⟩
  | keyword k => exact ⟨_, .keyword k⟩
  | identifier name => exact ⟨_, .identifier name⟩
  | operator o => exact ⟨_, .operator o⟩
  | number n => exact ⟨_, .number n⟩
  | delimiter d => exact ⟨_, .delimiter d⟩

end TokenKind

/-! ## One lexeme -/

theorem Glyph.map_char (cs : List Char) : (cs.map Glyph.ofChar).map Glyph.char = cs := by
  rw [List.map_map]
  exact List.map_id cs

theorem Glyph.text_ofChar (s : String) : Glyph.text (s.toList.map .ofChar) = s := by
  rw [Glyph.text, Glyph.map_char, String.ofList_toList]

/-- The mode after characters that all go on with the lexeme at hand. -/
def Mode.follow (m : Mode) : List Char → Option Mode
  | [] => some m
  | c :: cs =>
    match m.move c with
    | .more m' => m'.follow cs
    | _ => none

theorem Mode.follow_of_loop {m : Mode} : ∀ {cs : List Char}, (∀ c ∈ cs, m.move c = .more m) → m.follow cs = some m
  | [], _ => rfl
  | c :: cs, h => by
    rw [follow, h c List.mem_cons_self]
    exact follow_of_loop fun d hd => h d (List.mem_cons_of_mem c hd)

theorem Mode.move_string (quote c : Char) :
    (Mode.string quote).move c = if c = quote then .last else .more (.string quote) := by
  unfold move
  cases CharClass.of c <;> rfl

namespace Scanner

/-- Between lexemes, the scanner finds one of this kind first and is between lexemes behind it. -/
def Cuts (kind : LexemeKind) (piece rest : List Glyph) : Prop :=
  ∀ here, ∃ span here', (⟨none, here⟩ : Scanner).lexemes (piece ++ rest) =
    ⟨kind, Glyph.text piece, span⟩ :: (⟨none, here'⟩ : Scanner).lexemes rest

theorem lexemes_follow (rest : List Glyph) (start : Position) :
    ∀ (gs seen : List Glyph) {m m' : Mode} (here : Position), m.follow (gs.map Glyph.char) = some m' →
      ∃ here', (⟨some ⟨m, Glyph.text seen, start⟩, here⟩ : Scanner).lexemes (gs ++ rest) =
        (⟨some ⟨m', Glyph.text (seen ++ gs), start⟩, here'⟩ : Scanner).lexemes rest
  | [], seen, m, m', here, h => by
    cases h
    exact ⟨here, by rw [List.append_nil]; rfl⟩
  | g :: gs, seen, m, m', here, h => by
    rw [List.map_cons, Mode.follow] at h
    split at h
    · rename_i m₁ hmove
      obtain ⟨here', hrest⟩ := lexemes_follow rest start gs (seen ++ [g]) (here.advance g.char g.width) h
      refine ⟨here', ?_⟩
      rw [List.cons_append, lexemes, step]
      simp only [hmove, Glyph.text_push, hrest, List.nil_append, List.append_assoc, List.singleton_append]
    · cases h

theorem lexemes_past {m : Mode} {rest : List Glyph} (h : ∀ g ∈ rest.head?, m.move g.char = .past) (text : String)
    (start here : Position) :
    (⟨some ⟨m, text, start⟩, here⟩ : Scanner).lexemes rest =
      ⟨m.kind, text, ⟨start, here⟩⟩ :: (⟨none, here⟩ : Scanner).lexemes rest := by
  cases rest with
  | nil => rfl
  | cons g rest =>
    rw [lexemes, lexemes, step]
    simp only [h g rfl]
    rfl

theorem lexemes_last {m : Mode} {g : Glyph} (h : m.move g.char = .last) (seen rest : List Glyph) (start here : Position) :
    (⟨some ⟨m, Glyph.text seen, start⟩, here⟩ : Scanner).lexemes (g :: rest) =
      ⟨m.kind, Glyph.text (seen ++ [g]), ⟨start, here.advance g.char g.width⟩⟩ ::
        (⟨none, here.advance g.char g.width⟩ : Scanner).lexemes rest := by
  rw [lexemes, step]
  simp only [h, Glyph.text_push]
  rfl

theorem lexemes_begin {g : Glyph} {m : Mode} (h : Mode.opening g.char = .run m) (rest : List Glyph) (here : Position) :
    (⟨none, here⟩ : Scanner).lexemes (g :: rest) =
      (⟨some ⟨m, Glyph.text [g], here⟩, here.advance g.char g.width⟩ : Scanner).lexemes rest := by
  rw [lexemes, step, begin]
  simp only [h]
  rfl

theorem cuts_run {g : Glyph} {gs rest : List Glyph} {m m' : Mode} (hopening : Mode.opening g.char = .run m)
    (hfollow : m.follow (gs.map Glyph.char) = some m') (hpast : ∀ g ∈ rest.head?, m'.move g.char = .past) :
    Cuts m'.kind (g :: gs) rest := by
  intro here
  obtain ⟨here', hrest⟩ := lexemes_follow rest here gs [g] (here.advance g.char g.width) hfollow
  exact ⟨_, here', by rw [List.cons_append, lexemes_begin hopening, hrest, lexemes_past hpast]; rfl⟩

theorem cuts_quoted {g : Glyph} {gs rest : List Glyph} (hopening : Mode.opening g.char = .run (.string g.char))
    (h : ∀ x ∈ gs, x.char ≠ g.char) : Cuts .string (g :: (gs ++ [g])) rest := by
  intro here
  have hfollow : (Mode.string g.char).follow (gs.map Glyph.char) = some (.string g.char) := by
    refine Mode.follow_of_loop fun c hc => ?_
    obtain ⟨x, hx, rfl⟩ := List.mem_map.1 hc
    rw [Mode.move_string, if_neg (h x hx)]
  have hlast : (Mode.string g.char).move g.char = .last := by rw [Mode.move_string, if_pos rfl]
  obtain ⟨here', hrest⟩ := lexemes_follow (g :: rest) here gs [g] (here.advance g.char g.width) hfollow
  rw [lexemes_last hlast] at hrest
  rw [List.cons_append, List.append_assoc, lexemes_begin hopening]
  exact ⟨_, _, hrest⟩

theorem cuts_single {g : Glyph} {k : LexemeKind} (h : Mode.opening g.char = .single k) (rest : List Glyph) :
    Cuts k [g] rest := by
  intro here
  refine ⟨⟨here, here.advance g.char g.width⟩, here.advance g.char g.width, ?_⟩
  rw [List.singleton_append, lexemes, step, begin]
  simp only [h]
  rfl

theorem cuts_blank {rest : List Glyph} (h : ∀ g ∈ rest.head?, CharClass.of g.char ≠ .whitespace) :
    Cuts .whitespace [.ofChar ' '] rest := by
  have hopening : Mode.opening (Glyph.ofChar ' ').char = .run .whitespace := rfl
  have hfollow : Mode.whitespace.follow (([] : List Glyph).map Glyph.char) = some .whitespace := rfl
  refine cuts_run hopening hfollow fun g hg => ?_
  unfold Mode.move
  have hclass := h g hg
  cases hc : CharClass.of g.char <;> first | rfl | exact absurd hc hclass

end Scanner

/-! ## The token of a lexeme -/

namespace TokenStream

theorem all_cons (x : Lexeme) (xs : List Lexeme) :
    (ofLexemes (x :: xs)).all =
      match x.token? with
      | .error e => .error e
      | .ok t => (ofLexemes xs).all.map (t.toList ++ ·) := by
  rw [ofLexemes_cons]
  cases x.token? with
  | error e => rfl
  | ok t =>
    unfold all
    dsimp only
    cases (ofLexemes xs).failed <;> rfl

/-- Comments are no tokens, so it does not matter whether they are kept. -/
theorem all_filter (keepComments : Bool) : ∀ xs : List Lexeme,
    (ofLexemes (xs.filter fun x => keepComments || x.kind != .comment)).all = (ofLexemes xs).all
  | [] => rfl
  | x :: xs => by
    rw [List.filter_cons]
    split
    · rw [all_cons, all_cons, all_filter keepComments xs]
    · rename_i hx
      have hcomment : x.kind = .comment := by
        simp only [Bool.or_eq_true, bne_iff_ne, not_or, Decidable.not_not] at hx
        exact hx.2
      have htoken : x.token? = .ok none := by rw [Lexeme.token?, hcomment]
      rw [all_cons, htoken, all_filter keepComments xs]
      cases (ofLexemes xs).all <;> rfl

def Spells (xs : List Lexeme) (ks : List TokenKind) : Prop :=
  ∃ ts, (ofLexemes xs).all = .ok ts ∧ ts.map Token.kind = ks

variable {x : Lexeme} {xs : List Lexeme} {ks : List TokenKind}

theorem Spells.skip (hx : x.token? = .ok none) (h : Spells xs ks) : Spells (x :: xs) ks := by
  obtain ⟨ts, hts, hkinds⟩ := h
  exact ⟨ts, by rw [all_cons, hx, hts]; rfl, hkinds⟩

theorem Spells.cons {t : Token} (hx : x.token? = .ok (some t)) (h : Spells xs ks) : Spells (x :: xs) (t.kind :: ks) := by
  obtain ⟨ts, hts, hkinds⟩ := h
  exact ⟨t :: ts, by rw [all_cons, hx, hts]; rfl, by rw [List.map_cons, hkinds]⟩

end TokenStream

/-! ## What is written is read -/

namespace TokenKind

/-- A text that is read as one token if a blank or the end comes behind it. -/
def ReadFrom (k : TokenKind) (text : String) : Prop :=
  ∃ kind, (∀ span, Lexeme.token? ⟨kind, text, span⟩ = .ok (some ⟨k, span⟩)) ∧
    (∃ c cs, text.toList = c :: cs ∧ CharClass.of c ≠ .whitespace) ∧
    ∀ rest : List Glyph, (∀ g ∈ rest.head?, g.char = ' ') → Scanner.Cuts kind (text.toList.map .ofChar) rest

theorem readFrom_of_run {k : TokenKind} {text : String} {c : Char} {cs : List Char} {m m' : Mode}
    (htext : text.toList = c :: cs) (hopening : Mode.opening c = .run m) (hclass : CharClass.of c ≠ .whitespace)
    (hfollow : m.follow cs = some m') (hpast : m'.move ' ' = .past)
    (htoken : ∀ span, Lexeme.token? ⟨m'.kind, text, span⟩ = .ok (some ⟨k, span⟩)) : k.ReadFrom text := by
  refine ⟨m'.kind, htoken, ⟨c, cs, htext, hclass⟩, fun rest hrest => ?_⟩
  rw [htext]
  refine Scanner.cuts_run hopening (by rwa [Glyph.map_char]) fun g hg => ?_
  rw [hrest g hg]
  exact hpast

theorem readFrom_of_name {k : TokenKind} {text : String} (h : IsName text)
    (htoken : ∀ span, Lexeme.token? ⟨.identifier, text, span⟩ = .ok (some ⟨k, span⟩)) : k.ReadFrom text := by
  obtain ⟨c, cs, htext, hc, hcs⟩ := h
  have hfollow : Mode.identifier.follow cs = some .identifier := by
    refine Mode.follow_of_loop fun d hd => ?_
    unfold Mode.move
    rcases hcs d hd with hclass | hclass <;> rw [hclass]
  refine readFrom_of_run htext ?_ (by rw [hc]; decide) hfollow (by decide) htoken
  rw [Mode.opening, hc]

theorem readFrom_identifier {name : String} (h : (TokenKind.identifier name).Writable) :
    (TokenKind.identifier name).ReadFrom name := by
  have hkeyword : Keyword.ofText? name = none :=
    List.find?_eq_none.2 fun k _ => by simpa using h.2 k
  exact readFrom_of_name h.1 fun span => by simp [Lexeme.token?, hkeyword]

theorem readFrom_keyword (k : Keyword) : (TokenKind.keyword k).ReadFrom k.text := by
  have hname : IsName k.text := by
    cases k <;> exact isName_of_all rfl (by decide) (by decide)
  have hkeyword : Keyword.ofText? k.text = some k := by cases k <;> decide
  exact readFrom_of_name hname fun span => by simp [Lexeme.token?, hkeyword]

theorem readFrom_operator (o : Operator) : (TokenKind.operator o).ReadFrom o.text := by
  cases o <;> exact readFrom_of_run rfl rfl (by decide) rfl (by decide) fun span => rfl

theorem readFrom_number (n : Int64) : (TokenKind.number n).ReadFrom (Decimal.ofInt64 n) := by
  have htoken : ∀ span, Lexeme.token? ⟨.number, Decimal.ofInt64 n, span⟩ = .ok (some ⟨.number n, span⟩) :=
    fun span => by simp [Lexeme.token?, Decimal.readInt64?_ofInt64]
  have hdigit : ∀ c ∈ Nat.toDigits 10 n.toInt.natAbs, CharClass.of c = .digit :=
    fun c hc => if_pos (Decimal.bounds_of_isDigit (Decimal.isDigit_toDigits hc))
  have hfollow : ∀ cs : List Char, (∀ c ∈ cs, CharClass.of c = .digit) → Mode.number.follow cs = some .number := by
    refine fun cs hcs => Mode.follow_of_loop fun d hd => ?_
    unfold Mode.move
    rw [hcs d hd]
  obtain ⟨c, cs, hdigits⟩ := List.exists_cons_of_ne_nil (Nat.toDigits_ne_nil (n := n.toInt.natAbs) (b := 10))
  rw [hdigits, List.forall_mem_cons] at hdigit
  rcases Decimal.ofInt_cases n.toInt with ⟨-, htext⟩ | ⟨-, htext⟩
  · rw [hdigits] at htext
    have hminus : Mode.minus.follow (c :: cs) = some .number := by
      have hmove : Mode.minus.move c = .more .number := by unfold Mode.move; rw [hdigit.1]
      rw [Mode.follow, hmove]
      exact hfollow cs hdigit.2
    exact readFrom_of_run htext rfl (by decide) hminus (by decide) htoken
  · rw [hdigits] at htext
    refine readFrom_of_run htext ?_ (by rw [hdigit.1]; decide) (hfollow cs hdigit.2) (by decide) htoken
    rw [Mode.opening, hdigit.1]

theorem readFrom_string (s : String) {quote : Char} (hquote : quote = '\'' ∨ quote = '"') (h : quote ∉ s.toList) :
    (TokenKind.string s).ReadFrom (String.ofList (quote :: (s.toList ++ [quote]))) := by
  have hclass : CharClass.of quote = .quote := by rcases hquote with rfl | rfl <;> decide
  refine ⟨.string, fun span => ?_, ⟨quote, s.toList ++ [quote], String.toList_ofList, by rw [hclass]; decide⟩,
    fun rest _ => ?_⟩
  · simp [Lexeme.token?, Lexeme.unquote]
  · rw [String.toList_ofList, List.map_cons, List.map_append]
    have hopening : Mode.opening quote = .run (.string quote) := by rw [Mode.opening, hclass]
    refine Scanner.cuts_quoted hopening fun x hx => ?_
    obtain ⟨c, hc, rfl⟩ := List.mem_map.1 hx
    intro hquoted
    have hsame : c = quote := hquoted
    exact h (hsame ▸ hc)

theorem readFrom_delimiter (d : Delimiter) : (TokenKind.delimiter d).ReadFrom d.text := by
  cases d <;> exact ⟨.delimiter, fun span => rfl, ⟨_, _, rfl, by decide⟩, fun rest _ => Scanner.cuts_single rfl rest⟩

theorem ReadFrom.head_intercalate {k : TokenKind} {text : String} (h : k.ReadFrom text) (texts : List String) :
    ∀ g ∈ ((" ".intercalate (text :: texts)).toList.map Glyph.ofChar).head?, CharClass.of g.char ≠ .whitespace := by
  obtain ⟨-, -, ⟨c, cs, htext, hc⟩, -⟩ := h
  have hhead : ∃ rest, (" ".intercalate (text :: texts)).toList = c :: rest := by
    cases texts with
    | nil => exact ⟨cs, by rw [String.intercalate_singleton, htext]⟩
    | cons text' texts =>
      rw [String.intercalate_cons_cons, String.toList_append, String.toList_append, htext]
      exact ⟨_, rfl⟩
  obtain ⟨rest, hrest⟩ := hhead
  rw [hrest]
  rintro g ⟨⟩
  exact hc

theorem readFrom_of_rendered {k : TokenKind} {text : String} (hk : k.Writable) (h : k.Rendered text) : k.ReadFrom text := by
  cases h with
  | keyword k => exact readFrom_keyword k
  | identifier name => exact readFrom_identifier hk
  | operator o => exact readFrom_operator o
  | number n => exact readFrom_number n
  | string s hquote h => exact readFrom_string s hquote h
  | delimiter d => exact readFrom_delimiter d

theorem exists_renderedAll : ∀ {ks : List TokenKind}, (∀ k ∈ ks, k.Writable) → ∃ texts, List.Forall₂ Rendered ks texts
  | [], _ => ⟨[], .nil⟩
  | k :: ks, h => by
    rw [List.forall_mem_cons] at h
    obtain ⟨text, htext⟩ := exists_rendered h.1
    obtain ⟨texts, htexts⟩ := exists_renderedAll h.2
    exact ⟨text :: texts, .cons htext htexts⟩

theorem readFrom_renderedAll {ks : List TokenKind} {texts : List String} (h : ∀ k ∈ ks, k.Writable)
    (htexts : List.Forall₂ Rendered ks texts) : List.Forall₂ ReadFrom ks texts := by
  induction htexts with
  | nil => exact .nil
  | cons htext _ ih =>
    rw [List.forall_mem_cons] at h
    exact .cons (readFrom_of_rendered h.1 htext) (ih h.2)

end TokenKind

namespace TokenStream

theorem spells_rendered {ks : List TokenKind} {texts : List String} (h : List.Forall₂ TokenKind.ReadFrom ks texts) :
    ∀ here, Spells ((⟨none, here⟩ : Scanner).lexemes ((" ".intercalate texts).toList.map .ofChar)) ks := by
  induction h with
  | nil => exact fun here => Spells.skip rfl ⟨[], by rw [ofLexemes_nil]; rfl, rfl⟩
  | @cons k text ks texts hk hks ih =>
    intro here
    obtain ⟨kind, htoken, -, hcuts⟩ := hk
    cases hks with
    | nil =>
      obtain ⟨span, here', hlexemes⟩ := hcuts [] (by simp) here
      rw [List.append_nil, Glyph.text_ofChar] at hlexemes
      rw [String.intercalate_singleton, hlexemes]
      exact Spells.cons (htoken span) (ih here')
    | @cons k' text' ks texts hk' hks =>
      have hsplit : (" ".intercalate (text :: text' :: texts)).toList.map Glyph.ofChar =
          text.toList.map .ofChar ++ ([.ofChar ' '] ++ (" ".intercalate (text' :: texts)).toList.map .ofChar) := by
        rw [String.intercalate_cons_cons]
        simp
      obtain ⟨span, here₁, hlexemes⟩ := hcuts ([.ofChar ' '] ++ (" ".intercalate (text' :: texts)).toList.map .ofChar)
        (by rintro g ⟨⟩; rfl) here
      obtain ⟨span', here₂, hblank⟩ := Scanner.cuts_blank (hk'.head_intercalate texts) here₁
      rw [Glyph.text_ofChar] at hlexemes
      rw [hsplit, hlexemes, hblank]
      exact Spells.cons (htoken span) (Spells.skip rfl (ih here₂))

end TokenStream

/-- **What is written is read.**  Tokens that can be written, each in some way and with a blank between any two, are read
back as they were, whatever pieces the bytes come in and whether or not comments are kept.  And each can be written. -/
theorem TokenStream.all_rendered {ks : List TokenKind} (h : ∀ k ∈ ks, k.Writable) :
    (∃ texts, List.Forall₂ TokenKind.Rendered ks texts) ∧
      ∀ texts, List.Forall₂ TokenKind.Rendered ks texts → ∀ keepComments chunks,
        chunks.flatten = Utf8.bytes (" ".intercalate texts) →
          ∃ tokens, (ofLexemes (Lexeme.ofChunks keepComments chunks)).all = .ok tokens ∧ tokens.map Token.kind = ks := by
  refine ⟨TokenKind.exists_renderedAll h, fun texts htexts keepComments chunks hchunks => ?_⟩
  rw [Lexeme.ofChunks_eq, all_filter, hchunks, Utf8.decode_bytes]
  exact spells_rendered (TokenKind.readFrom_renderedAll h htexts) Position.start

/-- A minus sign, the least number, a negative number behind an operator, a name that begins like a keyword and the
keyword, and a text that holds a quote, a comment and a line end. -/
def TokenKind.tricky : List TokenKind :=
  [.operator .minus, .number Int64.minValue, .operator .ltEq, .number (-1), .identifier "ends", .keyword .endKw,
    .string "it's # a\nline", .delimiter .lparen]

theorem TokenStream.all_tricky : (∀ k ∈ TokenKind.tricky, k.Writable) ∧
    ∃ tokens, (ofLexemes (Lexeme.ofChunks false
        [Utf8.bytes "- -9223372036854775808 <= -1 ends end \"it's # a\nline\" ("])).all = .ok tokens ∧
      tokens.map Token.kind = TokenKind.tricky := by
  have hname : TokenKind.IsName "ends" := TokenKind.isName_of_all rfl (by decide) (by decide)
  have hkeyword : ∀ k : Keyword, k.text ≠ "ends" := by intro k; cases k <;> decide
  have hwritable : ∀ k ∈ TokenKind.tricky, k.Writable := by
    simp [TokenKind.tricky, TokenKind.Writable, hname, hkeyword]
  have htexts : List.Forall₂ TokenKind.Rendered TokenKind.tricky
      ["-", "-9223372036854775808", "<=", "-1", "ends", "end", "\"it's # a\nline\"", "("] :=
    .cons (.operator .minus) <| .cons (.number Int64.minValue) <| .cons (.operator .ltEq) <| .cons (.number (-1)) <|
      .cons (.identifier "ends") <| .cons (.keyword .endKw) <| .cons (.string _ (.inr rfl) (by decide)) <|
      .cons (.delimiter .lparen) .nil
  refine ⟨hwritable, (all_rendered hwritable).2 _ htexts false _ ?_⟩
  rw [List.flatten_singleton]
  exact congrArg Utf8.bytes (by decide)

end QuillLang
