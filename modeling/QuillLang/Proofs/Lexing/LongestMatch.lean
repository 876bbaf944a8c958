import QuillLang.Proofs.Lexing.Rendered
/-!
# The scanner takes the longest match

What a lexeme may look like is said by a grammar of one line for each kind (`Lexeme.Match`).  At every place of the input
the longest text that fits is taken, and a single character if none does (`Lexeme.Taken`); taken one after the other, these
are the lexemes (`Lexeme.Munches`).  The scanner reads one character at a time and never looks ahead or goes back, and comes
to the same (`Lexeme.ofChunks_munches`).

What it has read of a lexeme says how the lexeme may still go on (`Mode.Reads`).  So whenever a character lies past the
lexeme at hand, no longer text would have fitted.
-/
namespace QuillLang

/-! ## Characters -/

namespace CharClass

def Has : CharClass → Char → Prop
  | letter, c => Letter.isLetter c = true ∨ c = '_'
  | digit, c => '0' ≤ c ∧ c ≤ '9'
  | whitespace, c => c = ' ' ∨ c = '\t'
  | linefeed, c => c = '\n'
  | quote, c => c = '\'' ∨ c = '"'
  | operator, c => c ∈ ['+', '-', '*', '/', '=', '<', '>', '%', '!']
  | hash, c => c = '#'
  | delimiter, c => c ∈ ['[', ']', '(', ')']
  | other, _ => False

theorem of_isLetter {c : Char} (h : Letter.isLetter c = true ∨ c = '_') : of c = .letter := by
  have hnot : ∀ d, Letter.isLetter d = false → d ≠ '_' → c ≠ d := by
    rintro d hd hline rfl
    rcases h with h | h
    · rw [hd] at h
      cases h
    · exact hline h
  have hdigit : ¬('0' ≤ c ∧ c ≤ '9') := by
    rintro ⟨hlow, hhigh⟩
    simp only [Char.le_def, UInt32.le_iff_toNat_le] at hlow hhigh
    rcases h with h | rfl
    · have hascii : c.toNat < 0x80 := Nat.lt_of_le_of_lt hhigh (by decide)
      simp only [Letter.isLetter, if_pos hascii, Letter.isAsciiLetter, Char.le_def, UInt32.le_iff_toNat_le,
        Bool.or_eq_true, Bool.and_eq_true, decide_eq_true_eq] at h
      have hvalues : 'a'.val.toNat = 97 ∧ 'z'.val.toNat = 122 ∧ 'A'.val.toNat = 65 ∧ '9'.val.toNat = 57 := by decide
      omega
    · exact absurd hhigh (by decide)
  unfold of
  rw [if_neg hdigit, if_neg (not_or.2 ⟨hnot _ rfl (by decide), hnot _ rfl (by decide)⟩), if_neg (hnot _ rfl (by decide)),
    if_neg (not_or.2 ⟨hnot _ rfl (by decide), hnot _ rfl (by decide)⟩)]
  have hoperator : ¬isOperatorChar c = true := by
    simp only [isOperatorChar, decide_eq_true_eq, List.mem_cons, List.not_mem_nil, or_false, not_or]
    refine ⟨?_, ?_, ?_, ?_, ?_, ?_, ?_, ?_, ?_⟩ <;> exact hnot _ rfl (by decide)
  have hdelimiter : ¬c ∈ ['[', ']', '(', ')'] := by
    simp only [List.mem_cons, List.not_mem_nil, or_false, not_or]
    refine ⟨?_, ?_, ?_, ?_⟩ <;> exact hnot _ rfl (by decide)
  rw [if_neg hoperator, if_neg (hnot _ rfl (by decide)), if_neg hdelimiter, if_pos h]

theorem has_iff {k : CharClass} {c : Char} (hk : k ≠ .other) : k.Has c ↔ of c = k := by
  constructor
  · intro h
    cases k with
    | letter => exact of_isLetter h
    | digit => exact if_pos h
    | whitespace => rcases h with rfl | rfl <;> decide
    | linefeed => cases h; decide
    | quote => rcases h with rfl | rfl <;> decide
    | operator =>
      have hall : ['+', '-', '*', '/', '=', '<', '>', '%', '!'].all (fun d => of d = .operator) = true := by decide
      exact of_decide_eq_true (List.all_eq_true.1 hall c h)
    | hash => cases h; decide
    | delimiter =>
      have hall : ['[', ']', '(', ')'].all (fun d => of d = .delimiter) = true := by decide
      exact of_decide_eq_true (List.all_eq_true.1 hall c h)
    | other => exact absurd rfl hk
  · rintro rfl
    unfold of at hk ⊢
    repeat' split
    all_goals first
      | assumption
      | simp_all [Has, isOperatorChar]

end CharClass

/-! ## The grammar -/

namespace Lexeme

/-- A text that fits a kind of lexeme, where `rest` comes behind it. -/
inductive Match : LexemeKind → List Char → List Char → Prop where
  | identifier {c : Char} {cs rest : List Char} (hc : CharClass.letter.Has c)
    (hcs : ∀ d ∈ cs, CharClass.letter.Has d ∨ CharClass.digit.Has d) : Match .identifier (c :: cs) rest
  | number {sign cs rest : List Char} (hsign : sign = [] ∨ sign = ['-']) (hcs : cs ≠ [])
    (hdigits : ∀ c ∈ cs, CharClass.digit.Has c) : Match .number (sign ++ cs) rest
  | whitespace {cs rest : List Char} (hcs : cs ≠ []) (h : ∀ c ∈ cs, CharClass.whitespace.Has c) : Match .whitespace cs rest
  | linefeed {rest : List Char} : Match .linefeed ['\n'] rest
  | operator {cs rest : List Char} (hcs : cs ≠ []) (h : ∀ c ∈ cs, CharClass.operator.Has c) : Match .operator cs rest
  | delimiter {c : Char} {rest : List Char} (hc : CharClass.delimiter.Has c) : Match .delimiter [c] rest
  /-- A comment goes to the end of its line. -/
  | comment {cs rest : List Char} (hcs : '\n' ∉ cs) (hrest : rest = [] ∨ rest.head? = some '\n') :
    Match .comment ('#' :: cs) rest
  | closed {q : Char} {cs rest : List Char} (hq : CharClass.quote.Has q) (hcs : q ∉ cs) :
    Match .string (q :: (cs ++ [q])) rest
  /-- A text that is not closed goes to the end of the input. -/
  | unclosed {q : Char} {cs : List Char} (hq : CharClass.quote.Has q) (hcs : q ∉ cs) : Match .string (q :: cs) []

/-- What is taken at a place: the longest text that fits, or one character if none does. -/
inductive Taken : LexemeKind → List Char → List Char → Prop where
  | longest {kind : LexemeKind} {text rest : List Char} (h : Match kind text rest)
    (hlongest : ∀ kind' text' rest', text' ++ rest' = text ++ rest → Match kind' text' rest' →
      text'.length ≤ text.length) : Taken kind text rest
  | unknown {c : Char} {rest : List Char} (h : ∀ kind text rest', text ++ rest' = c :: rest → ¬Match kind text rest') :
    Taken .unknown [c] rest

inductive Munches : List Char → List (LexemeKind × String) → Prop where
  | nil : Munches [] []
  | cons {kind : LexemeKind} {text rest : List Char} {xs : List (LexemeKind × String)} (h : Taken kind text rest)
    (hrest : Munches rest xs) : Munches (text ++ rest) ((kind, String.ofList text) :: xs)

def view (x : Lexeme) : LexemeKind × String := (x.kind, x.text)

end Lexeme

/-! ## One way to take

The first character of a text says what kind it can be, a minus sign apart.
-/

def CharClass.begins : CharClass → List LexemeKind
  | letter => [.identifier]
  | digit => [.number]
  | whitespace => [.whitespace]
  | linefeed => [.linefeed]
  | quote => [.string]
  | operator => [.operator, .number]
  | hash => [.comment]
  | delimiter => [.delimiter]
  | other => []

namespace Lexeme
open CharClass (has_iff)

namespace Match
variable {kind : LexemeKind} {text rest : List Char}

theorem head (h : Match kind text rest) : ∃ c cs, text = c :: cs ∧ kind ∈ (CharClass.of c).begins := by
  cases h with
  | identifier hc _ => exact ⟨_, _, rfl, by rw [(has_iff (by decide)).1 hc]; decide⟩
  | @number sign cs _ hsign hcs hdigits =>
    rcases hsign with rfl | rfl
    · obtain ⟨c, cs, rfl⟩ := List.exists_cons_of_ne_nil hcs
      exact ⟨c, cs, rfl, by rw [(has_iff (by decide)).1 (hdigits c List.mem_cons_self)]; decide⟩
    · exact ⟨'-', cs, rfl, by decide⟩
  | whitespace hcs h =>
    obtain ⟨c, cs, rfl⟩ := List.exists_cons_of_ne_nil hcs
    exact ⟨c, cs, rfl, by rw [(has_iff (by decide)).1 (h c List.mem_cons_self)]; decide⟩
  | linefeed => exact ⟨'\n', [], rfl, by decide⟩
  | operator hcs h =>
    obtain ⟨c, cs, rfl⟩ := List.exists_cons_of_ne_nil hcs
    exact ⟨c, cs, rfl, by rw [(has_iff (by decide)).1 (h c List.mem_cons_self)]; decide⟩
  | delimiter hc => exact ⟨_, [], rfl, by rw [(has_iff (by decide)).1 hc]; decide⟩
  | comment _ _ => exact ⟨'#', _, rfl, by decide⟩
  | closed hq _ => exact ⟨_, _, rfl, by rw [(has_iff (by decide)).1 hq]; decide⟩
  | unclosed hq _ => exact ⟨_, _, rfl, by rw [(has_iff (by decide)).1 hq]; decide⟩

theorem of_whitespace (h : Match .whitespace text rest) : ∀ c ∈ text, CharClass.of c = .whitespace := by
  cases h with
  | whitespace _ h => exact fun c hc => (has_iff (by decide)).1 (h c hc)

theorem of_operator (h : Match .operator text rest) : ∀ c ∈ text, CharClass.of c = .operator := by
  cases h with
  | operator _ h => exact fun c hc => (has_iff (by decide)).1 (h c hc)

theorem of_identifier (h : Match .identifier text rest) :
    ∀ c ∈ text.tail, CharClass.of c = .letter ∨ CharClass.of c = .digit := by
  cases h with
  | identifier _ hcs => exact fun c hc => (hcs c hc).imp (has_iff (by decide)).1 (has_iff (by decide)).1

theorem of_number (h : Match .number text rest) :
    (∀ c ∈ text.head?, c = '-' ∨ CharClass.of c = .digit) ∧ (∀ c ∈ text.tail, CharClass.of c = .digit) ∧
      ∃ c ∈ text, CharClass.of c = .digit := by
  cases h with
  | @number sign cs _ hsign hcs hdigits =>
    have hof : ∀ c ∈ cs, CharClass.of c = .digit := fun c hc => (has_iff (by decide)).1 (hdigits c hc)
    obtain ⟨d, hd⟩ := List.exists_mem_of_ne_nil cs hcs
    have hdigit : ∃ c ∈ sign ++ cs, CharClass.of c = .digit := ⟨d, List.mem_append_right sign hd, hof d hd⟩
    rcases hsign with rfl | rfl
    · exact ⟨fun c hc => .inr (hof c (List.mem_of_mem_head? hc)), fun c hc => hof c (List.mem_of_mem_tail hc), hdigit⟩
    · exact ⟨fun c hc => .inl (Option.mem_some.1 hc).symm, hof, hdigit⟩

theorem of_comment (h : Match .comment text rest) : '\n' ∉ text.tail := by
  cases h with
  | comment hcs _ => exact hcs

theorem of_string (h : Match .string text rest) : ∀ q ∈ text.head?, q ∉ text.tail.dropLast := by
  cases h with
  | closed _ hcs =>
    rintro q ⟨⟩
    rwa [List.tail_cons, List.dropLast_concat]
  | unclosed _ hcs =>
    rintro q ⟨⟩
    exact fun hmem => hcs (List.dropLast_subset _ hmem)

theorem number_ne_operator {rest' : List Char} (h : Match .number text rest) : ¬Match .operator text rest' := by
  intro h'
  obtain ⟨c, hc, hdigit⟩ := h.of_number.2.2
  rw [h'.of_operator c hc] at hdigit
  cases hdigit

theorem kind_unique {kind' : LexemeKind} (h : Match kind text rest) (h' : Match kind' text rest) : kind = kind' := by
  obtain ⟨c, cs, rfl, hkind⟩ := h.head
  obtain ⟨c', cs', hsame, hkind'⟩ := h'.head
  obtain ⟨rfl, rfl⟩ := List.cons.inj hsame
  cases hclass : CharClass.of c with
  | operator =>
    rw [hclass] at hkind hkind'
    simp only [CharClass.begins, List.mem_cons, List.not_mem_nil, or_false] at hkind hkind'
    rcases hkind with rfl | rfl <;> rcases hkind' with rfl | rfl
    · rfl
    · exact absurd h h'.number_ne_operator
    · exact absurd h' h.number_ne_operator
    · rfl
  | other =>
    rw [hclass] at hkind
    cases hkind
  | letter | digit | whitespace | linefeed | quote | hash | delimiter =>
    rw [hclass] at hkind hkind'
    exact (List.mem_singleton.1 hkind).trans (List.mem_singleton.1 hkind').symm

end Match

theorem Taken.unique {kind kind' : LexemeKind} {text text' rest rest' : List Char} (h : Taken kind text rest)
    (h' : Taken kind' text' rest') (hsame : text ++ rest = text' ++ rest') : kind = kind' ∧ text = text' ∧ rest = rest' := by
  cases h with
  | longest h hlongest =>
    cases h' with
    | longest h' hlongest' =>
      have hlength := Nat.le_antisymm (hlongest' _ _ _ hsame h) (hlongest _ _ _ hsame.symm h')
      obtain ⟨rfl, rfl⟩ := List.append_inj hsame hlength
      exact ⟨h.kind_unique h', rfl, rfl⟩
    | unknown hnone => exact absurd h (hnone _ _ _ hsame)
  | unknown hnone =>
    cases h' with
    | longest h' _ => exact absurd h' (hnone _ _ _ hsame.symm)
    | unknown _ =>
      obtain ⟨rfl, rfl⟩ := List.cons.inj hsame
      exact ⟨rfl, rfl, rfl⟩

theorem Taken.ne_nil {kind : LexemeKind} {text rest : List Char} (h : Taken kind text rest) : text ≠ [] := by
  cases h with
  | longest h _ =>
    obtain ⟨c, cs, rfl, -⟩ := h.head
    exact List.cons_ne_nil c cs
  | unknown _ => exact List.cons_ne_nil _ []

theorem Munches.unique {cs : List Char} {xs ys : List (LexemeKind × String)} (h : Munches cs xs) (h' : Munches cs ys) :
    xs = ys := by
  induction h generalizing ys with
  | nil =>
    generalize hcs : ([] : List Char) = cs at h'
    cases h' with
    | nil => rfl
    | cons htaken _ => exact absurd (List.append_eq_nil_iff.1 hcs.symm).1 htaken.ne_nil
  | @cons kind text rest xs htaken _ ih =>
    generalize hcs : text ++ rest = cs at h'
    cases h' with
    | nil => exact absurd (List.append_eq_nil_iff.1 hcs).1 htaken.ne_nil
    | cons htaken' hrest' =>
      obtain ⟨rfl, rfl, rfl⟩ := htaken.unique htaken' hcs
      rw [ih hrest']

theorem Munches.exists_taken {cs : List Char} {xs : List (LexemeKind × String)} (h : Munches cs xs)
    {x : LexemeKind × String} (hx : x ∈ xs) : ∃ rest, Taken x.1 x.2.toList rest := by
  induction h with
  | nil => cases hx
  | @cons kind text rest xs htaken _ ih =>
    rcases List.mem_cons.1 hx with rfl | hx
    · exact ⟨rest, by rwa [String.toList_ofList]⟩
    · exact ih hx

/-! ### Taken alone -/

theorem Match.anywhere {kind : LexemeKind} {text rest : List Char} (h : Match kind text rest) (hcomment : kind ≠ .comment)
    (hstring : kind ≠ .string) (rest' : List Char) : Match kind text rest' := by
  cases h with
  | identifier hc hcs => exact .identifier hc hcs
  | number hsign hcs hdigits => exact .number hsign hcs hdigits
  | whitespace hcs h => exact .whitespace hcs h
  | linefeed => exact .linefeed
  | operator hcs h => exact .operator hcs h
  | delimiter hc => exact .delimiter hc
  | comment _ _ => exact absurd rfl hcomment
  | closed _ _ | unclosed _ _ => exact absurd rfl hstring

theorem Match.alone {kind : LexemeKind} {text rest : List Char} (h : Match kind text rest) : Match kind text [] := by
  by_cases hcomment : kind = .comment
  · subst hcomment
    cases h with
    | comment hcs _ => exact .comment hcs (.inl rfl)
  by_cases hstring : kind = .string
  · subst hstring
    cases h with
    | closed hq hcs => exact .closed hq hcs
    | unclosed hq hcs => exact .unclosed hq hcs
  exact h.anywhere hcomment hstring []

/-- Where a character alone fits, something fits whatever comes behind it. -/
theorem Match.before {kind : LexemeKind} {c : Char} (h : Match kind [c] []) (rest : List Char) :
    ∃ kind' text rest', text ++ rest' = c :: rest ∧ Match kind' text rest' := by
  by_cases hcomment : kind = .comment
  · subst hcomment
    cases h with
    | comment _ _ =>
      by_cases hmem : '\n' ∈ rest
      · obtain ⟨cs, rest', rfl, hfirst⟩ := List.eq_append_cons_of_mem hmem
        exact ⟨.comment, '#' :: cs, '\n' :: rest', rfl, .comment hfirst (.inr rfl)⟩
      · exact ⟨.comment, '#' :: rest, [], List.append_nil _, .comment hmem (.inl rfl)⟩
  by_cases hstring : kind = .string
  · subst hstring
    have hq : CharClass.quote.Has c := by
      generalize htext : [c] = text at h
      cases h with
      | closed hq _ => rwa [(List.cons.inj htext).1]
      | unclosed hq _ => rwa [(List.cons.inj htext).1]
    by_cases hmem : c ∈ rest
    · obtain ⟨cs, rest', rfl, hfirst⟩ := List.eq_append_cons_of_mem hmem
      exact ⟨.string, c :: (cs ++ [c]), rest', by simp, .closed hq hfirst⟩
    · exact ⟨.string, c :: rest, [], List.append_nil _, .unclosed hq hmem⟩
  exact ⟨kind, [c], rest, rfl, h.anywhere hcomment hstring rest⟩

/-- What is taken somewhere is taken as a whole where nothing else stands. -/
theorem Taken.alone {kind : LexemeKind} {text rest : List Char} (h : Taken kind text rest) : Taken kind text [] := by
  cases h with
  | longest h _ =>
    refine .longest h.alone fun kind' text' rest' hsame _ => ?_
    have hlength := congrArg List.length hsame
    rw [List.length_append, List.append_nil] at hlength
    omega
  | unknown hnone =>
    refine .unknown fun kind' text' rest' hsame hmatch => ?_
    obtain ⟨c', cs', rfl, -⟩ := hmatch.head
    obtain ⟨rfl, hnil⟩ := List.cons.inj hsame
    obtain ⟨rfl, rfl⟩ := List.append_eq_nil_iff.1 hnil
    obtain ⟨kind, text, rest, hsame, hmatch⟩ := hmatch.before _
    exact hnone _ _ _ hsame hmatch

theorem Taken.munches {kind : LexemeKind} {text : String} {rest : List Char} (h : Taken kind text.toList rest) :
    Munches text.toList [(kind, text)] := by
  have hmunches := Munches.cons h.alone .nil
  rwa [List.append_nil, String.ofList_toList] at hmunches

end Lexeme

/-! ## What has been read -/

/-- The texts that can be at hand in a mode. -/
inductive Mode.Reads : Mode → List Char → Prop where
  | whitespace {cs : List Char} (hcs : cs ≠ []) (h : ∀ c ∈ cs, CharClass.of c = .whitespace) : Reads .whitespace cs
  | identifier {c : Char} {cs : List Char} (hc : CharClass.of c = .letter)
    (hcs : ∀ d ∈ cs, CharClass.of d = .letter ∨ CharClass.of d = .digit) : Reads .identifier (c :: cs)
  | number {sign cs : List Char} (hsign : sign = [] ∨ sign = ['-']) (hcs : cs ≠ [])
    (hdigits : ∀ c ∈ cs, CharClass.of c = .digit) : Reads .number (sign ++ cs)
  | minus : Reads .minus ['-']
  | operator {cs : List Char} (hcs : cs ≠ []) (hminus : cs ≠ ['-']) (h : ∀ c ∈ cs, CharClass.of c = .operator) :
    Reads .operator cs
  | string {q : Char} {cs : List Char} (hq : CharClass.of q = .quote) (hcs : q ∉ cs) : Reads (.string q) (q :: cs)
  | comment {cs : List Char} (hcs : '\n' ∉ cs) : Reads .comment ('#' :: cs)

namespace Mode
open CharClass (has_iff)
open Lexeme (Match Taken)

theorem reads_opening {c : Char} {m : Mode} (h : opening c = .run m) : Reads m [c] := by
  unfold opening at h
  cases hclass : CharClass.of c with
  | letter =>
    rw [hclass] at h
    cases h
    exact .identifier hclass (by simp)
  | digit =>
    rw [hclass] at h
    cases h
    have hdigit : Reads .number ([] ++ [c]) := .number (.inl rfl) (by simp) (by simpa using hclass)
    exact hdigit
  | whitespace =>
    rw [hclass] at h
    cases h
    exact .whitespace (by simp) (by simpa using hclass)
  | quote =>
    rw [hclass] at h
    cases h
    exact .string hclass (by simp)
  | operator =>
    rw [hclass] at h
    cases h
    split
    · rename_i hminus
      rw [hminus]
      exact .minus
    · rename_i hminus
      exact .operator (by simp) (by simpa using hminus) (by simpa using hclass)
  | hash =>
    rw [hclass] at h
    cases h
    rw [← has_iff (by decide)] at hclass
    rw [show c = '#' from hclass]
    exact .comment (by simp)
  | linefeed | delimiter | other =>
    rw [hclass] at h
    cases h

theorem Reads.more {m m' : Mode} {text : List Char} {c : Char} (h : Reads m text) (hmove : m.move c = .more m') :
    Reads m' (text ++ [c]) := by
  have hboth : ∀ {P : Char → Prop} {cs : List Char}, (∀ d ∈ cs, P d) → P c → ∀ d ∈ cs ++ [c], P d :=
    fun hcs hc => List.forall_mem_append.2 ⟨hcs, List.forall_mem_singleton.2 hc⟩
  cases h with
  | whitespace hcs h =>
    unfold move at hmove
    cases hclass : CharClass.of c <;> rw [hclass] at hmove <;> cases hmove
    exact .whitespace (by simp) (hboth h hclass)
  | identifier hc hcs =>
    unfold move at hmove
    cases hclass : CharClass.of c <;> rw [hclass] at hmove <;> cases hmove
    · exact .identifier hc (hboth hcs (.inl hclass))
    · exact .identifier hc (hboth hcs (.inr hclass))
  | number hsign hcs hdigits =>
    unfold move at hmove
    cases hclass : CharClass.of c <;> rw [hclass] at hmove <;> cases hmove
    rw [List.append_assoc]
    exact .number hsign (by simp) (hboth hdigits hclass)
  | minus =>
    unfold move at hmove
    cases hclass : CharClass.of c <;> rw [hclass] at hmove <;> cases hmove
    · exact .number (.inr rfl) (by simp) (by simpa using hclass)
    · exact .operator (by simp) (by simp) (hboth (List.forall_mem_singleton.2 rfl) hclass)
  | operator hcs _ h =>
    unfold move at hmove
    cases hclass : CharClass.of c <;> rw [hclass] at hmove <;> cases hmove
    refine .operator (by simp) (fun hone => ?_) (hboth h hclass)
    have hlength := congrArg List.length hone
    have hpos := List.length_pos_iff.2 hcs
    simp only [List.length_append, List.length_singleton] at hlength
    omega
  | string hq hcs =>
    rw [move_string] at hmove
    split at hmove
    · cases hmove
    · rename_i hne
      cases hmove
      exact .string hq (by simp [hcs, Ne.symm hne])
  | comment hcs =>
    have hline : '\n' ≠ c := by
      rintro rfl
      cases hmove
    unfold move at hmove
    cases hclass : CharClass.of c <;> rw [hclass] at hmove <;> cases hmove
    all_goals exact .comment (by simp [hcs, hline])

theorem Reads.fits {m : Mode} {text : List Char} (h : Reads m text) : Match m.kind text [] := by
  cases h with
  | whitespace hcs h => exact .whitespace hcs fun c hc => (has_iff (by decide)).2 (h c hc)
  | identifier hc hcs =>
    exact .identifier ((has_iff (by decide)).2 hc) fun d hd =>
      (hcs d hd).imp (has_iff (by decide)).2 (has_iff (by decide)).2
  | number hsign hcs hdigits => exact .number hsign hcs fun c hc => (has_iff (by decide)).2 (hdigits c hc)
  | minus => exact .operator (by simp) (List.forall_mem_singleton.2 ((has_iff (by decide)).2 rfl))
  | operator hcs _ h => exact .operator hcs fun c hc => (has_iff (by decide)).2 (h c hc)
  | string hq hcs => exact .unclosed ((has_iff (by decide)).2 hq) hcs
  | comment hcs => exact .comment hcs (.inl rfl)

theorem move_comment {c : Char} (h : Mode.comment.move c = .past) : c = '\n' := by
  have hclass : CharClass.of c = .linefeed := by
    unfold move at h
    cases hclass : CharClass.of c <;> rw [hclass] at h <;> first | rfl | cases h
  exact (has_iff (by decide)).2 hclass

theorem move_string_ne_past (q c : Char) : (Mode.string q).move c ≠ .past := by
  rw [move_string]
  split <;> simp

theorem Reads.match_past {m : Mode} {text rest : List Char} (h : Reads m text) (hrest : ∀ c ∈ rest.head?, m.move c = .past) :
    Match m.kind text rest := by
  cases rest with
  | nil => exact h.fits
  | cons c rest =>
    have hpast := hrest c rfl
    have hfits := h.fits
    cases h with
    | string => exact absurd hpast (move_string_ne_past _ c)
    | comment hcs => exact .comment hcs (.inr (by rw [move_comment hpast]; rfl))
    | whitespace | identifier | number | minus | operator => exact hfits.anywhere (by decide) (by decide) _

theorem Reads.ne_past {m : Mode} {kind : LexemeKind} {text more rest : List Char} {c : Char} (h : Reads m text)
    (hlonger : Match kind (text ++ c :: more) rest) : m.move c ≠ .past := by
  have hfits := h.fits
  obtain ⟨d, ds, rfl, hkind⟩ := hfits.head
  obtain ⟨d', ds', hsame, hkind'⟩ := hlonger.head
  obtain ⟨rfl, rfl⟩ := List.cons.inj hsame
  rw [List.cons_append] at hlonger
  -- the next character stands behind the first
  have htail : c ∈ (d :: (ds ++ c :: more)).tail := List.mem_append_right ds List.mem_cons_self
  have hmem : c ∈ d :: (ds ++ c :: more) := List.mem_of_mem_tail htail
  have hnumeric : m.kind = .operator ∨ m.kind = .number → kind = .operator ∨ kind = .number := by
    rintro (hm | hm) <;> rw [hm] at hkind
    all_goals cases hclass : CharClass.of d <;> rw [hclass] at hkind hkind' <;> simp_all [CharClass.begins]
  cases m with
  | whitespace =>
    rw [hfits.of_whitespace d List.mem_cons_self] at hkind'
    cases List.mem_singleton.1 hkind'
    unfold move
    rw [hlonger.of_whitespace c hmem]
    exact nofun
  | identifier =>
    have hclass : CharClass.of d = .letter := by
      cases h with
      | identifier hc _ => exact hc
    rw [hclass] at hkind'
    cases List.mem_singleton.1 hkind'
    unfold move
    rcases hlonger.of_identifier c htail with hclass | hclass <;> rw [hclass] <;> exact nofun
  | number =>
    rcases hnumeric (.inr rfl) with rfl | rfl
    · obtain ⟨x, hx, hdigit⟩ := hfits.of_number.2.2
      rw [hlonger.of_operator x (List.mem_append_left (c :: more) hx)] at hdigit
      cases hdigit
    · unfold move
      rw [hlonger.of_number.2.1 c htail]
      exact nofun
  | minus =>
    unfold move
    rcases hnumeric (.inl rfl) with rfl | rfl
    · rw [hlonger.of_operator c hmem]
      exact nofun
    · rw [hlonger.of_number.2.1 c htail]
      exact nofun
  | operator =>
    rcases hnumeric (.inl rfl) with rfl | rfl
    · unfold move
      rw [hlonger.of_operator c hmem]
      exact nofun
    · -- operators that begin a number are one minus sign, which has a mode of its own
      have hone : ds = [] := by
        cases ds with
        | nil => rfl
        | cons x ds =>
          have hdigit := hlonger.of_number.2.1 x List.mem_cons_self
          rw [hfits.of_operator x (List.mem_cons_of_mem d List.mem_cons_self)] at hdigit
          cases hdigit
      rcases hlonger.of_number.1 d rfl with rfl | hdigit
      · cases h with
        | operator _ hminus _ => exact absurd (by rw [hone]) hminus
      · rw [hfits.of_operator d List.mem_cons_self] at hdigit
        cases hdigit
  | string q => exact move_string_ne_past q c
  | comment =>
    have hhash : d = '#' := by
      cases h with
      | comment _ => rfl
    subst hhash
    cases List.mem_singleton.1 hkind'
    intro hpast
    cases move_comment hpast
    exact hlonger.of_comment htail

/-- What is at hand is taken if the next character lies past it, or none comes. -/
theorem Reads.taken_past {m : Mode} {text rest : List Char} (h : Reads m text)
    (hrest : ∀ c ∈ rest.head?, m.move c = .past) : Taken m.kind text rest := by
  refine .longest (h.match_past hrest) fun kind' text' rest' hsame hmatch => ?_
  rcases List.append_eq_append_iff.1 hsame with ⟨more, rfl, -⟩ | ⟨more, rfl, hrest'⟩
  · simp
  · cases more with
    | nil => simp
    | cons c more =>
      subst hrest'
      exact absurd (hrest c rfl) (h.ne_past hmatch)

theorem Reads.taken_last {m : Mode} {text : List Char} {c : Char} (h : Reads m text) (hmove : m.move c = .last)
    (rest : List Char) : Taken m.kind (text ++ [c]) rest := by
  cases h with
  | @string q cs hq hcs =>
    have hclose : c = q := by
      rw [move_string] at hmove
      split at hmove
      · assumption
      · cases hmove
    subst hclose
    refine .longest (.closed ((has_iff (by decide)).2 hq) hcs) fun kind' text' rest' hsame hmatch => ?_
    rcases List.append_eq_append_iff.1 hsame with ⟨more, hmore, -⟩ | ⟨more, rfl, -⟩
    · rw [hmore, List.length_append]
      exact Nat.le_add_right _ _
    · cases more with
      | nil => simp
      | cons d more =>
        obtain ⟨d', ds', hhead, hkind⟩ := hmatch.head
        obtain ⟨rfl, -⟩ := List.cons.inj hhead
        rw [hq] at hkind
        cases List.mem_singleton.1 hkind
        have hinside : c ∈ (cs ++ [c] ++ d :: more).dropLast := by
          rw [List.dropLast_append_of_ne_nil (List.cons_ne_nil d more)]
          simp
        exact absurd hinside (hmatch.of_string c rfl)
  | whitespace | identifier | number | minus | operator | comment =>
    unfold move at hmove
    cases hclass : CharClass.of c <;> rw [hclass] at hmove <;> cases hmove

theorem taken_single {c : Char} {kind : LexemeKind} (h : opening c = .single kind) (rest : List Char) :
    Taken kind [c] rest := by
  have hmatch : ∀ kind' text rest', text ++ rest' = c :: rest → Match kind' text rest' →
      kind' ∈ (CharClass.of c).begins := by
    intro kind' text rest' hsame hmatch
    obtain ⟨d, ds, rfl, hkind⟩ := hmatch.head
    obtain ⟨rfl, -⟩ := List.cons.inj hsame
    exact hkind
  unfold opening at h
  cases hclass : CharClass.of c with
  | linefeed =>
    rw [hclass] at h
    cases h
    have hline : c = '\n' := (has_iff (by decide)).2 hclass
    subst hline
    refine .longest .linefeed fun kind' text' rest' hsame hother => ?_
    cases List.mem_singleton.1 (hmatch _ _ _ hsame hother)
    cases hother
    exact Nat.le_refl _
  | delimiter =>
    rw [hclass] at h hmatch
    cases h
    refine .longest (.delimiter ((has_iff (by decide)).2 hclass)) fun kind' text' rest' hsame hother => ?_
    cases List.mem_singleton.1 (hmatch _ _ _ hsame hother)
    cases hother
    exact Nat.le_refl _
  | other =>
    rw [hclass] at h hmatch
    cases h
    exact .unknown fun kind' text' rest' hsame hother => List.not_mem_nil (hmatch _ _ _ hsame hother)
  | letter | digit | whitespace | quote | operator | hash =>
    rw [hclass] at h
    cases h

end Mode

/-! ## The scanner -/

namespace Scanner
open Lexeme (Munches)

def atHand (s : Scanner) : List Char :=
  match s.draft with
  | none => []
  | some d => d.text.toList

theorem atHand_some (d : Draft) (here : Position) : atHand ⟨some d, here⟩ = d.text.toList := rfl

def Sound (s : Scanner) : Prop := ∀ d ∈ s.draft, d.mode.Reads d.text.toList

theorem sound_none (here : Position) : Sound ⟨none, here⟩ := by
  rintro d ⟨⟩

/-- What the scanner finds from here on is what the longest match gives, from the lexeme at hand on. -/
def FindsMunches (s : Scanner) (gs : List Glyph) : Prop :=
  ∃ xs, Munches (s.atHand ++ gs.map Glyph.char) xs ∧ (s.lexemes gs).map Lexeme.view = xs ++ [(.endOfInput, "")]

theorem findsMunches_none (here : Position) (g : Glyph) {gs : List Glyph}
    (hnext : ∀ s : Scanner, s.Sound → s.FindsMunches gs) : FindsMunches ⟨none, here⟩ (g :: gs) := by
  cases hopening : Mode.opening g.char with
  | run m =>
    have hreads : Mode.Reads m (Glyph.text [g]).toList := by
      rw [Glyph.text, String.toList_ofList]
      exact Mode.reads_opening hopening
    obtain ⟨xs, hmunches, hxs⟩ := hnext ⟨some ⟨m, Glyph.text [g], here⟩, here.advance g.char g.width⟩
      (by rintro d ⟨⟩; exact hreads)
    refine ⟨xs, ?_, by rw [lexemes_begin hopening, hxs]⟩
    rwa [atHand_some, Glyph.text, String.toList_ofList] at hmunches
  | single kind =>
    obtain ⟨xs, hmunches, hxs⟩ := hnext ⟨none, here.advance g.char g.width⟩ (sound_none _)
    refine ⟨(kind, String.ofList [g.char]) :: xs, .cons (Mode.taken_single hopening _) hmunches, ?_⟩
    rw [lexemes, step, begin]
    simp only [hopening, List.map_append, hxs]
    rfl

theorem findsMunches_past {m : Mode} {text : String} {start here : Position} {gs : List Glyph} (h : m.Reads text.toList)
    (hpast : ∀ g ∈ gs.head?, m.move g.char = .past) (hrest : FindsMunches ⟨none, here⟩ gs) :
    FindsMunches ⟨some ⟨m, text, start⟩, here⟩ gs := by
  obtain ⟨xs, hmunches, hxs⟩ := hrest
  have htaken : Lexeme.Taken m.kind text.toList (gs.map Glyph.char) := by
    refine h.taken_past fun c hc => ?_
    rw [List.head?_map] at hc
    obtain ⟨g, hg, rfl⟩ := Option.map_eq_some_iff.1 hc
    exact hpast g hg
  refine ⟨(m.kind, text) :: xs, ?_, by rw [lexemes_past hpast, List.map_cons, hxs]; rfl⟩
  have hcons := Munches.cons htaken hmunches
  rwa [String.ofList_toList] at hcons

/-- **The scanner takes the longest match**, wherever it stands. -/
theorem findsMunches : ∀ (gs : List Glyph) {s : Scanner}, s.Sound → s.FindsMunches gs
  | [], ⟨none, _⟩, _ => ⟨[], .nil, rfl⟩
  | [], ⟨some ⟨_, _, _⟩, _⟩, h => findsMunches_past (h _ rfl) (by simp) ⟨[], .nil, rfl⟩
  | g :: gs, ⟨none, here⟩, _ => findsMunches_none here g fun _ hs => findsMunches gs hs
  | g :: gs, ⟨some ⟨m, text, start⟩, here⟩, h => by
    have hreads : m.Reads text.toList := h _ rfl
    have hpush : (text.push g.char).toList = text.toList ++ [g.char] := String.toList_push _
    cases hmove : m.move g.char with
    | more m' =>
      have hsound : Sound ⟨some ⟨m', text.push g.char, start⟩, here.advance g.char g.width⟩ := by
        rintro d ⟨⟩
        show m'.Reads (text.push g.char).toList
        rw [hpush]
        exact hreads.more hmove
      obtain ⟨xs, hmunches, hxs⟩ := findsMunches gs hsound
      refine ⟨xs, ?_, ?_⟩
      · rwa [atHand_some, hpush, List.append_assoc] at hmunches
      · rw [lexemes, step]
        simpa only [hmove, List.nil_append] using hxs
    | last =>
      obtain ⟨xs, hmunches, hxs⟩ := findsMunches gs (sound_none (here.advance g.char g.width))
      refine ⟨(m.kind, text.push g.char) :: xs, ?_, ?_⟩
      · have hcons := Munches.cons (hreads.taken_last hmove (gs.map Glyph.char)) hmunches
        rw [← hpush, String.ofList_toList, hpush, List.append_assoc] at hcons
        exact hcons
      · rw [lexemes, step]
        simp only [hmove, List.map_append, hxs]
        rfl
    | past =>
      exact findsMunches_past hreads (by rintro _ ⟨⟩; exact hmove)
        (findsMunches_none here g fun _ hs => findsMunches gs hs)

end Scanner

/-! ## Lexing -/

namespace Lexeme

/-- With the comments, the lexemes of an input are taken one after the other from its text. -/
theorem munches_ofChunks (chunks : List (List UInt8)) : ∃ xs, Munches (Utf8.toText chunks.flatten).toList xs ∧
    (ofChunks true chunks).map view = xs ++ [(.endOfInput, "")] := by
  obtain ⟨xs, hmunches, hxs⟩ := Scanner.findsMunches (Utf8.decode chunks.flatten) (Scanner.sound_none Position.start)
  refine ⟨xs, ?_, ?_⟩
  · rw [Utf8.toText, String.toList_ofList]
    exact hmunches
  · rw [ofChunks_eq, List.filter_eq_self.2 (by simp)]
    exact hxs

theorem toText_bytes (s : String) : Utf8.toText (Utf8.bytes s) = s := by
  rw [Utf8.toText, Utf8.decode_bytes, Glyph.map_char, String.ofList_toList]

/-- **Lexing is longest match.**  The kinds and texts of the lexemes, comments kept, are those that are found by taking the
longest match again and again from the text that the bytes stand for, and the mark of the end.  So the text of a lexeme,
lexed alone, is that lexeme. -/
theorem ofChunks_munches (chunks : List (List UInt8)) :
    (∀ xs, Munches (Utf8.toText chunks.flatten).toList xs ↔
      (ofChunks true chunks).map (fun x => (x.kind, x.text)) = xs ++ [(.endOfInput, "")]) ∧
      ∀ x ∈ ofChunks true chunks, x.kind ≠ .endOfInput →
        (ofChunks true [Utf8.bytes x.text]).map (fun y => (y.kind, y.text)) = [(x.kind, x.text), (.endOfInput, "")] := by
  obtain ⟨xs, hmunches, hxs⟩ := munches_ofChunks chunks
  refine ⟨fun ys => ⟨fun h => ?_, fun h => ?_⟩, fun x hx hkind => ?_⟩
  · rw [← hmunches.unique h]
    exact hxs
  · have hsame : xs ++ [(.endOfInput, "")] = ys ++ [(.endOfInput, "")] := hxs.symm.trans h
    rwa [← List.append_cancel_right hsame]
  · have hmem : x.view ∈ xs := by
      have hview := List.mem_map_of_mem (f := view) hx
      rw [hxs] at hview
      refine (List.mem_append.1 hview).resolve_right fun hlast => hkind ?_
      exact congrArg Prod.fst (List.mem_singleton.1 hlast)
    obtain ⟨rest, htaken⟩ := hmunches.exists_taken hmem
    obtain ⟨ys, halone, hys⟩ := munches_ofChunks [Utf8.bytes x.text]
    rw [List.flatten_singleton, toText_bytes] at halone
    rw [halone.unique htaken.munches] at hys
    exact hys

/-- A minus sign before a digit is its sign, two of them are an operator. -/
theorem minuses_munches :
    Munches "-4--3".toList [(.number, "-4"), (.operator, "--"), (.number, "3")] ∧
      ⟨.operator, "--", ⟨⟨1, 3, 2⟩, ⟨1, 5, 4⟩⟩⟩ ∈ ofChunks true [Utf8.bytes "-4--3"] ∧
      (ofChunks true [Utf8.bytes "--"]).map (fun y => (y.kind, y.text)) = [(.operator, "--"), (.endOfInput, "")] := by
  obtain ⟨hall, halone⟩ := ofChunks_munches [Utf8.bytes "-4--3"]
  rw [List.flatten_singleton, toText_bytes] at hall
  have hmem : ⟨.operator, "--", ⟨⟨1, 3, 2⟩, ⟨1, 5, 4⟩⟩⟩ ∈ ofChunks true [Utf8.bytes "-4--3"] := by
    rw [ofChunks_eq]
    decide +kernel
  have hoperator := halone ⟨.operator, "--", ⟨⟨1, 3, 2⟩, ⟨1, 5, 4⟩⟩⟩ hmem (by decide)
  exact ⟨(hall _).2 (by rw [ofChunks_eq]; decide +kernel), hmem, hoperator⟩

end Lexeme
end QuillLang
