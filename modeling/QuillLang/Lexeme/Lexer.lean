import QuillLang.Lexeme.Scanner
/-!
# The lexer

The lexer is a session: bytes come in pieces of any size, finished lexemes wait in a queue until they are asked for, and the
end of the input is announced once.  Bytes at the end of a piece that are only the beginning of a character are kept, and
read again together with the next piece.  Comments are dropped as they are finished unless they are wanted.

A stream of lexemes (`LexemeStream`) is a lexer with the pieces that it has not been fed yet.  It takes the next piece only
when it is asked for a lexeme and none waits.
-/
namespace QuillLang

/-- Reading in progress: the scanner, and the lexemes found, newest first. -/
structure Reading where
  scanner : Scanner
  found : List Lexeme
  deriving DecidableEq

namespace Reading

def glyph (r : Reading) (g : Glyph) : Reading :=
  let (s, ls) := r.scanner.step g
  ⟨s, ls.reverse ++ r.found⟩

def text (r : Reading) (cs : List Char) : Reading :=
  cs.foldl (fun r c => r.glyph (.ofChar c)) r

/-- The text that bytes begin with. -/
def valid (r : Reading) (bs : List UInt8) : Reading :=
  match Utf8.ofBytes bs with
  | .ok cs => r.text cs
  | .error _ => r

/-- Bytes, and those of them to be read again with what comes after them. -/
def bytes (r : Reading) (bs : List UInt8) : Reading × List UInt8 :=
  match _h : Utf8.ofBytes bs with
  | .ok cs => (r.text cs, [])
  | .error ⟨valid, none⟩ => (r.valid (bs.take valid), bs.drop valid)
  | .error ⟨valid, some bad⟩ =>
    bytes ((r.valid (bs.take valid)).glyph ⟨Utf8.replacement, bad⟩) (bs.drop (valid + bad))
termination_by bs.length
decreasing_by
  obtain ⟨hbs, hbad⟩ := Utf8.ofBytes_ne_zero _h
  have hlength := List.length_pos_iff.2 hbs
  have hpos : bad ≠ 0 := fun h => hbad (congrArg some h)
  rw [List.length_drop]
  omega

/-- The end of the input: what was unfinished is finished as it is. -/
def finish (r : Reading) (pending : List UInt8) : Reading :=
  let r := if pending.isEmpty then r else r.glyph ⟨Utf8.replacement, pending.length⟩
  ⟨⟨none, r.scanner.here⟩, r.scanner.finish.reverse ++ r.found⟩

end Reading

structure Lexer where
  keepComments : Bool
  scanner : Scanner
  /-- The bytes of a character that the last piece did not end. -/
  pending : List UInt8
  /-- Finished lexemes not asked for yet, oldest first. -/
  ready : List Lexeme
  finished : Bool
  deriving DecidableEq

namespace Lexer

def new (keepComments : Bool) : Lexer :=
  ⟨keepComments, Scanner.start, [], [], false⟩

def keeps (l : Lexer) (x : Lexeme) : Bool :=
  l.keepComments || x.kind != .comment

/-- Take over what a reading found, and the bytes it left. -/
def absorb (l : Lexer) (r : Reading) (pending : List UInt8) : Lexer :=
  { l with scanner := r.scanner, pending, ready := l.ready ++ r.found.reverse.filter l.keeps }

/-- One piece of the input.  After the end of the input it changes nothing. -/
def feed (l : Lexer) (chunk : List UInt8) : Lexer :=
  if l.finished then l
  else
    let (r, pending) := Reading.bytes ⟨l.scanner, []⟩ (l.pending ++ chunk)
    l.absorb r pending

/-- The end of the input.  A second one changes nothing. -/
def finish (l : Lexer) : Lexer :=
  if l.finished then l
  else { l.absorb (Reading.finish ⟨l.scanner, []⟩ l.pending) [] with finished := true }

/-- The oldest lexeme that waits, and the lexer without it. -/
def next (l : Lexer) : Option Lexeme × Lexer :=
  match l.ready with
  | [] => (none, l)
  | x :: rest => (some x, { l with ready := rest })

/-- All lexemes that wait, and the lexer without them. -/
def drain (l : Lexer) : List Lexeme × Lexer :=
  (l.ready, { l with ready := [] })

/-- Has the end been announced and every lexeme been handed out? -/
def isFinished (l : Lexer) : Bool :=
  l.finished && l.ready.isEmpty

theorem finished_feed (l : Lexer) (chunk : List UInt8) : (l.feed chunk).finished = l.finished := by
  unfold feed
  split <;> rfl

theorem finished_finish (l : Lexer) : l.finish.finished = true := by
  unfold finish
  split
  · assumption
  · rfl

theorem next_none {l l' : Lexer} (h : l.next = (none, l')) : l' = l ∧ l.ready = [] := by
  unfold next at h
  split at h
  · rename_i hready
    cases h
    exact ⟨rfl, hready⟩
  · cases h

theorem next_some {l l' : Lexer} {x : Lexeme} (h : l.next = (some x, l')) :
    l.ready = x :: l'.ready ∧ l' = { l with ready := l'.ready } := by
  unfold next at h
  split at h
  · cases h
  · rename_i hready
    cases h
    exact ⟨hready, rfl⟩

theorem finished_of_isFinished {l : Lexer} (hready : l.ready = []) (h : ¬l.isFinished = true) : l.finished = false := by
  simpa [isFinished, hready] using h

end Lexer

/-- A lexer and the pieces of the input that it has not been fed. -/
structure LexemeStream where
  lexer : Lexer
  chunks : List (List UInt8)

namespace LexemeStream

def new (keepComments : Bool) (chunks : List (List UInt8)) : LexemeStream :=
  ⟨.new keepComments, chunks⟩

/-- The steps that are left: a feed for every piece, and the end. -/
def steps (s : LexemeStream) : Nat :=
  s.chunks.length + if s.lexer.finished then 0 else 1

theorem steps_feed (l : Lexer) (chunk : List UInt8) (rest : List (List UInt8)) :
    steps ⟨l.feed chunk, rest⟩ < steps ⟨l, chunk :: rest⟩ := by
  simp only [steps, Lexer.finished_feed, List.length_cons]
  omega

theorem steps_finish {l : Lexer} (h : l.finished = false) : steps ⟨l.finish, []⟩ < steps ⟨l, []⟩ := by
  simp [steps, Lexer.finished_finish, h]

/-- The next lexeme.  None is left once the end of the input was announced and every lexeme handed out. -/
def next (s : LexemeStream) : Option Lexeme × LexemeStream :=
  match _hnext : s.lexer.next with
  | (some x, l) => (some x, { s with lexer := l })
  | (none, l) =>
    if _h : l.isFinished then (none, { s with lexer := l })
    else
      match _hchunks : s.chunks with
      | chunk :: rest => next ⟨l.feed chunk, rest⟩
      | [] => next ⟨l.finish, []⟩
termination_by s.steps
decreasing_by
  all_goals
    obtain ⟨rfl, hready⟩ := Lexer.next_none _hnext
    obtain ⟨l, chunks⟩ := s
    subst _hchunks
  · exact steps_feed l chunk rest
  · exact steps_finish (Lexer.finished_of_isFinished hready _h)

theorem next_lt {s s' : LexemeStream} {x : Lexeme} (h : s.next = (some x, s')) :
    s'.steps < s.steps ∨ s'.steps = s.steps ∧ s'.lexer.ready.length < s.lexer.ready.length := by
  fun_induction next s with
  | case1 s y l hnext =>
    cases h
    obtain ⟨hready, hl⟩ := Lexer.next_some hnext
    refine .inr ⟨?_, by simp [hready]⟩
    rw [hl]
    rfl
  | case2 => cases h
  | case3 s l hnext hfinished chunk rest hchunks ih =>
    obtain ⟨rfl, hready⟩ := Lexer.next_none hnext
    obtain ⟨l, chunks⟩ := s
    subst hchunks
    rcases ih h with hlt | ⟨heq, -⟩
    · exact .inl (Nat.lt_trans hlt (steps_feed l chunk rest))
    · exact .inl (heq ▸ steps_feed l chunk rest)
  | case4 s l hnext hfinished hchunks ih =>
    obtain ⟨rfl, hready⟩ := Lexer.next_none hnext
    obtain ⟨l, chunks⟩ := s
    subst hchunks
    have hfinish := steps_finish (Lexer.finished_of_isFinished hready hfinished)
    rcases ih h with hlt | ⟨heq, -⟩
    · exact .inl (Nat.lt_trans hlt hfinish)
    · exact .inl (heq ▸ hfinish)

/-- All lexemes, asked for until none is left. -/
def all (s : LexemeStream) : List Lexeme :=
  go [] s
where
  go (found : List Lexeme) (s : LexemeStream) : List Lexeme :=
    match _h : s.next with
    | (some x, s') => go (x :: found) s'
    | (none, _) => found.reverse
  termination_by (s.steps, s.lexer.ready.length)
  decreasing_by
    rcases next_lt _h with h | ⟨hsteps, hready⟩
    · exact .left _ _ h
    · rw [hsteps]
      exact .right _ hready

end LexemeStream

namespace Lexeme

def ofChunks (keepComments : Bool) (chunks : List (List UInt8)) : List Lexeme :=
  (LexemeStream.new keepComments chunks).all

end Lexeme
end QuillLang
