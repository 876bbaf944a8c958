import QuillLang.Lexeme.Lexer
import QuillLang.Proofs.Lexing.Decoding
/-!
# Lexing is decoding and then scanning

The lexer checks the bytes it has, and reads some of them a second time when more have come.  What it finds is what the
scanner finds in the decoded input as a whole (`Scanner.lexemes`), less the comments unless they are wanted
(`Lexeme.ofChunks_eq`).

The argument follows one quantity: `Lexer.toCome`, the lexemes that a lexer has to hand out if so many bytes are still to be
fed.  Feeding moves bytes from the input into the lexer, asking moves a lexeme out of it, and neither changes the whole.
The bytes that a lexer keeps back are the beginning of a character (`Utf8.Kept`), so that what is found before them does not
depend on what comes after.
-/
namespace QuillLang

/-- The lexemes that a scanner finds in the rest of the input. -/
def Scanner.lexemes (s : Scanner) : List Glyph → List Lexeme
  | [] => s.finish
  | g :: gs => (s.step g).2 ++ (s.step g).1.lexemes gs

/-- Bytes that may be kept for later. -/
def Utf8.Kept (bs : List UInt8) : Prop := bs = [] ∨ ∃ u, Pending bs u

/-! ## Reading -/

namespace Reading

theorem valid_chars (r : Reading) (cs : List Char) :
    r.valid (cs.flatMap String.utf8EncodeChar) = (cs.map .ofChar).foldl glyph r := by
  unfold valid
  rw [Utf8.ofBytes_chars]
  exact List.foldl_map.symm

/-- Some bytes were read and the others kept, and what was read is the same whatever comes after. -/
def Reads (r : Reading) (bs : List UInt8) (r' : Reading) (kept : List UInt8) : Prop :=
  ∃ gs, r' = gs.foldl glyph r ∧ (∀ more, Utf8.decode (bs ++ more) = gs ++ Utf8.decode (kept ++ more)) ∧ Utf8.Kept kept

/-- **Nothing that comes after bytes changes what was read of them.** -/
theorem reads_bytes (r : Reading) (bs : List UInt8) : Reads r bs (bytes r bs).1 (bytes r bs).2 := by
  fun_induction bytes r bs with
  | case1 r bs cs hcs =>
    have hchecked := Utf8.checked_ofBytes bs
    rw [hcs] at hchecked
    cases hchecked with
    | text cs => exact ⟨cs.map .ofChar, List.foldl_map.symm, Utf8.decode_chars cs, .inl rfl⟩
  | case2 r bs valid hvalid =>
    have hchecked := Utf8.checked_ofBytes bs
    rw [hvalid] at hchecked
    cases hchecked with
    | pending cs seen u h =>
      rw [List.take_left, List.drop_left]
      refine ⟨cs.map .ofChar, r.valid_chars cs, fun more => ?_, .inr ⟨u, h⟩⟩
      rw [List.append_assoc, Utf8.decode_chars]
  | case3 r bs valid n hvalid ih =>
    have hchecked := Utf8.checked_ofBytes bs
    rw [hvalid] at hchecked
    cases hchecked with
    | broken cs bad rest h =>
      rw [List.take_left, ← List.length_append, ← List.append_assoc, List.drop_left] at ih ⊢
      obtain ⟨gs, hgs, hdecode, hkept⟩ := ih
      refine ⟨cs.map .ofChar ++ ⟨Utf8.replacement, bad.length⟩ :: gs, ?_, fun more => ?_, hkept⟩
      · rw [hgs, List.foldl_append, List.foldl_cons, valid_chars]
      · rw [List.append_assoc, List.append_assoc, Utf8.decode_chars, Utf8.decode_broken (h more), hdecode,
          List.append_assoc, List.cons_append]

/-- A glyph that is read moves from what is to come to what was found. -/
theorem glyphs_lexemes (gs' : List Glyph) : ∀ (gs : List Glyph) (r : Reading),
    (gs.foldl glyph r).found.reverse ++ (gs.foldl glyph r).scanner.lexemes gs' =
      r.found.reverse ++ r.scanner.lexemes (gs ++ gs')
  | [], _ => rfl
  | g :: gs, r => by
    rw [List.foldl_cons, glyphs_lexemes gs' gs (glyph r g), List.cons_append, Scanner.lexemes]
    simp only [glyph, List.reverse_append, List.reverse_reverse, List.append_assoc]

theorem Reads.lexemes {r r' : Reading} {bs kept : List UInt8} (h : Reads r bs r' kept) (more : List UInt8) :
    r'.found.reverse ++ r'.scanner.lexemes (Utf8.decode (kept ++ more)) =
      r.found.reverse ++ r.scanner.lexemes (Utf8.decode (bs ++ more)) := by
  obtain ⟨gs, rfl, hdecode, -⟩ := h
  rw [hdecode, glyphs_lexemes]

theorem finish_lexemes (r : Reading) {kept : List UInt8} (h : Utf8.Kept kept) :
    (finish r kept).found.reverse = r.found.reverse ++ r.scanner.lexemes (Utf8.decode kept) := by
  have hglyphs := glyphs_lexemes [] (Utf8.decode kept) r
  rw [List.append_nil] at hglyphs
  rw [← hglyphs]
  simp only [finish, List.reverse_append, List.reverse_reverse]
  rcases h with rfl | ⟨u, hu⟩
  · rfl
  · rw [Utf8.decode_pending hu, if_neg (by simpa using hu.nonempty)]
    rfl

end Reading

/-! ## Feeding and asking -/

namespace Lexer

theorem feed_of_finished {l : Lexer} (h : l.finished = true) (chunk : List UInt8) : l.feed chunk = l := by
  unfold feed
  rw [if_pos h]

theorem finish_of_finished {l : Lexer} (h : l.finished = true) : l.finish = l := by
  unfold finish
  rw [if_pos h]

/-- The lexemes that a lexer has to hand out, with these bytes still to come. -/
def toCome (l : Lexer) (bs : List UInt8) : List Lexeme :=
  if l.finished then l.ready else l.ready ++ (l.scanner.lexemes (Utf8.decode (l.pending ++ bs))).filter l.keeps

theorem toCome_of_finished {l : Lexer} (h : l.finished = true) (bs : List UInt8) : l.toCome bs = l.ready :=
  if_pos h

theorem kept_feed {l : Lexer} (h : Utf8.Kept l.pending) (chunk : List UInt8) : Utf8.Kept (l.feed chunk).pending := by
  unfold feed
  split
  · exact h
  · obtain ⟨-, -, -, hkept⟩ := Reading.reads_bytes ⟨l.scanner, []⟩ (l.pending ++ chunk)
    exact hkept

theorem kept_finish {l : Lexer} (h : Utf8.Kept l.pending) : Utf8.Kept l.finish.pending := by
  unfold finish
  split
  · exact h
  · exact .inl rfl

theorem kept_next {l : Lexer} (h : Utf8.Kept l.pending) : Utf8.Kept l.next.2.pending := by
  unfold next
  split <;> exact h

theorem toCome_feed (l : Lexer) (chunk bs : List UInt8) : (l.feed chunk).toCome bs = l.toCome (chunk ++ bs) := by
  by_cases hfinished : l.finished = true
  · rw [feed_of_finished hfinished, toCome_of_finished hfinished, toCome_of_finished hfinished]
  have hlexemes := (Reading.reads_bytes ⟨l.scanner, []⟩ (l.pending ++ chunk)).lexemes bs
  unfold feed toCome
  rw [if_neg hfinished, if_neg hfinished]
  refine (if_neg hfinished).trans ?_
  rw [← List.append_assoc l.pending, ← List.nil_append (l.scanner.lexemes _)]
  refine Eq.trans ?_ (congrArg (fun xs => l.ready ++ xs.filter l.keeps) hlexemes)
  dsimp only
  rw [List.filter_append, ← List.append_assoc]
  rfl

theorem toCome_finish {l : Lexer} (h : Utf8.Kept l.pending) (bs : List UInt8) : l.finish.toCome bs = l.toCome [] := by
  rw [toCome_of_finished l.finished_finish]
  by_cases hfinished : l.finished = true
  · rw [finish_of_finished hfinished, toCome_of_finished hfinished]
  unfold finish toCome
  rw [if_neg hfinished, if_neg hfinished]
  have hfinish := Reading.finish_lexemes ⟨l.scanner, []⟩ h
  rw [List.append_nil]
  exact congrArg (fun xs => l.ready ++ xs.filter l.keeps) hfinish

theorem toCome_next (l : Lexer) (bs : List UInt8) : l.next.1.toList ++ l.next.2.toCome bs = l.toCome bs := by
  unfold next
  split
  · rfl
  · rename_i x rest hready
    unfold toCome
    dsimp only
    split
    · exact hready.symm
    · rw [hready]
      rfl

end Lexer

/-! ## All lexemes -/

namespace LexemeStream

def toCome (s : LexemeStream) : List Lexeme := s.lexer.toCome s.chunks.flatten

/-- Asking a stream changes nothing about the whole.  It has no lexeme only if there is none to come. -/
theorem toCome_next {s : LexemeStream} (h : Utf8.Kept s.lexer.pending) :
    s.next.1.toList ++ s.next.2.toCome = s.toCome ∧ Utf8.Kept s.next.2.lexer.pending ∧
      (s.next.1 = none → s.next.2.toCome = []) := by
  fun_induction next s with
  | case1 s x l hnext =>
    have hcome := s.lexer.toCome_next s.chunks.flatten
    have hkept := Lexer.kept_next h
    rw [hnext] at hcome hkept
    exact ⟨hcome, hkept, fun h => by cases h⟩
  | case2 s l hnext hfinished =>
    obtain ⟨rfl, hready⟩ := Lexer.next_none hnext
    exact ⟨rfl, h, fun _ => (Lexer.toCome_of_finished (Bool.and_eq_true_iff.1 hfinished).1 _).trans hready⟩
  | case3 s l hnext hfinished chunk rest hchunks ih =>
    obtain ⟨rfl, -⟩ := Lexer.next_none hnext
    have hcome : toCome ⟨s.lexer.feed chunk, rest⟩ = s.toCome := by
      unfold toCome
      rw [hchunks]
      exact s.lexer.toCome_feed chunk rest.flatten
    rw [← hcome]
    exact ih (Lexer.kept_feed h chunk)
  | case4 s l hnext hfinished hchunks ih =>
    obtain ⟨rfl, -⟩ := Lexer.next_none hnext
    have hcome : toCome ⟨s.lexer.finish, []⟩ = s.toCome := by
      unfold toCome
      rw [hchunks]
      exact Lexer.toCome_finish h []
    rw [← hcome]
    exact ih (Lexer.kept_finish h)

theorem go_eq {found : List Lexeme} {s : LexemeStream} (h : Utf8.Kept s.lexer.pending) :
    all.go found s = found.reverse ++ s.toCome := by
  fun_induction all.go found s with
  | case1 found s x s' hnext ih =>
    obtain ⟨hcome, hkept, -⟩ := toCome_next h
    rw [hnext] at hcome hkept
    rw [ih hkept, ← hcome, List.reverse_cons, List.append_assoc]
    rfl
  | case2 found s s' hnext =>
    obtain ⟨hcome, -, hnone⟩ := toCome_next h
    rw [hnext] at hcome hnone
    rw [← hcome, hnone rfl, Option.toList_none, List.append_nil, List.append_nil]

end LexemeStream

/-- **The lexemes of an input are those of its decoding**, less the comments unless they are wanted. -/
theorem Lexeme.ofChunks_eq (keepComments : Bool) (chunks : List (List UInt8)) :
    ofChunks keepComments chunks =
      (Scanner.start.lexemes (Utf8.decode chunks.flatten)).filter fun x => keepComments || x.kind != .comment :=
  LexemeStream.go_eq (s := .new keepComments chunks) (.inl rfl)

end QuillLang
