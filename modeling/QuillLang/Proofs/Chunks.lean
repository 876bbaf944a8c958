import QuillLang.Compile
import QuillLang.Proofs.Lexing.Lossless
/-!
# The cut of the input does not show

A lexer is fed, asked for lexemes and told that the input has ended, in any order.  What it hands out, with what still
waits in it, is what one feed of the whole input would have given (`Lexer.session_eq_whole`).  A piece may end anywhere, also
within a character or within bytes that are none, and the bytes that it leaves are then read again with the next piece.

No event of a session changes what the lexer has to hand out in all (`Lexer.toCome_act`).
-/
namespace QuillLang
namespace Lexer

/-! ## Sessions -/

inductive Event where
  | feed (chunk : List UInt8)
  | finish
  | next

def act (l : Lexer) : Event → List Lexeme × Lexer
  | .feed chunk => ([], l.feed chunk)
  | .finish => ([], l.finish)
  | .next => (l.next.1.toList, l.next.2)

def session (l : Lexer) : List Event → List Lexeme × Lexer
  | [] => ([], l)
  | e :: es => ((l.act e).1 ++ ((l.act e).2.session es).1, ((l.act e).2.session es).2)

def Event.input : List Event → List UInt8
  | [] => []
  | .feed chunk :: es => chunk ++ input es
  | .next :: es => input es
  | .finish :: _ => []

theorem kept_act {l : Lexer} (h : Utf8.Kept l.pending) (e : Event) : Utf8.Kept (l.act e).2.pending := by
  cases e with
  | feed chunk => exact kept_feed h chunk
  | finish => exact kept_finish h
  | next => exact kept_next h

theorem toCome_act {l : Lexer} (h : Utf8.Kept l.pending) (e : Event) (es : List Event) :
    (l.act e).1 ++ (l.act e).2.toCome (Event.input es) = l.toCome (Event.input (e :: es)) := by
  cases e with
  | feed chunk => exact l.toCome_feed chunk (Event.input es)
  | finish => exact toCome_finish h (Event.input es)
  | next => exact l.toCome_next (Event.input es)

theorem finished_next (l : Lexer) : l.next.2.finished = l.finished := by
  unfold next
  split <;> rfl

theorem finished_act {l : Lexer} {e : Event} (h : l.finished = true ∨ e = .finish) : (l.act e).2.finished = true := by
  cases e with
  | feed chunk =>
    rcases h with h | h
    · rw [← h]
      exact l.finished_feed chunk
    · cases h
  | finish => exact l.finished_finish
  | next =>
    rcases h with h | h
    · rw [← h]
      exact l.finished_next
    · cases h

/-- **A session hands out what there is to hand out**, less what still waits at its end. -/
theorem session_toCome : ∀ (es : List Event) {l : Lexer}, Utf8.Kept l.pending → l.finished = true ∨ .finish ∈ es →
    (l.session es).2.finished = true ∧ (l.session es).1 ++ (l.session es).2.ready = l.toCome (Event.input es)
  | [], l, _, h => by
    have hfinished := h.resolve_right (by simp)
    exact ⟨hfinished, (toCome_of_finished hfinished []).symm⟩
  | e :: es, l, hkept, h => by
    have hrest : (l.act e).2.finished = true ∨ .finish ∈ es := by
      rcases h with h | h
      · exact .inl (finished_act (.inl h))
      · rcases List.mem_cons.1 h with h | h
        · exact .inl (finished_act (.inr h.symm))
        · exact .inr h
    obtain ⟨hfinished, hcome⟩ := session_toCome es (kept_act hkept e) hrest
    refine ⟨hfinished, ?_⟩
    rw [← toCome_act hkept, ← hcome, ← List.append_assoc]
    rfl

theorem feed_finish_ready (keepComments : Bool) (bs : List UInt8) :
    ((new keepComments).feed bs).finish.ready = (new keepComments).toCome bs := by
  have hfed := (new keepComments).toCome_feed bs []
  have hended := toCome_finish (kept_feed (l := new keepComments) (.inl rfl) bs) []
  rw [toCome_of_finished (finished_finish _), hfed, List.append_nil] at hended
  exact hended

end Lexer

/-! ## The whole -/

/-- **One end mark, at the end.** -/
theorem Lexer.toCome_marked (keepComments : Bool) (bs : List UInt8) :
    ∃ xs mark, (new keepComments).toCome bs = xs ++ [mark] ∧ mark.kind = .endOfInput ∧ ∀ x ∈ xs, x.kind ≠ .endOfInput := by
  obtain ⟨xs, hxs, htiles⟩ := Scanner.tiles_lexemes (Utf8.decode bs)
  have hkeep : (new keepComments).keeps (.endMark (Utf8.decode bs)) = true := by cases keepComments <;> rfl
  refine ⟨xs.filter (new keepComments).keeps, .endMark (Utf8.decode bs), ?_, rfl,
    fun x hx => htiles.unmarked x (List.mem_filter.1 hx).1⟩
  have hcome : (new keepComments).toCome bs = (Scanner.start.lexemes (Utf8.decode bs)).filter (new keepComments).keeps := rfl
  rw [hcome, hxs, List.filter_append, List.filter_cons_of_pos hkeep, List.filter_nil]

theorem Compilation.ofChunks_flatten (chunks : List (List UInt8)) :
    Compilation.ofChunks chunks = Compilation.ofChunks [chunks.flatten] := by
  unfold Compilation.ofChunks
  rw [Lexeme.ofChunks_eq, Lexeme.ofChunks_eq, List.flatten_singleton]

namespace Lexer

/-- **The cut of the input does not show.**  Whatever is done to a new lexer, once the end of the input is announced it has
handed out, with what still waits in it, the lexemes of the bytes fed before that end as one piece.  From then on feeding
it and ending it change nothing.  The lexemes end with the one mark of the end.  A stream over the bytes, in whatever pieces,
has these lexemes, and the bytes compile to the same. -/
theorem session_eq_whole (keepComments : Bool) (es : List Event) (h : .finish ∈ es) :
    ((new keepComments).session es).1 ++ ((new keepComments).session es).2.drain.1 =
        ((new keepComments).feed (Event.input es)).finish.drain.1 ∧
      (∀ chunk, ((new keepComments).session es).2.feed chunk = ((new keepComments).session es).2) ∧
      ((new keepComments).session es).2.finish = ((new keepComments).session es).2 ∧
      (∃ xs mark, ((new keepComments).feed (Event.input es)).finish.drain.1 = xs ++ [mark] ∧ mark.kind = .endOfInput ∧
        ∀ x ∈ xs, x.kind ≠ .endOfInput) ∧
      ∀ chunks, chunks.flatten = Event.input es →
        (LexemeStream.new keepComments chunks).all = ((new keepComments).feed (Event.input es)).finish.drain.1 ∧
          Compilation.ofChunks chunks = Compilation.ofChunks [Event.input es] := by
  have hwhole : ((new keepComments).feed (Event.input es)).finish.drain.1 = (new keepComments).toCome (Event.input es) :=
    feed_finish_ready keepComments (Event.input es)
  obtain ⟨hfinished, hcome⟩ := session_toCome es (l := new keepComments) (.inl rfl) (.inr h)
  rw [hwhole]
  refine ⟨hcome, feed_of_finished hfinished, finish_of_finished hfinished, toCome_marked keepComments _,
    fun chunks hchunks => ?_⟩
  rw [Compilation.ofChunks_flatten, ← hchunks]
  exact ⟨Lexeme.ofChunks_eq keepComments chunks, rfl⟩

/-- A session that cuts `é`, of two bytes, and then `€`, of three, at a byte that is none of its own, asks for lexemes too
early, and goes on after the end. -/
def restless : List Event :=
  [.next, .feed [0x78, 0xC3], .next, .feed [], .feed [0xA9, 0x20, 0xE2], .feed [0x82], .next, .feed [0x79], .finish, .next,
    .feed [0x79], .finish]

theorem restless_eq_whole : .finish ∈ restless ∧
    ((new false).session restless).1 ++ ((new false).session restless).2.drain.1 =
      ((new false).feed [0x78, 0xC3, 0xA9, 0x20, 0xE2, 0x82, 0x79]).finish.drain.1 :=
  ⟨by simp [restless], (session_eq_whole false restless (by simp [restless])).1⟩

end Lexer
end QuillLang
