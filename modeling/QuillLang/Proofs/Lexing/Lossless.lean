import Mathlib.Data.List.Chain
import QuillLang.Proofs.Lexing.Decoding
import QuillLang.Proofs.Lexing.Scanning
/-!
# Nothing is lost

The lexemes are the input cut into pieces: each is the text of a stretch of glyphs, stands where the glyphs before it end
and stops where its own end (`Lexeme.Tiles`).  A place is counted from the glyphs before it and from nothing else
(`Glyph.place`).

The scanner has handed out the pieces of what it is done with and holds the beginning of the next (`Scanner.Holds`).  A
glyph is added to what it holds, and whatever it hands out then is taken from there.
-/
namespace QuillLang

/-! ## Places -/

namespace Glyph

def text (gs : List Glyph) : String := String.ofList (gs.map Glyph.char)

/-- The place behind glyphs: one line more than there are linefeeds, one column more than there are characters since the
last linefeed, and as many bytes as they were read from. -/
def place (gs : List Glyph) : Position where
  line := 1 + (gs.map Glyph.char).count '\n'
  column := 1 + ((gs.map Glyph.char).reverse.takeWhile (· ≠ '\n')).length
  offset := (gs.map Glyph.width).sum

theorem text_append (gs gs' : List Glyph) : text (gs ++ gs') = text gs ++ text gs' := by
  simp [text, String.ofList_append]

theorem text_push (gs : List Glyph) (g : Glyph) : (text gs).push g.char = text (gs ++ [g]) := by
  rw [text_append, ← String.append_singleton]
  rfl

theorem place_push (gs : List Glyph) (g : Glyph) : (place gs).advance g.char g.width = place (gs ++ [g]) := by
  unfold Position.advance place
  by_cases hline : g.char = '\n'
  · simp [hline, Nat.add_assoc]
  · simp [hline]
    omega

end Glyph

/-! ## Pieces -/

def Lexeme.endMark (gs : List Glyph) : Lexeme := ⟨.endOfInput, "", Span.point (Glyph.place gs)⟩

/-- Lexemes that are the pieces of the glyphs from behind `done` up to the end of `all`. -/
inductive Lexeme.Tiles : List Glyph → List Lexeme → List Glyph → Prop where
  | nil {done : List Glyph} : Tiles done [] done
  | cons {done piece all : List Glyph} {xs : List Lexeme} (kind : LexemeKind) (hkind : kind ≠ .endOfInput)
    (hpiece : piece ≠ []) (h : Tiles (done ++ piece) xs all) :
    Tiles done (⟨kind, Glyph.text piece, ⟨Glyph.place done, Glyph.place (done ++ piece)⟩⟩ :: xs) all

namespace Lexeme.Tiles

variable {done mid all : List Glyph} {xs ys : List Lexeme}

theorem append (h : Tiles done xs mid) (h' : Tiles mid ys all) : Tiles done (xs ++ ys) all := by
  induction h with
  | nil => exact h'
  | cons kind hkind hpiece _ ih => exact .cons kind hkind hpiece (ih h')

theorem unmarked (h : Tiles done xs all) : ∀ x ∈ xs, x.kind ≠ .endOfInput := by
  induction h with
  | nil => simp
  | cons kind hkind _ _ ih => exact List.forall_mem_cons.2 ⟨hkind, ih⟩

theorem text (h : Tiles done xs all) : Glyph.text done ++ String.join (xs.map Lexeme.text) = Glyph.text all := by
  induction h with
  | nil => simp
  | cons kind _ _ _ ih => rw [← ih, List.map_cons, String.join_cons, Glyph.text_append, String.append_assoc]

theorem join_text (h : Tiles [] xs all) : String.join (xs.map Lexeme.text) = Glyph.text all := by
  rw [← h.text]
  exact String.empty_append.symm

theorem isPrefix (h : Tiles done xs all) : done <+: all := by
  induction h with
  | nil => exact List.prefix_rfl
  | cons _ _ _ _ ih => exact (List.prefix_append _ _).trans ih

theorem split : ∀ (xs : List Lexeme) {done : List Glyph}, Tiles done (xs ++ ys) all →
    ∃ mid, Tiles done xs mid ∧ Tiles mid ys all
  | [], done, h => ⟨done, .nil, h⟩
  | _ :: xs, _, .cons kind hkind hpiece h => by
    obtain ⟨mid, hxs, hys⟩ := split xs h
    exact ⟨mid, .cons kind hkind hpiece hxs, hys⟩

theorem start_cons {x : Lexeme} (h : Tiles done (x :: xs) all) : x.span.start = Glyph.place done := by
  cases h
  rfl

/-- Each piece starts where the one before it stops, and the end mark where the last one does. -/
theorem chain (h : Tiles done xs all) :
    (∀ x ∈ (xs ++ [endMark all]).head?, x.span.start = Glyph.place done) ∧
      List.IsChain (fun x y => y.span.start = x.span.stop) (xs ++ [endMark all]) := by
  induction h with
  | nil => exact ⟨by simp [endMark, Span.point], .singleton _⟩
  | cons kind _ _ _ ih => exact ⟨by simp, List.isChain_cons.2 ih⟩

/-- Every piece, and the end mark, starts behind the pieces before it. -/
theorem start {before after : List Lexeme} {x : Lexeme} (h : Tiles done xs all)
    (hsplit : xs ++ [endMark all] = before ++ x :: after) :
    ∃ mid, Tiles done before mid ∧ mid <+: all ∧ x.span.start = Glyph.place mid := by
  rcases List.eq_nil_or_concat after with rfl | ⟨after, y, rfl⟩
  · obtain ⟨rfl, hx⟩ := List.append_inj' hsplit rfl
    cases hx
    exact ⟨all, h, List.prefix_rfl, rfl⟩
  · rw [List.concat_eq_append, ← List.cons_append, ← List.append_assoc] at hsplit
    obtain ⟨rfl, -⟩ := List.append_inj' hsplit rfl
    obtain ⟨mid, hbefore, hx⟩ := split before h
    exact ⟨mid, hbefore, hx.isPrefix, hx.start_cons⟩

end Lexeme.Tiles

/-! ## The scanner -/

/-- What a scanner holds of the glyphs behind those that it is done with. -/
inductive Scanner.Holds (done : List Glyph) : List Glyph → Scanner → Prop where
  | between : Holds done [] ⟨none, Glyph.place done⟩
  | within {piece : List Glyph} (mode : Mode) (hpiece : piece ≠ []) :
    Holds done piece ⟨some ⟨mode, Glyph.text piece, Glyph.place done⟩, Glyph.place (done ++ piece)⟩

namespace Scanner

variable {done piece : List Glyph} {s : Scanner}

theorem tiles_close (mode : Mode) (hpiece : piece ≠ []) :
    Lexeme.Tiles done [close ⟨mode, Glyph.text piece, Glyph.place done⟩ (Glyph.place (done ++ piece))] (done ++ piece) :=
  .cons mode.kind (by cases mode <;> simp [Mode.kind]) hpiece .nil

theorem tiles_begin (done : List Glyph) (g : Glyph) : ∃ done' piece, done' ++ piece = done ++ [g] ∧
    Lexeme.Tiles done (begin (Glyph.place done) g).2 done' ∧ Holds done' piece (begin (Glyph.place done) g).1 := by
  unfold begin
  simp only [Glyph.place_push]
  cases hopening : Mode.opening g.char with
  | run mode => exact ⟨done, [g], rfl, .nil, .within mode (by simp)⟩
  | single kind =>
    have hkind : kind ≠ .endOfInput := by
      unfold Mode.opening at hopening
      split at hopening <;> cases hopening <;> decide
    exact ⟨done ++ [g], [], List.append_nil _, .cons kind hkind (List.cons_ne_nil g []) .nil, .between⟩

theorem tiles_step (h : Holds done piece s) (g : Glyph) : ∃ done' piece', done' ++ piece' = done ++ piece ++ [g] ∧
    Lexeme.Tiles done (s.step g).2 done' ∧ Holds done' piece' (s.step g).1 := by
  cases h with
  | between =>
    rw [List.append_nil]
    exact tiles_begin done g
  | within mode hpiece =>
    have hpush : piece ++ [g] ≠ [] := by simp
    unfold step
    simp only [Glyph.place_push, Glyph.text_push, List.append_assoc]
    cases mode.move g.char with
    | more mode' => exact ⟨done, piece ++ [g], rfl, .nil, .within mode' hpush⟩
    | last => exact ⟨done ++ (piece ++ [g]), [], List.append_nil _, tiles_close mode hpush, .between⟩
    | past =>
      obtain ⟨done', piece', hall, htiles, hholds⟩ := tiles_begin (done ++ piece) g
      rw [List.append_assoc] at hall
      exact ⟨done', piece', hall, (tiles_close mode hpiece).append htiles, hholds⟩

theorem tiles_finish (h : Holds done piece s) :
    ∃ xs, s.finish = xs ++ [.endMark (done ++ piece)] ∧ Lexeme.Tiles done xs (done ++ piece) := by
  cases h with
  | between => exact ⟨[], by rw [List.append_nil]; rfl, by rw [List.append_nil]; exact .nil⟩
  | within mode hpiece => exact ⟨_, rfl, tiles_close mode hpiece⟩

theorem tiles_rest : ∀ (gs : List Glyph) {done piece : List Glyph} {s : Scanner}, Holds done piece s →
    ∃ xs, s.lexemes gs = xs ++ [.endMark (done ++ piece ++ gs)] ∧ Lexeme.Tiles done xs (done ++ piece ++ gs)
  | [], done, piece, s, h => by
    rw [List.append_nil]
    exact tiles_finish h
  | g :: gs, done, piece, s, h => by
    obtain ⟨done', piece', hall, hstep, hholds⟩ := tiles_step h g
    obtain ⟨xs, hxs, htiles⟩ := tiles_rest gs hholds
    rw [hall, List.append_assoc, List.singleton_append] at hxs htiles
    refine ⟨(s.step g).2 ++ xs, ?_, hstep.append htiles⟩
    rw [lexemes, hxs, ← List.append_assoc (s.step g).2]

/-- **The scanner cuts the glyphs into pieces**, and then marks the end. -/
theorem tiles_lexemes (gs : List Glyph) : ∃ xs, start.lexemes gs = xs ++ [.endMark gs] ∧ Lexeme.Tiles [] xs gs :=
  tiles_rest gs (.between : Holds [] [] start)

end Scanner

namespace Lexeme

/-- **Nothing is lost, and every place is exact.**  Bytes stand for glyphs in one way, with a U+FFFD for every longest
broken stretch.  The texts of the lexemes together are the text of the glyphs.  The first lexeme starts at the first
place, and each starts where the one before it stops.  The last is the one mark of the end: it is empty and stands behind
as many bytes as there are.  Every lexeme starts behind the glyphs that the texts before it stand for.  Without the
comments the lexemes are the same, less the comments. -/
theorem ofChunks_lossless (chunks : List (List UInt8)) :
    ∃ gs xs, (∀ gs', Utf8.Decodes chunks.flatten gs' ↔ gs' = gs) ∧
      ofChunks true chunks = xs ++ [⟨.endOfInput, "", Span.point (Glyph.place gs)⟩] ∧
      (∀ x ∈ xs, x.kind ≠ .endOfInput) ∧
      (Glyph.place gs).offset = chunks.flatten.length ∧
      String.join ((ofChunks true chunks).map Lexeme.text) = Glyph.text gs ∧
      (∀ x ∈ (ofChunks true chunks).head?, x.span.start = ⟨1, 1, 0⟩) ∧
      (ofChunks true chunks).IsChain (fun x y => y.span.start = x.span.stop) ∧
      (∀ before x after, ofChunks true chunks = before ++ x :: after →
        ∃ done, done <+: gs ∧ Glyph.text done = String.join (before.map Lexeme.text) ∧
          x.span.start = Glyph.place done) ∧
      ofChunks false chunks = (ofChunks true chunks).filter (·.kind ≠ .comment) := by
  have hdecodes := Utf8.decodes_decode chunks.flatten
  obtain ⟨xs, hxs, htiles⟩ := Scanner.tiles_lexemes (Utf8.decode chunks.flatten)
  have hall : ofChunks true chunks = xs ++ [endMark (Utf8.decode chunks.flatten)] := by
    rw [ofChunks_eq]
    exact (List.filter_eq_self.2 (by simp)).trans hxs
  refine ⟨Utf8.decode chunks.flatten, xs, fun gs' => ⟨fun h => h.unique hdecodes, fun h => h ▸ hdecodes⟩, hall,
    htiles.unmarked, hdecodes.width_sum, ?_, ?_, ?_, ?_, ?_⟩
  · rw [hall, List.map_append, String.join_append, htiles.join_text]
    exact String.append_empty
  · rw [hall]
    exact htiles.chain.1
  · rw [hall]
    exact htiles.chain.2
  · intro before x after hsplit
    obtain ⟨mid, hmid, hpart, hstart⟩ := htiles.start (hall.symm.trans hsplit)
    exact ⟨mid, hpart, hmid.join_text.symm, hstart⟩
  · rw [ofChunks_eq, ofChunks_eq, List.filter_filter]
    congr 1
    funext x
    cases x.kind <;> rfl

end Lexeme
end QuillLang
