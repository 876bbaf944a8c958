import QuillLang.Compile
import QuillLang.Proofs.Lexing.Tokens
/-!
# The text an error is about

A lexeme at fault is reported with its text and its span, and the source is shown as text, where a U+FFFD stands for every
broken stretch.  A span counts the bytes of the input, so it covers the text of the lexeme there.  A U+FFFD takes three
bytes, though, and a broken stretch may have fewer.  In the text that is shown, the lexeme stands behind its offset by as
many bytes as the stretches before it lack (`Compilation.error_range`), and only if they lack none is it where the span says.
-/
namespace QuillLang

namespace Utf8

def range (s : String) (offset len : Nat) : List UInt8 := ((bytes s).drop offset).take len

/-- What the broken stretches lack of the bytes of a U+FFFD each. -/
def lack (gs : List Glyph) : Nat := (gs.map fun g => if g.char = replacement then 3 - g.width else 0).sum

/-! ## Parts of the input -/

theorem Broken.before {bad rest more : List UInt8} (h : Broken bad (rest ++ more)) : Broken bad rest where
  nonempty := h.nonempty
  no_char c hc := h.no_char c (List.append_assoc .. ▸ hc.trans (List.prefix_append _ more))
  begins := h.begins
  longest more' hne hmore := h.longest more' hne (hmore.trans (List.prefix_append _ _))

/-- No character has more than four bytes, and one byte of it is missing. -/
theorem Broken.length_le_three {bad rest : List UInt8} (h : Broken bad rest) : bad.length ≤ 3 := by
  rcases h.begins with hone | ⟨c, more, hc⟩
  · omega
  · have hfour : (String.utf8EncodeChar c).length ≤ 4 := by
      rw [String.length_utf8EncodeChar]
      exact Char.utf8Size_le_four c
    have hmore : more ≠ [] := by
      rintro rfl
      rw [List.append_nil] at hc
      exact h.no_char c (hc ▸ List.prefix_append _ _)
    have := List.length_pos_iff.2 hmore
    rw [← hc, List.length_append] at hfour
    omega

theorem Decodes.split {bs : List UInt8} {gs : List Glyph} (h : Decodes bs gs) : ∀ {fst snd : List Glyph}, gs = fst ++ snd →
    ∃ before after, bs = before ++ after ∧ Decodes before fst ∧ Decodes after snd := by
  induction h with
  | nil =>
    intro fst snd hgs
    obtain ⟨rfl, rfl⟩ := List.append_eq_nil_iff.1 hgs.symm
    exact ⟨[], [], rfl, .nil, .nil⟩
  | char c h ih =>
    intro fst snd hgs
    cases fst with
    | nil =>
      obtain rfl : _ = snd := hgs
      exact ⟨[], _, rfl, .nil, .char c h⟩
    | cons g fst =>
      rw [List.cons_append, List.cons.injEq] at hgs
      obtain ⟨rfl, hgs⟩ := hgs
      obtain ⟨before, after, rfl, hbefore, hafter⟩ := ih hgs
      exact ⟨_, after, (List.append_assoc ..).symm, .char c hbefore, hafter⟩
  | broken hbad h ih =>
    intro fst snd hgs
    cases fst with
    | nil =>
      obtain rfl : _ = snd := hgs
      exact ⟨[], _, rfl, .nil, .broken hbad h⟩
    | cons g fst =>
      rw [List.cons_append, List.cons.injEq] at hgs
      obtain ⟨rfl, hgs⟩ := hgs
      obtain ⟨before, after, rfl, hbefore, hafter⟩ := ih hgs
      exact ⟨_, after, (List.append_assoc ..).symm, .broken hbad.before hbefore, hafter⟩

@[simp]
theorem lack_cons (g : Glyph) (gs : List Glyph) :
    lack (g :: gs) = (if g.char = replacement then 3 - g.width else 0) + lack gs := rfl

theorem bytes_append (s t : String) : bytes (s ++ t) = bytes s ++ bytes t := by simp [bytes]

theorem bytes_cons (g : Glyph) (gs : List Glyph) :
    bytes (Glyph.text (g :: gs)) = String.utf8EncodeChar g.char ++ bytes (Glyph.text gs) := by simp [bytes, Glyph.text]

theorem Decodes.eq_bytes {bs : List UInt8} {gs : List Glyph} (h : Decodes bs gs) (hwhole : ∀ g ∈ gs, g.char ≠ replacement) :
    bs = bytes (Glyph.text gs) := by
  induction h with
  | nil => rfl
  | char c _ ih => rw [bytes_cons, ← ih fun g hg => hwhole g (List.mem_cons_of_mem _ hg), Glyph.ofChar]
  | broken => exact absurd rfl (hwhole _ List.mem_cons_self)

theorem Decodes.length_text {bs : List UInt8} {gs : List Glyph} (h : Decodes bs gs) :
    (bytes (Glyph.text gs)).length = bs.length + lack gs := by
  have hreplacement : (String.utf8EncodeChar replacement).length = 3 := by decide
  induction h with
  | nil => rfl
  | char c _ ih =>
    have hnone : (if c = replacement then 3 - (String.utf8EncodeChar c).length else 0) = 0 := by
      split <;> simp [*]
    simp only [bytes_cons, List.length_append, ih, lack_cons, Glyph.ofChar, hnone]
    omega
  | broken hbad _ ih =>
    have := hbad.length_le_three
    simp only [bytes_cons, List.length_append, ih, lack_cons, if_pos, hreplacement]
    omega

end Utf8

/-! ## Lexemes at fault -/

namespace Lexeme

theorem Tiles.exists_piece {done all : List Glyph} {xs : List Lexeme} (h : Tiles done xs all) {x : Lexeme} (hx : x ∈ xs) :
    ∃ before piece after, all = before ++ (piece ++ after) ∧ x.text = Glyph.text piece ∧
      x.span = ⟨Glyph.place before, Glyph.place (before ++ piece)⟩ := by
  obtain ⟨xs, ys, rfl⟩ := List.append_of_mem hx
  obtain ⟨before, -, htail⟩ := Tiles.split xs h
  cases htail with
  | cons kind hkind hpiece hrest =>
    obtain ⟨after, hafter⟩ := hrest.isPrefix
    exact ⟨before, _, after, by rw [← hafter, List.append_assoc], rfl, rfl⟩

theorem Faulty.kind_ne_endOfInput {x : Lexeme} {e : TokenError} (h : x.Faulty e) : x.kind ≠ .endOfInput := by
  cases h <;> simp

theorem Faulty.whole {x : Lexeme} {e : TokenError} (h : x.Faulty e) (htaken : x.IsTaken) :
    ∀ c ∈ x.text.toList, c ≠ Utf8.replacement := by
  cases h with
  | operator =>
    obtain ⟨rest, hmatch⟩ := htaken.fits (by decide) (by decide)
    rintro c hc rfl
    exact absurd (hmatch.of_operator _ hc) (by decide +kernel)
  | @number text _ _ =>
    obtain ⟨rest, hmatch⟩ := htaken.fits (by decide) (by decide)
    dsimp only
    generalize text.toList = cs at hmatch
    cases hmatch with
    | number hsign _ hdigits =>
      rintro c hc rfl
      rcases List.mem_append.1 hc with hc | hc
      · rcases hsign with rfl | rfl
        · cases hc
        · exact absurd (List.mem_singleton.1 hc) (by decide)
      · exact absurd (hdigits _ hc).2 (by decide)

/-- **A lexeme at fault is the part of the input that its span covers.** -/
theorem Faulty.range {chunks : List (List UInt8)} {x : Lexeme} {e : TokenError} (h : x.Faulty e)
    (hx : x ∈ ofChunks false chunks) : ∃ before after, chunks.flatten = before ++ Utf8.bytes x.text ++ after ∧
      x.span.start.offset = before.length ∧ x.span.len = (Utf8.bytes x.text).length ∧
      Utf8.range (Utf8.toText chunks.flatten) (x.span.start.offset + Utf8.lack (Utf8.decode before)) x.span.len =
        Utf8.bytes x.text := by
  have hwhole := h.whole (isTaken_ofChunks false chunks x hx)
  obtain ⟨xs, hxs, htiles⟩ := Scanner.tiles_lexemes (Utf8.decode chunks.flatten)
  rw [ofChunks_eq, hxs] at hx
  have hmem : x ∈ xs := by
    refine (List.mem_append.1 (List.mem_filter.1 hx).1).resolve_right fun hend => h.kind_ne_endOfInput ?_
    rw [List.mem_singleton.1 hend]
    rfl
  obtain ⟨done, piece, rest, hall, htext, hspan⟩ := htiles.exists_piece hmem
  obtain ⟨before, _, hbytes, hbefore, hrest⟩ := (Utf8.decodes_decode chunks.flatten).split hall
  obtain ⟨_, after, rfl, hpiece, -⟩ := hrest.split rfl
  have hmiddle := hpiece.eq_bytes fun g hg => hwhole _ (by
    rw [htext, Glyph.text, String.toList_ofList]
    exact List.mem_map_of_mem hg)
  rw [← htext] at hmiddle
  have hstart : x.span.start.offset = before.length := by
    rw [hspan]
    exact hbefore.width_sum
  have hlen : x.span.len = (Utf8.bytes x.text).length := by
    rw [hspan, ← hmiddle, ← hpiece.width_sum]
    simp [Span.len, Glyph.place]
  refine ⟨before, after, ?_, hstart, hlen, ?_⟩
  · rw [hbytes, hmiddle, List.append_assoc]
  · have hshown : Utf8.bytes (Utf8.toText chunks.flatten) =
        Utf8.bytes (Glyph.text done) ++ (Utf8.bytes x.text ++ Utf8.bytes (Glyph.text rest)) := by
      rw [show Utf8.toText chunks.flatten = Glyph.text (Utf8.decode chunks.flatten) from rfl, hall, Glyph.text_append,
        Glyph.text_append, Utf8.bytes_append, Utf8.bytes_append, htext]
    rw [Utf8.range, hshown, hstart, hlen, (Utf8.decodes_decode before).unique hbefore, ← hbefore.length_text, List.drop_left,
      List.take_left]

end Lexeme

namespace Compilation

theorem all_of_error {chunks : List (List UInt8)} {e : TokenError} (h : ofChunks chunks = .error (.token e)) :
    (TokenStream.ofLexemes (Lexeme.ofChunks false chunks)).all = .error e := by
  cases hall : (TokenStream.ofLexemes (Lexeme.ofChunks false chunks)).all with
  | error =>
    rw [ofChunks, hall] at h
    cases h
    rfl
  | ok tokens =>
    rw [ofChunks, hall] at h
    change (Program.ofTokens tokens _).mapError CompileError.parse >>= _ = _ at h
    cases hparsed : Program.ofTokens tokens (TokenStream.ofLexemes (Lexeme.ofChunks false chunks)).stop <;>
      rw [hparsed] at h <;> cases h

/-- **An error about a lexeme points at its text.**  If the input is refused for an operator or a number, the bytes that the
span of the error covers are those of its text.  In the text of the whole input, they stand behind that place by what the
broken stretches before them lack. -/
theorem error_range {chunks : List (List UInt8)} {text : String} {span : Span} {e : TokenError}
    (h : ofChunks chunks = .error (.token e)) (he : e = .invalidOperator text span ∨ e = .invalidNumber text span) :
    ∃ before after, chunks.flatten = before ++ Utf8.bytes text ++ after ∧ span.start.offset = before.length ∧
      span.len = (Utf8.bytes text).length ∧
      Utf8.range (Utf8.toText chunks.flatten) (span.start.offset + Utf8.lack (Utf8.decode before)) span.len =
        Utf8.bytes text := by
  have hfault : ∃ x ∈ Lexeme.ofChunks false chunks, x.Faulty e := by
    have hall := all_of_error h
    rcases TokenStream.refused_or_accepted (Lexeme.isTaken_ofChunks false chunks) with
      ⟨before, x, after, e', hxs, -, hfault, hfailed, -⟩ | ⟨-, hfailed, -⟩
    · cases (TokenStream.all_of_failed hfailed).symm.trans hall
      exact ⟨x, hxs ▸ List.mem_append_right _ List.mem_cons_self, hfault⟩
    · cases (TokenStream.all_of_not_failed hfailed).symm.trans hall
  obtain ⟨x, hx, hfault⟩ := hfault
  have hrange := hfault.range hx
  rcases he with rfl | rfl <;> (cases hfault; exact hrange)

/-- The input is a byte that is no character, a blank and three plus signs. -/
def stray : List (List UInt8) := [[0xFF, 0x20, 0x2B, 0x2B, 0x2B]]

theorem stray_error : ofChunks stray = .error (.token (.invalidOperator "+++" ⟨⟨1, 3, 2⟩, ⟨1, 6, 5⟩⟩)) := by
  have hall : (TokenStream.ofLexemes (Lexeme.ofChunks false stray)).all =
      .error (.invalidOperator "+++" ⟨⟨1, 3, 2⟩, ⟨1, 6, 5⟩⟩) := by
    rw [Lexeme.ofChunks_eq]
    decide +kernel
  rw [ofChunks, hall]
  rfl

theorem error_range_stray : ∃ before after, stray.flatten = before ++ Utf8.bytes "+++" ++ after ∧ 2 = before.length ∧
    3 = (Utf8.bytes "+++").length ∧
    Utf8.range (Utf8.toText stray.flatten) (2 + Utf8.lack (Utf8.decode before)) 3 = Utf8.bytes "+++" :=
  error_range stray_error (.inl rfl)

/-- The span of the three plus signs begins within the U+FFFD that is shown before them. -/
theorem stray_not_in_range : ofChunks stray = .error (.token (.invalidOperator "+++" ⟨⟨1, 3, 2⟩, ⟨1, 6, 5⟩⟩)) ∧
    Utf8.range (Utf8.toText stray.flatten) 2 3 ≠ Utf8.bytes "+++" :=
  ⟨stray_error, by decide +kernel⟩

end Compilation
end QuillLang
