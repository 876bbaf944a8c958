/-!
# UTF-8

Bytes are read in two ways.  A check of the bytes at hand (`Utf8.ofBytes`) gives their text, or says how many of them are a
text and whether the bytes after these are no character or only the beginning of one.  The decoder (`Utf8.decode`) takes one
byte at a time and keeps what it knows of an unfinished character: how many bytes it still owes, the range the next one must
lie in, the payload so far.  A byte outside that range ends the unfinished character as one U+FFFD and is then read
afresh, so every maximal piece of a broken sequence becomes one U+FFFD.
-/
namespace QuillLang

/-- A decoded character and the number of bytes it was read from. -/
structure Glyph where
  char : Char
  width : Nat
  deriving DecidableEq

def Glyph.ofChar (c : Char) : Glyph := ⟨c, (String.utf8EncodeChar c).length⟩

namespace Utf8

/-- What stands for bytes that are no character. -/
def replacement : Char := '�'

/-! ## Bytes at hand -/

/-- Why bytes are no text. -/
structure Fault where
  /-- The number of bytes, from the first on, that are a text. -/
  validUpTo : Nat
  /-- The number of bytes after them that are no character.  There is none if the bytes end within a character. -/
  errorLength : Option Nat
  deriving DecidableEq

/-- The number of bytes of a character that has this byte first.  Zero: there is none. -/
def charWidth (b : UInt8) : Nat :=
  if b < 0x80 then 1 else if b < 0xC2 then 0 else if b < 0xE0 then 2 else if b < 0xF0 then 3 else if b < 0xF5 then 4 else 0

/-- The least and the greatest second byte behind a first one. -/
def secondRange (b : UInt8) : Nat × Nat :=
  (if b = 0xE0 then 0xA0 else if b = 0xF0 then 0x90 else 0x80, if b = 0xED then 0x9F else if b = 0xF4 then 0x8F else 0xBF)

/-- A character of which `seen` bytes are read and `owed` are not, the next one in a range: the character, or the number of
its bytes before the one that is out of range. -/
def goOn (low high payload seen : Nat) : Nat → List UInt8 → Except (Option Nat) Glyph
  | 0, _ => .ok ⟨Char.ofNat payload, seen⟩
  | _ + 1, [] => .error none
  | owed + 1, b :: bs =>
    if low ≤ b.toNat ∧ b.toNat ≤ high then goOn 0x80 0xBF (payload * 64 + (b.toNat - 0x80)) (seen + 1) owed bs
    else .error (some seen)

/-- The character that bytes begin with. -/
def front (b : UInt8) (bs : List UInt8) : Except (Option Nat) Glyph :=
  match charWidth b with
  | 0 => .error (some 1)
  | 1 => .ok ⟨Char.ofNat b.toNat, 1⟩
  | w + 2 => goOn (secondRange b).1 (secondRange b).2 (b.toNat % (32 >>> w)) 1 (w + 1) bs

/-- The text that bytes are. -/
def ofBytes (bs : List UInt8) : Except Fault (List Char) :=
  go 0 [] bs
where
  /-- `valid` bytes are read, and their text, backwards, is `text`. -/
  go (valid : Nat) (text : List Char) : List UInt8 → Except Fault (List Char)
    | [] => .ok text.reverse
    | b :: bs =>
      match front b bs with
      | .error n => .error ⟨valid, n⟩
      | .ok g => go (valid + g.width) (g.char :: text) (bs.drop (g.width - 1))
  termination_by bs => bs.length
  decreasing_by simp only [List.length_drop, List.length_cons]; omega

theorem goOn_ne_zero {low high payload seen owed : Nat} {bs : List UInt8} (h : 0 < seen) :
    goOn low high payload seen owed bs ≠ .error (some 0) := by
  fun_induction goOn low high payload seen owed bs with
  | case1 => nofun
  | case2 => nofun
  | case3 _ _ _ _ _ _ _ _ ih => exact ih (Nat.succ_pos _)
  | case4 =>
    rintro ⟨⟩
    exact absurd h (Nat.lt_irrefl 0)

theorem front_ne_zero (b : UInt8) (bs : List UInt8) : front b bs ≠ .error (some 0) := by
  unfold front
  split
  · nofun
  · nofun
  · exact goOn_ne_zero Nat.one_pos

theorem ofBytes.go_ne_zero {valid : Nat} {text : List Char} {bs : List UInt8} {e : Fault} (h : go valid text bs = .error e) :
    e.errorLength ≠ some 0 := by
  fun_induction go valid text bs with
  | case1 => cases h
  | case2 valid text b bs n hfront =>
    cases h
    rintro ⟨⟩
    exact front_ne_zero b bs hfront
  | case3 _ _ _ _ _ _ ih => exact ih h

/-- What is no character takes up a byte. -/
theorem ofBytes_ne_zero {bs : List UInt8} {e : Fault} (h : ofBytes bs = .error e) : bs ≠ [] ∧ e.errorLength ≠ some 0 := by
  refine ⟨?_, ofBytes.go_ne_zero h⟩
  rintro rfl
  rw [ofBytes, ofBytes.go] at h
  cases h

/-! ## One byte at a time -/

/-- What is known of a character whose last byte has not come. -/
structure Unfinished where
  /-- Bytes still owed, the next one included. -/
  owed : Nat
  /-- The range of the next byte. -/
  low : Nat
  high : Nat
  /-- The payload of the bytes seen. -/
  payload : Nat
  /-- The number of bytes seen. -/
  seen : Nat
  deriving DecidableEq

/-- Between characters, or within one. -/
abbrev Decoder := Option Unfinished

/-- A byte read between characters: a whole character, the first byte of a longer one, or no beginning at all. -/
def lead (b : UInt8) : Decoder × List Glyph :=
  let n := b.toNat
  if n < 0x80 then (none, [⟨Char.ofNat n, 1⟩])
  else if n < 0xC2 then (none, [⟨replacement, 1⟩])
  else if n < 0xE0 then (some ⟨1, 0x80, 0xBF, n - 0xC0, 1⟩, [])
  else if n = 0xE0 then (some ⟨2, 0xA0, 0xBF, 0, 1⟩, [])
  else if n = 0xED then (some ⟨2, 0x80, 0x9F, 0xD, 1⟩, [])
  else if n < 0xF0 then (some ⟨2, 0x80, 0xBF, n - 0xE0, 1⟩, [])
  else if n = 0xF0 then (some ⟨3, 0x90, 0xBF, 0, 1⟩, [])
  else if n < 0xF4 then (some ⟨3, 0x80, 0xBF, n - 0xF0, 1⟩, [])
  else if n = 0xF4 then (some ⟨3, 0x80, 0x8F, 4, 1⟩, [])
  else (none, [⟨replacement, 1⟩])

/-- One byte: the decoder after it, and the characters it completes or breaks. -/
def step (d : Decoder) (b : UInt8) : Decoder × List Glyph :=
  match d with
  | none => lead b
  | some u =>
    if u.low ≤ b.toNat ∧ b.toNat ≤ u.high then
      let payload := u.payload * 64 + (b.toNat - 0x80)
      if u.owed ≤ 1 then (none, [⟨Char.ofNat payload, u.seen + 1⟩])
      else (some ⟨u.owed - 1, 0x80, 0xBF, payload, u.seen + 1⟩, [])
    else
      let (d', gs) := lead b
      (d', ⟨replacement, u.seen⟩ :: gs)

/-- The end of the input breaks an unfinished character. -/
def finish (d : Decoder) : List Glyph :=
  match d with
  | none => []
  | some u => [⟨replacement, u.seen⟩]

def bytes (s : String) : List UInt8 :=
  s.toList.flatMap String.utf8EncodeChar

def decode (bs : List UInt8) : List Glyph :=
  go none bs
where
  go (d : Decoder) : List UInt8 → List Glyph
    | [] => finish d
    | b :: rest => (step d b).2 ++ go (step d b).1 rest

/-- The text that bytes stand for, every broken piece as one U+FFFD. -/
def toText (bs : List UInt8) : String :=
  String.ofList ((decode bs).map Glyph.char)

end Utf8
end QuillLang
