import QuillLang.Assembly.Listing
import QuillLang.Proofs.ByteOrder
/-!
# Bytes between quotes

A reader of listings takes what stands between quotes in two steps.  It goes to the next quote, whatever stands before it,
and then replaces each backslash and the two digits behind it by one byte (`Symbol.readQuoted`).  So the text may hold no
quote of its own, and no backslash but those of escapes (`Symbol.Quotable`).  Escaped texts are of this kind, byte for byte,
and so are the constants of a listing, whose closing zero is one byte more (`Symbol.Carries`).
-/
namespace QuillLang

namespace Utf8

/-- A byte below 128 is the encoding of the character with its number. -/
theorem utf8EncodeChar_ofNat {b : UInt8} (h : b.toNat ≤ 0x7F) : String.utf8EncodeChar (Char.ofNat b.toNat) = [b] := by
  have hchar : (Char.ofNat b.toNat).toNat = b.toNat := toNat_ofNat (.inl (by omega))
  rw [utf8EncodeChar_eq_cons, hchar, firstByte, following, if_pos h, if_pos h]
  exact ⟨rfl, rfl⟩

end Utf8

namespace Symbol

/-! ## Reading -/

def hexValue? (c : Char) : Option Nat :=
  if '0' ≤ c ∧ c ≤ '9' then some (c.toNat - '0'.toNat)
  else if 'A' ≤ c ∧ c ≤ 'F' then some (c.toNat - 'A'.toNat + 10)
  else none

def hexByte? (high low : Char) : Option UInt8 :=
  match hexValue? high, hexValue? low with
  | some h, some l => some (UInt8.ofNat (16 * h + l))
  | _, _ => none

/-- The bytes that a text between quotes denotes: an escape is one byte, any other character is itself. -/
def unescape : List Char → List UInt8
  | [] => []
  | '\\' :: high :: low :: cs =>
    match hexByte? high low with
    | some b => b :: unescape cs
    | none => String.utf8EncodeChar '\\' ++ unescape (high :: low :: cs)
  | c :: cs => String.utf8EncodeChar c ++ unescape cs

def readQuoted (cs : List Char) : Option (List UInt8 × List Char) :=
  match cs.dropWhile (· ≠ '"') with
  | [] => none
  | _ :: rest => some (unescape (cs.takeWhile (· ≠ '"')), rest)

/-- Printable ASCII with no quote, where every backslash begins an escape. -/
inductive Quotable : List Char → Prop where
  | nil : Quotable []
  | plain {c : Char} {cs : List Char} (printable : ' ' ≤ c ∧ c ≤ '~') (quote : c ≠ '"') (backslash : c ≠ '\\')
    (h : Quotable cs) : Quotable (c :: cs)
  | escape {high low : Char} {cs : List Char} (digits : (hexByte? high low).isSome = true) (h : Quotable cs) :
    Quotable ('\\' :: high :: low :: cs)

theorem unescape_plain {c : Char} (hc : c ≠ '\\') (cs : List Char) :
    unescape (c :: cs) = String.utf8EncodeChar c ++ unescape cs := by
  rw [unescape.eq_def]
  split
  · rename_i heq
    cases heq
  · rename_i heq
    cases heq
    exact absurd rfl hc
  · rename_i heq
    cases heq
    rfl

theorem unescape_escape {high low : Char} {b : UInt8} (h : hexByte? high low = some b) (cs : List Char) :
    unescape ('\\' :: high :: low :: cs) = b :: unescape cs := by
  rw [unescape, h]

namespace Quotable
variable {cs ds : List Char}

theorem append (h : Quotable cs) (h' : Quotable ds) : Quotable (cs ++ ds) := by
  induction h with
  | nil => exact h'
  | plain printable quote backslash _ ih => exact .plain printable quote backslash ih
  | escape digits _ ih => exact .escape digits ih

theorem unescape_append (h : Quotable cs) (ds : List Char) : unescape (cs ++ ds) = unescape cs ++ unescape ds := by
  induction h with
  | nil => rfl
  | @plain c cs _ _ backslash _ ih =>
    rw [List.cons_append, unescape_plain backslash, unescape_plain backslash, ih, List.append_assoc]
  | @escape high low cs digits _ ih =>
    obtain ⟨b, hb⟩ := Option.isSome_iff_exists.1 digits
    rw [List.cons_append, List.cons_append, List.cons_append, unescape_escape hb, unescape_escape hb, ih,
      List.cons_append]

theorem notMem {d : Char} (h : Quotable cs) (hd : d = '"' ∨ ¬ ' ' ≤ d) (hslash : d ≠ '\\') (hvalue : hexValue? d = none) :
    d ∉ cs := by
  induction h with
  | nil => exact List.not_mem_nil
  | plain printable quote _ _ ih =>
    rw [List.mem_cons, not_or]
    refine ⟨?_, ih⟩
    rintro rfl
    exact hd.elim quote fun hlow => hlow printable.1
  | @escape high low cs digits _ ih =>
    have hhigh : d ≠ high := by
      rintro rfl
      simp [hexByte?, hvalue] at digits
    have hlow : d ≠ low := by
      rintro rfl
      simp [hexByte?, hvalue] at digits
    simp [hslash, hhigh, hlow, ih]

theorem quote_notMem (h : Quotable cs) : '"' ∉ cs := h.notMem (.inl rfl) (by decide) (by decide)

theorem linefeed_notMem (h : Quotable cs) : '\n' ∉ cs := h.notMem (.inr (by decide)) (by decide) (by decide)

theorem readQuoted_append (h : Quotable cs) (rest : List Char) :
    readQuoted (cs ++ '"' :: rest) = some (Symbol.unescape cs, rest) := by
  have hne : ∀ c ∈ cs, decide (c ≠ '"') = true := by
    intro c hc
    rw [decide_eq_true_eq]
    rintro rfl
    exact h.quote_notMem hc
  unfold readQuoted
  rw [List.dropWhile_append_of_pos hne, List.takeWhile_append_of_pos hne, List.dropWhile_cons_of_neg (by decide),
    List.takeWhile_cons_of_neg (by decide), List.append_nil]

end Quotable

structure Carries (text : String) (bs : List UInt8) : Prop where
  quotable : Quotable text.toList
  denotes : unescape text.toList = bs
  closes : ∀ rest, readQuoted (text.toList ++ '"' :: rest) = some (bs, rest)

namespace Carries
variable {s t : String} {bs bs' : List UInt8}

theorem of_quotable (h : Quotable s.toList) (hs : unescape s.toList = bs) : Carries s bs :=
  ⟨h, hs, fun rest => hs ▸ h.readQuoted_append rest⟩

theorem append (h : Carries s bs) (h' : Carries t bs') : Carries (s ++ t) (bs ++ bs') := by
  refine of_quotable ?_ ?_
  · rw [String.toList_append]
    exact h.quotable.append h'.quotable
  · rw [String.toList_append, h.quotable.unescape_append, h.denotes, h'.denotes]

end Carries

/-! ## Escaped texts -/

theorem hexValue?_hexDigit : ∀ n < 16, hexValue? (hexDigit n) = some n := by decide

theorem hexByte?_hexDigit (b : UInt8) : hexByte? (hexDigit (b.toNat / 16)) (hexDigit (b.toNat % 16)) = some b := by
  have hb : b.toNat < 256 := b.toNat_lt
  rw [hexByte?, hexValue?_hexDigit _ (by omega), hexValue?_hexDigit _ (by omega)]
  show some (UInt8.ofNat (16 * (b.toNat / 16) + b.toNat % 16)) = some b
  rw [Nat.div_add_mod, UInt8.ofNat_toNat]

theorem isPlainByte_iff {b : UInt8} : isPlainByte b = true ↔
    0x20 ≤ b.toNat ∧ b.toNat ≤ 0x7E ∧ b.toNat ≠ 0x22 ∧ b.toNat ≠ 0x5C := by
  simp only [isPlainByte, Bool.and_eq_true, decide_eq_true_eq, bne_iff_ne, UInt8.le_iff_toNat_le, ne_eq,
    ← UInt8.toNat_inj, and_assoc]
  rfl

/-- A byte that stands for itself does so as a character of its own, and any other is an escape. -/
theorem escapeByte_reads (b : UInt8) : Quotable (escapeByte b) ∧ unescape (escapeByte b) = [b] := by
  unfold escapeByte
  split
  · rename_i hplain
    obtain ⟨hlow, hhigh, hquote, hbackslash⟩ := isPlainByte_iff.1 hplain
    have hchar : (Char.ofNat b.toNat).toNat = b.toNat := Utf8.toNat_ofNat (.inl (by omega))
    have hprintable : ' ' ≤ Char.ofNat b.toNat ∧ Char.ofNat b.toNat ≤ '~' := by
      show 0x20 ≤ (Char.ofNat b.toNat).toNat ∧ (Char.ofNat b.toNat).toNat ≤ 0x7E
      omega
    have hne : ∀ c : Char, b.toNat ≠ c.toNat → Char.ofNat b.toNat ≠ c := by
      rintro c hc rfl
      exact hc hchar.symm
    refine ⟨.plain hprintable (hne '"' hquote) (hne '\\' hbackslash) .nil, ?_⟩
    rw [unescape_plain (hne '\\' hbackslash), Utf8.utf8EncodeChar_ofNat (by omega)]
    rfl
  · exact ⟨.escape (by rw [hexByte?_hexDigit]; rfl) .nil, unescape_escape (hexByte?_hexDigit b) []⟩

theorem flatMap_escapeByte_reads : ∀ bs : List UInt8,
    Quotable (bs.flatMap escapeByte) ∧ unescape (bs.flatMap escapeByte) = bs
  | [] => ⟨.nil, rfl⟩
  | b :: bs => by
    obtain ⟨hbyte, hb⟩ := escapeByte_reads b
    obtain ⟨hbytes, hbs⟩ := flatMap_escapeByte_reads bs
    refine ⟨hbyte.append hbytes, ?_⟩
    rw [List.flatMap_cons, hbyte.unescape_append, hb, hbs]
    rfl

theorem carries_escape (s : String) : Carries (escape s) (Utf8.bytes s) := by
  obtain ⟨hquotable, hbytes⟩ := flatMap_escapeByte_reads (Utf8.bytes s)
  refine .of_quotable ?_ ?_
  · rw [escape, String.toList_ofList]
    exact hquotable
  · rw [escape, String.toList_ofList]
    exact hbytes

theorem escape_injective : Function.Injective escape := by
  intro s t h
  apply Utf8.bytes_injective
  rw [← (carries_escape s).denotes, ← (carries_escape t).denotes, h]

theorem carries_zero : Carries "\\00" [0] := .of_quotable (.escape (by decide) .nil) (by decide)

end Symbol

/-! ## Constants of a listing -/

/-- The line of a constant gives the number of its bytes, and these bytes between quotes. -/
structure Global.Denotes (g : Global) (bs : List UInt8) : Prop where
  length : g.byteLength = bs.length
  line : ∃ body, Symbol.Carries body bs ∧ g.line = "@" ++ Symbol.ofName g.name ++
    " = private unnamed_addr constant [" ++ Decimal.ofNat g.byteLength ++ " x i8] c\"" ++ body ++ "\""

theorem Global.denotes (g : Global) : g.Denotes (Utf8.bytes g.content ++ [0]) where
  length := by
    rw [List.length_append]
    rfl
  line := by
    refine ⟨Symbol.escape g.content ++ "\\00", (Symbol.carries_escape g.content).append Symbol.carries_zero, ?_⟩
    rw [Global.line]
    simp only [String.append_assoc]
    rfl

namespace Symbol

/-- **A text comes through a listing byte for byte.**  Escaped, it is printable ASCII that a reader takes up to the right
quote and gives back as the bytes of the text, so no two texts are escaped alike; and the number of bytes in the line of a
constant is that of the bytes between its quotes, the closing zero among them. -/
theorem escape_faithful (s : String) : Carries (escape s) (Utf8.bytes s) ∧ (∀ t, escape t = escape s → t = s) ∧
    ∀ name, (⟨name, s⟩ : Global).Denotes (Utf8.bytes s ++ [0]) :=
  ⟨carries_escape s, fun _ h => escape_injective h, fun name => Global.denotes ⟨name, s⟩⟩

theorem escape_lookalike : escape "\\22\"é\n" = "\\5C22\\22\\C3\\A9\\0A" ∧
    Carries (escape "\\22\"é\n") [0x5C, 0x32, 0x32, 0x22, 0xC3, 0xA9, 0x0A] ∧
    (⟨".str.0", "\\22\"é\n"⟩ : Global).Denotes [0x5C, 0x32, 0x32, 0x22, 0xC3, 0xA9, 0x0A, 0] ∧
    ∀ t, escape t = "\\5C22\\22\\C3\\A9\\0A" → t = "\\22\"é\n" := by
  obtain ⟨hcarries, hinjective, hglobal⟩ := escape_faithful "\\22\"é\n"
  have hescape : escape "\\22\"é\n" = "\\5C22\\22\\C3\\A9\\0A" := by decide
  exact ⟨hescape, hcarries, hglobal ".str.0", fun t ht => hinjective t (ht.trans hescape.symm)⟩

end Symbol
end QuillLang
