import QuillLang.Proofs.Lexing.Decoding
/-!
# The order of names and that of their bytes

No two texts have the same bytes.  Tables keep their names in the order of the code points, and UTF-8 keeps that order: of
two encodings with the same number of bytes the one of the lesser code is less in the first byte or, behind equal first
bytes, in the first sextet that differs, and a longer encoding has the greater first byte.  So names that stand in order
stand in the order of their bytes (`Utf8.bytes_lt_bytes`).
-/
namespace QuillLang
namespace Utf8

theorem bytes_injective {s t : String} (h : bytes s = bytes t) : s = t := by
  have hbytes : s.toList.utf8Encode = t.toList.utf8Encode := congrArg List.toByteArray h
  rw [String.utf8Encode_toList, String.utf8Encode_toList] at hbytes
  exact String.toByteArray_inj.1 hbytes

theorem sextets_lt : ∀ (k : Nat) {v w : Nat} (r r' : List UInt8), v % 64 ^ k < w % 64 ^ k →
    sextets k v ++ r < sextets k w ++ r'
  | 0, v, w, _, _, h => by
    rw [Nat.pow_zero, Nat.mod_one, Nat.mod_one] at h
    exact absurd h (Nat.lt_irrefl 0)
  | k + 1, v, w, r, r', h => by
    rw [Nat.mod_pow_succ, Nat.mod_pow_succ] at h
    rw [sextets, sextets, List.cons_append, List.cons_append, List.cons_lt_cons_iff, UInt8.lt_iff_toNat_lt,
      ← UInt8.toNat_inj, toNat_sextet, toNat_sextet]
    rcases Nat.lt_trichotomy (v / 64 ^ k % 64) (w / 64 ^ k % 64) with hlt | heq | hgt
    · exact .inl (Nat.add_lt_add_right hlt _)
    · rw [heq] at h
      exact .inr ⟨by rw [heq], sextets_lt k r r' (Nat.lt_of_add_lt_add_right h)⟩
    · -- the greater sextet would outweigh all that come behind it
      have hbelow : w % 64 ^ k < 64 ^ k := Nat.mod_lt _ (Nat.pow_pos (by decide))
      have hstep : 64 ^ k * (w / 64 ^ k % 64) + 64 ^ k ≤ 64 ^ k * (v / 64 ^ k % 64) := Nat.mul_le_mul_left _ hgt
      omega

/-- The first bytes are in the order of the codes, or they are equal and the sextets behind them are. -/
theorem firstByte_order {v w : Nat} (h : v < w) (hw : w < 0x110000) : firstByte v < firstByte w ∨
    firstByte v = firstByte w ∧ following v = following w ∧ v % 64 ^ following w < w % 64 ^ following w := by
  have hv := firstByte_cases v
  rcases firstByte_cases w with ⟨_, hb, hf⟩ | ⟨_, _, hb, hf⟩ | ⟨_, _, hb, hf⟩ | ⟨_, hb, hf⟩ <;>
    rw [hb, hf] <;> omega

theorem toNat_lt (c : Char) : c.toNat < 0x110000 := by
  have hvalid : c.toNat.isValidChar := c.valid
  unfold Nat.isValidChar at hvalid
  omega

theorem utf8EncodeChar_lt {c d : Char} (h : c < d) (r r' : List UInt8) :
    String.utf8EncodeChar c ++ r < String.utf8EncodeChar d ++ r' := by
  have hcode : c.toNat < d.toNat := h
  rw [utf8EncodeChar_eq, utf8EncodeChar_eq, List.cons_append, List.cons_append, List.cons_lt_cons_iff,
    UInt8.lt_iff_toNat_lt, ← UInt8.toNat_inj, UInt8.toNat_ofNat_of_lt' (firstByte_lt _),
    UInt8.toNat_ofNat_of_lt' (firstByte_lt _)]
  obtain hlt | ⟨heq, hfollowing, hsextets⟩ := firstByte_order hcode (toNat_lt d)
  · exact .inl hlt
  · rw [hfollowing]
    exact .inr ⟨heq, sextets_lt _ r r' hsextets⟩

theorem flatMap_lt : ∀ {cs ds : List Char}, cs < ds →
    cs.flatMap String.utf8EncodeChar < ds.flatMap String.utf8EncodeChar
  | [], [], h => absurd h (List.lt_irrefl [])
  | c :: cs, [], h => absurd h (List.not_lt_nil _)
  | [], d :: ds, _ => by
    rw [List.flatMap_nil, List.flatMap_cons, utf8EncodeChar_eq, List.cons_append]
    exact List.nil_lt_cons _ _
  | c :: cs, d :: ds, h => by
    rw [List.flatMap_cons, List.flatMap_cons]
    rcases List.cons_lt_cons_iff.1 h with hlt | ⟨rfl, hrest⟩
    · exact utf8EncodeChar_lt hlt _ _
    · exact List.append_left_lt (flatMap_lt hrest)

/-- **UTF-8 keeps the order of texts.** -/
theorem bytes_lt_bytes {s t : String} (h : s < t) : bytes s < bytes t := flatMap_lt h

end Utf8
end QuillLang
