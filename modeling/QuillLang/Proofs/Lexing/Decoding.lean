import Mathlib.Algebra.Ring.Nat
import QuillLang.Text.Utf8
/-!
# What decoding gives

Bytes are cut into stretches.  Each is the encoding of a character, or it is broken: no character stands there, and the
stretch is the longest that a character could begin with, or a single byte if none could (`Utf8.Broken`).  A broken stretch
is read as one U+FFFD.  There is one way to cut (`Utf8.Decodes.unique`), and it is the decoder's (`Utf8.decodes_decode`).

The decoder does not keep the bytes that it has seen of an unfinished character.  What it keeps says which characters these
bytes can still become (`Utf8.Pending`), so that it accepts a byte exactly if it is the next one of such a character.
-/
namespace QuillLang

namespace Utf8

/-- A stretch of bytes that no character stands at, as long as one could have begun with it. -/
structure Broken (bad rest : List UInt8) : Prop where
  nonempty : bad ≠ []
  no_char : ∀ c, ¬String.utf8EncodeChar c <+: bad ++ rest
  begins : bad.length = 1 ∨ ∃ c, bad <+: String.utf8EncodeChar c
  longest : ∀ more, more ≠ [] → more <+: rest → ∀ c, ¬bad ++ more <+: String.utf8EncodeChar c

/-- The characters that bytes stand for, every broken stretch as one U+FFFD, each with the number of its bytes. -/
inductive Decodes : List UInt8 → List Glyph → Prop where
  | nil : Decodes [] []
  | char (c : Char) {rest : List UInt8} {gs : List Glyph} (h : Decodes rest gs) :
    Decodes (String.utf8EncodeChar c ++ rest) (.ofChar c :: gs)
  | broken {bad rest : List UInt8} {gs : List Glyph} (hbad : Broken bad rest) (h : Decodes rest gs) :
    Decodes (bad ++ rest) (⟨replacement, bad.length⟩ :: gs)

/-! ## Encodings

Behind its first byte, the encoding of a character holds the code in sextets, the highest first.
-/

def sextets : Nat → Nat → List UInt8
  | 0, _ => []
  | k + 1, v => UInt8.ofNat (v / 64 ^ k % 64 + 0x80) :: sextets k v

theorem length_sextets (k v : Nat) : (sextets k v).length = k := by
  induction k with
  | zero => rfl
  | succ k ih => rw [sextets, List.length_cons, ih]

theorem toNat_sextet (v : Nat) : (UInt8.ofNat (v % 64 + 0x80)).toNat = v % 64 + 0x80 :=
  UInt8.toNat_ofNat_of_lt' (by show _ < 256; omega)

def following (v : Nat) : Nat :=
  if v ≤ 0x7F then 0 else if v ≤ 0x7FF then 1 else if v ≤ 0xFFFF then 2 else 3

def firstByte (v : Nat) : Nat :=
  if v ≤ 0x7F then v
  else if v ≤ 0x7FF then v / 64 % 32 + 0xC0
  else if v ≤ 0xFFFF then v / 4096 % 16 + 0xE0
  else v / 262144 % 8 + 0xF0

theorem firstByte_cases (v : Nat) :
    (v ≤ 0x7F ∧ firstByte v = v ∧ following v = 0) ∨
      (0x7F < v ∧ v ≤ 0x7FF ∧ firstByte v = v / 64 % 32 + 0xC0 ∧ following v = 1) ∨
      (0x7FF < v ∧ v ≤ 0xFFFF ∧ firstByte v = v / 4096 % 16 + 0xE0 ∧ following v = 2) ∨
      (0xFFFF < v ∧ firstByte v = v / 262144 % 8 + 0xF0 ∧ following v = 3) := by
  unfold firstByte following
  by_cases h₁ : v ≤ 0x7F
  · rw [if_pos h₁, if_pos h₁]
    exact .inl ⟨h₁, rfl, rfl⟩
  rw [if_neg h₁, if_neg h₁]
  by_cases h₂ : v ≤ 0x7FF
  · rw [if_pos h₂, if_pos h₂]
    exact .inr (.inl ⟨Nat.lt_of_not_le h₁, h₂, rfl, rfl⟩)
  rw [if_neg h₂, if_neg h₂]
  by_cases h₃ : v ≤ 0xFFFF
  · rw [if_pos h₃, if_pos h₃]
    exact .inr (.inr (.inl ⟨Nat.lt_of_not_le h₂, h₃, rfl, rfl⟩))
  · rw [if_neg h₃, if_neg h₃]
    exact .inr (.inr (.inr ⟨Nat.lt_of_not_le h₃, rfl, rfl⟩))

theorem firstByte_lt (v : Nat) : firstByte v < 256 := by
  have hcases := firstByte_cases v
  omega

theorem utf8EncodeChar_eq (c : Char) :
    String.utf8EncodeChar c = UInt8.ofNat (firstByte c.toNat) :: sextets (following c.toNat) c.toNat := by
  have hval : c.val.toNat = c.toNat := rfl
  rw [String.utf8EncodeChar.eq_1, hval, firstByte, following]
  by_cases h₁ : c.toNat ≤ 0x7F
  · simp only [if_pos h₁, sextets]
  by_cases h₂ : c.toNat ≤ 0x7FF
  · simp only [if_neg h₁, if_pos h₂, sextets, Nat.pow_zero, Nat.div_one]
  by_cases h₃ : c.toNat ≤ 0xFFFF
  · simp only [if_neg h₁, if_neg h₂, if_pos h₃, sextets, Nat.reducePow, Nat.div_one]
  · simp only [if_neg h₁, if_neg h₂, if_neg h₃, sextets, Nat.reducePow, Nat.div_one]

theorem utf8EncodeChar_eq_cons {c : Char} {b : UInt8} {r : List UInt8} :
    String.utf8EncodeChar c = b :: r ↔ firstByte c.toNat = b.toNat ∧ r = sextets (following c.toNat) c.toNat := by
  rw [utf8EncodeChar_eq, List.cons.injEq, ← UInt8.toNat_inj, UInt8.toNat_ofNat_of_lt' (firstByte_lt _)]
  exact and_congr_right fun _ => eq_comm

theorem char_unique {c c' : Char} {r r' : List UInt8} (h : String.utf8EncodeChar c ++ r = String.utf8EncodeChar c' ++ r') :
    c = c' ∧ r = r' := by
  have hchar : c = c' := by
    have hdecode := congrArg (fun bs => (List.toByteArray bs).utf8DecodeChar? 0) h
    simpa only [List.toByteArray_append, ByteArray.utf8DecodeChar?_utf8EncodeChar_append, Option.some.injEq] using hdecode
  subst hchar
  exact ⟨rfl, List.append_cancel_left h⟩

/-! ## One way to cut -/

theorem Broken.length_le {bad bad' rest rest' : List UInt8} (h : Broken bad rest) (h' : Broken bad' rest')
    (hsame : bad ++ rest = bad' ++ rest') : bad'.length ≤ bad.length := by
  rcases List.append_eq_append_iff.1 hsame with ⟨more, rfl, hrest⟩ | ⟨more, rfl, _⟩
  · cases more with
    | nil => simp
    | cons b more =>
      have hlong : ¬(bad ++ b :: more).length = 1 := by
        have := List.length_pos_iff.2 h.nonempty
        simp
        omega
      obtain ⟨c, hc⟩ := h'.begins.resolve_left hlong
      exact absurd hc (h.longest _ (List.cons_ne_nil b more) ⟨rest', hrest.symm⟩ c)
  · simp

theorem Decodes.unique {bs : List UInt8} {gs gs' : List Glyph} (h : Decodes bs gs) (h' : Decodes bs gs') : gs = gs' := by
  induction h generalizing gs' with
  | nil =>
    generalize hbs : ([] : List UInt8) = bs at h'
    cases h' with
    | nil => rfl
    | char c _ => exact absurd (List.append_eq_nil_iff.1 hbs.symm).1 String.utf8EncodeChar_ne_nil
    | broken hbad _ => exact absurd (List.append_eq_nil_iff.1 hbs.symm).1 hbad.nonempty
  | @char c rest gs h ih =>
    generalize hbs : String.utf8EncodeChar c ++ rest = bs at h'
    cases h' with
    | nil => exact absurd (List.append_eq_nil_iff.1 hbs).1 String.utf8EncodeChar_ne_nil
    | char c' h'' =>
      obtain ⟨rfl, rfl⟩ := char_unique hbs
      rw [ih h'']
    | broken hbad _ => exact absurd ⟨rest, hbs⟩ (hbad.no_char c)
  | @broken bad rest gs hbad h ih =>
    generalize hbs : bad ++ rest = bs at h'
    cases h' with
    | nil => exact absurd (List.append_eq_nil_iff.1 hbs).1 hbad.nonempty
    | char c _ => exact absurd ⟨_, hbs.symm⟩ (hbad.no_char c)
    | broken hbad' h'' =>
      have hlength := Nat.le_antisymm (hbad'.length_le hbad hbs.symm) (hbad.length_le hbad' hbs)
      obtain ⟨rfl, rfl⟩ := List.append_inj hbs hlength
      rw [ih h'']

theorem Decodes.width_sum {bs : List UInt8} {gs : List Glyph} (h : Decodes bs gs) :
    (gs.map Glyph.width).sum = bs.length := by
  induction h with
  | nil => rfl
  | char c _ ih => rw [List.map_cons, List.sum_cons, ih, List.length_append, Glyph.ofChar]
  | broken _ _ ih => rw [List.map_cons, List.sum_cons, ih, List.length_append]

theorem decodes_chars : ∀ cs : List Char, Decodes (cs.flatMap String.utf8EncodeChar) (cs.map .ofChar)
  | [] => .nil
  | c :: cs => .char c (decodes_chars cs)

/-! ## The decoder -/

def Unfinished.Awaits (u : Unfinished) (v : Nat) : Prop :=
  v / 64 ^ (u.owed - 1) / 64 = u.payload ∧
    u.low ≤ v / 64 ^ (u.owed - 1) % 64 + 0x80 ∧ v / 64 ^ (u.owed - 1) % 64 + 0x80 ≤ u.high

/-- What is kept of the bytes `seen` of an unfinished character. -/
structure Pending (seen : List UInt8) (u : Unfinished) : Prop where
  nonempty : seen ≠ []
  length : u.seen = seen.length
  owed : 0 < u.owed
  low : 0x80 ≤ u.low
  range : u.low ≤ u.high
  high : u.high ≤ 0xBF
  valid : ∀ v, u.Awaits v → v.isValidChar
  starts : ∀ (c : Char) (r : List UInt8),
    String.utf8EncodeChar c = seen ++ r ↔ u.Awaits c.toNat ∧ r = sextets u.owed c.toNat

/-- The code whose next sextet is the lowest, and those after it zero. -/
theorem Unfinished.awaits_low {u : Unfinished} (hlow : 0x80 ≤ u.low) (hrange : u.low ≤ u.high) (hhigh : u.high ≤ 0xBF) :
    u.Awaits ((u.payload * 64 + (u.low - 0x80)) * 64 ^ (u.owed - 1)) := by
  unfold Awaits
  rw [Nat.mul_div_cancel _ (Nat.pow_pos (by decide))]
  omega

theorem toNat_ofNat {v : Nat} (h : v.isValidChar) : (Char.ofNat v).toNat = v := by
  rw [Char.ofNat, dif_pos h]
  rfl

namespace Pending

variable {seen : List UInt8} {u : Unfinished}

theorem begins (h : Pending seen u) : ∃ c, seen <+: String.utf8EncodeChar c := by
  have hawaits := Unfinished.awaits_low h.low h.range h.high
  rw [← toNat_ofNat (h.valid _ hawaits)] at hawaits
  exact ⟨_, _, ((h.starts _ _).2 ⟨hawaits, rfl⟩).symm⟩

theorem no_char (h : Pending seen u) (c : Char) : ¬String.utf8EncodeChar c <+: seen := by
  rintro ⟨r, hr⟩
  obtain ⟨c', r', hr'⟩ := h.begins
  have hsame : String.utf8EncodeChar c ++ (r ++ r') = String.utf8EncodeChar c' ++ [] := by
    rw [List.append_nil, ← hr', ← hr, List.append_assoc]
  have hnil := (List.append_eq_nil_iff.1 (char_unique hsame).2).2
  have howed := congrArg List.length ((h.starts c' r').1 hr'.symm).2
  rw [hnil, length_sextets] at howed
  exact absurd h.owed (by simp [← howed])

theorem next (h : Pending seen u) {c : Char} {b : UInt8} {r : List UInt8} (hc : String.utf8EncodeChar c = seen ++ b :: r) :
    u.low ≤ b.toNat ∧ b.toNat ≤ u.high := by
  obtain ⟨⟨_, hrange⟩, hsextets⟩ := (h.starts c (b :: r)).1 hc
  obtain ⟨k, hk⟩ := Nat.exists_eq_succ_of_ne_zero (Nat.pos_iff_ne_zero.1 h.owed)
  rw [hk, sextets, List.cons.injEq] at hsextets
  rw [hk] at hrange
  rw [hsextets.1, toNat_sextet]
  exact hrange

theorem broken (h : Pending seen u) {rest : List UInt8}
    (hrest : ∀ b r, rest = b :: r → ¬(u.low ≤ b.toNat ∧ b.toNat ≤ u.high)) : Broken seen rest where
  nonempty := h.nonempty
  no_char := by
    intro c hc
    rcases List.prefix_or_prefix_of_prefix hc (List.prefix_append seen rest) with hbefore | ⟨r, hr⟩
    · exact h.no_char c hbefore
    · rw [← hr, List.prefix_append_right_inj] at hc
      cases r with
      | nil => exact h.no_char c ⟨[], by rw [← hr, List.append_nil, List.append_nil]⟩
      | cons b r =>
        obtain ⟨r', hr'⟩ := hc
        exact hrest b (r ++ r') hr'.symm (h.next hr.symm)
  begins := .inr h.begins
  longest := by
    rintro (_ | ⟨b, more⟩) hmore ⟨rest', rfl⟩ c ⟨r, hr⟩
    · exact hmore rfl
    · exact hrest b _ rfl (h.next (r := more ++ r) (by rw [← hr, List.append_assoc]; rfl))

theorem last (h : Pending seen u) {b : UInt8} (hlow : u.low ≤ b.toNat) (hhigh : b.toNat ≤ u.high) (howed : u.owed = 1) :
    String.utf8EncodeChar (Char.ofNat (u.payload * 64 + (b.toNat - 0x80))) = seen ++ [b] := by
  have hbounds := And.intro h.low h.high
  have hawaits : u.Awaits (u.payload * 64 + (b.toNat - 0x80)) := by
    unfold Unfinished.Awaits
    rw [howed, Nat.sub_self, Nat.pow_zero, Nat.div_one]
    omega
  have hcode := toNat_ofNat (h.valid _ hawaits)
  refine (h.starts _ _).2 ⟨by rwa [hcode], ?_⟩
  rw [howed, hcode, sextets, sextets, Nat.pow_zero, Nat.div_one]
  have hsextet : (u.payload * 64 + (b.toNat - 0x80)) % 64 + 0x80 = b.toNat := by omega
  rw [hsextet, UInt8.ofNat_toNat]

/-- One more byte, and not the last: a code that is still awaited was awaited before, with this byte next. -/
theorem more (h : Pending seen u) {b : UInt8} (hlow : u.low ≤ b.toNat) (hhigh : b.toNat ≤ u.high) (howed : 1 < u.owed) :
    Pending (seen ++ [b]) ⟨u.owed - 1, 0x80, 0xBF, u.payload * 64 + (b.toNat - 0x80), u.seen + 1⟩ := by
  obtain ⟨k, hk⟩ : ∃ k, u.owed = k + 2 := ⟨u.owed - 2, by omega⟩
  have hbounds := And.intro h.low h.high
  have hawaits : ∀ v, Unfinished.Awaits ⟨u.owed - 1, 0x80, 0xBF, u.payload * 64 + (b.toNat - 0x80), u.seen + 1⟩ v ↔
      u.Awaits v ∧ b.toNat = v / 64 ^ (k + 1) % 64 + 0x80 := by
    intro v
    have hdiv : v / 64 ^ (k + 1) = v / 64 ^ k / 64 := by rw [Nat.pow_succ, Nat.div_div_eq_div_mul]
    simp only [Unfinished.Awaits, hk, Nat.add_sub_cancel, Nat.reduceSubDiff, hdiv]
    omega
  refine ⟨by simp, by simp [h.length], by simp only; omega, Nat.le_refl _, ?_, Nat.le_refl _, fun v hv => ?_, fun c r => ?_⟩
  · show 0x80 ≤ 0xBF
    decide
  · exact h.valid v ((hawaits v).1 hv).1
  · rw [List.append_assoc, h.starts, hawaits, and_assoc, hk, sextets, List.singleton_append, List.cons.injEq,
      ← UInt8.toNat_inj, toNat_sextet]
    rfl

end Pending

/-! ### First bytes -/

theorem pending_lead {b : UInt8} {u : Unfinished} (hseen : u.seen = 1)
    (hrange : 0 < u.owed ∧ 0x80 ≤ u.low ∧ u.low ≤ u.high ∧ u.high ≤ 0xBF)
    (hcodes : ∀ v : Nat, u.Awaits v ↔ v.isValidChar ∧ firstByte v = b.toNat)
    (hfollowing : ∀ v : Nat, u.Awaits v → following v = u.owed) : Pending [b] u where
  nonempty := List.cons_ne_nil b []
  length := hseen
  owed := hrange.1
  low := hrange.2.1
  range := hrange.2.2.1
  high := hrange.2.2.2
  valid := fun v hv => ((hcodes v).1 hv).1
  starts := by
    intro c r
    have hvalid : c.toNat.isValidChar := c.valid
    rw [List.singleton_append, utf8EncodeChar_eq_cons, hcodes, and_iff_right hvalid]
    refine and_congr_right fun hfirst => ?_
    rw [hfollowing _ ((hcodes _).2 ⟨hvalid, hfirst⟩)]

inductive Lead (b : UInt8) : Decoder × List Glyph → Prop where
  | char (c : Char) (h : String.utf8EncodeChar c = [b]) : Lead b (none, [⟨c, 1⟩])
  | first (u : Unfinished) (h : Pending [b] u) : Lead b (some u, [])
  | none (h : ∀ c r, String.utf8EncodeChar c ≠ b :: r) : Lead b (none, [⟨replacement, 1⟩])

theorem lead_cases (b : UInt8) : Lead b (lead b) := by
  have hb : b.toNat < 256 := b.toNat_lt
  -- a byte that no character has first is one of a range that `firstByte` leaves out
  have hnone : (∀ v : Nat, v.isValidChar → firstByte v ≠ b.toNat) → ∀ c r, String.utf8EncodeChar c ≠ b :: r :=
    fun h c r hc => h c.toNat c.valid (utf8EncodeChar_eq_cons.1 hc).1
  refine iteInduction (fun hascii => ?_) fun hascii => ?_
  · have hvalid : b.toNat.isValidChar := .inl (by omega)
    refine .char _ (utf8EncodeChar_eq_cons.2 ?_)
    rw [toNat_ofNat hvalid]
    rcases firstByte_cases b.toNat with h | h | h | h
    · rw [h.2.2]
      exact ⟨h.2.1, rfl⟩
    all_goals omega
  refine iteInduction (fun hlow => ?_) fun hlow => ?_
  · refine .none (hnone fun v hv => ?_)
    have hcases := firstByte_cases v
    simp only [Nat.isValidChar] at hv
    omega
  repeat' refine iteInduction (fun h => ?_) fun h => ?_
  rotate_right
  · refine .none (hnone fun v hv => ?_)
    have hcases := firstByte_cases v
    simp only [Nat.isValidChar] at hv
    omega
  all_goals
    refine .first _ (pending_lead rfl (by simp) (fun v => ?_) fun v => ?_)
    all_goals
      have hcases := firstByte_cases v
      simp only [Unfinished.Awaits, Nat.reduceSub, Nat.reducePow, Nat.div_one, Nat.isValidChar]
      omega

theorem broken_lead {b : UInt8} (h : ∀ c r, String.utf8EncodeChar c ≠ b :: r) (rest : List UInt8) : Broken [b] rest where
  nonempty := List.cons_ne_nil b []
  no_char := by
    rintro c ⟨r, hr⟩
    obtain ⟨b', r', hc⟩ := List.exists_cons_of_ne_nil (String.utf8EncodeChar_ne_nil (c := c))
    rw [hc] at hr
    exact h c r' (hc.trans (congrArg (· :: r') (List.cons.inj hr).1))
  begins := .inl rfl
  longest := by
    rintro more - - c ⟨r, hr⟩
    exact h c _ hr.symm

/-! ### All bytes -/

theorem decodes_go (bs : List UInt8) :
    Decodes bs (decode.go none bs) ∧
      ∀ {seen : List UInt8} {u : Unfinished}, Pending seen u → Decodes (seen ++ bs) (decode.go (some u) bs) := by
  induction bs with
  | nil =>
    refine ⟨.nil, fun {seen u} h => ?_⟩
    have hbad : Broken seen [] := h.broken (by simp)
    have hbroken := Decodes.broken hbad .nil
    rwa [← h.length] at hbroken
  | cons b bs ih =>
    have hlead : Decodes (b :: bs) (decode.go none (b :: bs)) := by
      show Decodes (b :: bs) ((lead b).2 ++ decode.go (lead b).1 bs)
      generalize lead b = next, lead_cases b = hnext
      cases hnext with
      | char c hc =>
        have hchar := Decodes.char c ih.1
        rwa [Glyph.ofChar, hc] at hchar
      | first u h => exact ih.2 h
      | none h => exact .broken (broken_lead h bs) ih.1
    refine ⟨hlead, fun {seen u} h => ?_⟩
    rw [decode.go, step]
    simp only
    split
    · rename_i hrange
      split
      · have hlast := h.last hrange.1 hrange.2 (by have := h.owed; omega)
        have hchar := Decodes.char (Char.ofNat (u.payload * 64 + (b.toNat - 0x80))) ih.1
        rw [Glyph.ofChar, hlast, List.append_assoc, List.length_append, ← h.length] at hchar
        exact hchar
      · have hmore := ih.2 (h.more hrange.1 hrange.2 (by omega))
        rwa [List.append_assoc] at hmore
    · rename_i hrange
      have hbad : Broken seen (b :: bs) := h.broken (by rintro _ _ ⟨⟩; exact hrange)
      have hbroken := Decodes.broken hbad hlead
      rwa [← h.length] at hbroken

theorem decodes_decode (bs : List UInt8) : Decodes bs (decode bs) := (decodes_go bs).1

theorem decode_chars (cs : List Char) (rest : List UInt8) :
    decode (cs.flatMap String.utf8EncodeChar ++ rest) = cs.map .ofChar ++ decode rest := by
  induction cs with
  | nil => rfl
  | cons c cs ih =>
    rw [List.flatMap_cons, List.append_assoc, List.map_cons, List.cons_append, ← ih]
    exact (decodes_decode _).unique (.char c (decodes_decode _))

theorem decode_broken {bad rest : List UInt8} (h : Broken bad rest) :
    decode (bad ++ rest) = ⟨replacement, bad.length⟩ :: decode rest :=
  (decodes_decode _).unique (.broken h (decodes_decode _))

theorem decode_pending {seen : List UInt8} {u : Unfinished} (h : Pending seen u) :
    decode seen = [⟨replacement, seen.length⟩] := by
  have hbad : Broken seen [] := h.broken nofun
  have hdecode := decode_broken hbad
  rwa [List.append_nil] at hdecode

theorem decode_bytes (s : String) : decode (bytes s) = s.toList.map .ofChar := by
  have hdecode := decode_chars s.toList []
  rwa [List.append_nil, show decode [] = [] from rfl, List.append_nil] at hdecode

/-! ## Bytes at hand

A check of bytes finds the same stretches, as far as the bytes go.  Nothing that comes after them makes a broken stretch
longer, or a character of it.  A stretch that has not ended is left for when more is known.
-/

/-- What stands at the front of bytes. -/
inductive Front (bs : List UInt8) : Except (Option Nat) Glyph → Prop where
  | char (c : Char) (rest : List UInt8) (h : bs = String.utf8EncodeChar c ++ rest) : Front bs (.ok (.ofChar c))
  | broken (bad rest : List UInt8) (h : bs = bad ++ rest) (hbad : ∀ more, Broken bad (rest ++ more)) :
    Front bs (.error (some bad.length))
  | pending (u : Unfinished) (h : Pending bs u) : Front bs (.error none)

theorem front_goOn (bs : List UInt8) : ∀ {seen : List UInt8} {u : Unfinished}, Pending seen u →
    Front (seen ++ bs) (goOn u.low u.high u.payload u.seen u.owed bs) := by
  induction bs with
  | nil =>
    intro seen u h
    obtain ⟨owed, howed⟩ := Nat.exists_eq_succ_of_ne_zero (Nat.pos_iff_ne_zero.1 h.owed)
    rw [howed, List.append_nil, goOn]
    exact .pending u h
  | cons b bs ih =>
    intro seen u h
    obtain ⟨owed, howed⟩ := Nat.exists_eq_succ_of_ne_zero (Nat.pos_iff_ne_zero.1 h.owed)
    rw [howed, goOn]
    refine iteInduction (fun hrange => ?_) fun hrange => ?_
    · cases owed with
      | zero =>
        have hlast := h.last hrange.1 hrange.2 howed
        have hchar := @Front.char (seen ++ b :: bs) _ bs (by rw [hlast, List.append_assoc]; rfl)
        rw [Glyph.ofChar, hlast, List.length_append, ← h.length] at hchar
        rw [goOn]
        exact hchar
      | succ owed =>
        have hmore := ih (h.more hrange.1 hrange.2 (by omega))
        rw [List.append_assoc, howed] at hmore
        exact hmore
    · rw [h.length]
      exact .broken seen (b :: bs) rfl fun more => h.broken (by rintro _ _ ⟨⟩; exact hrange)

theorem lead_eq (b : UInt8) : lead b =
    match charWidth b with
    | 0 => (none, [⟨replacement, 1⟩])
    | 1 => (none, [⟨Char.ofNat b.toNat, 1⟩])
    | w + 2 => (some ⟨w + 1, (secondRange b).1, (secondRange b).2, b.toNat % (32 >>> w), 1⟩, []) := by
  have hbytes : ∀ n < 256, lead (UInt8.ofNat n) =
      match charWidth (UInt8.ofNat n) with
      | 0 => (none, [⟨replacement, 1⟩])
      | 1 => (none, [⟨Char.ofNat (UInt8.ofNat n).toNat, 1⟩])
      | w + 2 => (some ⟨w + 1, (secondRange (UInt8.ofNat n)).1, (secondRange (UInt8.ofNat n)).2,
          (UInt8.ofNat n).toNat % (32 >>> w), 1⟩, []) := by decide +kernel
  have hb := hbytes b.toNat b.toNat_lt
  rwa [UInt8.ofNat_toNat] at hb

theorem front_spec (b : UInt8) (bs : List UInt8) : Front (b :: bs) (front b bs) := by
  have hlead := lead_cases b
  rw [lead_eq] at hlead
  unfold front
  split <;> rename_i hwidth <;> rw [hwidth] at hlead <;> dsimp only at hlead
  · generalize hglyphs : [(⟨replacement, 1⟩ : Glyph)] = gs at hlead
    cases hlead with
    | none h => exact .broken [b] bs rfl fun more => broken_lead h _
    | char c h =>
      cases hglyphs
      have hlength : (String.utf8EncodeChar replacement).length = 3 := by decide
      rw [h] at hlength
      cases hlength
  · generalize hglyphs : [(⟨Char.ofNat b.toNat, 1⟩ : Glyph)] = gs at hlead
    cases hlead with
    | char c h =>
      cases hglyphs
      have hchar := @Front.char (b :: bs) _ bs (by rw [h]; rfl)
      rwa [Glyph.ofChar, h] at hchar
    | none h =>
      -- U+FFFD is the code of no byte
      have hb : b.toNat < 256 := b.toNat_lt
      have hcode : (Char.ofNat b.toNat).toNat = 0xFFFD := congrArg (fun gs => (gs.map (·.char.toNat)).sum) hglyphs
      rw [toNat_ofNat (.inl (by omega))] at hcode
      omega
  · cases hlead with
    | first _ h => exact front_goOn bs h

theorem drop_char {c : Char} {b : UInt8} {bs rest : List UInt8} (h : b :: bs = String.utf8EncodeChar c ++ rest) :
    bs.drop ((Glyph.ofChar c).width - 1) = rest := by
  unfold Glyph.ofChar
  obtain ⟨b', bs', hc⟩ := List.exists_cons_of_ne_nil (String.utf8EncodeChar_ne_nil (c := c))
  rw [hc, List.cons_append, List.cons.injEq] at h
  rw [hc, h.2]
  exact List.drop_left

/-- What a check says of bytes. -/
inductive Checked : List UInt8 → Except Fault (List Char) → Prop where
  | text (cs : List Char) : Checked (cs.flatMap String.utf8EncodeChar) (.ok cs)
  | broken (cs : List Char) (bad rest : List UInt8) (h : ∀ more, Broken bad (rest ++ more)) :
    Checked (cs.flatMap String.utf8EncodeChar ++ (bad ++ rest))
      (.error ⟨(cs.flatMap String.utf8EncodeChar).length, some bad.length⟩)
  | pending (cs : List Char) (seen : List UInt8) (u : Unfinished) (h : Pending seen u) :
    Checked (cs.flatMap String.utf8EncodeChar ++ seen) (.error ⟨(cs.flatMap String.utf8EncodeChar).length, none⟩)

theorem checked_go {valid : Nat} {text : List Char} {bs : List UInt8}
    (hvalid : valid = (text.reverse.flatMap String.utf8EncodeChar).length) :
    Checked (text.reverse.flatMap String.utf8EncodeChar ++ bs) (ofBytes.go valid text bs) := by
  fun_induction ofBytes.go valid text bs with
  | case1 valid text =>
    rw [List.append_nil]
    exact .text _
  | case2 valid text b bs n hn =>
    have hfront := front_spec b bs
    rw [hn] at hfront
    rw [hvalid]
    cases hfront with
    | broken bad rest h hbad =>
      rw [h]
      exact .broken _ bad rest hbad
    | pending u h => exact .pending _ _ u h
  | case3 valid text b bs g hg ih =>
    have hfront := front_spec b bs
    rw [hg] at hfront
    cases hfront with
    | char c rest h =>
      have hrest := drop_char h
      have htext : (c :: text).reverse.flatMap String.utf8EncodeChar =
          text.reverse.flatMap String.utf8EncodeChar ++ String.utf8EncodeChar c := by simp
      have hchecked := ih (by rw [hvalid]; simp [Glyph.ofChar])
      rw [hrest] at hchecked ⊢
      rw [h, ← List.append_assoc, ← htext]
      exact hchecked

/-- **A check says how far the bytes are a text, and what stands there.** -/
theorem checked_ofBytes (bs : List UInt8) : Checked bs (ofBytes bs) :=
  @checked_go 0 [] bs rfl

theorem chars_of_append {cs cs' : List Char} {rest : List UInt8}
    (h : cs.flatMap String.utf8EncodeChar = cs'.flatMap String.utf8EncodeChar ++ rest) :
    ∃ cs'', rest = cs''.flatMap String.utf8EncodeChar ∧ cs = cs' ++ cs'' := by
  induction cs' generalizing cs with
  | nil => exact ⟨cs, h.symm, rfl⟩
  | cons c cs' ih =>
    rw [List.flatMap_cons, List.append_assoc] at h
    cases cs with
    | nil => exact absurd (List.append_eq_nil_iff.1 h.symm).1 String.utf8EncodeChar_ne_nil
    | cons d cs =>
      obtain ⟨rfl, hrest⟩ := char_unique h
      obtain ⟨cs'', hcs'', rfl⟩ := ih hrest
      exact ⟨cs'', hcs'', rfl⟩

theorem ofBytes_chars (cs : List Char) : ofBytes (cs.flatMap String.utf8EncodeChar) = .ok cs := by
  have hchecked := checked_ofBytes (cs.flatMap String.utf8EncodeChar)
  generalize hbs : cs.flatMap String.utf8EncodeChar = bs at hchecked
  generalize ofBytes bs = r at hchecked
  -- behind the part that is a text stands a character, so that nothing is broken there or unfinished
  have hchar : ∀ (cs' : List Char) (rest : List UInt8),
      cs.flatMap String.utf8EncodeChar = cs'.flatMap String.utf8EncodeChar ++ rest → rest ≠ [] →
      ∃ c, String.utf8EncodeChar c <+: rest := by
    intro cs' rest h hrest
    obtain ⟨cs'', rfl, -⟩ := chars_of_append h
    cases cs'' with
    | nil => exact absurd rfl hrest
    | cons c cs'' => exact ⟨c, _, rfl⟩
  cases hchecked with
  | text cs' =>
    obtain ⟨cs'', hcs'', rfl⟩ := chars_of_append (hbs.trans (List.append_nil _).symm)
    cases cs'' with
    | nil => rw [List.append_nil]
    | cons c cs'' => exact absurd (List.append_eq_nil_iff.1 hcs''.symm).1 String.utf8EncodeChar_ne_nil
  | broken cs' bad rest h =>
    have hbad := h []
    rw [List.append_nil] at hbad
    obtain ⟨c, hc⟩ := hchar cs' _ hbs fun h => hbad.nonempty (List.append_eq_nil_iff.1 h).1
    exact absurd hc (hbad.no_char c)
  | pending cs' seen u h =>
    obtain ⟨c, hc⟩ := hchar cs' seen hbs h.nonempty
    exact absurd hc (h.no_char c)

end Utf8
end QuillLang
