import QuillLang.Proofs.Symbols
/-!
# Reading instructions

An instruction is shown as words with blanks, commas and parentheses between them.  A name between quotes may have any of
these signs in it, and may look like other code.  It has no linefeed, and a reader that keeps track of quotes sees where a
word ends, so a line is made of words in one way (`spell_injective`), and the words say which operation it is.  Hence no two
instructions are shown alike (`Instr.text_unambiguous`).
-/
namespace QuillLang

/-! ## Words -/

def isDelimiter (c : Char) : Bool := c == ' ' || c == ',' || c == '(' || c == ')'

/-- Are we between quotes behind the character?  A delimiter that is not quoted ends the word, and so does a linefeed. -/
def scan (quoted : Bool) (c : Char) : Option Bool :=
  if c = '"' then some !quoted else if c = '\n' ∨ isDelimiter c ∧ !quoted then none else some quoted

/-- No delimiter stands in the text but between quotes, and the quotes are closed. -/
def IsWord (s : String) : Prop := s.toList.foldlM scan false = some false

instance (s : String) : Decidable (IsWord s) := inferInstanceAs (Decidable (_ = _))

def EndsWord : List Char → Prop
  | [] => True
  | c :: _ => isDelimiter c = true

theorem scan_delimiter {c : Char} (hc : isDelimiter c = true) : scan false c = none := by
  have hquote : c ≠ '"' := by
    rintro rfl
    cases hc
  rw [scan, if_neg hquote, if_pos (.inr ⟨hc, rfl⟩)]

/-- It can be seen where a word ends. -/
theorem word_unique : ∀ {quoted : Bool} {w w' r r' : List Char}, w.foldlM scan quoted = some false →
    w'.foldlM scan quoted = some false → EndsWord r → EndsWord r' → w ++ r = w' ++ r' → w = w' ∧ r = r'
  | _, [], [], _, _, _, _, _, _, h => ⟨rfl, h⟩
  | _, [], c :: w', r, r', hw, hw', hr, _, h => by
    obtain rfl : r = c :: (w' ++ r') := h
    cases hw
    rw [List.foldlM_cons, scan_delimiter hr] at hw'
    cases hw'
  | _, c :: w, [], r, r', hw, hw', _, hr', h => by
    obtain rfl : c :: (w ++ r) = r' := h
    cases hw'
    rw [List.foldlM_cons, scan_delimiter hr'] at hw
    cases hw
  | quoted, c :: w, c' :: w', r, r', hw, hw', hr, hr', h => by
    rw [List.cons_append, List.cons_append, List.cons.injEq] at h
    obtain ⟨rfl, h⟩ := h
    rw [List.foldlM_cons] at hw hw'
    obtain ⟨q, hq, hw⟩ := Option.bind_eq_some_iff.1 hw
    rw [hq] at hw'
    obtain ⟨hfirst, hrest⟩ := word_unique hw hw' hr hr' h
    exact ⟨congrArg _ hfirst, hrest⟩

/-- A line, as words with a delimiter before each. -/
def spell (ps : List (Char × String)) : List Char := ps.flatMap fun p => p.1 :: p.2.toList

theorem spell_cons (p : Char × String) (ps : List (Char × String)) : spell (p :: ps) = p.1 :: (p.2.toList ++ spell ps) := rfl

theorem spell_append (ps qs : List (Char × String)) : spell (ps ++ qs) = spell ps ++ spell qs := List.flatMap_append

def AreWords (ps : List (Char × String)) : Prop := ∀ p ∈ ps, isDelimiter p.1 = true ∧ IsWord p.2

@[simp] theorem areWords_nil : AreWords [] := List.forall_mem_nil _

@[simp] theorem areWords_cons {p : Char × String} {ps : List (Char × String)} :
    AreWords (p :: ps) ↔ (isDelimiter p.1 = true ∧ IsWord p.2) ∧ AreWords ps := List.forall_mem_cons

@[simp] theorem areWords_append {ps qs : List (Char × String)} : AreWords (ps ++ qs) ↔ AreWords ps ∧ AreWords qs :=
  List.forall_mem_append

/-- **A line is made of words in one way.** -/
theorem spell_injective : ∀ {ps qs : List (Char × String)}, AreWords ps → AreWords qs → spell ps = spell qs → ps = qs
  | [], [], _, _, _ => rfl
  | [], _ :: _, _, _, h | _ :: _, [], _, _, h => by cases h
  | p :: ps, q :: qs, hps, hqs, h => by
    rw [areWords_cons] at hps hqs
    have hends {rs : List (Char × String)} (hrs : AreWords rs) : EndsWord (spell rs) := by
      cases rs with
      | nil => exact trivial
      | cons r rs => exact (hrs r List.mem_cons_self).1
    obtain ⟨hdelimiter, h⟩ := List.cons.inj h
    obtain ⟨hword, hrest⟩ := word_unique hps.1.2 hqs.1.2 (hends hps.2) (hends hqs.2) h
    rw [spell_injective hps.2 hqs.2 hrest, Prod.ext hdelimiter (String.toList_inj.1 hword)]

theorem linefeed_notMem : ∀ {cs : List Char} {quoted quoted' : Bool}, cs.foldlM scan quoted = some quoted' → '\n' ∉ cs
  | [], _, _, _ => List.not_mem_nil
  | c :: cs, quoted, _, h => by
    rw [List.foldlM_cons] at h
    obtain ⟨q, hq, h⟩ := Option.bind_eq_some_iff.1 h
    rw [List.mem_cons, not_or]
    refine ⟨?_, linefeed_notMem h⟩
    rintro rfl
    cases hq

theorem AreWords.linefeed_notMem {ps : List (Char × String)} (h : AreWords ps) : '\n' ∉ spell ps := by
  intro hmem
  obtain ⟨p, hp, hmem⟩ := List.mem_flatMap.1 hmem
  rcases List.mem_cons.1 hmem with heq | hmem
  · exact absurd (heq ▸ (h p hp).1) (by decide)
  · exact QuillLang.linefeed_notMem (h p hp).2 hmem

theorem foldlM_scan : ∀ {cs : List Char} {quoted : Bool}, (∀ c ∈ cs, Symbol.isNameChar c = true) →
    cs.foldlM scan quoted = some quoted
  | [], _, _ => rfl
  | c :: cs, quoted, h => by
    have hne {d : Char} (hd : Symbol.isNameChar d = false) : c ≠ d := by
      rintro rfl
      exact absurd (h c List.mem_cons_self) (by simp [hd])
    have hc : scan quoted c = some quoted := by
      simp [scan, isDelimiter, hne (d := '"') (by decide), hne (d := ' ') (by decide), hne (d := ',') (by decide),
        hne (d := '(') (by decide), hne (d := ')') (by decide), hne (d := '\n') (by decide)]
    rw [List.foldlM_cons, hc]
    exact foldlM_scan fun d hd => h d (List.mem_cons_of_mem _ hd)

theorem foldlM_cons_scan {c : Char} {cs : List Char} (hc : scan false c = some false)
    (h : cs.foldlM scan false = some false) : (c :: cs).foldlM scan false = some false := by
  rw [List.foldlM_cons, hc]
  exact h

theorem foldlM_quoted : ∀ {cs : List Char}, '"' ∉ cs → '\n' ∉ cs → cs.foldlM scan true = some true
  | [], _, _ => rfl
  | c :: cs, h, h' => by
    rw [List.mem_cons, not_or] at h h'
    have hc : scan true c = some true := by simp [scan, Ne.symm h.1, Ne.symm h'.1]
    rw [List.foldlM_cons, hc]
    exact foldlM_quoted h.2 h'.2

theorem Symbol.isWord_ofName (s : String) : IsWord (ofName s) := by
  unfold IsWord
  have hshown := (read?_ofName s).1
  generalize (ofName s).toList = cs at hshown
  cases hshown with
  | plain name => exact foldlM_scan name
  | quoted h =>
    show List.foldlM scan true _ = _
    rw [List.foldlM_append, foldlM_quoted h.quote_notMem h.linefeed_notMem]
    rfl

theorem Symbol.isNameChar_of_isDigit {c : Char} (h : c.isDigit = true) : isNameChar c = true := by
  simp [isNameChar, Char.isAlphanum, h]

theorem Symbol.isNameChar_hexDigit : ∀ n < 16, isNameChar (hexDigit n) = true := by decide

/-! ## Operands -/

theorem Register.toList_text (r : Register) : r.text.toList = '%' :: 'v' :: (Decimal.ofNat r.index).toList := by
  simp [Register.text]

theorem Register.isWord_text (r : Register) : IsWord r.text := by
  rw [IsWord, r.toList_text]
  refine foldlM_cons_scan (by decide) (foldlM_scan (List.forall_mem_cons.2 ⟨by decide, fun c hc => ?_⟩))
  exact Symbol.isNameChar_of_isDigit (Decimal.isDigit_of_mem hc)

theorem Register.text_injective : Function.Injective Register.text := by
  rintro ⟨m⟩ ⟨n⟩ h
  exact congrArg _ (Decimal.ofNat_injective ((String.append_right_inj _).1 h))

theorem MachineType.isWord_text (ty : MachineType) : IsWord ty.text := by
  cases ty <;> rfl

theorem MachineType.text_injective : Function.Injective MachineType.text := by
  intro ty ty' h
  cases ty <;> cases ty' <;> first | rfl | exact absurd h (by decide)

theorem ArithOp.isWord_text (op : ArithOp) : IsWord op.text := by
  cases op <;> rfl

theorem ArithOp.text_injective : Function.Injective ArithOp.text := by
  intro op op' h
  cases op <;> cases op' <;> first | rfl | exact absurd h (by decide)

theorem CompareOp.isWord_text (op : CompareOp) : IsWord op.text := by
  cases op <;> rfl

theorem CompareOp.text_injective : Function.Injective CompareOp.text := by
  intro op op' h
  cases op <;> cases op' <;> first | rfl | exact absurd h (by decide)

theorem CastOp.isWord_text (op : CastOp) : IsWord op.text := by
  cases op <;> rfl

theorem CastOp.text_injective : Function.Injective CastOp.text := by
  intro op op' h
  cases op <;> cases op' <;> first | rfl | exact absurd h (by decide)

namespace Operand

theorem eq_of_hexDigits {m n : Nat} : ∀ {k : Nat}, (∀ i < k, m / 16 ^ i % 16 = n / 16 ^ i % 16) → m % 16 ^ k = n % 16 ^ k
  | 0, _ => by rw [Nat.pow_zero, Nat.mod_one, Nat.mod_one]
  | k + 1, h => by
    rw [Nat.mod_pow_succ, Nat.mod_pow_succ, eq_of_hexDigits fun i hi => h i (Nat.lt_succ_of_lt hi), h k (Nat.lt_succ_self k)]

theorem bitsText_injective : Function.Injective bitsText := by
  intro x y h
  have hdigits := List.map_inj_left.1 (String.ofList_injective h)
  have hsame : ∀ i < 16, x.toNat / 16 ^ i % 16 = y.toNat / 16 ^ i % 16 := by
    intro i hi
    have hdigit := congrArg Symbol.hexValue? (hdigits (15 - i) (List.mem_range.2 (by omega)))
    rw [Symbol.hexValue?_hexDigit _ (Nat.mod_lt _ (by decide)), Symbol.hexValue?_hexDigit _ (Nat.mod_lt _ (by decide)),
      Option.some_inj] at hdigit
    rw [show 15 - (15 - i) = i by omega] at hdigit
    exact hdigit
  have hbelow (z : UInt64) : z.toNat < 16 ^ 16 := z.toNat_lt
  have hall := eq_of_hexDigits hsame
  rwa [Nat.mod_eq_of_lt (hbelow x), Nat.mod_eq_of_lt (hbelow y), UInt64.toNat_inj] at hall

theorem toList_global (name : String) : (global name).text.toList = '@' :: (Symbol.ofName name).toList := by
  simp [text]

def formOf : List Char → Nat
  | '%' :: _ => 0
  | '0' :: 'x' :: _ => 2
  | 'n' :: _ => 3
  | '@' :: _ => 4
  | _ => 1

theorem mem_ofInt64 {n : Int64} {c : Char} (hc : c ∈ (Decimal.ofInt64 n).toList) :
    Symbol.isNameChar c = true ∧ c ∉ ['%', 'x', 'n', '@'] := by
  rcases Decimal.minus_or_isDigit hc with rfl | hdigit
  · decide
  · refine ⟨Symbol.isNameChar_of_isDigit hdigit, fun hother => ?_⟩
    have hnone : ['%', 'x', 'n', '@'].all (fun d => !d.isDigit) = true := rfl
    simpa [hdigit] using List.all_eq_true.1 hnone c hother

theorem formOf_text (v : Operand) : formOf v.text.toList = v.ctorIdx := by
  cases v with
  | register r => rw [text, r.toList_text]; rfl
  | int n =>
    have hmem (c : Char) := mem_ofInt64 (n := n) (c := c)
    show formOf (Decimal.ofInt64 n).toList = 1
    unfold formOf
    split <;> rename_i hcs <;> simp_all
  | float bits => rw [text, String.toList_append]; rfl
  | null => rfl
  | global name => rw [toList_global]; rfl

theorem text_injective : Function.Injective text := by
  intro v w h
  have hform := (formOf_text v).symm.trans ((congrArg (fun s => formOf s.toList) h).trans (formOf_text w))
  cases v <;> cases w <;> try cases hform
  case register.register => exact congrArg _ (Register.text_injective h)
  case int.int => exact congrArg _ (Int64.toInt_inj.1 (Decimal.ofInt_injective h))
  case float.float => exact congrArg _ (bitsText_injective ((String.append_right_inj _).1 h))
  case null.null => rfl
  case global.global => exact congrArg _ (Symbol.ofName_injective ((String.append_right_inj _).1 h))

theorem isWord_text (v : Operand) : IsWord v.text := by
  cases v with
  | register r => exact Register.isWord_text r
  | int n => exact foldlM_scan fun c hc => (mem_ofInt64 hc).1
  | float bits =>
    rw [IsWord, text, bitsText, String.toList_append]
    refine foldlM_scan (List.forall_mem_append.2 ⟨List.all_eq_true.1 rfl, fun c hc => ?_⟩)
    rw [String.toList_ofList] at hc
    obtain ⟨i, -, rfl⟩ := List.mem_map.1 hc
    exact Symbol.isNameChar_hexDigit _ (Nat.mod_lt _ (by decide))
  | null => rfl
  | global name =>
    rw [IsWord, toList_global]
    exact foldlM_cons_scan (by decide) (Symbol.isWord_ofName name)

end Operand

/-! ## Operations -/

namespace Operation

def typePieces (d : Char) : List MachineType → List (Char × String)
  | [] => [(d, "..."), (')', "")]
  | ty :: tys => (d, ty.text) :: (',', "") :: typePieces ' ' tys

def argPieces (d : Char) : List (MachineType × Operand) → List (Char × String)
  | [] => [(d, ""), (')', "")]
  | [(ty, v)] => [(d, ty.text), (' ', v.text), (')', "")]
  | (ty, v) :: arg :: args => (d, ty.text) :: (' ', v.text) :: (',', "") :: argPieces ' ' (arg :: args)

def pieces : Operation → List (Char × String)
  | alloca ty => [(' ', "alloca"), (' ', ty.text)]
  | load ty address => [(' ', "load"), (' ', ty.text), (',', ""), (' ', "ptr"), (' ', address.text)]
  | store ty value address =>
    [(' ', "store"), (' ', ty.text), (' ', value.text), (',', ""), (' ', "ptr"), (' ', address.text)]
  | element ty base index =>
    [(' ', "getelementptr"), (' ', ty.text), (',', ""), (' ', "ptr"), (' ', base.text), (',', ""), (' ', "i64"),
      (' ', index.text)]
  | arith op ty lhs rhs => [(' ', op.text), (' ', ty.text), (' ', lhs.text), (',', ""), (' ', rhs.text)]
  | compare op ty lhs rhs => [(' ', "icmp"), (' ', op.text), (' ', ty.text), (' ', lhs.text), (',', ""), (' ', rhs.text)]
  | cast op value source target => [(' ', op.text), (' ', source.text), (' ', value.text), (' ', "to"), (' ', target.text)]
  | call callee ret args variadic =>
    [(' ', "call"), (' ', ret.text)] ++ (variadic.elim [] fun tys => (' ', "") :: typePieces '(' tys) ++
      (' ', (Operand.global callee).text) :: argPieces '(' args

theorem spell_typePieces (d : Char) (tys : List MachineType) :
    spell (typePieces d tys) = d :: (String.join (tys.map fun ty => ty.text ++ ", ") ++ "...)").toList := by
  induction tys generalizing d with
  | nil => simp [typePieces, spell]
  | cons ty tys ih =>
    rw [typePieces, spell_cons, spell_cons, ih]
    simp

theorem spell_argPieces (d : Char) (args : List (MachineType × Operand)) :
    spell (argPieces d args) = d :: (", ".intercalate (args.map typedText) ++ ")").toList := by
  induction d, args using argPieces.induct with
  | case1 d => simp [argPieces, spell]
  | case2 d ty v => simp [argPieces, spell, typedText]
  | case3 d ty v arg args ih =>
    rw [argPieces, spell_cons, spell_cons, spell_cons, ih, List.map_cons, List.map_cons, List.map_cons,
      String.intercalate_cons_cons]
    simp [typedText]

theorem spell_pieces (o : Operation) : spell o.pieces = ' ' :: o.text.toList := by
  unfold text
  split
  case h_8 callee ret args variadic =>
    cases variadic <;> simp [pieces, variadicText, spell_cons, spell_append, spell_typePieces, spell_argPieces]
  all_goals simp [pieces, spell]

theorem areWords_typePieces (tys : List MachineType) {d : Char} (hd : isDelimiter d = true) :
    AreWords (typePieces d tys) := by
  induction tys generalizing d with
  | nil => simp +decide [typePieces, hd]
  | cons ty tys ih => simp +decide [typePieces, hd, ty.isWord_text, ih (d := ' ') rfl]

theorem areWords_argPieces (args : List (MachineType × Operand)) {d : Char} (hd : isDelimiter d = true) :
    AreWords (argPieces d args) := by
  induction d, args using argPieces.induct with
  | case1 d => simp +decide [argPieces, hd]
  | case2 d ty v => simp +decide [argPieces, hd, ty.isWord_text, v.isWord_text]
  | case3 d ty v arg args ih => simp +decide [argPieces, hd, ty.isWord_text, v.isWord_text, ih]

theorem areWords_pieces (o : Operation) : AreWords o.pieces := by
  cases o
  case call callee ret args variadic =>
    cases variadic <;> simp +decide [pieces, ret.isWord_text, Operand.isWord_text, areWords_typePieces _ (d := '(') rfl,
      areWords_argPieces args (d := '(') rfl]
  all_goals
    simp +decide [pieces, MachineType.isWord_text, Operand.isWord_text, ArithOp.isWord_text, CompareOp.isWord_text,
      CastOp.isWord_text]

theorem typePieces_unique {ps qs : List (Char × String)} : ∀ {tys tys' : List MachineType} {d : Char},
    typePieces d tys ++ ps = typePieces d tys' ++ qs → tys = tys' ∧ ps = qs
  | [], [], _, h => by simpa [typePieces] using h
  | [], ty :: tys, _, h | ty :: tys, [], _, h => by simp [typePieces] at h
  | ty :: tys, ty' :: tys', _, h => by
    simp [typePieces, MachineType.text_injective.eq_iff] at h
    obtain ⟨hrest, htail⟩ := typePieces_unique h.2
    exact ⟨by rw [h.1, hrest], htail⟩

theorem argPieces_injective : ∀ {d : Char}, Function.Injective (argPieces d)
  | _, [], [], _ => rfl
  | _, [], [_], h | _, [_], [], h | _, [], _ :: _ :: _, h | _, _ :: _ :: _, [], h | _, [_], _ :: _ :: _, h
  | _, _ :: _ :: _, [_], h => by simp [argPieces] at h
  | _, [(ty, v)], [(ty', v')], h => by
    simpa [argPieces, MachineType.text_injective.eq_iff, Operand.text_injective.eq_iff] using h
  | _, (ty, v) :: arg :: args, (ty', v') :: arg' :: args', h => by
    simp [argPieces, MachineType.text_injective.eq_iff, Operand.text_injective.eq_iff] at h
    rw [h.1, h.2.1, argPieces_injective h.2.2]

def formOf (word : String) : Nat :=
  [["alloca"], ["load"], ["store"], ["getelementptr"], ["add", "sub", "mul", "sdiv", "srem", "and", "lshr", "fmul"],
    ["icmp"], ["zext", "trunc", "sitofp", "fptosi"], ["call"]].findIdx (word ∈ ·)

theorem formOf_pieces (o : Operation) : o.pieces.head?.map (formOf ·.2) = some o.ctorIdx := by
  cases o with
  | arith op => cases op <;> rfl
  | cast op => cases op <;> rfl
  | _ => rfl

theorem pieces_injective : Function.Injective pieces := by
  intro o o' h
  have hform : o.ctorIdx = o'.ctorIdx := by
    rw [← Option.some_inj, ← formOf_pieces, ← formOf_pieces, h]
  cases o <;> cases o' <;> try cases hform
  case cast.cast op value source target op' value' source' target' =>
    simp [pieces, MachineType.text_injective.eq_iff, Operand.text_injective.eq_iff, CastOp.text_injective.eq_iff] at h
    obtain ⟨rfl, rfl, rfl, rfl⟩ := h
    rfl
  case call.call callee ret args variadic callee' ret' args' variadic' =>
    have hcallee {f : String} : (Operand.global f).text ≠ "" := fun h => by
      simpa [Operand.toList_global] using congrArg String.toList h
    cases variadic <;> cases variadic' <;>
      simp [pieces, MachineType.text_injective.eq_iff, hcallee, hcallee.symm] at h
    case none.none =>
      obtain ⟨rfl, hcallee, hargs⟩ := h
      cases Operand.text_injective hcallee
      rw [argPieces_injective hargs]
    case some.some tys tys' =>
      obtain ⟨rfl, h⟩ := h
      obtain ⟨rfl, hrest⟩ := typePieces_unique h
      obtain ⟨hcallee, hargs⟩ := List.cons.inj hrest
      cases Operand.text_injective (Prod.mk.inj hcallee).2
      rw [argPieces_injective hargs]
  all_goals simpa [pieces, MachineType.text_injective.eq_iff, Operand.text_injective.eq_iff, ArithOp.text_injective.eq_iff,
    CompareOp.text_injective.eq_iff] using h

end Operation

def Instr.pieces (i : Instr) : List (Char × String) :=
  (i.result.elim [] fun r => [(' ', r.text), (' ', "=")]) ++ i.operation.pieces

theorem Instr.spell_pieces (i : Instr) : spell i.pieces = ' ' :: i.text.toList := by
  rcases i with ⟨_ | r, o⟩ <;> simp [pieces, text, spell_cons, Operation.spell_pieces]

theorem Instr.areWords_pieces (i : Instr) : AreWords i.pieces := by
  rcases i with ⟨_ | r, o⟩
  · exact o.areWords_pieces
  · simp +decide [pieces, r.isWord_text, o.areWords_pieces]

/-- **No two instructions are shown alike.** -/
theorem Instr.text_unambiguous : Function.Injective Instr.text := by
  intro i i' h
  have hpieces : i.pieces = i'.pieces :=
    spell_injective i.areWords_pieces i'.areWords_pieces (by rw [i.spell_pieces, i'.spell_pieces, h])
  -- an operation does not begin with a register
  have hkeyword {r : Register} {o : Operation} {ps : List (Char × String)} (h : o.pieces = (' ', r.text) :: ps) : False := by
    have hform : Operation.formOf r.text = 8 := by
      simp [Operation.formOf, List.findIdx_cons, ← String.toList_inj, r.toList_text]
    have ho := o.formOf_pieces
    rw [h, List.head?_cons, Option.map_some, Option.some_inj, hform] at ho
    cases o <;> cases ho
  rcases i with ⟨_ | r, o⟩ <;> rcases i' with ⟨_ | r', o'⟩
  case none.none =>
    obtain rfl : o = o' := Operation.pieces_injective hpieces
    rfl
  case none.some => exact (hkeyword hpieces).elim
  case some.none => exact (hkeyword hpieces.symm).elim
  case some.some =>
    obtain ⟨hresult, hrest⟩ := List.cons.inj hpieces
    obtain rfl : o = o' := Operation.pieces_injective (List.cons.inj hrest).2
    rw [Register.text_injective (Prod.mk.inj hresult).2]

end QuillLang
