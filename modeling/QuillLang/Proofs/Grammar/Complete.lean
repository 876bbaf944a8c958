import QuillLang.Proofs.Grammar.Sound
/-!
# What parses is read

The readers do not know the grammar's choices: they look at the next token, and at a name they search ahead for an
assignment, with no bound.  Before what opens a statement (`Token.Opens`) they find the same as the grammar, so tokens that
parse are read as what they parse as (`Program.ofTokens_of_parses`).

Between two tokens the readers call one another at most eight times deep, two for each tier, so the bound on the depth is
counted in tokens.
-/
namespace QuillLang

open Token (hull Names firstKind)

/-! ## Readers that give a value -/

namespace Cursor

/-- A reader takes tokens behind `c` and gives a value, with `rest` to come. -/
def Gives {α : Type} (c : Cursor) (ts rest : List Token) (a : α) (r : Except ParseError (α × Cursor)) : Prop :=
  ∃ c', r = .ok (a, c') ∧ c.Takes ts c' ∧ c'.rest = rest

namespace Gives
variable {α β : Type} {c c' : Cursor} {ts us rest rest' : List Token} {a : α} {b : β}
  {r : Except ParseError (α × Cursor)} {f : α × Cursor → Except ParseError (β × Cursor)}

theorem ok (h : c.Takes ts c') (hc : c'.rest = rest) : Gives c ts rest a (.ok (a, c')) := ⟨c', rfl, h, hc⟩

/-- What is read from a token on has the span from there to the last one. -/
theorem spanned {t : Token} (make : Span → α) (h : c.Takes (t :: ts) c') (hc : c'.rest = rest) :
    Gives c (t :: ts) rest (make (hull (t :: ts))) (.ok (make ⟨t.span.start, c'.previous⟩, c')) := by
  rw [h.hull_cons]
  exact .ok h hc

theorem bind (h : Gives c ts rest a r) (hf : ∀ d, c.Takes ts d → d.rest = rest → Gives c' us rest' b (f (a, d))) :
    Gives c' us rest' b (r >>= f) := by
  obtain ⟨d, rfl, htakes, hd⟩ := h
  exact hf d htakes hd

end Gives

variable {c : Cursor} {t : Token} {rest : List Token}

theorem gives_take {k : TokenKind} (e : Expectation) (ht : t.kind = k) (hc : c.rest = t :: rest) :
    Gives c [t] rest t (take k e c) := by
  unfold take
  rw [hc]
  dsimp only
  rw [if_pos ht]
  exact .ok (.past hc) rfl

theorem gives_ident {x : Ident} (ht : t.Names x) (hc : c.rest = t :: rest) : Gives c [t] rest x (ident c) := by
  obtain ⟨kind, span⟩ := t
  obtain ⟨hkind, rfl⟩ := ht
  obtain rfl : kind = .identifier x.name := hkind
  unfold ident
  rw [hc]
  exact .ok (.past hc) rfl

theorem sees_eq {k : TokenKind} (hc : c.rest = t :: rest) : c.sees k = decide (t.kind = k) := by
  unfold sees
  rw [hc]

end Cursor

open Stmt.readBlock (isCloserToken)
open Cursor (Gives gives_take gives_ident sees_eq)

/-! ## The search for an assignment -/

namespace Token

theorem startsAssignment_of_kind {t : Token} (ht : ∀ x, t.kind ≠ .identifier x) (ts : List Token) :
    startsAssignment (t :: ts) = false := by
  obtain ⟨kind, span⟩ := t
  unfold startsAssignment
  split
  · rename_i heq
    cases heq
    exact absurd rfl (ht _)
  · rename_i heq
    cases heq
    exact absurd rfl (ht _)
  · rfl

theorem startsAssignment_of_next {ts : List Token} (hassign : firstKind ts none ≠ some (.operator .assign))
    (hbracket : firstKind ts none ≠ some (.delimiter .lbracket)) (t : Token) : startsAssignment (t :: ts) = false := by
  unfold startsAssignment
  split
  · rename_i heq
    cases heq
    exact absurd rfl hassign
  · rename_i heq
    cases heq
    exact absurd rfl hbracket
  · rfl

end Token

namespace Expr.From
variable {ts : List Token} {e : Expr}

theorem starts (h : From ts e) : ∃ t us, ts = t :: us ∧ t.kind.startsExpression = true := by
  induction h with
  | var ht | number ht | string ht => exact ⟨_, _, rfl, by rw [ht]; rfl⟩
  | index ht _ _ _ hall => exact ⟨_, _, hall, by rw [ht.1]; rfl⟩
  | binary _ _ _ hall ihl =>
    obtain ⟨t, us, rfl, ht⟩ := ihl
    exact ⟨t, _, hall, ht⟩
  | neg ht _ hall | random ht _ _ hall => exact ⟨_, _, hall, by rw [ht]; rfl⟩
  | @trig _ _ _ _ func _ _ ht _ _ hall => exact ⟨_, _, hall, by rw [ht]; cases func <;> rfl⟩
  | paren ho _ _ hall => exact ⟨_, _, hall, by rw [ho]; rfl⟩

theorem no_assignment (h : From ts e) : ∀ {us : List Token}, firstKind us none ≠ some (.operator .assign) →
    firstKind us none ≠ some (.delimiter .lbracket) → Token.startsAssignment (ts ++ us) = false := by
  induction h with
  | var => exact fun hassign hbracket => Token.startsAssignment_of_next hassign hbracket _
  | number ht | string ht => exact fun _ _ => Token.startsAssignment_of_kind (by simp [ht]) _
  | @index t o c ts all x position ht ho h hc hall ih =>
    intro us hassign _
    obtain ⟨kind, span⟩ := t
    obtain ⟨kind', span'⟩ := o
    obtain ⟨rfl, -⟩ := ht
    obtain rfl : kind' = .delimiter .lbracket := ho
    rw [hall, List.cons_append, List.cons_append, List.append_assoc]
    show Token.assignsAfterClose 1 (ts ++ (c :: us)) = false
    rw [Token.assignsAfterClose_of_count ts _ (h.steady Token.counts_bracket 0), Token.assignsAfterClose_of_last hc]
    cases us with
    | nil => rfl
    | cons u us => simpa [firstKind] using hassign
  | @binary _ _ _ _ op _ _ _ ht _ hall ihl =>
    intro us _ _
    rw [hall, List.append_assoc]
    refine ihl ?_ (by simp [firstKind, ht])
    cases op <;> simp [firstKind, ht, BinaryOp.operator]
  | neg ht _ hall | trig ht _ _ hall | random ht _ _ hall | paren ht _ _ hall =>
    intro us _ _
    rw [hall]
    exact Token.startsAssignment_of_kind (by simp [ht]) _

end Expr.From

/-! ## Expressions -/

namespace Tier

theorem next?_eq_some {op : BinaryOp} {c : Cursor} {u : Token} {rest : List Token} (hu : u.kind = .operator op.operator)
    (hc : c.rest = u :: rest) : op.tier.next? c = some (op, c.past u rest) := by
  obtain ⟨kind, span⟩ := u
  obtain rfl : kind = .operator op.operator := hu
  unfold next?
  rw [hc]
  cases op <;> rfl

theorem next?_eq_none {t : Tier} {c : Cursor} (h : ∀ o, c.next = some (.operator o) → t.accepts o = false) :
    t.next? c = none := by
  unfold next?
  split
  · rename_i o span rest hc
    rw [if_neg]
    rw [h o (by unfold Cursor.next; rw [hc]; rfl)]
    simp
  · rfl

end Tier

namespace Level

/-- How much less than eight for each token the depth may be at a level. -/
@[simp] def slack : Level → Nat
  | primary => 7
  | unary => 6
  | joined .comparison | tier .comparison => 0
  | joined .additive | tier .additive => 2
  | joined .multiplicative | tier .multiplicative => 4

/-- Reading at a level gives an expression.  Where operands are joined, it comes to where one more is looked for. -/
def Reads (p : Level) (n : Nat) (ts rest : List Token) (e : Expr) : Prop :=
  ∀ c : Cursor, c.rest = ts ++ rest →
    match p with
    | primary => c.Gives ts rest e (Expr.readPrimary n c)
    | unary => c.Gives ts rest e (Expr.readUnary n c)
    | tier t => c.Gives ts rest e (Expr.readTier n t c)
    | joined t =>
      ∃ m c', Expr.readTier n t c = Expr.readClimb m t e c' ∧ n ≤ m + ts.length ∧ c.Takes ts c' ∧ c'.rest = rest

theorem slack_le (p : Level) : p.slack ≤ 7 := by
  unfold slack
  split <;> decide

theorem slack_joined (t : Tier) : (joined t).slack = (tier t).slack ∧ (tier t).slack ≤ 4 := by
  cases t <;> decide

theorem slack_operand (t : Tier) : t.operand.slack = (tier t).slack + 2 := by
  cases t <;> rfl

theorem Reads.readOperand {t : Tier} {n : Nat} {c : Cursor} {ts rest : List Token} {e : Expr}
    (h : t.operand.Reads n ts rest e) (hc : c.rest = ts ++ rest) : c.Gives ts rest e (Expr.readOperand (n + 1) t c) := by
  cases t <;> exact h c hc

end Level

namespace Expr
variable {n : Nat} {t o close : Token} {ts us rest : List Token} {e e' : Expr}

theorem readUnary_succ {c : Cursor} (hc : c.rest = t :: rest) (ht : t.kind ≠ .operator .minus) :
    readUnary (n + 1) c = readPrimary n c := by
  rw [readUnary, hc]
  split
  · rename_i heq
    cases heq
    exact absurd rfl ht
  · rfl

theorem reads_var {name : String} (ht : t.kind = .identifier name)
    (hnext : firstKind rest none ≠ some (.delimiter .lbracket)) :
    Level.primary.Reads (n + 1) [t] rest (.var name t.span) := by
  intro c hc
  conv in readPrimary _ _ => whnf
  rw [hc]
  simp only [List.singleton_append, ht]
  split
  · exact absurd rfl hnext
  · exact .ok (.past hc) rfl

theorem reads_index {x : Ident} (ht : t.Names x) (ho : o.kind = .delimiter .lbracket)
    (hclose : close.kind = .delimiter .rbracket) (h : Level.whole.Reads n ts (close :: rest) e) :
    Level.primary.Reads (n + 1) (t :: o :: (ts ++ [close])) rest (.index x e (hull (t :: o :: (ts ++ [close])))) := by
  intro c hc
  simp only [List.cons_append, List.append_assoc, List.nil_append] at hc
  obtain ⟨kind, span⟩ := t
  obtain ⟨kind', span'⟩ := o
  obtain ⟨hkind, rfl⟩ := ht
  obtain rfl : kind = .identifier x.name := hkind
  obtain rfl : kind' = .delimiter .lbracket := ho
  conv in readPrimary _ _ => whnf
  rw [hc]
  refine Gives.bind (h _ rfl) fun c₁ h₁ hc₁ => ?_
  refine (gives_take _ hclose hc₁).bind fun c₂ h₂ hc₂ => ?_
  exact .spanned (Expr.index x e) ((Cursor.Takes.past hc).append ((Cursor.Takes.past rfl).append (h₁.append h₂))) hc₂

theorem gives_pair {c : Cursor} (make : Expr → Expr → Span → Expr) (hc : c.rest = t :: (ts ++ (us ++ rest)))
    (h : Level.whole.Reads n ts (us ++ rest) e) (h' : Level.whole.Reads n us rest e') :
    c.Gives (t :: (ts ++ us)) rest (make e e' (hull (t :: (ts ++ us)))) (do
      let p ← readTier n .comparison (c.past t (ts ++ (us ++ rest)))
      let q ← readTier n .comparison p.2
      .ok (make p.1 q.1 ⟨t.span.start, q.2.previous⟩, q.2)) := by
  refine Gives.bind (h _ rfl) fun c₁ h₁ hc₁ => ?_
  refine Gives.bind (h' _ hc₁) fun c₂ h₂ hc₂ => ?_
  exact .spanned (make e e') ((Cursor.Takes.past hc).append (h₁.append h₂)) hc₂

theorem reads_trig {func : TrigFunc} (ht : t.kind = .keyword func.keyword) (h : Level.whole.Reads n ts (us ++ rest) e)
    (h' : Level.whole.Reads n us rest e') :
    Level.primary.Reads (n + 1) (t :: (ts ++ us)) rest (.trig func e e' (hull (t :: (ts ++ us)))) := by
  intro c hc
  simp only [List.cons_append, List.append_assoc] at hc
  have hgives := gives_pair (.trig func) hc h h'
  conv in readPrimary _ _ => whnf
  rw [hc]
  dsimp only
  rw [ht]
  cases func <;> exact hgives

theorem reads_random (ht : t.kind = .keyword .rand) (h : Level.whole.Reads n ts (us ++ rest) e)
    (h' : Level.whole.Reads n us rest e') :
    Level.primary.Reads (n + 1) (t :: (ts ++ us)) rest (.random e e' (hull (t :: (ts ++ us)))) := by
  intro c hc
  simp only [List.cons_append, List.append_assoc] at hc
  conv in readPrimary _ _ => whnf
  rw [hc]
  simp only [ht]
  exact gives_pair .random hc h h'

theorem reads_paren (ho : o.kind = .delimiter .lparen) (hclose : close.kind = .delimiter .rparen)
    (h : Level.whole.Reads n ts (close :: rest) e) :
    Level.primary.Reads (n + 1) (o :: (ts ++ [close])) rest (e.withSpan (hull (o :: (ts ++ [close])))) := by
  intro c hc
  simp only [List.cons_append, List.append_assoc, List.nil_append] at hc
  conv in readPrimary _ _ => whnf
  rw [hc]
  simp only [ho]
  refine Gives.bind (h _ rfl) fun c₁ h₁ hc₁ => ?_
  refine (gives_take _ hclose hc₁).bind fun c₂ h₂ hc₂ => ?_
  exact .spanned e.withSpan ((Cursor.Takes.past hc).append (h₁.append h₂)) hc₂

theorem reads_neg (ht : t.kind = .operator .minus) (h : Level.unary.Reads n ts rest e) :
    Level.unary.Reads (n + 1) (t :: ts) rest (.neg e (hull (t :: ts))) := by
  intro c hc
  obtain ⟨kind, span⟩ := t
  obtain rfl : kind = .operator .minus := ht
  dsimp only
  rw [readUnary, hc]
  refine Gives.bind (h _ rfl) fun c₁ h₁ hc₁ => ?_
  exact .spanned (Expr.neg e) ((Cursor.Takes.past hc).append h₁) hc₁

theorem reads_first {tier : Tier} (h : tier.operand.Reads n ts rest e) (hts : ts ≠ []) :
    (Level.joined tier).Reads (n + 2) ts rest e := by
  intro c hc
  have hpos : 0 < ts.length := List.length_pos_iff.2 hts
  obtain ⟨c', hread, htakes, hc'⟩ := h.readOperand hc
  refine ⟨n + 1, c', ?_, by omega, htakes, hc'⟩
  rw [readTier, hread]
  rfl

/-- One more operand is joined.  How deep it may be depends on how much of the depth is left. -/
theorem reads_binary {op : BinaryOp} (hl : (Level.joined op.tier).Reads n ts (o :: (us ++ rest)) e) (hts : ts ≠ [])
    (hstart : e.span = hull ts) (ho : o.kind = .operator op.operator) (hn : ts.length + 2 ≤ n)
    (hr : ∀ m, n ≤ m + ts.length + 2 → op.tier.operand.Reads m us rest e') :
    (Level.joined op.tier).Reads n (ts ++ o :: us) rest (.binary op e e' (hull (ts ++ o :: us))) := by
  intro c hc
  rw [List.append_assoc, List.cons_append] at hc
  obtain ⟨m, c₁, hjoin, hm, h₁, hc₁⟩ := hl c hc
  obtain ⟨m, rfl⟩ : ∃ k, m = k + 2 := ⟨m - 2, by omega⟩
  obtain ⟨c₂, hread, h₂, hc₂⟩ := (hr m (by omega)).readOperand (c := c₁.past o (us ++ rest)) rfl
  have htakes : c.Takes (ts ++ o :: us) c₂ := h₁.append ((Cursor.Takes.past hc₁).append h₂)
  have hstart : e.span.start = (hull (ts ++ o :: us)).start := by rw [hstart, Token.start_hull_append hts]
  refine ⟨m + 1, c₂, ?_, by simp; omega, htakes, hc₂⟩
  rw [hjoin, readClimb, Tier.next?_eq_some ho hc₁]
  dsimp only
  rw [hread, ← htakes.hull_eq (by simp) hstart]
  rfl

theorem reads_last {tier : Tier} (h : (Level.joined tier).Reads n ts rest e) (hn : ts.length < n)
    (hnext : ∀ o, firstKind rest none = some (.operator o) → tier.accepts o = false) :
    (Level.tier tier).Reads n ts rest e := by
  intro c hc
  obtain ⟨m, c', hjoin, hm, htakes, hc'⟩ := h c hc
  obtain ⟨m, rfl⟩ : ∃ k, m = k + 1 := ⟨m - 1, by omega⟩
  dsimp only
  rw [hjoin, readClimb, Tier.next?_eq_none (by unfold Cursor.next; rwa [hc'])]
  exact .ok htakes hc'

namespace Parses
variable {p : Level} {next : Option TokenKind}

theorem head_primary (h : Parses .primary ts e next) : ∃ t us, ts = t :: us ∧ t.kind ≠ .operator .minus := by
  cases h with
  | var ht | number ht | string ht => exact ⟨_, _, rfl, by simp [ht]⟩
  | index ht _ _ _ hall => exact ⟨_, _, hall, by simp [ht.1]⟩
  | trig ht _ _ hall | random ht _ _ hall | paren ht _ _ hall => exact ⟨_, _, hall, by simp [ht]⟩

theorem depth_pos (p : Level) (hts : ts ≠ []) (hn : 8 * ts.length ≤ n + p.slack) : ∃ m, n = m + 1 := by
  have hpos : 0 < ts.length := List.length_pos_iff.2 hts
  have hslack := p.slack_le
  exact ⟨n - 1, by omega⟩

/-- **Tokens that parse at a level are read there**, if the depth suffices. -/
theorem reads (h : Parses p ts e next) : ∀ {n : Nat} {rest : List Token}, firstKind rest none = next →
    8 * ts.length ≤ n + p.slack → p.Reads n ts rest e := by
  induction h with
  | var ht hnext =>
    rintro n rest rfl hn
    obtain ⟨n, rfl⟩ := depth_pos .primary (by simp) hn
    exact reads_var ht hnext
  | number ht | string ht =>
    intro n rest _ hn c hc
    obtain ⟨n, rfl⟩ := depth_pos .primary (by simp) hn
    conv in readPrimary _ _ => whnf
    rw [hc]
    simp only [List.singleton_append, ht]
    exact .ok (.past hc) rfl
  | index ht ho _ hclose hall ih =>
    intro n rest _ hn
    obtain ⟨n, rfl⟩ := depth_pos .primary (by simp [hall]) hn
    subst hall
    exact reads_index ht ho hclose (ih rfl (by simp at hn ⊢; omega))
  | trig ht _ _ hall ihd ihs =>
    rintro n rest rfl hn
    obtain ⟨n, rfl⟩ := depth_pos .primary (by simp [hall]) hn
    subst hall
    simp at hn
    exact reads_trig ht (ihd (Token.firstKind_append ..) (by simp; omega)) (ihs rfl (by simp; omega))
  | random ht _ _ hall ihs ihl =>
    rintro n rest rfl hn
    obtain ⟨n, rfl⟩ := depth_pos .primary (by simp [hall]) hn
    subst hall
    simp at hn
    exact reads_random ht (ihs (Token.firstKind_append ..) (by simp; omega)) (ihl rfl (by simp; omega))
  | paren ho _ hclose hall ih =>
    intro n rest _ hn
    obtain ⟨n, rfl⟩ := depth_pos .primary (by simp [hall]) hn
    subst hall
    exact reads_paren ho hclose (ih rfl (by simp at hn ⊢; omega))
  | plain h ih =>
    intro n rest hrest hn c hc
    obtain ⟨n, rfl⟩ := depth_pos .unary h.ne_nil hn
    obtain ⟨t, us, rfl, ht⟩ := h.head_primary
    dsimp only
    rw [readUnary_succ hc ht]
    exact ih hrest (by simp at hn ⊢; omega) c hc
  | neg ht _ hall ih =>
    intro n rest hrest hn
    obtain ⟨n, rfl⟩ := depth_pos .unary (by simp [hall]) hn
    subst hall
    exact reads_neg ht (ih hrest (by simp at hn ⊢; omega))
  | @first t ts e next h ih =>
    intro n rest hrest hn
    have hpos : 0 < ts.length := List.length_pos_iff.2 h.ne_nil
    obtain ⟨hjoined, hle⟩ := Level.slack_joined t
    obtain ⟨n, rfl⟩ : ∃ m, n = m + 2 := ⟨n - 2, by omega⟩
    refine reads_first (ih hrest ?_) h.ne_nil
    rw [Level.slack_operand]
    omega
  | @binary u ls rs all op left right next hl hu hr hall ihl ihr =>
    intro n rest hrest hn
    obtain ⟨hjoined, hle⟩ := Level.slack_joined op.tier
    subst hall
    rw [List.length_append, List.length_cons] at hn
    refine reads_binary (ihl rfl (by omega)) hl.ne_nil hl.toFrom.span_eq hu (by omega) fun m hm => ihr hrest ?_
    rw [Level.slack_operand]
    omega
  | @last t ts e next h hnext ih =>
    rintro n rest rfl hn
    have hpos : 0 < ts.length := List.length_pos_iff.2 h.ne_nil
    obtain ⟨hjoined, hle⟩ := Level.slack_joined t
    exact reads_last (ih rfl (by omega)) (by omega) hnext

theorem gives_read (h : Parses .whole ts e next) {c : Cursor} (hc : c.rest = ts ++ rest)
    (hrest : firstKind rest none = next) : c.Gives ts rest e (read c) :=
  h.reads hrest (by rw [hc]; simp; omega) c hc

end Parses
end Expr

/-! ## Tokens that open a statement -/

/-- Keywords that cannot go on with the statement before them. -/
def Keyword.parts : Keyword → Bool
  | .sin | .cos | .rand | .into => false
  | _ => true

namespace Token
variable {ts : List Token}

/-- Nothing that comes before these tokens goes on with them: there are none, or they begin with a keyword that parts
statements or with an assignment. -/
def Opens (ts : List Token) : Prop :=
  ∀ t ∈ ts.head?, (∃ k : Keyword, t.kind = .keyword k ∧ k.parts = true) ∨
    (∃ x, t.kind = .identifier x) ∧ startsAssignment ts = true

namespace Opens

theorem nil : Opens [] := fun _ h => by cases h

theorem keyword {t : Token} {k : Keyword} (ht : t.kind = .keyword k) (hk : k.parts = true) : Opens (t :: ts) := by
  rintro u ⟨⟩
  exact .inl ⟨k, ht, hk⟩

theorem ends (h : Opens ts) : TokenKind.Ends (firstKind ts none) := by
  cases ts with
  | nil => exact ⟨by simp [firstKind], by simp [firstKind]⟩
  | cons t ts =>
    obtain ⟨k, hk, -⟩ | ⟨⟨x, hx⟩, -⟩ := h t rfl
    · exact ⟨by simp [firstKind, hk], by simp [firstKind, hk]⟩
    · exact ⟨by simp [firstKind, hx], by simp [firstKind, hx]⟩

theorem no_into (h : Opens ts) {c : Cursor} (hc : c.rest = ts) : c.sees (.keyword .into) = false := by
  unfold Cursor.sees
  rw [hc]
  cases ts with
  | nil => rfl
  | cons t ts =>
    obtain ⟨k, hk, hparts⟩ | ⟨⟨x, hx⟩, -⟩ := h t rfl
    · have hne : k ≠ .into := by
        rintro rfl
        cases hparts
      simp [hk, hne]
    · simp [hx]

theorem no_argument (h : Opens ts) {c : Cursor} (hc : c.rest = ts) : Stmt.argumentComes c = false := by
  unfold Stmt.argumentComes
  rw [hc]
  cases ts with
  | nil => rfl
  | cons t ts =>
    obtain ⟨k, hk, hparts⟩ | ⟨-, hassign⟩ := h t rfl
    · have hstart : (TokenKind.keyword k).startsExpression = false := by
        cases k <;> first | rfl | cases hparts
      simp [hk, hstart]
    · simp [hassign]

end Opens
end Token

open Token (Opens)

/-! ## Statements -/

namespace Stmt

theorem From.opens {ts : List Token} {s : Stmt} (h : From ts s) (rest : List Token) : Opens (ts ++ rest) := by
  cases h with
  | @assign n t _ _ x _ hn ht _ hall =>
    subst hall
    rintro u ⟨⟩
    obtain ⟨kind, span⟩ := n
    obtain ⟨kind', span'⟩ := t
    obtain ⟨rfl, -⟩ := hn
    obtain rfl : kind' = .operator .assign := ht
    exact .inr ⟨⟨_, rfl⟩, rfl⟩
  | @assignArray n o c t is vs _ x _ _ hn ho hi hc ht _ hall =>
    subst hall
    rintro u ⟨⟩
    obtain ⟨kind, span⟩ := n
    obtain ⟨kind', span'⟩ := o
    obtain ⟨rfl, -⟩ := hn
    obtain rfl : kind' = .delimiter .lbracket := ho
    refine .inr ⟨⟨_, rfl⟩, ?_⟩
    show Token.assignsAfterClose 1 ((is ++ c :: t :: vs) ++ rest) = true
    rw [List.append_assoc, Token.assignsAfterClose_of_count is _ (hi.steady Token.counts_bracket 0), List.cons_append,
      Token.assignsAfterClose_of_last hc]
    simp [ht]
  | @graphics _ _ _ _ op ht _ _ hall =>
    subst hall
    exact .keyword ht (by cases op <;> rfl)
  | make ht _ _ hall | makeArray ht _ _ _ _ hall | when ht _ _ _ hall | loop ht _ _ _ hall | print ht _ hall | free ht _ hall
  | func ht _ _ _ _ hall | ret ht _ hall | call ht _ _ _ hall =>
    subst hall
    exact .keyword ht rfl

theorem ListFrom.opens {ts : List Token} {l : List Stmt} (h : ListFrom ts l) {rest : List Token} (hrest : Opens rest) :
    Opens (ts ++ rest) := by
  cases h with
  | nil => exact hrest
  | cons h _ =>
    rw [List.append_assoc]
    exact h.opens _

theorem From.not_closer {ts : List Token} {s : Stmt} (h : From ts s) :
    ∃ t us, ts = t :: us ∧ ∀ k, t.kind = .keyword k → k.isCloser = false := by
  cases h with
  | assign hn _ _ hall | assignArray hn _ _ _ _ _ hall => exact ⟨_, _, hall, by simp [hn.1]⟩
  | @graphics _ _ _ _ op ht _ _ hall => exact ⟨_, _, hall, by rw [ht]; rintro _ ⟨⟩; cases op <;> rfl⟩
  | make ht _ _ hall | makeArray ht _ _ _ _ hall | when ht _ _ _ hall | loop ht _ _ _ hall | print ht _ hall | free ht _ hall
  | func ht _ _ _ _ hall | ret ht _ hall | call ht _ _ _ hall => exact ⟨_, _, hall, by rw [ht]; rintro _ ⟨⟩; rfl⟩

theorem readParams_of_opens {ts : List Token} (h : Opens ts) (c : Cursor) : readParams c ts = ([], c) := by
  cases ts with
  | nil => rfl
  | cons t ts =>
    obtain ⟨kind, span⟩ := t
    obtain ⟨k, hk, -⟩ | ⟨⟨x, hx⟩, hassign⟩ := h _ rfl
    · obtain rfl : kind = .keyword k := hk
      rfl
    · obtain rfl : kind = .identifier x := hx
      rw [readParams, if_pos hassign]

theorem readParams_names {ps : List Token} {params : List Ident} (h : List.Forall₂ Names ps params) {rest : List Token}
    (hrest : Opens rest) : ∀ {c : Cursor}, c.rest = ps ++ rest →
    ∃ c', readParams c (ps ++ rest) = (params, c') ∧ c.Takes ps c' ∧ c'.rest = rest := by
  induction h with
  | nil => exact fun {c} hc => ⟨c, readParams_of_opens hrest c, .refl c, hc⟩
  | @cons t x ps params ht hps ih =>
    intro c hc
    obtain ⟨kind, span⟩ := t
    obtain ⟨hkind, rfl⟩ := ht
    obtain rfl : kind = .identifier x.name := hkind
    obtain ⟨c', hread, htakes, hc'⟩ := ih (c := c.past ⟨.identifier x.name, x.span⟩ (ps ++ rest)) rfl
    have hnext : TokenKind.Ends (firstKind (ps ++ rest) none) := by
      cases hps with
      | nil => exact hrest.ends
      | cons hu => exact ⟨by simp [firstKind, hu.1], by simp [firstKind, hu.1]⟩
    refine ⟨c', ?_, (Cursor.Takes.past hc).append htakes, hc'⟩
    have hno := Token.startsAssignment_of_next (hnext.operator .assign) hnext.bracket ⟨.identifier x.name, x.span⟩
    rw [List.cons_append, readParams, if_neg (by rw [hno]; simp), hread]

theorem no_argument {rs rest : List Token} {result : Option Ident} (h : Ident.IntoFrom rs result) (hrest : Opens rest)
    {c : Cursor} (hc : c.rest = rs ++ rest) : argumentComes c = false ∧ TokenKind.Ends (firstKind (rs ++ rest) none) := by
  cases h with
  | none => exact ⟨hrest.no_argument hc, hrest.ends⟩
  | some ht =>
    refine ⟨?_, by simp [firstKind, ht], by simp [firstKind, ht]⟩
    unfold argumentComes
    rw [hc]
    dsimp only [List.cons_append]
    rw [ht]
    rfl

theorem gives_readArgs {as : List Token} {args : List Expr} {next : Option TokenKind} (h : Expr.ListParses as args next)
    {rs rest : List Token} {result : Option Ident} (hresult : Ident.IntoFrom rs result) (hrest : Opens rest)
    (hnext : firstKind (rs ++ rest) none = next) : ∀ {n : Nat} {c : Cursor}, c.rest = as ++ (rs ++ rest) → as.length ≤ n →
    c.Gives as (rs ++ rest) args (readArgs n c) := by
  induction h with
  | nil =>
    intro n c hc _
    cases n with
    | zero => exact .ok (.refl c) hc
    | succ n =>
      rw [readArgs, (no_argument hresult hrest hc).1]
      exact .ok (.refl c) hc
  | @cons ts us e es next h hes ih =>
    intro n c hc hn
    obtain ⟨t, us', rfl, ht⟩ := h.toFrom.starts
    have hends : firstKind (us ++ (rs ++ rest)) none ≠ some (.operator .assign) ∧
        firstKind (us ++ (rs ++ rest)) none ≠ some (.delimiter .lbracket) := by
      cases hes with
      | nil => exact ⟨(no_argument hresult hrest (c := ⟨_, c.previous, c.stop⟩) rfl).2.operator _,
          (no_argument hresult hrest (c := ⟨_, c.previous, c.stop⟩) rfl).2.bracket⟩
      | cons h' _ =>
        obtain ⟨u, vs, rfl, hu⟩ := h'.toFrom.starts
        refine ⟨fun heq => ?_, fun heq => ?_⟩ <;>
        · have hkind : u.kind = _ := Option.some.inj heq
          rw [hkind] at hu
          cases hu
    rw [List.append_assoc] at hc
    have hcomes : argumentComes c = true := by
      unfold argumentComes
      rw [hc]
      have hno := h.toFrom.no_assignment hends.1 hends.2
      simp only [List.cons_append] at hno ⊢
      rw [hno, ht]
      rfl
    rw [List.length_append, List.length_cons] at hn
    obtain ⟨n, rfl⟩ : ∃ m, n = m + 1 := ⟨n - 1, by omega⟩
    rw [readArgs, if_pos hcomes]
    refine (h.gives_read hc (by rw [Token.firstKind_append, hnext])).bind fun c₁ h₁ hc₁ => ?_
    refine (ih hnext hc₁ (by omega)).bind fun c₂ h₂ hc₂ => ?_
    exact .ok (h₁.append h₂) hc₂

theorem gives_readInto? {rs rest : List Token} {result : Option Ident} (h : Ident.IntoFrom rs result) (hrest : Opens rest)
    {c : Cursor} (hc : c.rest = rs ++ rest) : c.Gives rs rest result (readInto? c) := by
  unfold readInto?
  cases h with
  | none =>
    rw [hrest.no_into hc]
    exact .ok (.refl c) hc
  | some ht hn =>
    rw [sees_eq hc, if_pos (by simpa using ht)]
    refine (gives_take _ ht hc).bind fun c₁ h₁ hc₁ => ?_
    refine (gives_ident hn hc₁).bind fun c₂ h₂ hc₂ => ?_
    exact .ok (h₁.append h₂) hc₂

theorem gives_argument {β : Type} {as rs rest : List Token} {e : Expr} {es : List Expr} {b : β} {c : Cursor}
    (h : Expr.ListParses as (e :: es) (firstKind (rs ++ rest) none)) (hc : c.rest = as ++ (rs ++ rest))
    {f : Expr × Cursor → Except ParseError (β × Cursor)}
    (hf : ∀ {us : List Token} {d : Cursor}, Expr.ListParses us es (firstKind (rs ++ rest) none) →
      d.rest = us ++ (rs ++ rest) → d.Gives (us ++ rs) rest b (f (e, d))) :
    c.Gives (as ++ rs) rest b (Expr.read c >>= f) := by
  cases h with
  | @cons ts us _ _ _ h hes =>
    rw [List.append_assoc] at hc
    refine (h.gives_read hc (Token.firstKind_append _ _ _)).bind fun c₁ h₁ hc₁ => ?_
    obtain ⟨c₂, hread, h₂, hc₂⟩ := hf hes hc₁
    exact ⟨c₂, hread, by simpa using h₁.append h₂, hc₂⟩

theorem gives_readGraphics? (op : Graphics) : ∃ reader, readGraphics? op.keyword = some reader ∧
    ∀ {as rs rest : List Token} {c : Cursor}, Expr.ListParses as op.arguments (firstKind (rs ++ rest) none) →
      Ident.IntoFrom rs op.result? → c.rest = as ++ (rs ++ rest) → c.Gives (as ++ rs) rest op (reader c) := by
  have hlast {as rs rest : List Token} {c : Cursor} {next : Option TokenKind} {op : Graphics}
      (has : Expr.ListParses as [] next) (hrs : Ident.IntoFrom rs none) (hc : c.rest = as ++ (rs ++ rest)) :
      c.Gives (as ++ rs) rest op (.ok (op, c)) := by
    cases has
    cases hrs
    exact .ok (.refl _) hc
  cases op with
  | init | poll | present | clear => exact ⟨_, rfl, hlast⟩
  | delay => exact ⟨_, rfl, fun has hrs hc => gives_argument has hc fun has hc => hlast has hrs hc⟩
  | surface | pixel =>
    refine ⟨_, rfl, fun has hrs hc => ?_⟩
    refine gives_argument has hc fun has hc => ?_
    exact gives_argument has hc fun has hc => hlast has hrs hc
  | window | color =>
    refine ⟨_, rfl, fun has hrs hc => ?_⟩
    refine gives_argument has hc fun has hc => ?_
    refine gives_argument has hc fun has hc => ?_
    exact gives_argument has hc fun has hc => hlast has hrs hc
  | getPixel =>
    refine ⟨_, rfl, fun has hrs hc => ?_⟩
    refine gives_argument has hc fun has hc => ?_
    refine gives_argument has hc fun has hc => ?_
    cases has
    obtain _ | ⟨ht, hn⟩ := hrs
    refine (gives_take _ ht hc).bind fun c₁ h₁ hc₁ => ?_
    refine (gives_ident hn hc₁).bind fun c₂ h₂ hc₂ => ?_
    exact .ok (h₁.append h₂) hc₂
  | line =>
    refine ⟨_, rfl, fun has hrs hc => ?_⟩
    refine gives_argument has hc fun has hc => ?_
    refine gives_argument has hc fun has hc => ?_
    refine gives_argument has hc fun has hc => ?_
    exact gives_argument has hc fun has hc => hlast has hrs hc

/-- Reading a block gives its statements, and takes the keyword that closes it. -/
def ReadsBlock (n : Nat) (closer : Keyword) (bs : List Token) (close : Token) (rest : List Token) (body : List Stmt) :
    Prop :=
  ∀ (opener : Keyword) (openedAt : Span) (c : Cursor), c.rest = bs ++ close :: rest →
    c.Gives (bs ++ [close]) rest body (readBlock n opener openedAt closer c)

section Statements
variable {m : Nat} {c : Cursor} {t n o close : Token} {ts us rest : List Token} {x : Ident} {e e' : Expr} {body : List Stmt}

theorem gives_make (ht : t.kind = .keyword .make) (hn : n.Names x) (he : e.Parses .whole ts (firstKind rest none))
    (hc : c.rest = t :: n :: (ts ++ rest)) :
    c.Gives (t :: n :: ts) rest (.make x e (hull (t :: n :: ts))) (readStmt (m + 1) c) := by
  rw [readStmt, hc]
  simp only [ht]
  refine (gives_ident hn rfl).bind fun c₁ h₁ hc₁ => ?_
  obtain ⟨v, vs, rfl, hstarts⟩ := he.toFrom.starts
  have hbracket : v.kind ≠ .delimiter .lbracket := by
    intro hv
    rw [hv] at hstarts
    cases hstarts
  dsimp only
  rw [sees_eq hc₁, if_neg (by simp [hbracket])]
  refine (he.gives_read hc₁ rfl).bind fun c₂ h₂ hc₂ => ?_
  exact .spanned (Stmt.make x e) ((Cursor.Takes.past hc).append (h₁.append h₂)) hc₂

theorem gives_makeArray (ht : t.kind = .keyword .make) (hn : n.Names x) (ho : o.kind = .delimiter .lbracket)
    (he : e.Parses .whole ts (some close.kind)) (hclose : close.kind = .delimiter .rbracket)
    (hc : c.rest = t :: n :: o :: (ts ++ close :: rest)) :
    c.Gives (t :: n :: o :: (ts ++ [close])) rest (.makeArray x e (hull (t :: n :: o :: (ts ++ [close]))))
      (readStmt (m + 1) c) := by
  rw [readStmt, hc]
  simp only [ht]
  refine (gives_ident hn rfl).bind fun c₁ h₁ hc₁ => ?_
  dsimp only
  rw [sees_eq hc₁, if_pos (by simp [ho])]
  refine (gives_take _ ho hc₁).bind fun c₂ h₂ hc₂ => ?_
  refine (he.gives_read hc₂ rfl).bind fun c₃ h₃ hc₃ => ?_
  refine (gives_take _ hclose hc₃).bind fun c₄ h₄ hc₄ => ?_
  exact .spanned (Stmt.makeArray x e) ((Cursor.Takes.past hc).append (h₁.append (h₂.append (h₃.append h₄)))) hc₄

theorem gives_assign (hn : n.Names x) (ht : t.kind = .operator .assign) (he : e.Parses .whole ts (firstKind rest none))
    (hc : c.rest = n :: t :: (ts ++ rest)) :
    c.Gives (n :: t :: ts) rest (.assign x e (hull (n :: t :: ts))) (readStmt (m + 1) c) := by
  have hnamed : readStmt (m + 1) c = readAssign c := by
    obtain ⟨kind, span⟩ := t
    obtain rfl : kind = .operator .assign := ht
    rw [readStmt, hc]
    simp only [hn.1, readNamed]
  rw [hnamed]
  refine (gives_ident hn hc).bind fun c₁ h₁ hc₁ => ?_
  refine (gives_take _ ht hc₁).bind fun c₂ h₂ hc₂ => ?_
  refine (he.gives_read hc₂ rfl).bind fun c₃ h₃ hc₃ => ?_
  rw [← hn.2]
  exact .spanned (Stmt.assign x e) (h₁.append (h₂.append h₃)) hc₃

theorem gives_assignArray (hn : n.Names x) (ho : o.kind = .delimiter .lbracket) (he : e.Parses .whole ts (some close.kind))
    (hclose : close.kind = .delimiter .rbracket) (ht : t.kind = .operator .assign)
    (he' : e'.Parses .whole us (firstKind rest none)) (hc : c.rest = n :: o :: (ts ++ close :: t :: (us ++ rest))) :
    c.Gives (n :: o :: (ts ++ close :: t :: us)) rest (.assignArray x e e' (hull (n :: o :: (ts ++ close :: t :: us))))
      (readStmt (m + 1) c) := by
  have hnamed : readStmt (m + 1) c = readAssignArray c := by
    obtain ⟨kind, span⟩ := o
    obtain rfl : kind = .delimiter .lbracket := ho
    rw [readStmt, hc]
    simp only [hn.1, readNamed]
  rw [hnamed]
  refine (gives_ident hn hc).bind fun c₁ h₁ hc₁ => ?_
  refine (gives_take _ ho hc₁).bind fun c₂ h₂ hc₂ => ?_
  refine (he.gives_read hc₂ rfl).bind fun c₃ h₃ hc₃ => ?_
  refine (gives_take _ hclose hc₃).bind fun c₄ h₄ hc₄ => ?_
  refine (gives_take _ ht hc₄).bind fun c₅ h₅ hc₅ => ?_
  refine (he'.gives_read hc₅ rfl).bind fun c₆ h₆ hc₆ => ?_
  rw [← hn.2]
  exact .spanned (Stmt.assignArray x e e') (h₁.append (h₂.append (h₃.append (h₄.append (h₅.append h₆))))) hc₆

/-- What follows the keyword of a test or a loop. -/
theorem gives_guarded (make : Expr → List Stmt → Span → Stmt) {opener closer : Keyword}
    (he : e.Parses .whole ts (firstKind us (some close.kind))) (hbody : ReadsBlock m closer us close rest body)
    (hc : c.rest = t :: (ts ++ (us ++ close :: rest))) :
    c.Gives (t :: (ts ++ (us ++ [close]))) rest (make e body (hull (t :: (ts ++ (us ++ [close]))))) (do
      let p ← Expr.read (c.past t (ts ++ (us ++ close :: rest)))
      let q ← readBlock m opener t.span closer p.2
      .ok (make p.1 q.1 ⟨t.span.start, q.2.previous⟩, q.2)) := by
  refine (he.gives_read rfl (Token.firstKind_append ..)).bind fun c₁ h₁ hc₁ => ?_
  refine (hbody opener t.span c₁ hc₁).bind fun c₂ h₂ hc₂ => ?_
  exact .spanned (make e body) ((Cursor.Takes.past hc).append (h₁.append h₂)) hc₂

theorem gives_func {params : List Ident} (ht : t.kind = .keyword .func) (hn : n.Names x)
    (hparams : List.Forall₂ Names ts params) (hopens : Opens (us ++ close :: rest))
    (hbody : ReadsBlock m .endKw us close rest body) (hc : c.rest = t :: n :: (ts ++ (us ++ close :: rest))) :
    c.Gives (t :: n :: (ts ++ (us ++ [close]))) rest
      (.func x params body (hull (t :: n :: (ts ++ (us ++ [close]))))) (readStmt (m + 1) c) := by
  rw [readStmt, hc]
  simp only [ht]
  refine (gives_ident hn rfl).bind fun c₁ h₁ hc₁ => ?_
  obtain ⟨c₂, hread, h₂, hc₂⟩ := readParams_names hparams hopens hc₁
  dsimp only
  rw [hc₁, hread]
  refine (hbody _ _ c₂ hc₂).bind fun c₃ h₃ hc₃ => ?_
  exact .spanned (Stmt.func x params body) ((Cursor.Takes.past hc).append (h₁.append (h₂.append h₃))) hc₃

theorem gives_print (ht : t.kind = .keyword .print) (he : e.Parses .whole ts (firstKind rest none))
    (hc : c.rest = t :: (ts ++ rest)) : c.Gives (t :: ts) rest (.print e (hull (t :: ts))) (readStmt (m + 1) c) := by
  rw [readStmt, hc]
  simp only [ht]
  refine (he.gives_read rfl rfl).bind fun c₁ h₁ hc₁ => ?_
  exact .spanned (Stmt.print e) ((Cursor.Takes.past hc).append h₁) hc₁

/-- What follows the keyword of a statement about one variable. -/
theorem gives_naming (make : Ident → Span → Stmt) (hn : n.Names x) (hc : c.rest = t :: n :: rest) :
    c.Gives [t, n] rest (make x (hull [t, n])) (do
      let p ← Cursor.ident (c.past t (n :: rest))
      .ok (make p.1 ⟨t.span.start, p.2.previous⟩, p.2)) := by
  refine (gives_ident hn rfl).bind fun c₁ h₁ hc₁ => ?_
  exact .spanned (make x) ((Cursor.Takes.past hc).append h₁) hc₁

theorem gives_call {args : List Expr} {result : Option Ident} (ht : t.kind = .keyword .call) (hn : n.Names x)
    (hargs : Expr.ListParses ts args (firstKind us (firstKind rest none))) (hresult : Ident.IntoFrom us result)
    (hopens : Opens rest) (hc : c.rest = t :: n :: (ts ++ (us ++ rest))) :
    c.Gives (t :: n :: (ts ++ us)) rest (.call x args result (hull (t :: n :: (ts ++ us)))) (readStmt (m + 1) c) := by
  rw [readStmt, hc]
  simp only [ht]
  refine (gives_ident hn rfl).bind fun c₁ h₁ hc₁ => ?_
  have hargs := gives_readArgs hargs hresult hopens (Token.firstKind_append ..) hc₁ (n := c₁.rest.length) (by simp [hc₁])
  refine hargs.bind fun c₂ h₂ hc₂ => ?_
  refine (gives_readInto? hresult hopens hc₂).bind fun c₃ h₃ hc₃ => ?_
  exact .spanned (Stmt.call x args result) ((Cursor.Takes.past hc).append (h₁.append (h₂.append h₃))) hc₃

theorem readStmt_graphics {k : Keyword} {reader : Reader Graphics} (hk : readGraphics? k = some reader)
    (ht : t.kind = .keyword k) (hc : c.rest = t :: rest) :
    readStmt (m + 1) c = (reader (c.past t rest) >>= fun p => .ok (.graphics p.1 ⟨t.span.start, p.2.previous⟩, p.2)) := by
  rw [readStmt, hc]
  dsimp only
  rw [ht]
  cases k <;> cases hk <;> rfl

theorem gives_graphics {op : Graphics} (ht : t.kind = .keyword op.keyword)
    (hargs : Expr.ListParses ts op.arguments (firstKind us (firstKind rest none))) (hresult : Ident.IntoFrom us op.result?)
    (hc : c.rest = t :: (ts ++ (us ++ rest))) :
    c.Gives (t :: (ts ++ us)) rest (.graphics op (hull (t :: (ts ++ us)))) (readStmt (m + 1) c) := by
  obtain ⟨reader, hreader, hgives⟩ := gives_readGraphics? op
  rw [readStmt_graphics hreader ht hc]
  rw [← Token.firstKind_append] at hargs
  refine (hgives hargs hresult rfl).bind fun c₁ h₁ hc₁ => ?_
  exact .spanned (Stmt.graphics op) ((Cursor.Takes.past hc).append h₁) hc₁

end Statements

mutual

theorem Parses.gives_readStmt : ∀ {n : Nat} {ts : List Token} {s : Stmt} {c : Cursor} {rest : List Token},
    Parses ts s (firstKind rest none) → c.rest = ts ++ rest → Opens rest → ts.length ≤ n → c.Gives ts rest s (readStmt n c)
  | 0, _, _, _, _, h, _, _, hn => absurd (List.length_eq_zero_iff.1 (Nat.le_zero.1 hn)) h.ne_nil
  | m + 1, ts, s, c, rest, h, hc, hopens, hm => by
    cases h with
    | make ht hn hv hall =>
      subst hall
      exact gives_make ht hn hv hc
    | makeArray ht hn ho hs hclose hall =>
      subst hall
      exact gives_makeArray ht hn ho hs hclose (by simpa using hc)
    | assign hn ht hv hall =>
      subst hall
      exact gives_assign hn ht hv hc
    | assignArray hn ho hi hclose ht hv hall =>
      subst hall
      exact gives_assignArray hn ho hi hclose ht hv (by simpa using hc)
    | when ht htest hbody hclose hall | loop ht htest hbody hclose hall =>
      subst hall
      simp only [List.cons_append, List.append_assoc, List.nil_append] at hc
      simp only [List.length_cons, List.length_append, List.length_nil] at hm
      rw [readStmt, hc]
      simp only [ht]
      exact gives_guarded _ htest (hbody.readsBlock rfl hclose (by omega)) hc
    | func ht hn hparams hbody hclose hall =>
      subst hall
      simp only [List.length_cons, List.length_append, List.length_nil] at hm
      exact gives_func ht hn hparams (hbody.toFrom.opens (.keyword hclose rfl)) (hbody.readsBlock rfl hclose (by omega))
        (by simpa using hc)
    | print ht hv hall =>
      subst hall
      exact gives_print ht hv hc
    | free ht hn hall | ret ht hn hall =>
      subst hall
      rw [readStmt, hc]
      simp only [List.cons_append, ht]
      exact gives_naming _ hn hc
    | call ht hn hargs hresult hall =>
      subst hall
      exact gives_call ht hn hargs hresult hopens (by simpa using hc)
    | graphics ht hargs hresult hall =>
      subst hall
      exact gives_graphics ht hargs hresult (by simpa using hc)

theorem ListParses.readsBlock : ∀ {n : Nat} {bs : List Token} {body : List Stmt} {closer : Keyword} {close : Token}
    {rest : List Token}, ListParses bs body (some close.kind) → closer.isCloser = true → close.kind = .keyword closer →
    bs.length + 1 ≤ n → ReadsBlock n closer bs close rest body
  | 0, _, _, _, _, _, _, _, _, hn => absurd hn (Nat.not_succ_le_zero _)
  | n + 1, bs, body, closer, close, rest, h, hcloser, hclose, hn => by
    intro opener openedAt c hc
    cases h with
    | nil =>
      rw [readBlock, hc]
      dsimp only [List.nil_append]
      rw [if_pos hclose]
      exact .ok (.past hc) rfl
    | @cons ts us s more _ h hmore =>
      obtain ⟨t, ts, rfl, hhead⟩ := h.toFrom.not_closer
      rw [List.append_assoc] at hc
      simp only [List.length_append, List.length_cons] at hn
      have hother : t.kind ≠ .keyword closer := by
        intro hk
        rw [hhead closer hk] at hcloser
        cases hcloser
      have hno : ¬isCloserToken t = true := by
        intro htrue
        obtain ⟨k, hk, hcloser⟩ := isCloserToken_iff.1 htrue
        rw [hhead k hk] at hcloser
        cases hcloser
      have hrest : Opens (us ++ close :: rest) :=
        hmore.toFrom.opens (.keyword hclose (by cases closer <;> first | rfl | cases hcloser))
      rw [readBlock, hc]
      dsimp only [List.cons_append]
      rw [if_neg hother, if_neg hno]
      have hs : Parses (t :: ts) s (firstKind (us ++ close :: rest) none) := by
        rw [Token.firstKind_append]
        exact h
      refine (hs.gives_readStmt hc hrest (by simp; omega)).bind fun c₁ h₁ hc₁ => ?_
      refine (hmore.readsBlock hcloser hclose (by omega) opener openedAt c₁ hc₁).bind fun c₂ h₂ hc₂ => ?_
      rw [List.append_assoc]
      exact .ok (h₁.append h₂) hc₂

end

theorem ListParses.gives_readAll : ∀ {n : Nat} {ts : List Token} {l : List Stmt} {c : Cursor}, ListParses ts l none →
    c.rest = ts → ts.length < n → c.Gives ts [] l (readAll n c)
  | 0, _, _, _, _, _, hn => absurd hn (Nat.not_lt_zero _)
  | n + 1, ts, l, c, h, hc, hn => by
    cases h with
    | nil =>
      rw [readAll, if_pos (by rw [hc]; rfl)]
      exact .ok (.refl c) hc
    | @cons ts us s more _ h hmore =>
      have hpos : 0 < ts.length := List.length_pos_iff.2 h.ne_nil
      rw [List.length_append] at hn
      have hrest : Opens us := by
        have hopens := hmore.toFrom.opens .nil
        rwa [List.append_nil] at hopens
      rw [readAll, if_neg (by simp [hc, h.ne_nil])]
      refine (h.gives_readStmt hc hrest (by rw [hc, List.length_append]; omega)).bind fun c₁ h₁ hc₁ => ?_
      refine (hmore.gives_readAll hc₁ (by omega)).bind fun c₂ h₂ hc₂ => ?_
      exact .ok (h₁.append h₂) hc₂

end Stmt

namespace Program

/-- **Tokens that parse as statements are a program.** -/
theorem ofTokens_of_parses {ts : List Token} {l : List Stmt} (h : Stmt.ListParses ts l none) (stop : Option Position) :
    ofTokens ts stop = .ok ⟨l, hull ts⟩ := by
  obtain ⟨c', hread, htakes, -⟩ := h.gives_readAll (c := Cursor.ofTokens ts stop) rfl (Nat.lt_succ_self _)
  unfold ofTokens
  rw [hread]
  show Except.ok (⟨l, ⟨_, c'.previous⟩⟩ : Program) = _
  rw [htakes.previous]
  rfl

end Program
end QuillLang
