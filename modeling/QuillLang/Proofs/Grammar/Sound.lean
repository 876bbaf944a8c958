import QuillLang.Proofs.Blocks.Open
import QuillLang.Proofs.Grammar.Basic
/-!
# What is read parses

A cursor knows the end of the last token taken, and each reader notes the start of its first one.  So the span that a
reader gives is that of the tokens that it took (`Cursor.Takes.hull_eq`), and these parse as what it gives, before the token
that it left.  If it gives nothing, then its error is about a block that the tokens leave open, or about none
(`Cursor.Spells`).
-/
namespace QuillLang

open Token (hull Names Steady firstKind track)

namespace Token

theorem start_hull_append {ts : List Token} (h : ts ≠ []) (us : List Token) : (hull (ts ++ us)).start = (hull ts).start := by
  cases ts with
  | nil => exact absurd rfl h
  | cons t ts => rfl

end Token

/-! ## What readers take -/

namespace Cursor

def next (c : Cursor) : Option TokenKind := firstKind c.rest none

structure Takes (c : Cursor) (ts : List Token) (c' : Cursor) : Prop where
  rest : c.rest = ts ++ c'.rest
  previous : c'.previous = (ts.getLast?.map fun t => t.span.stop).getD c.previous

namespace Takes
variable {c c' c'' : Cursor} {ts us : List Token}

theorem refl (c : Cursor) : c.Takes [] c := ⟨rfl, rfl⟩

theorem append (h : c.Takes ts c') (h' : c'.Takes us c'') : c.Takes (ts ++ us) c'' := by
  refine ⟨by rw [h.rest, h'.rest, List.append_assoc], ?_⟩
  rw [h'.previous, h.previous, List.getLast?_append]
  cases us.getLast? <;> rfl

theorem past {t : Token} {rest : List Token} (hc : c.rest = t :: rest) : c.Takes [t] (c.past t rest) := ⟨hc, rfl⟩

theorem next (h : c.Takes ts c') : c.next = firstKind ts c'.next := by
  unfold Cursor.next
  rw [h.rest, Token.firstKind_append]

theorem hull_eq (h : c.Takes ts c') (hne : ts ≠ []) {start : Position} (hstart : start = (hull ts).start) :
    (⟨start, c'.previous⟩ : Span) = hull ts := by
  rw [hstart, h.previous]
  unfold hull
  rw [List.getLast?_eq_some_getLast hne]
  rfl

theorem hull_cons {t : Token} (h : c.Takes (t :: ts) c') : (⟨t.span.start, c'.previous⟩ : Span) = hull (t :: ts) :=
  h.hull_eq (List.cons_ne_nil t ts) rfl

end Takes

/-- What a reader has done that began at `c`: it took tokens with the property `P`, or failed with an error that is plain or
has the property `B`. -/
def Spells {α : Type} (B : ParseError → Prop) (P : List Token → α → Option TokenKind → Prop) (c : Cursor) :
    Except ParseError (α × Cursor) → Prop
  | .ok (a, c') => ∃ ts, c.Takes ts c' ∧ P ts a c'.next
  | .error e => e.IsPlain ∨ B e

namespace Spells
variable {α β : Type} {B : ParseError → Prop} {P : List Token → α → Option TokenKind → Prop}
  {Q : List Token → β → Option TokenKind → Prop} {c c' c₀ : Cursor} {ts : List Token}

theorem ok {a : α} (h : c.Takes ts c') (ha : P ts a c'.next) : Spells B P c (.ok (a, c')) := ⟨ts, h, ha⟩

theorem unexpected {e : Expectation} (he : ∀ k, e = .keyword k → k.isCloser = false) :
    Spells B P c (.error (c'.unexpected e)) := by
  unfold Cursor.unexpected
  split
  · exact .inl he
  · exact .inl trivial

theorem bind {r : Except ParseError (α × Cursor)} {f : α × Cursor → Except ParseError (β × Cursor)} (h : Spells B P c r)
    (hf : ∀ ts a c', P ts a c'.next → c.Takes ts c' → Spells B Q c₀ (f (a, c'))) : Spells B Q c₀ (r >>= f) := by
  cases r with
  | error e => exact h
  | ok p =>
    obtain ⟨ts, htakes, hp⟩ := h
    exact hf ts p.1 p.2 hp htakes

theorem blame {B' : ParseError → Prop} {r : Except ParseError (α × Cursor)} (h : Spells B P c r) (hB : ∀ e, B e → B' e) :
    Spells B' P c r := by
  cases r with
  | error e => exact h.imp_right (hB e)
  | ok p => exact h

theorem imp {P' : List Token → α → Option TokenKind → Prop} {r : Except ParseError (α × Cursor)} (h : Spells B P c r)
    (hP : ∀ {ts a next}, P ts a next → P' ts a next) : Spells B P' c r := by
  cases r with
  | error e => exact h
  | ok p =>
    obtain ⟨ts, htakes, hp⟩ := h
    exact ⟨ts, htakes, hP hp⟩

theorem take {k : TokenKind} {e : Expectation} {f : Token × Cursor → Except ParseError (β × Cursor)}
    (he : ∀ k, e = .keyword k → k.isCloser = false)
    (hf : ∀ t c', t.kind = k → c.Takes [t] c' → Spells B Q c₀ (f (t, c'))) : Spells B Q c₀ (Cursor.take k e c >>= f) := by
  unfold Cursor.take
  split
  · rename_i t rest hc
    split
    · rename_i ht
      exact hf t _ ht (.past hc)
    · exact .unexpected he
  · exact .unexpected he

theorem ident {f : Ident × Cursor → Except ParseError (β × Cursor)}
    (hf : ∀ t x c', t.Names x → c.Takes [t] c' → Spells B Q c₀ (f (x, c'))) : Spells B Q c₀ (Cursor.ident c >>= f) := by
  unfold Cursor.ident
  split
  · rename_i name span rest hc
    exact hf ⟨.identifier name, span⟩ _ _ ⟨rfl, rfl⟩ (.past hc)
  · exact .unexpected nofun

end Spells
end Cursor

open Cursor (Spells)

/-! ## Expressions -/

namespace Tier

theorem takes_next? {t : Tier} {c c' : Cursor} {op : BinaryOp} (h : t.next? c = some (op, c')) :
    t = op.tier ∧ ∃ u : Token, u.kind = .operator op.operator ∧ c.Takes [u] c' := by
  unfold Tier.next? at h
  split at h
  · rename_i o span rest hc
    split at h
    · rename_i haccepts
      obtain ⟨op', ho, heq⟩ := Option.map_eq_some_iff.1 h
      cases heq
      have hop : t = op.tier ∧ o = op.operator := by
        cases o <;> cases ho <;> cases t <;> first | exact ⟨rfl, rfl⟩ | cases haccepts
      exact ⟨hop.1, _, congrArg TokenKind.operator hop.2, .past hc⟩
    · cases h
  · cases h

theorem accepts_of_next?_eq_none {t : Tier} {c : Cursor} (h : t.next? c = none) {o : Operator}
    (ho : c.next = some (.operator o)) : t.accepts o = false := by
  unfold Cursor.next at ho
  unfold Tier.next? at h
  cases hc : c.rest with
  | nil =>
    rw [hc] at ho
    cases ho
  | cons u rest =>
    obtain ⟨kind, span⟩ := u
    rw [hc] at ho h
    cases ho
    cases t <;> cases o <;> first | rfl | cases h

end Tier

variable {B : ParseError → Prop}

namespace Expr

mutual

theorem spells_readTier : ∀ (n : Nat) (t : Tier) (c : Cursor), Spells B (Parses (.tier t)) c (readTier n t c)
  | 0, _, _ => .unexpected nofun
  | n + 1, t, c => (spells_readOperand n t c).bind fun _ _ _ hls h => spells_readClimb n t h (.first hls)

theorem spells_readOperand : ∀ (n : Nat) (t : Tier) (c : Cursor), Spells B (Parses t.operand) c (readOperand n t c)
  | 0, _, _ => .unexpected nofun
  | n + 1, .comparison, c => spells_readTier n .additive c
  | n + 1, .additive, c => spells_readTier n .multiplicative c
  | n + 1, .multiplicative, c => spells_readUnary n c

theorem spells_readClimb : ∀ (n : Nat) (t : Tier) {left : Expr} {ls : List Token} {c₀ c : Cursor}, c₀.Takes ls c →
    Parses (.joined t) ls left c.next → Spells B (Parses (.tier t)) c₀ (readClimb n t left c)
  | 0, _, _, _, _, _, _, _ => .unexpected nofun
  | n + 1, t, left, ls, c₀, c, hc₀, hls => by
    unfold readClimb
    split
    · rename_i hnone
      exact .ok hc₀ (.last hls fun o => Tier.accepts_of_next?_eq_none hnone)
    · rename_i op c₁ hop
      obtain ⟨rfl, u, hu, htakes⟩ := Tier.takes_next? hop
      refine (spells_readOperand n _ c₁).bind fun rs right c₂ hrs hright => ?_
      have hall : c₀.Takes (ls ++ u :: rs) c₂ := hc₀.append (htakes.append hright)
      have hstart : left.span.start = (hull (ls ++ u :: rs)).start := by
        rw [hls.toFrom.span_eq, Token.start_hull_append hls.ne_nil]
      dsimp only
      rw [hall.hull_eq (by simp) hstart]
      rw [htakes.next] at hls
      exact spells_readClimb n _ hall (.binary hls hu hrs rfl)

theorem spells_readUnary : ∀ (n : Nat) (c : Cursor), Spells B (Parses .unary) c (readUnary n c)
  | 0, _ => .unexpected nofun
  | n + 1, c => by
    unfold readUnary
    split
    · rename_i span rest hc
      refine (spells_readUnary n _).bind fun ts operand c₁ hts h => ?_
      have hall : c.Takes (⟨.operator .minus, span⟩ :: ts) c₁ := (Cursor.Takes.past hc).append h
      dsimp only
      rw [hall.hull_cons]
      exact .ok hall (.neg rfl hts rfl)
    · exact (spells_readPrimary n c).imp .plain

theorem spells_readPrimary : ∀ (n : Nat) (c : Cursor), Spells B (Parses .primary) c (readPrimary n c)
  | 0, _ => .unexpected nofun
  | n + 1, c => by
    -- by computation: the equations of so many cases are not derived
    conv in readPrimary _ _ => whnf
    split
    · exact .unexpected nofun
    rename_i t rest hc
    have hpast : c.Takes [t] (c.past t rest) := .past hc
    -- sine, cosine and random number: a keyword and two expressions
    have hpair (make : Expr → Expr → Span → Expr) (hmake : ∀ {as bs all : List Token} {a b : Expr} {next},
        Parses .whole as a (firstKind bs next) → Parses .whole bs b next → all = t :: (as ++ bs) →
        Parses .primary all (make a b (hull all)) next) : Spells B (Parses .primary) c (do
          let p ← readTier n .comparison (c.past t rest)
          let q ← readTier n .comparison p.2
          .ok (make p.1 q.1 ⟨t.span.start, q.2.previous⟩, q.2)) := by
      refine (spells_readTier n _ _).bind fun as a c₁ has h₁ => ?_
      refine (spells_readTier n _ _).bind fun bs b c₂ hbs h₂ => ?_
      have hall : c.Takes (t :: (as ++ bs)) c₂ := hpast.append (h₁.append h₂)
      rw [hall.hull_cons]
      rw [h₂.next] at has
      exact .ok hall (hmake has hbs rfl)
    cases hk : t.kind with
    | number value => exact .ok hpast (.number hk)
    | string text => exact .ok hpast (.string hk)
    | identifier name =>
      dsimp only
      split
      · rename_i span rest'
        refine (spells_readTier n _ _).bind fun ts position c₁ hts h₁ => ?_
        refine .take nofun fun close c₂ hclose h₂ => ?_
        have hall : c.Takes (t :: ⟨.delimiter .lbracket, span⟩ :: (ts ++ [close])) c₂ :=
          hpast.append ((Cursor.Takes.past rfl).append (h₁.append h₂))
        rw [hall.hull_cons]
        rw [h₂.next] at hts
        exact .ok hall (.index ⟨hk, rfl⟩ rfl hts hclose rfl)
      · rename_i hbracket
        refine .ok hpast (.var hk fun hnext => ?_)
        cases rest with
        | nil => cases hnext
        | cons u rest => exact hbracket u.span rest (by cases u; cases hnext; rfl)
    | keyword k =>
      cases k with
      | sin => exact hpair (.trig .sin) (.trig hk)
      | cos => exact hpair (.trig .cos) (.trig hk)
      | rand => exact hpair .random (.random hk)
      | _ => exact .unexpected nofun
    | operator o => exact .unexpected nofun
    | delimiter d =>
      cases d with
      | lparen =>
        refine (spells_readTier n _ _).bind fun ts inner c₁ hts h₁ => ?_
        refine .take nofun fun close c₂ hclose h₂ => ?_
        have hall : c.Takes (t :: (ts ++ [close])) c₂ := hpast.append (h₁.append h₂)
        dsimp only
        rw [hall.hull_cons]
        rw [h₂.next] at hts
        exact .ok hall (.paren hk hts hclose rfl)
      | _ => exact .unexpected nofun

end

theorem spells_read (c : Cursor) : Spells B (Parses .whole) c (read c) := spells_readTier _ _ c

end Expr

/-! ## Statements -/

namespace Stmt

theorem takes_readParams : ∀ (ts : List Token) {c c' : Cursor} {params : List Ident}, c.rest = ts →
    readParams c ts = (params, c') → ∃ ps, c.Takes ps c' ∧ List.Forall₂ Names ps params
  | [], c, _, _, _, h => by
    cases h
    exact ⟨[], .refl c, .nil⟩
  | ⟨kind, span⟩ :: rest, c, c', params, hc, h => by
    unfold readParams at h
    split at h
    · rename_i name span' rest' heq
      cases heq
      split at h
      · cases h
        exact ⟨[], .refl c, .nil⟩
      · cases h
        obtain ⟨ps, htakes, hps⟩ := takes_readParams rest (c := c.past ⟨.identifier name, span⟩ rest) rfl rfl
        exact ⟨_, (Cursor.Takes.past hc).append htakes, .cons ⟨rfl, rfl⟩ hps⟩
    · cases h
      exact ⟨[], .refl c, .nil⟩

theorem spells_readArgs : ∀ (n : Nat) (c : Cursor), Spells B Expr.ListParses c (readArgs n c)
  | 0, c => .ok (.refl c) .nil
  | n + 1, c => by
    unfold readArgs
    split
    · refine (Expr.spells_read c).bind fun ts arg c₁ hts h₁ => ?_
      refine (spells_readArgs n c₁).bind fun us args c₂ hus h₂ => ?_
      rw [h₂.next] at hts
      exact .ok (h₁.append h₂) (.cons hts hus)
    · exact .ok (.refl c) .nil

theorem spells_readInto? (c : Cursor) : Spells B (fun ts result _ => Ident.IntoFrom ts result) c (readInto? c) := by
  unfold readInto?
  split
  · refine .take (fun k hk => by cases hk; rfl) fun t c₁ ht h₁ => ?_
    refine .ident fun n x c₂ hn h₂ => ?_
    exact .ok (h₁.append h₂) (.some ht hn)
  · exact .ok (.refl c) .none

theorem spells_readMake {t : Token} (ht : t.kind = .keyword .make) {c₀ c : Cursor} (h₀ : c₀.Takes [t] c) :
    Spells B Parses c₀ (readMake t.span.start c) := by
  refine .ident fun n name c₁ hn h₁ => ?_
  dsimp only
  split
  · refine .take nofun fun o c₂ ho h₂ => ?_
    refine (Expr.spells_read c₂).bind fun ss size c₃ hss h₃ => ?_
    refine .take nofun fun close c₄ hclose h₄ => ?_
    have hall : c₀.Takes (t :: n :: o :: (ss ++ [close])) c₄ := h₀.append (h₁.append (h₂.append (h₃.append h₄)))
    rw [hall.hull_cons]
    rw [h₄.next] at hss
    exact .ok hall (.makeArray ht hn ho hss hclose rfl)
  · refine (Expr.spells_read c₁).bind fun vs value c₂ hvs h₂ => ?_
    have hall : c₀.Takes (t :: n :: vs) c₂ := h₀.append (h₁.append h₂)
    rw [hall.hull_cons]
    exact .ok hall (.make ht hn hvs rfl)

theorem spells_readAssign (c : Cursor) : Spells B Parses c (readAssign c) := by
  refine .ident fun n name c₁ hn h₁ => ?_
  refine .take nofun fun t c₂ ht h₂ => ?_
  refine (Expr.spells_read c₂).bind fun vs value c₃ hvs h₃ => ?_
  have hall : c.Takes (n :: t :: vs) c₃ := h₁.append (h₂.append h₃)
  dsimp only
  rw [← hn.2, hall.hull_cons]
  exact .ok hall (.assign hn ht hvs rfl)

theorem spells_readAssignArray (c : Cursor) : Spells B Parses c (readAssignArray c) := by
  refine .ident fun n name c₁ hn h₁ => ?_
  refine .take nofun fun o c₂ ho h₂ => ?_
  refine (Expr.spells_read c₂).bind fun is position c₃ his h₃ => ?_
  refine .take nofun fun close c₄ hclose h₄ => ?_
  refine .take nofun fun t c₅ ht h₅ => ?_
  refine (Expr.spells_read c₅).bind fun vs value c₆ hvs h₆ => ?_
  have hall : c.Takes (n :: o :: (is ++ close :: t :: vs)) c₆ :=
    h₁.append (h₂.append (h₃.append (h₄.append (h₅.append h₆))))
  dsimp only
  rw [← hn.2, hall.hull_cons]
  rw [h₄.next] at his
  exact .ok hall (.assignArray hn ho his hclose ht hvs rfl)

theorem spells_readCall {t : Token} (ht : t.kind = .keyword .call) {c₀ c : Cursor} (h₀ : c₀.Takes [t] c) :
    Spells B Parses c₀ (readCall t.span.start c) := by
  refine .ident fun n callee c₁ hn h₁ => ?_
  refine (spells_readArgs _ c₁).bind fun as args c₂ has h₂ => ?_
  refine (spells_readInto? c₂).bind fun rs result c₃ hrs h₃ => ?_
  have hall : c₀.Takes (t :: n :: (as ++ rs)) c₃ := h₀.append (h₁.append (h₂.append h₃))
  dsimp only
  rw [hall.hull_cons]
  rw [h₃.next] at has
  exact .ok hall (.call ht hn has hrs rfl)

theorem spells_readNamed (c : Cursor) (t : Token) (rest : List Token) : Spells B Parses c (readNamed c t rest) := by
  unfold readNamed
  split
  · exact spells_readAssignArray c
  · exact spells_readAssign c
  · exact .unexpected nofun

def ArgsTaken (c : Cursor) (args : List Expr) (result : Option Ident) (c' : Cursor) : Prop :=
  ∃ as rs, c.Takes (as ++ rs) c' ∧ Expr.ListParses as args (firstKind rs c'.next) ∧ Ident.IntoFrom rs result

namespace ArgsTaken
variable {c c' c'' : Cursor} {e : Expr} {es : List Expr} {result : Option Ident}

theorem nil (c : Cursor) : ArgsTaken c [] none c := ⟨[], [], .refl c, .nil, .none⟩

theorem cons {ts : List Token} (hts : e.Parses .whole ts c'.next) (htakes : c.Takes ts c')
    (h : ArgsTaken c' es result c'') : ArgsTaken c (e :: es) result c'' := by
  obtain ⟨as, rs, htakes', has, hrs⟩ := h
  rw [htakes'.next, Token.firstKind_append] at hts
  refine ⟨ts ++ as, rs, ?_, .cons hts has, hrs⟩
  rw [List.append_assoc]
  exact htakes.append htakes'

end ArgsTaken

def GraphicsParses (k : Keyword) (ts : List Token) (op : Graphics) (next : Option TokenKind) : Prop :=
  op.keyword = k ∧ ∃ as rs, ts = as ++ rs ∧ Expr.ListParses as op.arguments (firstKind rs next) ∧
    Ident.IntoFrom rs op.result?

theorem spells_graphics {k : Keyword} {c c' : Cursor} {op : Graphics} (hk : op.keyword = k)
    (h : ArgsTaken c op.arguments op.result? c') : Spells B (GraphicsParses k) c (.ok (op, c')) := by
  obtain ⟨as, rs, htakes, has, hrs⟩ := h
  exact .ok htakes ⟨hk, as, rs, rfl, has, hrs⟩

theorem spells_readGraphics? {k : Keyword} {reader : Reader Graphics} (hk : readGraphics? k = some reader) (c : Cursor) :
    Spells B (GraphicsParses k) c (reader c) := by
  unfold readGraphics? at hk
  split at hk
  all_goals cases hk
  case h_1 | h_2 | h_3 | h_4 => exact spells_graphics rfl (.nil c)
  case h_5 | h_10 =>
    refine (Expr.spells_read c).bind fun _ a c₁ ha h₁ => ?_
    refine (Expr.spells_read c₁).bind fun _ b c₂ hb h₂ => ?_
    refine (Expr.spells_read c₂).bind fun _ d c₃ hd h₃ => ?_
    exact spells_graphics rfl (.cons ha h₁ (.cons hb h₂ (.cons hd h₃ (.nil c₃))))
  case h_6 =>
    refine (Expr.spells_read c).bind fun _ a c₁ ha h₁ => ?_
    exact spells_graphics rfl (.cons ha h₁ (.nil c₁))
  case h_7 | h_8 =>
    refine (Expr.spells_read c).bind fun _ a c₁ ha h₁ => ?_
    refine (Expr.spells_read c₁).bind fun _ b c₂ hb h₂ => ?_
    exact spells_graphics rfl (.cons ha h₁ (.cons hb h₂ (.nil c₂)))
  case h_9 =>
    refine (Expr.spells_read c).bind fun _ a c₁ ha h₁ => ?_
    refine (Expr.spells_read c₁).bind fun _ b c₂ hb h₂ => ?_
    refine .take (fun k hk => by cases hk; rfl) fun t c₃ ht h₃ => ?_
    refine .ident fun n x c₄ hn h₄ => ?_
    exact spells_graphics rfl (.cons ha h₁ (.cons hb h₂ ⟨[], [t, n], h₃.append h₄, .nil, .some ht hn⟩))
  case h_11 =>
    refine (Expr.spells_read c).bind fun _ a c₁ ha h₁ => ?_
    refine (Expr.spells_read c₁).bind fun _ b c₂ hb h₂ => ?_
    refine (Expr.spells_read c₂).bind fun _ d c₃ hd h₃ => ?_
    refine (Expr.spells_read c₃).bind fun _ f c₄ hf h₄ => ?_
    exact spells_graphics rfl (.cons ha h₁ (.cons hb h₂ (.cons hd h₃ (.cons hf h₄ (.nil c₄)))))

/-! ### Blocks -/

/-- The error is about the first token, which closes a block where none is open. -/
def Strays (ts : List Token) (e : ParseError) : Prop :=
  ∃ k span rest, ts = ⟨.keyword k, span⟩ :: rest ∧ k.isCloser = true ∧ e = .unmatchedCloser k span

def BlockParses (closer : Keyword) (ts : List Token) (body : List Stmt) (_ : Option TokenKind) : Prop :=
  ∃ bs close, ts = bs ++ [close] ∧ ListParses bs body (some close.kind) ∧ close.kind = .keyword closer

theorem isCloserToken_iff {t : Token} :
    readBlock.isCloserToken t = true ↔ ∃ k, t.kind = .keyword k ∧ k.isCloser = true := by
  unfold readBlock.isCloserToken
  split
  · rename_i k hk
    rw [hk]
    simp
  · rename_i hk
    refine ⟨nofun, ?_⟩
    rintro ⟨k, hkind, -⟩
    exact (hk k hkind).elim

mutual

theorem spells_readStmt : ∀ (n : Nat) (c : Cursor) (opened : List Token),
    Spells (fun e => Strays c.rest e ∨ e.Blames opened c.rest) Parses c (readStmt n c)
  | 0, _, _ => .unexpected nofun
  | n + 1, c, opened => by
    unfold readStmt
    split
    · exact .unexpected nofun
    rename_i t rest hc
    have hpast : c.Takes [t] (c.past t rest) := .past hc
    -- a keyword that opens a block, what stands before the block, and the block
    have hblock {k closer : Keyword} (hk : t.kind = .keyword k) (hcloser : k.closer? = some closer) {us : List Token}
        {c₁ : Cursor} (h₁ : (c.past t rest).Takes us c₁) (hus : Steady track us) (make : List Stmt → Span → Stmt)
        (hmake : ∀ {bs all : List Token} {close : Token} {body : List Stmt} {next},
          c₁.next = firstKind bs (some close.kind) → ListParses bs body (some close.kind) →
          close.kind = .keyword closer → all = t :: (us ++ (bs ++ [close])) → Parses all (make body (hull all)) next) :
        Spells (fun e => Strays c.rest e ∨ e.Blames opened c.rest) Parses c (do
          let p ← readBlock n k t.span closer c₁
          .ok (make p.1 ⟨t.span.start, p.2.previous⟩, p.2)) := by
      have h₁ : c.Takes (t :: us) c₁ := hpast.append h₁
      have htrack : (t :: us).foldlM track opened = some (⟨.keyword k, t.span⟩ :: opened) := by
        rw [← hk, List.foldlM_cons, Token.track_opener hk hcloser]
        exact hus _
      refine Spells.bind ((spells_readBlock n hcloser t.span c₁ opened).blame fun e he => .inr ?_) ?_
      · rw [h₁.rest]
        exact he.append htrack
      · rintro _ body c₂ ⟨bs, close, rfl, hbs, hclose⟩ h₂
        have hall : c.Takes (t :: (us ++ (bs ++ [close]))) c₂ := h₁.append h₂
        rw [hall.hull_cons]
        exact .ok hall (hmake (by rw [h₂.next, Token.firstKind_append]; rfl) hbs hclose rfl)
    dsimp only
    split
    · exact spells_readNamed c t rest
    · rename_i hk
      exact spells_readMake hk hpast
    · rename_i hk
      refine (Expr.spells_read _).bind fun ts test c₁ hts h₁ => ?_
      refine hblock hk rfl h₁ (hts.toFrom.steady Token.counts_track) (.when test) fun hnext hbs hclose hall => ?_
      exact .when hk (hnext ▸ hts) hbs hclose hall
    · rename_i hk
      refine (Expr.spells_read _).bind fun ts test c₁ hts h₁ => ?_
      refine hblock hk rfl h₁ (hts.toFrom.steady Token.counts_track) (.loop test) fun hnext hbs hclose hall => ?_
      exact .loop hk (hnext ▸ hts) hbs hclose hall
    · rename_i hk
      refine .ident fun x name c₁ hx h₁ => ?_
      obtain ⟨ps, h₂, hps⟩ := takes_readParams c₁.rest (c := c₁) rfl rfl
      refine hblock hk rfl (h₁.append h₂) (Token.counts_track.cons hx.1 rfl (Token.counts_track.names hps)) (.func name _)
        fun _ hbs hclose hall => ?_
      exact .func hk hx hps hbs hclose hall
    · rename_i hk
      refine (Expr.spells_read _).bind fun vs value c₁ hvs h₁ => ?_
      have hall : c.Takes (t :: vs) c₁ := hpast.append h₁
      rw [hall.hull_cons]
      exact .ok hall (.print hk hvs rfl)
    · rename_i hk
      refine .ident fun x name c₁ hx h₁ => ?_
      have hall : c.Takes [t, x] c₁ := hpast.append h₁
      rw [hall.hull_cons]
      exact .ok hall (.free hk hx rfl)
    · rename_i hk
      refine .ident fun x name c₁ hx h₁ => ?_
      have hall : c.Takes [t, x] c₁ := hpast.append h₁
      rw [hall.hull_cons]
      exact .ok hall (.ret hk hx rfl)
    · rename_i hk
      exact spells_readCall hk hpast
    · rename_i k _ _ _ _ _ _ _ _ hk
      split
      · rename_i reader hreader
        refine (spells_readGraphics? hreader _).bind fun us op c₁ hus h₁ => ?_
        obtain ⟨hkeyword, as, rs, rfl, has, hrs⟩ := hus
        have hall : c.Takes (t :: (as ++ rs)) c₁ := hpast.append h₁
        have ht : t.kind = .keyword op.keyword := by rw [hkeyword, hk]
        rw [hall.hull_cons]
        exact .ok hall (.graphics ht has hrs rfl)
      · split
        · rename_i hcloser
          obtain ⟨kind, span⟩ := t
          obtain rfl : kind = .keyword k := hk
          exact .inr (.inl ⟨k, span, rest, hc, hcloser, rfl⟩)
        · exact .unexpected nofun
    · exact .unexpected nofun

/-- A block is read up to the keyword that closes it, which is taken too. -/
theorem spells_readBlock : ∀ (n : Nat) {opener closer : Keyword}, opener.closer? = some closer → ∀ (openedAt : Span)
    (c : Cursor) (opened : List Token), Spells (fun e => e.Blames (⟨.keyword opener, openedAt⟩ :: opened) c.rest)
      (BlockParses closer) c (readBlock n opener openedAt closer c)
  | 0, _, _, _, _, _, _ => .unexpected nofun
  | n + 1, opener, closer, hopener, openedAt, c, opened => by
    unfold readBlock
    split
    · rename_i hc
      rw [hc]
      exact .inr ⟨⟨opened, rfl⟩, hopener⟩
    rename_i t rest hc
    split
    · rename_i hk
      exact .ok (.past hc) ⟨[], t, rfl, .nil, hk⟩
    · rename_i hclose
      split
      · rename_i hother
        obtain ⟨k, hkind, hk⟩ := isCloserToken_iff.1 hother
        unfold Cursor.unexpected
        rw [hc]
        refine .inr fun _ => ⟨[], rest, k, _, opened, rfl, hkind, hk, ?_, rfl, Token.awaited?_of_opener rfl hopener⟩
        rintro rfl
        exact hclose hkind
      · rename_i hother
        have hstmt : Spells (fun e => e.Blames (⟨.keyword opener, openedAt⟩ :: opened) c.rest) Parses c (readStmt n c) := by
          refine (spells_readStmt n c _).blame fun e he => he.resolve_left ?_
          rintro ⟨k, span, _, heq, hk, -⟩
          rw [hc] at heq
          cases heq
          exact hother (isCloserToken_iff.2 ⟨k, rfl, hk⟩)
        refine hstmt.bind fun ts s c₁ hts h₁ => ?_
        refine Spells.bind ((spells_readBlock n hopener openedAt c₁ opened).blame fun e he => ?_) ?_
        · rw [h₁.rest]
          exact he.append (hts.toFrom.steady Token.counts_track _)
        · rintro _ body c₂ ⟨bs, close, rfl, hbs, hclose⟩ h₂
          rw [h₂.next, Token.firstKind_append] at hts
          exact .ok (h₁.append h₂) ⟨ts ++ bs, close, by rw [List.append_assoc], .cons hts hbs, hclose⟩

end

/-- Statements are read to the end.  Where that is not possible, some are read, and the next one is in error. -/
theorem spells_readAll : ∀ (n : Nat) (c : Cursor), Spells
    (fun e => ∃ ts l rest, c.rest = ts ++ rest ∧ ListParses ts l (firstKind rest none) ∧ (Strays rest e ∨ e.Blames [] rest))
    (fun ts l next => next = none ∧ ListParses ts l none) c (readAll n c)
  | 0, _ => .unexpected nofun
  | n + 1, c => by
    unfold readAll
    split
    · rename_i hempty
      refine .ok (.refl c) ⟨?_, .nil⟩
      unfold Cursor.next
      rw [List.isEmpty_iff.1 hempty]
      rfl
    · refine Spells.bind ((spells_readStmt _ c []).blame fun e he => ⟨[], [], c.rest, rfl, .nil, he⟩) ?_
      intro ts s c₁ hts h₁
      refine Spells.bind ((spells_readAll n c₁).blame ?_) ?_
      · rintro e ⟨us, l, rest, hrest, hus, he⟩
        have hnext : c₁.next = firstKind us (firstKind rest none) := by
          unfold Cursor.next
          rw [hrest, Token.firstKind_append]
        rw [hnext] at hts
        exact ⟨ts ++ us, s :: l, rest, by rw [h₁.rest, hrest, List.append_assoc], .cons hts hus, he⟩
      · rintro us more c₂ ⟨hnone, hus⟩ h₂
        rw [h₂.next, hnone] at hts
        exact .ok (h₁.append h₂) ⟨hnone, .cons hts hus⟩

end Stmt

namespace Program

/-- **The tokens of a program parse as its statements.** -/
theorem parses_of_ofTokens {ts : List Token} {stop : Option Position} {p : Program} (h : ofTokens ts stop = .ok p) :
    Stmt.ListParses ts p.statements none ∧ p.span = hull ts := by
  have hspells := Stmt.spells_readAll (ts.length + 1) (Cursor.ofTokens ts stop)
  unfold ofTokens at h
  cases hread : Stmt.readAll (ts.length + 1) (Cursor.ofTokens ts stop) with
  | error e =>
    rw [hread] at h
    cases h
  | ok p =>
    rw [hread] at h hspells
    cases h
    obtain ⟨us, htakes, hnone, hus⟩ := hspells
    have hts : ts = us := by
      have hrest : ts = us ++ p.2.rest := htakes.rest
      cases hp : p.2.rest with
      | nil => rwa [hp, List.append_nil] at hrest
      | cons t rest =>
        unfold Cursor.next at hnone
        rw [hp] at hnone
        cases hnone
    subst hts
    refine ⟨hus, ?_⟩
    show (⟨_, p.2.previous⟩ : Span) = hull ts
    rw [htakes.previous]
    rfl

/-- **An error is about a keyword that closes no block, behind statements, or about a block that the tokens leave open
there**, if it is about blocks at all. -/
theorem blames_of_ofTokens {ts : List Token} {stop : Option Position} {e : ParseError} (h : ofTokens ts stop = .error e) :
    e.IsPlain ∨ ∃ us l rest, ts = us ++ rest ∧ Stmt.ListParses us l (firstKind rest none) ∧
      (Stmt.Strays rest e ∨ e.Blames [] rest) := by
  have hspells := Stmt.spells_readAll (ts.length + 1) (Cursor.ofTokens ts stop)
  unfold ofTokens at h
  cases hread : Stmt.readAll (ts.length + 1) (Cursor.ofTokens ts stop) with
  | error e' =>
    rw [hread] at h hspells
    cases h
    exact hspells
  | ok p =>
    rw [hread] at h
    cases h

end Program
end QuillLang
