import QuillLang.Proofs.Grammar.Complete
import QuillLang.Proofs.Writing.Expr
/-!
# Written programs are read back

A statement written out parses as itself, up to spans, before every token that goes on with no expression
(`Stmt.parses_written`).  Statements begin with such tokens, so they parse one after the other with nothing between them, and
what parses is read.
-/
namespace QuillLang

open List (map_eq_cons_iff map_eq_append_iff map_eq_nil_iff)
open Token (firstKind Names)
open TokenKind (Ends)

/-! ## Names and arguments -/

theorem Ident.exists_names {t : Token} {x : Ident} (h : t.kind = x.token) : ∃ y : Ident, t.Names y ∧ y.bare = x.bare :=
  ⟨⟨x.name, t.span⟩, ⟨h, rfl⟩, rfl⟩

theorem Ident.exists_params : ∀ (params : List Ident) {ts : List Token}, ts.map Token.kind = params.map Ident.token →
    ∃ params', List.Forall₂ Names ts params' ∧ params'.map Ident.bare = params.map Ident.bare
  | [], ts, h => by
    obtain rfl := map_eq_nil_iff.1 h
    exact ⟨[], .nil, rfl⟩
  | x :: params, ts, h => by
    obtain ⟨t, us, rfl, ht, hus⟩ := map_eq_cons_iff.1 h
    obtain ⟨y, hy, hbare⟩ := exists_names ht
    obtain ⟨params', hparams, hbares⟩ := exists_params params hus
    exact ⟨y :: params', .cons hy hparams, by rw [List.map_cons, List.map_cons, hbare, hbares]⟩

/-- Where a result goes, and what is behind the arguments before it. -/
theorem Ident.exists_into (result : Option Ident) {ts : List Token} (h : ts.map Token.kind = writtenInto result) :
    ∃ result', IntoFrom ts result' ∧ result'.map bare = result.map bare ∧
      ∀ {next : Option TokenKind}, Ends next → Ends (firstKind ts next) := by
  cases result with
  | none =>
    obtain rfl := map_eq_nil_iff.1 h
    exact ⟨none, .none, rfl, id⟩
  | some x =>
    simp only [writtenInto, map_eq_cons_iff, map_eq_nil_iff] at h
    obtain ⟨t, _, rfl, ht, n, _, rfl, hn, rfl⟩ := h
    obtain ⟨y, hy, hbare⟩ := exists_names hn
    exact ⟨some y, .some ht hy, congrArg some hbare, fun _ => ⟨by simp [firstKind, ht], by simp [firstKind, ht]⟩⟩

namespace Expr

theorem exists_written (e : Expr) {ts : List Token} {next : Option TokenKind} (h : ts.map Token.kind = e.written)
    (hnext : Ends next) : ∃ e', Parses .whole ts e' next ∧ e'.bare = e.bare :=
  e.legible.alone ts next h hnext.looser

theorem exists_bracketed (e : Expr) {ts : List Token} {c : Token} (h : ts.map Token.kind = e.written)
    (hc : c.kind = .delimiter .rbracket) : ∃ e', Parses .whole ts e' (some c.kind) ∧ e'.bare = e.bare :=
  e.exists_written h ⟨by simp [hc], by simp [hc]⟩

theorem exists_args : ∀ (args : List Expr) {ts : List Token} {next : Option TokenKind},
    ts.map Token.kind = args.flatMap writtenArgument → Ends next →
    ∃ args', ListParses ts args' next ∧ args'.map bare = args.map bare ∧ Ends (firstKind ts next)
  | [], ts, next, h, hnext => by
    obtain rfl := map_eq_nil_iff.1 h
    exact ⟨[], .nil, rfl, hnext⟩
  | e :: args, ts, next, h, hnext => by
    obtain ⟨us, vs, rfl, hus, hvs⟩ := map_eq_append_iff.1 h
    obtain ⟨args', hargs, hbares, hends⟩ := exists_args args hvs hnext
    obtain ⟨e', he, hbare⟩ := e.legible.argument us _ hus hends.looser
    refine ⟨e' :: args', .cons he hargs, by rw [List.map_cons, List.map_cons, hbare, hbares], ?_⟩
    obtain ⟨o, us, rfl, ho, -⟩ := map_eq_cons_iff.1 hus
    exact ⟨by simp [firstKind, ho], by simp [firstKind, ho]⟩

end Expr

/-- A graphics statement with other spans. -/
theorem Graphics.exists_bare (op : Graphics) {es : List Expr} {r : Option Ident}
    (hes : es.map Expr.bare = op.arguments.map Expr.bare) (hr : r.map Ident.bare = op.result?.map Ident.bare) :
    ∃ op' : Graphics, op'.keyword = op.keyword ∧ op'.arguments = es ∧ op'.result? = r ∧ op'.bare = op.bare := by
  cases op with
  | getPixel a b x =>
    simp only [arguments, List.map_cons, List.map_nil, map_eq_cons_iff, map_eq_nil_iff] at hes
    obtain ⟨a', _, rfl, ha, b', _, rfl, hb, rfl⟩ := hes
    obtain ⟨y, rfl, hy⟩ := Option.map_eq_some_iff.1 hr
    exact ⟨.getPixel a' b' y, rfl, rfl, rfl, by simp only [bare, ha, hb, hy]⟩
  | init | poll | present | clear =>
    obtain rfl := map_eq_nil_iff.1 hes
    obtain rfl := Option.map_eq_none_iff.1 hr
    exact ⟨_, rfl, rfl, rfl, rfl⟩
  | delay a =>
    simp only [arguments, List.map_cons, List.map_nil, map_eq_cons_iff, map_eq_nil_iff] at hes
    obtain ⟨a', _, rfl, ha, rfl⟩ := hes
    obtain rfl := Option.map_eq_none_iff.1 hr
    exact ⟨.delay a', rfl, rfl, rfl, by simp only [bare, ha]⟩
  | surface a b =>
    simp only [arguments, List.map_cons, List.map_nil, map_eq_cons_iff, map_eq_nil_iff] at hes
    obtain ⟨a', _, rfl, ha, b', _, rfl, hb, rfl⟩ := hes
    obtain rfl := Option.map_eq_none_iff.1 hr
    exact ⟨.surface a' b', rfl, rfl, rfl, by simp only [bare, ha, hb]⟩
  | pixel a b =>
    simp only [arguments, List.map_cons, List.map_nil, map_eq_cons_iff, map_eq_nil_iff] at hes
    obtain ⟨a', _, rfl, ha, b', _, rfl, hb, rfl⟩ := hes
    obtain rfl := Option.map_eq_none_iff.1 hr
    exact ⟨.pixel a' b', rfl, rfl, rfl, by simp only [bare, ha, hb]⟩
  | window a b d =>
    simp only [arguments, List.map_cons, List.map_nil, map_eq_cons_iff, map_eq_nil_iff] at hes
    obtain ⟨a', _, rfl, ha, b', _, rfl, hb, d', _, rfl, hd, rfl⟩ := hes
    obtain rfl := Option.map_eq_none_iff.1 hr
    exact ⟨.window a' b' d', rfl, rfl, rfl, by simp only [bare, ha, hb, hd]⟩
  | color a b d =>
    simp only [arguments, List.map_cons, List.map_nil, map_eq_cons_iff, map_eq_nil_iff] at hes
    obtain ⟨a', _, rfl, ha, b', _, rfl, hb, d', _, rfl, hd, rfl⟩ := hes
    obtain rfl := Option.map_eq_none_iff.1 hr
    exact ⟨.color a' b' d', rfl, rfl, rfl, by simp only [bare, ha, hb, hd]⟩
  | line a b d f =>
    simp only [arguments, List.map_cons, List.map_nil, map_eq_cons_iff, map_eq_nil_iff] at hes
    obtain ⟨a', _, rfl, ha, b', _, rfl, hb, d', _, rfl, hd, f', _, rfl, hf, rfl⟩ := hes
    obtain rfl := Option.map_eq_none_iff.1 hr
    exact ⟨.line a' b' d' f', rfl, rfl, rfl, by simp only [bare, ha, hb, hd, hf]⟩

/-! ## Statements -/

namespace Stmt

theorem ListParses.ends {bs : List Token} {body : List Stmt} {close : Token} (h : ListParses bs body (some close.kind))
    {k : Keyword} (hclose : close.kind = .keyword k) (hk : k.parts = true) : Ends (firstKind bs (some close.kind)) := by
  have hopens : Token.Opens (bs ++ [close]) := h.toFrom.opens (.keyword hclose hk)
  have hends := hopens.ends
  rwa [Token.firstKind_append] at hends

mutual

theorem parses_written : ∀ (s : Stmt) {ts : List Token} {next : Option TokenKind}, ts.map Token.kind = s.written .full →
    Ends next → ∃ s', Parses ts s' next ∧ s'.bare = s.bare
  | .make name value _, ts, next, h, hnext => by
    simp only [written, map_eq_cons_iff] at h
    obtain ⟨t, _, rfl, ht, n, vs, rfl, hn, hvs⟩ := h
    obtain ⟨x, hx, hname⟩ := Ident.exists_names hn
    obtain ⟨v, hv, hvalue⟩ := value.exists_written hvs hnext
    exact ⟨_, .make ht hx hv rfl, by simp only [bare, hname, hvalue]⟩
  | .assign name value _, ts, next, h, hnext => by
    simp only [written, map_eq_cons_iff] at h
    obtain ⟨n, _, rfl, hn, t, vs, rfl, ht, hvs⟩ := h
    obtain ⟨x, hx, hname⟩ := Ident.exists_names hn
    obtain ⟨v, hv, hvalue⟩ := value.exists_written hvs hnext
    exact ⟨_, .assign hx ht hv rfl, by simp only [bare, hname, hvalue]⟩
  | .makeArray name size _, ts, next, h, _ => by
    simp only [written, map_eq_cons_iff, map_eq_append_iff, map_eq_nil_iff] at h
    obtain ⟨t, _, rfl, ht, n, _, rfl, hn, o, _, rfl, ho, ss, _, rfl, hss, c, _, rfl, hc, rfl⟩ := h
    obtain ⟨x, hx, hname⟩ := Ident.exists_names hn
    obtain ⟨v, hv, hsize⟩ := size.exists_bracketed hss hc
    exact ⟨_, .makeArray ht hx ho hv hc rfl, by simp only [bare, hname, hsize]⟩
  | .assignArray name position value _, ts, next, h, hnext => by
    simp only [written, map_eq_cons_iff, map_eq_append_iff] at h
    obtain ⟨n, _, rfl, hn, o, _, rfl, ho, is, _, rfl, his, c, _, rfl, hc, t, vs, rfl, ht, hvs⟩ := h
    obtain ⟨x, hx, hname⟩ := Ident.exists_names hn
    obtain ⟨i, hi, hposition⟩ := position.exists_bracketed his hc
    obtain ⟨v, hv, hvalue⟩ := value.exists_written hvs hnext
    exact ⟨_, .assignArray hx ho hi hc ht hv rfl, by simp only [bare, hname, hposition, hvalue]⟩
  | .when test body _, ts, next, h, _ => by
    simp only [written, map_eq_cons_iff, map_eq_append_iff, map_eq_nil_iff] at h
    obtain ⟨t, _, rfl, ht, us, _, rfl, hus, bs, _, rfl, hbs, c, _, rfl, hc, rfl⟩ := h
    obtain ⟨l, hl, hbody⟩ := parses_writtenAll body bs (some c.kind) hbs ⟨by simp [hc], by simp [hc]⟩
    obtain ⟨e, he, htest⟩ := test.exists_written hus (hl.ends hc rfl)
    exact ⟨_, .when ht he hl hc rfl, by simp only [bare, htest, hbody]⟩
  | .loop test body _, ts, next, h, _ => by
    simp only [written, map_eq_cons_iff, map_eq_append_iff, map_eq_nil_iff] at h
    obtain ⟨t, _, rfl, ht, us, _, rfl, hus, bs, _, rfl, hbs, c, _, rfl, hc, rfl⟩ := h
    obtain ⟨l, hl, hbody⟩ := parses_writtenAll body bs (some c.kind) hbs ⟨by simp [hc], by simp [hc]⟩
    obtain ⟨e, he, htest⟩ := test.exists_written hus (hl.ends hc rfl)
    exact ⟨_, .loop ht he hl hc rfl, by simp only [bare, htest, hbody]⟩
  | .print value _, ts, next, h, hnext => by
    obtain ⟨t, vs, rfl, ht, hvs⟩ := map_eq_cons_iff.1 h
    obtain ⟨v, hv, hvalue⟩ := value.exists_written hvs hnext
    exact ⟨_, .print ht hv rfl, by simp only [bare, hvalue]⟩
  | .free name _, ts, next, h, _ => by
    simp only [written, map_eq_cons_iff, map_eq_nil_iff] at h
    obtain ⟨t, _, rfl, ht, n, _, rfl, hn, rfl⟩ := h
    obtain ⟨x, hx, hname⟩ := Ident.exists_names hn
    exact ⟨_, .free ht hx rfl, by simp only [bare, hname]⟩
  | .func name params body _, ts, next, h, _ => by
    simp only [written, map_eq_cons_iff, map_eq_append_iff, map_eq_nil_iff] at h
    obtain ⟨t, _, rfl, ht, n, _, rfl, hn, ps, _, rfl, hps, bs, _, rfl, hbs, c, _, rfl, hc, rfl⟩ := h
    obtain ⟨x, hx, hname⟩ := Ident.exists_names hn
    obtain ⟨xs, hxs, hparams⟩ := Ident.exists_params params hps
    obtain ⟨l, hl, hbody⟩ := parses_writtenAll body bs (some c.kind) hbs ⟨by simp [hc], by simp [hc]⟩
    exact ⟨_, .func ht hx hxs hl hc rfl, by simp only [bare, hname, hparams, hbody]⟩
  | .ret name _, ts, next, h, _ => by
    simp only [written, map_eq_cons_iff, map_eq_nil_iff] at h
    obtain ⟨t, _, rfl, ht, n, _, rfl, hn, rfl⟩ := h
    obtain ⟨x, hx, hname⟩ := Ident.exists_names hn
    exact ⟨_, .ret ht hx rfl, by simp only [bare, hname]⟩
  | .call callee args result _, ts, next, h, hnext => by
    simp only [written, map_eq_cons_iff, map_eq_append_iff] at h
    obtain ⟨t, _, rfl, ht, n, _, rfl, hn, as, rs, rfl, has, hrs⟩ := h
    obtain ⟨x, hx, hname⟩ := Ident.exists_names hn
    obtain ⟨r, hr, hresult, hends⟩ := Ident.exists_into result hrs
    obtain ⟨es, hes, hargs, -⟩ := Expr.exists_args args has (hends hnext)
    exact ⟨_, .call ht hx hes hr rfl, by simp only [bare, hname, hargs, hresult]⟩
  | .graphics op _, ts, next, h, hnext => by
    simp only [written, map_eq_cons_iff, map_eq_append_iff] at h
    obtain ⟨t, _, rfl, ht, as, rs, rfl, has, hrs⟩ := h
    obtain ⟨r, hr, hresult, hends⟩ := Ident.exists_into op.result? hrs
    obtain ⟨es, hes, hargs, -⟩ := Expr.exists_args op.arguments has (hends hnext)
    obtain ⟨op', hkeyword, rfl, rfl, hop⟩ := op.exists_bare hargs hresult
    exact ⟨_, .graphics (hkeyword ▸ ht) hes hr rfl, by simp only [bare, hop]⟩

theorem parses_writtenAll : ∀ (l : List Stmt) (ts : List Token) (next : Option TokenKind),
    ts.map Token.kind = writtenAll .full l → Ends next → ∃ l', ListParses ts l' next ∧ bareAll l' = bareAll l
  | [], ts, next, h, _ => by
    obtain rfl := map_eq_nil_iff.1 h
    exact ⟨[], .nil, rfl⟩
  | s :: l, ts, next, h, hnext => by
    obtain ⟨us, vs, rfl, hus, hvs⟩ := map_eq_append_iff.1 h
    obtain ⟨l', hl, hbares⟩ := parses_writtenAll l vs next hvs hnext
    have hends : Ends (firstKind vs next) := by
      cases hl with
      | nil => exact hnext
      | cons hs _ =>
        rw [Token.firstKind_of_ne_nil (by simp [hs.ne_nil]) next none]
        have hopens := hs.toFrom.opens
        exact (hopens _).ends
    obtain ⟨s', hs, hbare⟩ := parses_written s hus hends
    exact ⟨s' :: l', .cons hs hl, by simp only [bareAll, hbare, hbares]⟩

end

end Stmt

/-! ## Programs -/

namespace Program

/-- **Reading a program written out gives the program back, up to spans.**  The tokens may stand anywhere. -/
theorem ofTokens_unparse (p : Program) (ts : List Token) (stop : Option Position) (hts : ts.map Token.kind = p.unparse) :
    ∃ q, ofTokens ts stop = .ok q ∧ q.bare = p.bare := by
  obtain ⟨l, hl, hbare⟩ := Stmt.parses_writtenAll p.statements ts none hts Token.Opens.nil.ends
  refine ⟨_, ofTokens_of_parses hl stop, ?_⟩
  unfold bare
  rw [hbare]

/-- `func f a b a[b] = a - (b - 1) * -(a < b) if (rand (a) (b)) * 2 endif end call f (1) (-x) into x x = 0` -/
def knotty : Program :=
  let s := Span.nowhere
  let a : Expr := .var "a" s
  let b : Expr := .var "b" s
  let product : Expr :=
    .binary .mul (.binary .sub b (.number 1 s) s) (.neg (.binary .lt a b s) s) s
  ⟨[.func ⟨"f", s⟩ [⟨"a", s⟩, ⟨"b", s⟩]
      [.assignArray ⟨"a", s⟩ b (.binary .sub a product s) s,
        .when (.binary .mul (.random a b s) (.number 2 s) s) [] s] s,
    .call ⟨"f", s⟩ [.number 1 s, .neg (.var "x" s) s] (some ⟨"x", s⟩) s,
    .assign ⟨"x", s⟩ (.number 0 s) s], s⟩

theorem knotty_unparse :
    ((knotty.unparse.map fun k => (⟨k, Span.nowhere⟩ : Token)).map Token.kind = knotty.unparse) ∧
      ∃ q, ofTokens (knotty.unparse.map fun k => ⟨k, Span.nowhere⟩) none = .ok q ∧ q.bare = knotty.bare :=
  ⟨rfl, ofTokens_unparse knotty _ none rfl⟩

end Program
end QuillLang
