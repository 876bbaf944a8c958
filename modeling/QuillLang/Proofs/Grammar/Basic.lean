import QuillLang.Proofs.Spans.Basic
/-!
# The grammar

Which tokens form an expression depends on the token behind them, and on no more than that: one that goes on with the
expression, an operator that binds tightly enough or the bracket of an index, belongs to it.  So the grammar relates tokens
to what they are read as before a token of some kind, or before the end (`Expr.Parses`, `Stmt.Parses`).  A statement depends
on what is behind it through the expression that it ends with alone, so what parses anywhere parses before every token that
goes on with no expression (`Stmt.ListParses.loosen`).

Every node of what is parsed has the span of its tokens (`Stmt.ListParses.toFrom`).
-/
namespace QuillLang

open Token (hull Names)

namespace Token

def firstKind : List Token → Option TokenKind → Option TokenKind
  | [], next => next
  | t :: _, _ => some t.kind

theorem firstKind_append (ts us : List Token) (next : Option TokenKind) :
    firstKind (ts ++ us) next = firstKind ts (firstKind us next) := by
  cases ts <;> rfl

theorem firstKind_of_ne_nil {ts : List Token} (h : ts ≠ []) (next next' : Option TokenKind) :
    firstKind ts next = firstKind ts next' := by
  cases ts with
  | nil => exact absurd rfl h
  | cons => rfl

end Token

open Token (firstKind)

/-- Before such a token, or before the end, every expression is over. -/
structure TokenKind.Ends (next : Option TokenKind) : Prop where
  operator : ∀ o, next ≠ some (.operator o)
  bracket : next ≠ some (.delimiter .lbracket)

open TokenKind (Ends)

/-! ## Expressions -/

inductive Level where
  | primary
  | unary
  /-- Operands of a tier and operators between them, where one more may follow. -/
  | joined (t : Tier)
  | tier (t : Tier)

namespace Level

abbrev whole : Level := tier .comparison

end Level

def Tier.operand : Tier → Level
  | comparison => .tier .additive
  | additive => .tier .multiplicative
  | multiplicative => .unary

namespace Expr

/-- Tokens that are read as an expression at a level, before a token of kind `next`. -/
inductive Parses : Level → List Token → Expr → Option TokenKind → Prop where
  | var {t : Token} {name : String} {next} (ht : t.kind = .identifier name)
    (hnext : next ≠ some (.delimiter .lbracket)) : Parses .primary [t] (.var name t.span) next
  | number {t : Token} {value : Int64} {next} (ht : t.kind = .number value) :
    Parses .primary [t] (.number value t.span) next
  | string {t : Token} {text : String} {next} (ht : t.kind = .string text) :
    Parses .primary [t] (.string text t.span) next
  | index {t o c : Token} {ts all : List Token} {x : Ident} {position : Expr} {next} (ht : t.Names x)
    (ho : o.kind = .delimiter .lbracket) (h : Parses .whole ts position (some c.kind)) (hc : c.kind = .delimiter .rbracket)
    (hall : all = t :: o :: (ts ++ [c])) : Parses .primary all (.index x position (hull all)) next
  | trig {t : Token} {ds ss all : List Token} {func : TrigFunc} {degrees scale : Expr} {next}
    (ht : t.kind = .keyword func.keyword) (hd : Parses .whole ds degrees (firstKind ss next))
    (hs : Parses .whole ss scale next) (hall : all = t :: (ds ++ ss)) :
    Parses .primary all (.trig func degrees scale (hull all)) next
  | random {t : Token} {ss ls all : List Token} {seed limit : Expr} {next} (ht : t.kind = .keyword .rand)
    (hs : Parses .whole ss seed (firstKind ls next)) (hl : Parses .whole ls limit next) (hall : all = t :: (ss ++ ls)) :
    Parses .primary all (.random seed limit (hull all)) next
  | paren {o c : Token} {ts all : List Token} {e : Expr} {next} (ho : o.kind = .delimiter .lparen)
    (h : Parses .whole ts e (some c.kind)) (hc : c.kind = .delimiter .rparen) (hall : all = o :: (ts ++ [c])) :
    Parses .primary all (e.withSpan (hull all)) next
  | plain {ts : List Token} {e : Expr} {next} (h : Parses .primary ts e next) : Parses .unary ts e next
  | neg {t : Token} {ts all : List Token} {operand : Expr} {next} (ht : t.kind = .operator .minus)
    (h : Parses .unary ts operand next) (hall : all = t :: ts) : Parses .unary all (.neg operand (hull all)) next
  | first {t : Tier} {ts : List Token} {e : Expr} {next} (h : Parses t.operand ts e next) :
    Parses (.joined t) ts e next
  | binary {u : Token} {ls rs all : List Token} {op : BinaryOp} {left right : Expr} {next}
    (hl : Parses (.joined op.tier) ls left (some u.kind)) (hu : u.kind = .operator op.operator)
    (hr : Parses op.tier.operand rs right next) (hall : all = ls ++ u :: rs) :
    Parses (.joined op.tier) all (.binary op left right (hull all)) next
  | last {t : Tier} {ts : List Token} {e : Expr} {next} (h : Parses (.joined t) ts e next)
    (hnext : ∀ o, next = some (.operator o) → t.accepts o = false) : Parses (.tier t) ts e next

inductive ListParses : List Token → List Expr → Option TokenKind → Prop where
  | nil {next} : ListParses [] [] next
  | cons {ts us : List Token} {e : Expr} {es : List Expr} {next}
    (h : Parses .whole ts e (firstKind us next)) (hes : ListParses us es next) : ListParses (ts ++ us) (e :: es) next

theorem Parses.toFrom {p : Level} {ts : List Token} {e : Expr} {next : Option TokenKind} (h : Parses p ts e next) :
    From ts e := by
  induction h with
  | var ht => exact .var ht
  | number ht => exact .number ht
  | string ht => exact .string ht
  | index ht ho _ hc hall ih => exact .index ht ho ih hc hall
  | trig ht _ _ hall ihd ihs => exact .trig ht ihd ihs hall
  | random ht _ _ hall ihs ihl => exact .random ht ihs ihl hall
  | paren ho _ hc hall ih => exact .paren ho ih hc hall
  | plain _ ih | first _ ih | last _ _ ih => exact ih
  | neg ht _ hall ih => exact .neg ht ih hall
  | binary _ hu _ hall ihl ihr => exact .binary ihl hu ihr hall

theorem ListParses.toFrom {ts : List Token} {es : List Expr} {next : Option TokenKind} (h : ListParses ts es next) :
    ListFrom ts es := by
  induction h with
  | nil => exact .nil
  | cons h _ ih => exact .cons h.toFrom ih

theorem Parses.ne_nil {p : Level} {ts : List Token} {e : Expr} {next : Option TokenKind} (h : Parses p ts e next) :
    ts ≠ [] :=
  h.toFrom.ne_nil

theorem Parses.loosen {p : Level} {ts : List Token} {e : Expr} {next next' : Option TokenKind} (h : Parses p ts e next)
    (h' : Ends next') : Parses p ts e next' := by
  induction h with
  | var ht => exact .var ht h'.bracket
  | number ht => exact .number ht
  | string ht => exact .string ht
  | index ht ho h hc hall => exact .index ht ho h hc hall
  | trig ht hd hs hall _ ihs =>
    rw [Token.firstKind_of_ne_nil hs.ne_nil _ next'] at hd
    exact .trig ht hd ihs hall
  | random ht hs hl hall _ ihl =>
    rw [Token.firstKind_of_ne_nil hl.ne_nil _ next'] at hs
    exact .random ht hs ihl hall
  | paren ho h hc hall => exact .paren ho h hc hall
  | plain _ ih => exact .plain ih
  | neg ht _ hall ih => exact .neg ht ih hall
  | first _ ih => exact .first ih
  | binary hl hu _ hall _ ihr => exact .binary hl hu ihr hall
  | last _ _ ih => exact .last ih fun o ho => absurd ho (h'.operator o)

theorem ListParses.loosen {ts : List Token} {es : List Expr} {next next' : Option TokenKind} (h : ListParses ts es next)
    (h' : Ends next') : ListParses ts es next' := by
  induction h with
  | nil => exact .nil
  | @cons ts us e es next h _ ih =>
    refine .cons ?_ ih
    cases us with
    | nil => exact h.loosen h'
    | cons => exact h

end Expr

/-! ## Statements -/

namespace Stmt

mutual

/-- Tokens that are read as a statement, before a token of kind `next`. -/
inductive Parses : List Token → Stmt → Option TokenKind → Prop where
  | make {t n : Token} {vs all : List Token} {x : Ident} {value : Expr} {next} (ht : t.kind = .keyword .make)
    (hn : n.Names x) (hv : value.Parses .whole vs next) (hall : all = t :: n :: vs) :
    Parses all (.make x value (hull all)) next
  | assign {n t : Token} {vs all : List Token} {x : Ident} {value : Expr} {next} (hn : n.Names x)
    (ht : t.kind = .operator .assign) (hv : value.Parses .whole vs next) (hall : all = n :: t :: vs) :
    Parses all (.assign x value (hull all)) next
  | makeArray {t n o c : Token} {ss all : List Token} {x : Ident} {size : Expr} {next} (ht : t.kind = .keyword .make)
    (hn : n.Names x) (ho : o.kind = .delimiter .lbracket) (hs : size.Parses .whole ss (some c.kind))
    (hc : c.kind = .delimiter .rbracket) (hall : all = t :: n :: o :: (ss ++ [c])) :
    Parses all (.makeArray x size (hull all)) next
  | assignArray {n o c t : Token} {is vs all : List Token} {x : Ident} {position value : Expr} {next} (hn : n.Names x)
    (ho : o.kind = .delimiter .lbracket) (hi : position.Parses .whole is (some c.kind))
    (hc : c.kind = .delimiter .rbracket) (ht : t.kind = .operator .assign) (hv : value.Parses .whole vs next)
    (hall : all = n :: o :: (is ++ c :: t :: vs)) : Parses all (.assignArray x position value (hull all)) next
  | when {t c : Token} {ts bs all : List Token} {test : Expr} {body : List Stmt} {next} (ht : t.kind = .keyword .ifKw)
    (htest : test.Parses .whole ts (firstKind bs (some c.kind))) (hbody : ListParses bs body (some c.kind))
    (hc : c.kind = .keyword .endif) (hall : all = t :: (ts ++ (bs ++ [c]))) : Parses all (.when test body (hull all)) next
  | loop {t c : Token} {ts bs all : List Token} {test : Expr} {body : List Stmt} {next} (ht : t.kind = .keyword .asKw)
    (htest : test.Parses .whole ts (firstKind bs (some c.kind))) (hbody : ListParses bs body (some c.kind))
    (hc : c.kind = .keyword .repeatKw) (hall : all = t :: (ts ++ (bs ++ [c]))) : Parses all (.loop test body (hull all)) next
  | print {t : Token} {vs all : List Token} {value : Expr} {next} (ht : t.kind = .keyword .print)
    (hv : value.Parses .whole vs next) (hall : all = t :: vs) : Parses all (.print value (hull all)) next
  | free {t n : Token} {all : List Token} {x : Ident} {next} (ht : t.kind = .keyword .free) (hn : n.Names x)
    (hall : all = [t, n]) : Parses all (.free x (hull all)) next
  | func {t n c : Token} {ps bs all : List Token} {x : Ident} {params : List Ident} {body : List Stmt} {next}
    (ht : t.kind = .keyword .func) (hn : n.Names x) (hparams : List.Forall₂ Names ps params)
    (hbody : ListParses bs body (some c.kind)) (hc : c.kind = .keyword .endKw)
    (hall : all = t :: n :: (ps ++ (bs ++ [c]))) : Parses all (.func x params body (hull all)) next
  | ret {t n : Token} {all : List Token} {x : Ident} {next} (ht : t.kind = .keyword .returnKw) (hn : n.Names x)
    (hall : all = [t, n]) : Parses all (.ret x (hull all)) next
  | call {t n : Token} {as rs all : List Token} {x : Ident} {args : List Expr} {result : Option Ident} {next}
    (ht : t.kind = .keyword .call) (hn : n.Names x) (hargs : Expr.ListParses as args (firstKind rs next))
    (hresult : Ident.IntoFrom rs result) (hall : all = t :: n :: (as ++ rs)) :
    Parses all (.call x args result (hull all)) next
  | graphics {t : Token} {as rs all : List Token} {op : Graphics} {next} (ht : t.kind = .keyword op.keyword)
    (hargs : Expr.ListParses as op.arguments (firstKind rs next)) (hresult : Ident.IntoFrom rs op.result?)
    (hall : all = t :: (as ++ rs)) : Parses all (.graphics op (hull all)) next

inductive ListParses : List Token → List Stmt → Option TokenKind → Prop where
  | nil {next} : ListParses [] [] next
  | cons {ts us : List Token} {s : Stmt} {rest : List Stmt} {next} (h : Parses ts s (firstKind us next))
    (hrest : ListParses us rest next) : ListParses (ts ++ us) (s :: rest) next

end

mutual

theorem Parses.toFrom : ∀ {ts : List Token} {s : Stmt} {next : Option TokenKind}, Parses ts s next → From ts s
  | _, _, _, .make ht hn hv hall => .make ht hn hv.toFrom hall
  | _, _, _, .assign hn ht hv hall => .assign hn ht hv.toFrom hall
  | _, _, _, .makeArray ht hn ho hs hc hall => .makeArray ht hn ho hs.toFrom hc hall
  | _, _, _, .assignArray hn ho hi hc ht hv hall => .assignArray hn ho hi.toFrom hc ht hv.toFrom hall
  | _, _, _, .when ht htest hbody hc hall => .when ht htest.toFrom hbody.toFrom hc hall
  | _, _, _, .loop ht htest hbody hc hall => .loop ht htest.toFrom hbody.toFrom hc hall
  | _, _, _, .print ht hv hall => .print ht hv.toFrom hall
  | _, _, _, .free ht hn hall => .free ht hn hall
  | _, _, _, .func ht hn hparams hbody hc hall => .func ht hn hparams hbody.toFrom hc hall
  | _, _, _, .ret ht hn hall => .ret ht hn hall
  | _, _, _, .call ht hn hargs hresult hall => .call ht hn hargs.toFrom hresult hall
  | _, _, _, .graphics ht hargs hresult hall => .graphics ht hargs.toFrom hresult hall

theorem ListParses.toFrom : ∀ {ts : List Token} {l : List Stmt} {next : Option TokenKind}, ListParses ts l next →
    ListFrom ts l
  | _, _, _, .nil => .nil
  | _, _, _, .cons h hrest => .cons h.toFrom hrest.toFrom

end

theorem Parses.ne_nil {ts : List Token} {s : Stmt} {next : Option TokenKind} (h : Parses ts s next) : ts ≠ [] :=
  h.toFrom.ne_nil

/-- Only the expression that a statement ends with depends on what is behind. -/
theorem Parses.loosen {ts : List Token} {s : Stmt} {next next' : Option TokenKind} (h : Parses ts s next)
    (h' : Ends next') : Parses ts s next' := by
  have hargs {rs : List Token} {result : Option Ident} (hresult : Ident.IntoFrom rs result) {as : List Token}
      {es : List Expr} (hes : Expr.ListParses as es (firstKind rs next)) : Expr.ListParses as es (firstKind rs next') := by
    cases hresult with
    | none => exact hes.loosen h'
    | some => exact hes
  cases h with
  | make ht hn hv hall => exact .make ht hn (hv.loosen h') hall
  | assign hn ht hv hall => exact .assign hn ht (hv.loosen h') hall
  | makeArray ht hn ho hs hc hall => exact .makeArray ht hn ho hs hc hall
  | assignArray hn ho hi hc ht hv hall => exact .assignArray hn ho hi hc ht (hv.loosen h') hall
  | when ht htest hbody hc hall => exact .when ht htest hbody hc hall
  | loop ht htest hbody hc hall => exact .loop ht htest hbody hc hall
  | print ht hv hall => exact .print ht (hv.loosen h') hall
  | free ht hn hall => exact .free ht hn hall
  | func ht hn hparams hbody hc hall => exact .func ht hn hparams hbody hc hall
  | ret ht hn hall => exact .ret ht hn hall
  | call ht hn hes hresult hall => exact .call ht hn (hargs hresult hes) hresult hall
  | graphics ht hes hresult hall => exact .graphics ht (hargs hresult hes) hresult hall

/-- **What parses anywhere parses wherever nothing goes on with it.** -/
theorem ListParses.loosen : ∀ {ts : List Token} {l : List Stmt} {next next' : Option TokenKind}, ListParses ts l next →
    Ends next' → ListParses ts l next'
  | _, _, _, _, .nil, _ => .nil
  | _, _, _, _, @ListParses.cons _ [] _ _ _ h hrest, h' => .cons (h.loosen h') (hrest.loosen h')
  | _, _, _, _, @ListParses.cons _ (_ :: _) _ _ _ h hrest, h' => .cons h (hrest.loosen h')

end Stmt
end QuillLang
