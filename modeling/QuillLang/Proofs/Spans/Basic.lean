import Mathlib.Data.List.Forall2
import Mathlib.Order.Defs.Unbundled
import QuillLang.Proofs.Writing.Basic
/-!
# What a node was read from

Every node of a program is read from a stretch of tokens, and its span goes from the first of them to the last
(`Token.hull`).  The relations below follow the grammar: they say of each form of expression and statement which tokens are
its own and which are its parts' (`Expr.From`, `Stmt.From`).  Parentheses belong to the expression within them, and a
closing keyword to the statement that it closes.

If the tokens are in order, the spans of the parts of a node lie within its own and are in order too, and so on down to the
tokens (`Stmt.From.nested`).  It does not matter which order of places is meant; that of the offsets will do, and so will
that of lines and columns.
-/
namespace QuillLang

namespace Token

def hull (ts : List Token) : Span :=
  ⟨(ts.head?.map fun t => t.span.start).getD Position.start, (ts.getLast?.map fun t => t.span.stop).getD Position.start⟩

def Names (t : Token) (x : Ident) : Prop := t.kind = .identifier x.name ∧ t.span = x.span

end Token

open Token (hull Names)

/-! ## Expressions -/

namespace Expr

/-- An expression whose nodes have the spans of the tokens that they were read from. -/
inductive From : List Token → Expr → Prop where
  | var {t : Token} {name : String} (ht : t.kind = .identifier name) : From [t] (.var name t.span)
  | number {t : Token} {value : Int64} (ht : t.kind = .number value) : From [t] (.number value t.span)
  | string {t : Token} {text : String} (ht : t.kind = .string text) : From [t] (.string text t.span)
  | index {t o c : Token} {ts all : List Token} {x : Ident} {position : Expr} (ht : t.Names x)
    (ho : o.kind = .delimiter .lbracket) (h : From ts position) (hc : c.kind = .delimiter .rbracket)
    (hall : all = t :: o :: (ts ++ [c])) : From all (.index x position (hull all))
  | binary {t : Token} {ls rs all : List Token} {op : BinaryOp} {left right : Expr} (hl : From ls left)
    (ht : t.kind = .operator op.operator) (hr : From rs right) (hall : all = ls ++ t :: rs) :
    From all (.binary op left right (hull all))
  | neg {t : Token} {ts all : List Token} {operand : Expr} (ht : t.kind = .operator .minus) (h : From ts operand)
    (hall : all = t :: ts) : From all (.neg operand (hull all))
  | trig {t : Token} {ds ss all : List Token} {func : TrigFunc} {degrees scale : Expr}
    (ht : t.kind = .keyword func.keyword) (hd : From ds degrees) (hs : From ss scale) (hall : all = t :: (ds ++ ss)) :
    From all (.trig func degrees scale (hull all))
  | random {t : Token} {ss ls all : List Token} {seed limit : Expr} (ht : t.kind = .keyword .rand) (hs : From ss seed)
    (hl : From ls limit) (hall : all = t :: (ss ++ ls)) : From all (.random seed limit (hull all))
  /-- An expression within parentheses is the same with their span. -/
  | paren {o c : Token} {ts all : List Token} {e : Expr} (ho : o.kind = .delimiter .lparen) (h : From ts e)
    (hc : c.kind = .delimiter .rparen) (hall : all = o :: (ts ++ [c])) : From all (e.withSpan (hull all))

inductive ListFrom : List Token → List Expr → Prop where
  | nil : ListFrom [] []
  | cons {ts us : List Token} {e : Expr} {es : List Expr} (h : From ts e) (hes : ListFrom us es) :
    ListFrom (ts ++ us) (e :: es)

end Expr

/-! ## Statements -/

inductive Ident.IntoFrom : List Token → Option Ident → Prop where
  | none : IntoFrom [] none
  | some {t n : Token} {x : Ident} (ht : t.kind = .keyword .into) (hn : n.Names x) : IntoFrom [t, n] (some x)

namespace Stmt

mutual

/-- A statement whose nodes have the spans of the tokens that they were read from. -/
inductive From : List Token → Stmt → Prop where
  | make {t n : Token} {vs all : List Token} {x : Ident} {value : Expr} (ht : t.kind = .keyword .make) (hn : n.Names x)
    (hv : value.From vs) (hall : all = t :: n :: vs) : From all (.make x value (hull all))
  | assign {n t : Token} {vs all : List Token} {x : Ident} {value : Expr} (hn : n.Names x)
    (ht : t.kind = .operator .assign) (hv : value.From vs) (hall : all = n :: t :: vs) :
    From all (.assign x value (hull all))
  | makeArray {t n o c : Token} {ss all : List Token} {x : Ident} {size : Expr} (ht : t.kind = .keyword .make)
    (hn : n.Names x) (ho : o.kind = .delimiter .lbracket) (hs : size.From ss) (hc : c.kind = .delimiter .rbracket)
    (hall : all = t :: n :: o :: (ss ++ [c])) : From all (.makeArray x size (hull all))
  | assignArray {n o c t : Token} {is vs all : List Token} {x : Ident} {position value : Expr} (hn : n.Names x)
    (ho : o.kind = .delimiter .lbracket) (hi : position.From is) (hc : c.kind = .delimiter .rbracket)
    (ht : t.kind = .operator .assign) (hv : value.From vs) (hall : all = n :: o :: (is ++ c :: t :: vs)) :
    From all (.assignArray x position value (hull all))
  | when {t c : Token} {ts bs all : List Token} {test : Expr} {body : List Stmt} (ht : t.kind = .keyword .ifKw)
    (htest : test.From ts) (hbody : ListFrom bs body) (hc : c.kind = .keyword .endif)
    (hall : all = t :: (ts ++ (bs ++ [c]))) : From all (.when test body (hull all))
  | loop {t c : Token} {ts bs all : List Token} {test : Expr} {body : List Stmt} (ht : t.kind = .keyword .asKw)
    (htest : test.From ts) (hbody : ListFrom bs body) (hc : c.kind = .keyword .repeatKw)
    (hall : all = t :: (ts ++ (bs ++ [c]))) : From all (.loop test body (hull all))
  | print {t : Token} {vs all : List Token} {value : Expr} (ht : t.kind = .keyword .print) (hv : value.From vs)
    (hall : all = t :: vs) : From all (.print value (hull all))
  | free {t n : Token} {all : List Token} {x : Ident} (ht : t.kind = .keyword .free) (hn : n.Names x) (hall : all = [t, n]) :
    From all (.free x (hull all))
  | func {t n c : Token} {ps bs all : List Token} {x : Ident} {params : List Ident} {body : List Stmt}
    (ht : t.kind = .keyword .func) (hn : n.Names x) (hparams : List.Forall₂ Names ps params) (hbody : ListFrom bs body)
    (hc : c.kind = .keyword .endKw) (hall : all = t :: n :: (ps ++ (bs ++ [c]))) : From all (.func x params body (hull all))
  | ret {t n : Token} {all : List Token} {x : Ident} (ht : t.kind = .keyword .returnKw) (hn : n.Names x)
    (hall : all = [t, n]) : From all (.ret x (hull all))
  | call {t n : Token} {as rs all : List Token} {x : Ident} {args : List Expr} {result : Option Ident}
    (ht : t.kind = .keyword .call) (hn : n.Names x) (hargs : Expr.ListFrom as args) (hresult : Ident.IntoFrom rs result)
    (hall : all = t :: n :: (as ++ rs)) : From all (.call x args result (hull all))
  | graphics {t : Token} {as rs all : List Token} {op : Graphics} (ht : t.kind = .keyword op.keyword)
    (hargs : Expr.ListFrom as op.arguments) (hresult : Ident.IntoFrom rs op.result?) (hall : all = t :: (as ++ rs)) :
    From all (.graphics op (hull all))

inductive ListFrom : List Token → List Stmt → Prop where
  | nil : ListFrom [] []
  | cons {ts us : List Token} {s : Stmt} {rest : List Stmt} (h : From ts s) (hrest : ListFrom us rest) :
    ListFrom (ts ++ us) (s :: rest)

end

end Stmt

/-! ## Parts -/

namespace Expr

def operands : Expr → List Expr
  | var _ _ | number _ _ | string _ _ => []
  | index _ position _ => [position]
  | binary _ left right _ => [left, right]
  | neg operand _ => [operand]
  | trig _ degrees scale _ => [degrees, scale]
  | random seed limit _ => [seed, limit]

/-- The spans of the names and expressions that stand directly in an expression, in source order. -/
def parts : Expr → List Span
  | index x position _ => [x.span, position.span]
  | e => e.operands.map Expr.span

end Expr

/-- The spans of the names, expressions and statements that stand directly in a statement, in source order. -/
def Stmt.parts : Stmt → List Span
  | .make x e _ | .assign x e _ | .makeArray x e _ => [x.span, e.span]
  | .assignArray x position value _ => [x.span, position.span, value.span]
  | .when test body _ | .loop test body _ => test.span :: body.map Stmt.span
  | .print value _ => [value.span]
  | .free x _ | .ret x _ => [x.span]
  | .func x params body _ => x.span :: (params.map Ident.span ++ body.map Stmt.span)
  | .call x args result _ => x.span :: (args.map Expr.span ++ result.toList.map Ident.span)
  | .graphics op _ => op.arguments.map Expr.span ++ op.result?.toList.map Ident.span

/-- Spans that lie within a whole, each behind the ones before it. -/
structure Span.Tidy (le : Position → Position → Prop) (whole : Span) (parts : List Span) : Prop where
  within : ∀ part ∈ parts, le whole.start part.start ∧ le part.stop whole.stop
  disjoint : parts.Pairwise fun a b => le a.stop b.start

/-- The parts of an expression are tidy, and so are those of each of its parts. -/
inductive Expr.Nested (le : Position → Position → Prop) : Expr → Prop where
  | intro {e : Expr} (h : e.span.Tidy le e.parts) (hoperands : ∀ d ∈ e.operands, Nested le d) : Nested le e

/-- The parts of a statement are tidy, and so are those of each of its parts. -/
inductive Stmt.Nested (le : Position → Position → Prop) : Stmt → Prop where
  | intro {s : Stmt} (h : s.span.Tidy le s.parts) (hexpressions : ∀ e ∈ s.expressions, e.Nested le)
    (hbody : ∀ body, s.body? = some body → ∀ b ∈ body, Nested le b) : Nested le s

structure Token.Ordered (le : Position → Position → Prop) (ts : List Token) : Prop where
  forward : ∀ t ∈ ts, le t.span.start t.span.stop
  disjoint : ts.Pairwise fun t u => le t.span.stop u.span.start

/-! ## Hulls of tokens in order -/

namespace Token

theorem hull_singleton (t : Token) : hull [t] = t.span := rfl

theorem hull_eq {ts : List Token} (h : ts ≠ []) : ∃ t ∈ ts, ∃ u ∈ ts, hull ts = ⟨t.span.start, u.span.stop⟩ := by
  refine ⟨ts.head h, List.head_mem h, ts.getLast h, List.getLast_mem h, ?_⟩
  unfold hull
  rw [List.head?_eq_some_head h, List.getLast?_eq_some_getLast h]
  rfl

inductive Laid : List Token → List Span → Prop where
  | nil (ts : List Token) : Laid ts []
  | skip (t : Token) {ts : List Token} {parts : List Span} (h : Laid ts parts) : Laid (t :: ts) parts
  | part {us ts : List Token} {parts : List Span} (hus : us ≠ []) (h : Laid ts parts) : Laid (us ++ ts) (hull us :: parts)

namespace Laid

theorem name {t : Token} {x : Ident} {ts : List Token} {parts : List Span} (ht : t.Names x) (h : Laid ts parts) :
    Laid (t :: ts) (x.span :: parts) := by
  rw [← ht.2, ← hull_singleton]
  exact part (List.cons_ne_nil t []) h

theorem append {ts : List Token} {parts : List Span} (h : Laid ts parts) (us : List Token) : Laid (ts ++ us) parts := by
  induction h with
  | nil ts => exact .nil _
  | skip t _ ih => exact .skip t ih
  | part hus _ ih =>
    rw [List.append_assoc]
    exact .part hus ih

theorem exists_tokens {ts : List Token} {parts : List Span} (h : Laid ts parts) :
    ∀ part ∈ parts, ∃ t ∈ ts, ∃ u ∈ ts, part = ⟨t.span.start, u.span.stop⟩ := by
  induction h with
  | nil ts => simp
  | skip t _ ih =>
    intro part hpart
    obtain ⟨u, hu, v, hv, rfl⟩ := ih part hpart
    exact ⟨u, List.mem_cons_of_mem t hu, v, List.mem_cons_of_mem t hv, rfl⟩
  | @part us ts parts hus _ ih =>
    intro part hpart
    rcases List.mem_cons.1 hpart with rfl | hpart
    · obtain ⟨u, hu, v, hv, heq⟩ := hull_eq hus
      exact ⟨u, List.mem_append_left ts hu, v, List.mem_append_left ts hv, heq⟩
    · obtain ⟨u, hu, v, hv, rfl⟩ := ih part hpart
      exact ⟨u, List.mem_append_right us hu, v, List.mem_append_right us hv, rfl⟩

end Laid

namespace Ordered
variable {le : Position → Position → Prop} {ts us : List Token} {t : Token}

theorem tail (h : Ordered le (t :: ts)) : Ordered le ts :=
  ⟨fun u hu => h.forward u (List.mem_cons_of_mem t hu), h.disjoint.of_cons⟩

theorem left (h : Ordered le (ts ++ us)) : Ordered le ts :=
  ⟨fun u hu => h.forward u (List.mem_append_left us hu), (List.pairwise_append.1 h.disjoint).1⟩

theorem right (h : Ordered le (ts ++ us)) : Ordered le us :=
  ⟨fun u hu => h.forward u (List.mem_append_right ts hu), (List.pairwise_append.1 h.disjoint).2.1⟩

theorem within_hull [IsPreorder Position le] (h : Ordered le ts) (ht : t ∈ ts) :
    le (hull ts).start t.span.start ∧ le t.span.stop (hull ts).stop := by
  constructor
  · cases ts with
    | nil => cases ht
    | cons u ts =>
      show le u.span.start t.span.start
      rcases List.mem_cons.1 ht with rfl | ht
      · exact refl_of le _
      · exact trans_of le (h.forward u List.mem_cons_self) ((List.pairwise_cons.1 h.disjoint).1 t ht)
  · rcases List.eq_nil_or_concat ts with rfl | ⟨ts, u, rfl⟩
    · cases ht
    · have hstop : (hull (ts.concat u)).stop = u.span.stop := by
        unfold hull
        rw [List.concat_eq_append, List.getLast?_concat]
        rfl
      rw [hstop]
      rw [List.concat_eq_append] at ht h
      rcases List.mem_append.1 ht with ht | ht
      · exact trans_of le ((List.pairwise_append.1 h.disjoint).2.2 t ht u (List.mem_singleton.2 rfl))
          (h.forward u (by simp))
      · rw [List.mem_singleton.1 ht]
        exact refl_of le _

/-- **Stretches of tokens in order are tidy.** -/
theorem tidy [IsPreorder Position le] (h : Ordered le ts) {parts : List Span} (hlaid : Laid ts parts) :
    (hull ts).Tidy le parts := by
  constructor
  · intro part hpart
    obtain ⟨t, ht, u, hu, rfl⟩ := hlaid.exists_tokens part hpart
    exact ⟨(h.within_hull ht).1, (h.within_hull hu).2⟩
  · induction hlaid with
    | nil ts => exact .nil
    | skip t _ ih => exact ih h.tail
    | @part us ts parts hus hrest ih =>
      refine List.pairwise_cons.2 ⟨fun part hpart => ?_, ih h.right⟩
      obtain ⟨t, -, u, hu, heq⟩ := hull_eq hus
      obtain ⟨v, hv, w, -, rfl⟩ := hrest.exists_tokens part hpart
      rw [heq]
      exact (List.pairwise_append.1 h.disjoint).2.2 u hu v hv

end Ordered
end Token

open Token (Laid Ordered)

/-! ## Nodes read from tokens in order -/

namespace Expr

@[simp] theorem span_withSpan (e : Expr) (s : Span) : (e.withSpan s).span = s := by
  cases e <;> rfl

@[simp] theorem parts_withSpan (e : Expr) (s : Span) : (e.withSpan s).parts = e.parts := by
  cases e <;> rfl

@[simp] theorem operands_withSpan (e : Expr) (s : Span) : (e.withSpan s).operands = e.operands := by
  cases e <;> rfl

namespace From
variable {ts : List Token} {e : Expr}

theorem ne_nil (h : From ts e) : ts ≠ [] := by
  cases h <;> simp_all

theorem span_eq (h : From ts e) : e.span = hull ts := by
  cases h with
  | var | number | string => rfl
  | index | binary | neg | trig | random => rfl
  | paren => exact span_withSpan ..

theorem laid_cons (h : From ts e) {us : List Token} {parts : List Span} (hus : Laid us parts) :
    Laid (ts ++ us) (e.span :: parts) := by
  rw [h.span_eq]
  exact .part h.ne_nil hus

theorem laid_last (h : From ts e) : Laid ts [e.span] := by
  have hlaid : Laid (ts ++ []) [e.span] := h.laid_cons (.nil [])
  rwa [List.append_nil] at hlaid

theorem laid (h : From ts e) : Laid ts e.parts := by
  induction h with
  | var | number | string => exact .nil _
  | index ht _ h _ hall _ =>
    subst hall
    exact .name ht (.skip _ (h.laid_cons (.nil _)))
  | binary hl _ hr hall _ _ =>
    subst hall
    exact hl.laid_cons (.skip _ hr.laid_last)
  | neg _ h hall _ =>
    subst hall
    exact .skip _ h.laid_last
  | trig _ hd hs hall _ _ =>
    subst hall
    exact .skip _ (hd.laid_cons hs.laid_last)
  | random _ hs hl hall _ _ =>
    subst hall
    exact .skip _ (hs.laid_cons hl.laid_last)
  | paren _ _ _ hall ih =>
    subst hall
    rw [parts_withSpan]
    exact .skip _ (ih.append _)

variable {le : Position → Position → Prop} [IsPreorder Position le]

theorem tidy (h : From ts e) (ho : Ordered le ts) : e.span.Tidy le e.parts := by
  rw [h.span_eq]
  exact ho.tidy h.laid

/-- **An expression read from tokens in order is nested.** -/
theorem nested (h : From ts e) (ho : Ordered le ts) : e.Nested le := by
  refine .intro (h.tidy ho) ?_
  induction h with
  | var | number | string => exact List.forall_mem_nil _
  | index _ _ h _ hall ih =>
    subst hall
    have hposition := ho.tail.tail.left
    exact List.forall_mem_singleton.2 ⟨h.tidy hposition, ih hposition⟩
  | binary hl _ hr hall ihl ihr =>
    subst hall
    exact List.forall_mem_cons.2 ⟨⟨hl.tidy ho.left, ihl ho.left⟩,
      List.forall_mem_singleton.2 ⟨hr.tidy ho.right.tail, ihr ho.right.tail⟩⟩
  | neg _ h hall ih =>
    subst hall
    exact List.forall_mem_singleton.2 ⟨h.tidy ho.tail, ih ho.tail⟩
  | trig _ hd hs hall ihd ihs =>
    subst hall
    exact List.forall_mem_cons.2 ⟨⟨hd.tidy ho.tail.left, ihd ho.tail.left⟩,
      List.forall_mem_singleton.2 ⟨hs.tidy ho.tail.right, ihs ho.tail.right⟩⟩
  | random _ hs hl hall ihs ihl =>
    subst hall
    exact List.forall_mem_cons.2 ⟨⟨hs.tidy ho.tail.left, ihs ho.tail.left⟩,
      List.forall_mem_singleton.2 ⟨hl.tidy ho.tail.right, ihl ho.tail.right⟩⟩
  | paren _ _ _ hall ih =>
    subst hall
    rw [operands_withSpan]
    exact ih ho.tail.left

end From

namespace ListFrom
variable {ts : List Token} {es : List Expr}

theorem laid_append (h : ListFrom ts es) {us : List Token} {parts : List Span} (hus : Laid us parts) :
    Laid (ts ++ us) (es.map Expr.span ++ parts) := by
  induction h with
  | nil => exact hus
  | cons h _ ih =>
    rw [List.append_assoc]
    exact h.laid_cons ih

theorem nested {le : Position → Position → Prop} [IsPreorder Position le] (h : ListFrom ts es) (ho : Ordered le ts) :
    ∀ e ∈ es, e.Nested le := by
  induction h with
  | nil => exact List.forall_mem_nil _
  | cons h _ ih => exact List.forall_mem_cons.2 ⟨h.nested ho.left, ih ho.right⟩

end ListFrom
end Expr

namespace Ident

theorem IntoFrom.laid {ts : List Token} {result : Option Ident} (h : IntoFrom ts result) :
    Laid ts (result.toList.map Ident.span) := by
  cases h with
  | none => exact .nil _
  | some _ hn => exact .skip _ (.name hn (.nil _))

theorem laid_append {ps : List Token} {params : List Ident} (h : List.Forall₂ Names ps params) {us : List Token}
    {parts : List Span} (hus : Laid us parts) : Laid (ps ++ us) (params.map Ident.span ++ parts) := by
  induction h with
  | nil => exact hus
  | cons hn _ ih => exact .name hn ih

end Ident

namespace Stmt

namespace From
variable {ts : List Token} {s : Stmt}

theorem span_eq (h : From ts s) : s.span = hull ts := by
  cases h <;> rfl

theorem ne_nil (h : From ts s) : ts ≠ [] := by
  cases h <;> simp_all

end From

theorem ListFrom.laid {bs : List Token} {body : List Stmt} (us : List Token) :
    ListFrom bs body → Laid (bs ++ us) (body.map Stmt.span)
  | .nil => .nil _
  | .cons h hrest => by
    rw [List.append_assoc, List.map_cons, h.span_eq]
    exact .part h.ne_nil (hrest.laid us)

theorem From.laid {ts : List Token} {s : Stmt} (h : From ts s) : Laid ts s.parts := by
  cases h with
  | make _ hn hv hall =>
    subst hall
    exact .skip _ (.name hn hv.laid_last)
  | assign hn _ hv hall =>
    subst hall
    exact .name hn (.skip _ hv.laid_last)
  | makeArray _ hn _ hs _ hall =>
    subst hall
    exact .skip _ (.name hn (.skip _ (hs.laid_cons (.nil _))))
  | assignArray hn _ hi _ _ hv hall =>
    subst hall
    exact .name hn (.skip _ (hi.laid_cons (.skip _ (.skip _ hv.laid_last))))
  | when _ htest hbody _ hall | loop _ htest hbody _ hall =>
    subst hall
    exact .skip _ (htest.laid_cons (hbody.laid _))
  | print _ hv hall =>
    subst hall
    exact .skip _ hv.laid_last
  | free _ hn hall | ret _ hn hall =>
    subst hall
    exact .skip _ (.name hn (.nil _))
  | func _ hn hparams hbody _ hall =>
    subst hall
    exact .skip _ (.name hn (Ident.laid_append hparams (hbody.laid _)))
  | call _ hn hargs hresult hall =>
    subst hall
    exact .skip _ (.name hn (hargs.laid_append hresult.laid))
  | graphics _ hargs hresult hall =>
    subst hall
    exact .skip _ (hargs.laid_append hresult.laid)

variable {le : Position → Position → Prop}

theorem Nested.flat {s : Stmt} (htidy : s.span.Tidy le s.parts) (hbody : s.body? = none)
    (hexpressions : ∀ e ∈ s.expressions, e.Nested le) : s.Nested le :=
  .intro htidy hexpressions fun body hsome => by rw [hbody] at hsome; cases hsome

theorem Nested.block {s : Stmt} {body : List Stmt} (htidy : s.span.Tidy le s.parts) (hsome : s.body? = some body)
    (hexpressions : ∀ e ∈ s.expressions, e.Nested le) (hbody : ∀ b ∈ body, b.Nested le) : s.Nested le :=
  .intro htidy hexpressions fun body' hsome' => by
    rw [hsome] at hsome'
    cases hsome'
    exact hbody

theorem From.tidy [IsPreorder Position le] {ts : List Token} {s : Stmt} (h : From ts s) (ho : Ordered le ts) :
    s.span.Tidy le s.parts := by
  rw [h.span_eq]
  exact ho.tidy h.laid

mutual

/-- **A statement read from tokens in order is nested.** -/
theorem From.nested [IsPreorder Position le] {ts : List Token} {s : Stmt} (h : From ts s) (ho : Ordered le ts) :
    s.Nested le := by
  have htidy : s.span.Tidy le s.parts := h.tidy ho
  cases h with
  | make _ hn hv hall =>
    subst hall
    exact .flat htidy rfl (List.forall_mem_singleton.2 (hv.nested ho.tail.tail))
  | assign hn _ hv hall =>
    subst hall
    exact .flat htidy rfl (List.forall_mem_singleton.2 (hv.nested ho.tail.tail))
  | makeArray _ hn _ hs _ hall =>
    subst hall
    exact .flat htidy rfl (List.forall_mem_singleton.2 (hs.nested ho.tail.tail.tail.left))
  | assignArray hn _ hi _ _ hv hall =>
    subst hall
    exact .flat htidy rfl (List.forall_mem_cons.2 ⟨hi.nested ho.tail.tail.left,
      List.forall_mem_singleton.2 (hv.nested ho.tail.tail.right.tail.tail)⟩)
  | when _ htest hbody _ hall | loop _ htest hbody _ hall =>
    subst hall
    exact .block htidy rfl (List.forall_mem_singleton.2 (htest.nested ho.tail.left))
      (hbody.nested ho.tail.right.left)
  | print _ hv hall =>
    subst hall
    exact .flat htidy rfl (List.forall_mem_singleton.2 (hv.nested ho.tail))
  | free _ hn hall | ret _ hn hall => exact .flat htidy rfl (List.forall_mem_nil _)
  | func _ hn hparams hbody _ hall =>
    subst hall
    exact .block htidy rfl (List.forall_mem_nil _) (hbody.nested ho.tail.tail.right.left)
  | call _ hn hargs hresult hall =>
    subst hall
    exact .flat htidy rfl (hargs.nested ho.tail.tail.left)
  | graphics _ hargs hresult hall =>
    subst hall
    exact .flat htidy rfl (hargs.nested ho.tail.left)

theorem ListFrom.nested [IsPreorder Position le] {ts : List Token} {l : List Stmt} (h : ListFrom ts l)
    (ho : Ordered le ts) : ∀ s ∈ l, s.Nested le := by
  cases h with
  | nil => exact List.forall_mem_nil _
  | cons h hrest => exact List.forall_mem_cons.2 ⟨h.nested ho.left, hrest.nested ho.right⟩

end

end Stmt

end QuillLang
