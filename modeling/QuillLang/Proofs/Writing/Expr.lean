import QuillLang.Proofs.Grammar.Basic
/-!
# Written expressions parse

What is read at a level stops at the first token that does not bind as tightly (`TokenKind.binds`).  A text stands for an
expression at a level when it parses as that expression, up to spans, before everything that binds more loosely than a rank
(`Expr.Stands`).  A left operand is never read on its own, so it has to stand where operands of its tier are joined.
-/
namespace QuillLang

open Token (firstKind)

/-! ## Ranks -/

namespace TokenKind

def binds : TokenKind → Nat
  | .operator o => if o.isMultiplicative then 3 else if o.isAdditive then 2 else 1
  | .delimiter .lbracket => 4
  | _ => 0

/-- The token behind binds what stands before it more loosely than `r`, if there is one. -/
def LooserThan (r : Nat) (next : Option TokenKind) : Prop := ∀ k, next = some k → k.binds < r

namespace LooserThan

theorem mono {r r' : Nat} {next : Option TokenKind} (h : LooserThan r next) (hr : r ≤ r') : LooserThan r' next :=
  fun k hk => Nat.lt_of_lt_of_le (h k hk) hr

theorem some {r : Nat} {k : TokenKind} (h : k.binds < r) : LooserThan r (some k) := by
  rintro _ ⟨⟩
  exact h

end LooserThan

theorem Ends.looser {next : Option TokenKind} (h : Ends next) : LooserThan 1 next := by
  rintro k rfl
  unfold binds
  split
  · exact absurd rfl (h.operator _)
  · exact absurd rfl h.bracket
  · decide

end TokenKind

open TokenKind (LooserThan)

theorem BinaryOp.binds_operator (op : BinaryOp) : (TokenKind.operator op.operator).binds = op.tier.rank := by
  cases op <;> rfl

namespace Tier

theorem rank_pos (t : Tier) : 1 ≤ t.rank := by
  cases t <;> decide

theorem rank_le (t : Tier) : t.rank ≤ 3 := by
  cases t <;> decide

/-- Operators of a tier bind at least at its rank. -/
theorem rank_le_binds {t : Tier} {o : Operator} (h : t.accepts o = true) : t.rank ≤ (TokenKind.operator o).binds := by
  cases t <;> cases o <;> revert h <;> decide

end Tier

/-! ## Texts that stand for an expression -/

namespace Expr

/-- Tokens of these kinds parse as `e` at a level, before any token looser than `r`. -/
def Stands (p : Level) (r : Nat) (ks : List TokenKind) (e : Expr) : Prop :=
  ∀ (ts : List Token) (next : Option TokenKind), ts.map Token.kind = ks → LooserThan r next →
    ∃ e', Parses p ts e' next ∧ e'.bare = e.bare

namespace Stands
variable {t : Tier} {r : Nat} {ks : List TokenKind} {e : Expr}

theorem first (h : Stands t.operand r ks e) : Stands (.joined t) r ks e := by
  intro ts next hts hnext
  obtain ⟨e', he, hbare⟩ := h ts next hts hnext
  exact ⟨e', .first he, hbare⟩

/-- One more operator of the tier. -/
theorem binary {op : BinaryOp} {left right : Expr} {ls rs : List TokenKind} (span : Span)
    (hleft : Stands (.joined op.tier) (op.tier.rank + 1) ls left) (hright : Stands op.tier.operand r rs right) :
    Stands (.joined op.tier) r (ls ++ .operator op.operator :: rs) (.binary op left right span) := by
  intro ts next hts hnext
  obtain ⟨us, vs, rfl, hus, hvs⟩ := List.map_eq_append_iff.1 hts
  obtain ⟨u, ws, rfl, hu, hws⟩ := List.map_eq_cons_iff.1 hvs
  have hloose : LooserThan (op.tier.rank + 1) (some u.kind) := by
    rw [hu]
    exact .some (by rw [op.binds_operator]; exact Nat.lt_succ_self _)
  obtain ⟨left', hl, hleft⟩ := hleft us _ hus hloose
  obtain ⟨right', hr, hright⟩ := hright ws next hws hnext
  exact ⟨_, .binary hl hu hr rfl, by simp only [bare, hleft, hright]⟩

theorem last (h : Stands (.joined t) r ks e) {r' : Nat} (hr : r' ≤ r) (ht : r' ≤ t.rank) : Stands (.tier t) r' ks e := by
  intro ts next hts hnext
  obtain ⟨e', he, hbare⟩ := h ts next hts (hnext.mono hr)
  refine ⟨e', .last he fun o ho => Bool.eq_false_iff.2 fun haccepts => ?_, hbare⟩
  have hlt := hnext _ ho
  have hle := Tier.rank_le_binds haccepts
  omega

/-- What is joined at a tier is an operand of the tiers below. -/
theorem descend {u : Tier} (h : Stands (.joined t) (t.rank + 1) ks e) (hu : u.rank ≤ t.rank) :
    Stands (.joined u) (u.rank + 1) ks e := by
  have hadditive (h : Stands (.joined .multiplicative) 4 ks e) : Stands (.joined .additive) 3 ks e :=
    first (t := .additive) (h.last (by decide) (by decide))
  have hcomparison (h : Stands (.joined .additive) 3 ks e) : Stands (.joined .comparison) 2 ks e :=
    first (t := .comparison) (h.last (by decide) (by decide))
  cases t <;> cases u
  case comparison.comparison | additive.additive | multiplicative.multiplicative => exact h
  case additive.comparison => exact hcomparison h
  case multiplicative.comparison => exact hcomparison (hadditive h)
  case multiplicative.additive => exact hadditive h
  all_goals exact absurd hu (by decide)

theorem enclosed (h : Stands .whole 1 ks e) : Stands .unary 4 (TokenKind.enclosed ks) e := by
  intro ts next hts _
  obtain ⟨o, us, rfl, ho, hus⟩ := List.map_eq_cons_iff.1 hts
  obtain ⟨ps, vs, rfl, hps, hvs⟩ := List.map_eq_append_iff.1 hus
  obtain ⟨c, ws, rfl, hc, hws⟩ := List.map_eq_cons_iff.1 hvs
  obtain rfl := List.map_eq_nil_iff.1 hws
  obtain ⟨e', he, hbare⟩ := h ps (some c.kind) hps (by rw [hc]; exact .some (by decide))
  exact ⟨_, .plain (.paren ho he hc rfl), by rw [bare_withSpan, hbare]⟩

end Stands

/-- An expression parses where it stands alone, where a primary stands, and as a left operand at every tier. -/
structure Legible (e : Expr) : Prop where
  alone : Stands .whole 1 e.written e
  unary : Stands .unary 4 (e.writtenAt 4) e
  joined : ∀ t : Tier, Stands (.joined t) (t.rank + 1) (e.writtenAt t.rank) e

namespace Legible
variable {e : Expr}

/-- In parentheses it is a primary. -/
theorem joined_enclosed (h : Stands .whole 1 e.written e) (t : Tier) :
    Stands (.joined t) (t.rank + 1) (TokenKind.enclosed e.written) e := by
  have hmul : Stands (.joined .multiplicative) 4 (TokenKind.enclosed e.written) e := .first (t := .multiplicative) h.enclosed
  exact hmul.descend (t := .multiplicative) t.rank_le

theorem of_joined {t : Tier} (hrank : e.rank = t.rank) (h : Stands (.joined t) (t.rank + 1) e.written e) : Legible e := by
  have halone : Stands .whole 1 e.written e := (h.descend (u := .comparison) t.rank_pos).last (by decide) (by decide)
  have ht := t.rank_le
  refine ⟨halone, ?_, fun t' => ?_⟩
  · unfold writtenAt enclosedBelow
    rw [if_pos (by omega)]
    exact halone.enclosed
  · unfold writtenAt enclosedBelow
    split
    · exact joined_enclosed halone t'
    · exact h.descend (by omega)

theorem of_unary (hrank : e.rank = 4) (h : Stands .unary 4 e.written e) : Legible e := by
  have hmul : Stands (.joined .multiplicative) 4 e.written e := .first (t := .multiplicative) h
  have hwritten : ∀ r ≤ 4, e.writtenAt r = e.written := by
    intro r hr
    unfold writtenAt enclosedBelow
    rw [if_neg (by omega)]
  refine ⟨?_, ?_, fun t => ?_⟩
  · exact (hmul.descend (t := .multiplicative) (u := .comparison) (by decide)).last (by decide) (by decide)
  · rw [hwritten 4 (Nat.le_refl 4)]
    exact h
  · rw [hwritten t.rank (Nat.le_succ_of_le t.rank_le)]
    exact hmul.descend (t := .multiplicative) t.rank_le

/-- An expression that runs on as far as it can. -/
theorem of_open (hrank : e.rank = 0) (h : Stands .unary 1 e.written e) : Legible e := by
  have hmul : Stands (.tier .multiplicative) 1 e.written e :=
    (Stands.first (t := .multiplicative) h).last (by decide) (by decide)
  have hadd : Stands (.tier .additive) 1 e.written e := (Stands.first (t := .additive) hmul).last (by decide) (by decide)
  have halone : Stands .whole 1 e.written e := (Stands.first (t := .comparison) hadd).last (by decide) (by decide)
  have hwritten : ∀ r ≥ 1, e.writtenAt r = TokenKind.enclosed e.written := by
    intro r hr
    unfold writtenAt enclosedBelow
    rw [if_pos (by omega)]
  refine ⟨halone, ?_, fun t => ?_⟩
  · rw [hwritten 4 (by decide)]
    exact halone.enclosed
  · rw [hwritten t.rank t.rank_pos]
    exact joined_enclosed halone t

theorem operand (h : Legible e) (t : Tier) : Stands t.operand (t.rank + 1) (e.writtenAt (t.rank + 1)) e := by
  cases t with
  | comparison => exact (h.joined .additive).last (by decide) (by decide)
  | additive => exact (h.joined .multiplicative).last (by decide) (by decide)
  | multiplicative => exact h.unary

theorem argument (h : Legible e) : Stands .whole 1 e.writtenArgument e :=
  (joined_enclosed h.alone .comparison).last (by decide) (by decide)

end Legible

theorem exists_arguments {a b : Expr} (ha : Legible a) (hb : Legible b) {ts : List Token} {next : Option TokenKind}
    {k : TokenKind} (hts : ts.map Token.kind = k :: (a.writtenArgument ++ b.writtenArgument)) (hnext : LooserThan 1 next) :
    ∃ t as bs a' b', ts = t :: (as ++ bs) ∧ t.kind = k ∧ Parses .whole as a' (firstKind bs next) ∧ Parses .whole bs b' next ∧
      a'.bare = a.bare ∧ b'.bare = b.bare := by
  obtain ⟨t, us, rfl, ht, hus⟩ := List.map_eq_cons_iff.1 hts
  obtain ⟨as, bs, rfl, has, hbs⟩ := List.map_eq_append_iff.1 hus
  have hparen : firstKind bs next = some (.delimiter .lparen) := by
    obtain ⟨o, _, rfl, ho, -⟩ := List.map_eq_cons_iff.1 hbs
    exact congrArg some ho
  obtain ⟨a', ha', habare⟩ := ha.argument as (firstKind bs next) has (by rw [hparen]; exact .some (by decide))
  obtain ⟨b', hb', hbbare⟩ := hb.argument bs next hbs hnext
  exact ⟨t, as, bs, a', b', rfl, ht, ha', hb', habare, hbbare⟩

theorem legible : ∀ e : Expr, Legible e
  | var name span => .of_unary rfl fun ts next hts hnext => by
    obtain ⟨t, us, rfl, ht, hus⟩ := List.map_eq_cons_iff.1 hts
    obtain rfl := List.map_eq_nil_iff.1 hus
    refine ⟨_, .plain (.var ht ?_), rfl⟩
    rintro rfl
    exact absurd (hnext _ rfl) (by decide)
  | number value span => .of_unary rfl fun ts next hts _ => by
    obtain ⟨t, us, rfl, ht, hus⟩ := List.map_eq_cons_iff.1 hts
    obtain rfl := List.map_eq_nil_iff.1 hus
    exact ⟨_, .plain (.number ht), rfl⟩
  | string text span => .of_unary rfl fun ts next hts _ => by
    obtain ⟨t, us, rfl, ht, hus⟩ := List.map_eq_cons_iff.1 hts
    obtain rfl := List.map_eq_nil_iff.1 hus
    exact ⟨_, .plain (.string ht), rfl⟩
  | index array position span => .of_unary rfl fun ts next hts _ => by
    obtain ⟨t, us, rfl, ht, hus⟩ := List.map_eq_cons_iff.1 hts
    obtain ⟨o, us, rfl, ho, hus⟩ := List.map_eq_cons_iff.1 hus
    obtain ⟨ps, vs, rfl, hps, hvs⟩ := List.map_eq_append_iff.1 hus
    obtain ⟨c, ws, rfl, hc, hws⟩ := List.map_eq_cons_iff.1 hvs
    obtain rfl := List.map_eq_nil_iff.1 hws
    obtain ⟨e, he, hbare⟩ := position.legible.alone ps (some c.kind) hps (by rw [hc]; exact .some (by decide))
    exact ⟨_, .plain (.index (x := ⟨array.name, t.span⟩) ⟨ht, rfl⟩ ho he hc rfl), by simp only [bare, hbare]; rfl⟩
  | binary op left right span =>
    .of_joined (t := op.tier) rfl (.binary span (left.legible.joined op.tier) (right.legible.operand op.tier))
  | neg operand span => .of_unary rfl fun ts next hts hnext => by
    obtain ⟨t, us, rfl, ht, hus⟩ := List.map_eq_cons_iff.1 hts
    obtain ⟨e, he, hbare⟩ := operand.legible.unary us next hus hnext
    exact ⟨_, .neg ht he rfl, by simp only [bare, hbare]⟩
  | trig func degrees scale span => .of_open rfl fun ts next hts hnext => by
    obtain ⟨t, as, bs, a, b, rfl, ht, ha, hb, habare, hbbare⟩ := exists_arguments degrees.legible scale.legible hts hnext
    exact ⟨_, .plain (.trig ht ha hb rfl), by simp only [bare, habare, hbbare]⟩
  | random seed limit span => .of_open rfl fun ts next hts hnext => by
    obtain ⟨t, as, bs, a, b, rfl, ht, ha, hb, habare, hbbare⟩ := exists_arguments seed.legible limit.legible hts hnext
    exact ⟨_, .plain (.random ht ha hb rfl), by simp only [bare, habare, hbbare]⟩

end Expr
end QuillLang
