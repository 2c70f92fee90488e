import Carrot.Proofs.Parsing.Steps

/-! # What can be read of an expression is spelled

A partly read expression covers the tokens that led to it: its complete operands are
spelled by some of them, and the others are the operators, brackets and commas in
between. Every step inside the expression keeps this.
-/

namespace Carrot

open ExprPart (expr args termLevel)

variable {ts us vs : List Token} {t : Token} {e : Expr}

/-! ### Operators that wait -/

namespace Pending

/-- Tokens behind which these operators wait for an operand. -/
inductive Covers : List Token → List Pending → Prop
  | nil : Covers [] []
  | assign {ts us ps p} {t : Token} (h : Covers ts ps) (hreq : required ps = 0)
      (hp : Expr.PlaceSpelled us p) (ht : t.kind = .assign) :
      Covers (ts ++ us ++ [t]) (.assign p :: ps)
  | binary {ts us ps op a} {t : Token} (h : Covers ts ps) (hreq : required ps ≤ op.level)
      (ha : ExprPart.Spelled us (expr op.leftLevel a)) (ht : BinaryOp.ofKind? t.kind = some op) :
      Covers (ts ++ us ++ [t]) (.binary op a :: ps)
  | unary {ts ps op} {t : Token} (h : Covers ts ps) (ht : UnaryOp.ofKind? t.kind = some op) :
      Covers (ts ++ [t]) (.unary op :: ps)

theorem rightLevel_le_unary (p : Pending) : p.rightLevel ≤ UnaryOp.level := by
  cases p with
  | assign t => exact Nat.zero_le _
  | binary op l => exact op.level_lt_unary
  | unary op => exact Nat.le_refl _

theorem required_le_unary (ps : List Pending) : required ps ≤ UnaryOp.level := by
  cases ps with
  | nil => exact Nat.zero_le _
  | cons p ps => exact p.rightLevel_le_unary

/-- Closing the innermost operator moves its tokens to the operand. -/
theorem Covers.close {p : Pending} {ps : List Pending} (h : Covers ts (p :: ps))
    (he : ExprPart.Spelled us (expr p.rightLevel e)) :
    ∃ ts' us', ts ++ us = ts' ++ us' ∧ Covers ts' ps ∧
      ExprPart.Spelled us' (expr p.level (p.close e)) ∧ required ps ≤ p.level := by
  cases h with
  | @assign ts vs ps p t h hreq hp ht =>
    exact ⟨ts, vs ++ t :: us, by simp, h, .assign hp ht he, Nat.le_of_eq hreq⟩
  | @binary ts vs ps op a t h hreq ha ht =>
    exact ⟨ts, vs ++ t :: us, by simp, h, .binary ha ht he, hreq⟩
  | @unary ts ps op t h ht =>
    exact ⟨ts, t :: us, by simp, h, .unary ht he, required_le_unary ps⟩

/-- Settling moves the tokens of what it closes to the operand. -/
theorem Covers.settle {l m : Nat} {ps qs : List Pending} {f : Expr} (h : Covers ts ps)
    (he : ExprPart.Spelled us (expr m e)) (hm : required ps ≤ m) (hl : l ≤ m)
    (hqs : Pending.settle l ps e = (qs, f)) :
    ∃ ts' us', ts ++ us = ts' ++ us' ∧ Covers ts' qs ∧ ExprPart.Spelled us' (expr l f) := by
  induction ps generalizing ts us e m with
  | nil =>
    cases hqs
    exact ⟨ts, us, rfl, h, he.mono hl⟩
  | cons p ps ih =>
    rw [Pending.settle] at hqs
    split at hqs
    · next hp =>
      obtain ⟨ts', us', htu, h', he', hreq⟩ := h.close (he.mono hm)
      rw [htu]
      exact ih h' he' hreq hp hqs
    · cases hqs
      exact ⟨ts, us, rfl, h, he.mono hl⟩

/-- When all operators are closed, all tokens belong to the expression. -/
theorem Covers.closeAll {m : Nat} {ps : List Pending} (h : Covers ts ps)
    (he : ExprPart.Spelled us (expr m e)) (hm : required ps ≤ m) :
    ExprPart.Spelled (ts ++ us) (expr 0 (Pending.closeAll ps e)) := by
  induction ps generalizing ts us e m with
  | nil =>
    cases h
    exact he.mono (Nat.zero_le m)
  | cons p ps ih =>
    obtain ⟨ts', us', htu, h', he', hreq⟩ := h.close (he.mono hm)
    rw [htu]
    exact ih h' he' hreq

end Pending

/-! ### Surroundings -/

/-- Tokens of the arguments before the current one; the arguments are kept latest first. -/
inductive ArgsCover : List Token → List Expr → Prop
  | nil : ArgsCover [] []
  | more {ts es} {c : Token} (h : ExprPart.Spelled ts (args es.reverse)) (hne : es ≠ [])
      (hc : c.kind = .comma) : ArgsCover (ts ++ [c]) es

theorem ArgsCover.spelled {es : List Expr} (h : ArgsCover ts es)
    (he : ExprPart.Spelled us (expr 0 e)) :
    ExprPart.Spelled (ts ++ us) (args (e :: es).reverse) := by
  cases h with
  | nil => exact .firstArg he
  | more h hne hc => simpa using ExprPart.Spelled.nextArg h (by simpa using hne) hc he

theorem ArgsCover.eq_nil (h : ArgsCover ts []) : ts = [] := by
  cases h with
  | nil => rfl
  | more _ hne => exact absurd rfl hne

/-- Tokens of a statement before its expression. -/
inductive Purpose.Covers : List Token → Purpose → Prop
  | assign {ts p} {t : Token} (hp : Expr.PlaceSpelled ts p) (ht : t.kind = .assign) :
      Covers (ts ++ [t]) (.assign p)
  | write {k a : Token} (hk : k.kind = .kwCout) (ha : a.kind = .shiftLeft) : Covers [k, a] .write
  | ret {k : Token} (hk : k.kind = .kwReturn) : Covers [k] .ret
  | guard {k l : Token} (g : Guard) (hk : k.kind = g.keyword) (hl : l.kind = .lparen) :
      Covers [k, l] (.guard g)
  | argument {ts es} {f l : Token} (hf : f.kind = .ident) (hl : l.kind = .lparen)
      (h : ArgsCover ts es) : Covers (f :: l :: ts) (.argument f.ident es)

/-- Tokens up to the innermost open parenthesis and the arguments behind it. -/
inductive EnclosingCovers : List Token → List (Bracket × List Pending) → Prop
  | nil : EnclosingCovers [] []
  | group {ts us ps rest} {l : Token} (h : EnclosingCovers ts rest) (hp : Pending.Covers us ps)
      (hl : l.kind = .lparen) : EnclosingCovers (ts ++ us ++ [l]) ((.group, ps) :: rest)
  | call {ts us vs ps rest es} {f l : Token} (h : EnclosingCovers ts rest)
      (hp : Pending.Covers us ps) (hf : f.kind = .ident) (hl : l.kind = .lparen)
      (ha : ArgsCover vs es) :
      EnclosingCovers (ts ++ us ++ f :: l :: vs) ((.call f.ident es, ps) :: rest)

/-- Tokens of a statement before an operand in its expression. -/
inductive Surroundings.Covers : List Token → Surroundings → Prop
  | mk {ts us vs p ps rest} (hp : Purpose.Covers ts p) (he : EnclosingCovers us rest)
      (hps : Pending.Covers vs ps) : Covers (ts ++ us ++ vs) ⟨p, ps, rest⟩

/-- Tokens of a statement up to a point in its expression. -/
inductive ExprStep.Covers : List Token → ExprStep → Prop
  | operand {ts s} (h : Surroundings.Covers ts s) : Covers ts (.operand s)
  | field {ts us s r} {d : Token} (h : Surroundings.Covers ts s) (hr : Expr.PlaceSpelled us r)
      (hd : d.kind = .dot) : Covers (ts ++ us ++ [d]) (.field s r)
  | after {ts us s o} (h : Surroundings.Covers ts s)
      (ho : ExprPart.Spelled us (expr termLevel o.expr))
      (hbare : o.bare → Expr.PlaceSpelled us o.expr) : Covers (ts ++ us) (.after s o)
  | done {ts us p e} {t : Token} (hp : Purpose.Covers ts p) (he : ExprPart.Spelled us (expr 0 e))
      (ht : p.endKind? = some t.kind) : Covers (ts ++ us ++ [t]) (.done p e)
  | called {ts es} {f l r : Token} (hf : f.kind = .ident) (hl : l.kind = .lparen)
      (h : ExprPart.Spelled ts (args es)) (hr : r.kind = .rparen) :
      Covers (f :: l :: ts ++ [r]) (.called f.ident es)

/-! ### Steps inside an expression -/

theorem Expr.PlaceSpelled.covers {s : Surroundings} (hr : Expr.PlaceSpelled us e)
    (h : s.Covers ts) : ExprStep.Covers (ts ++ us) (.after s ⟨e, true⟩) :=
  .after h (.place hr) fun _ => hr

/-- A finished operand that is not bare. -/
theorem ExprPart.Spelled.covers {s : Surroundings} (he : Spelled us (expr termLevel e))
    (h : s.Covers ts) : ExprStep.Covers (ts ++ us) (.after s ⟨e, false⟩) :=
  .after h he fun h => absurd h (by simp)

namespace Surroundings

variable {s : Surroundings} {y : ExprStep}

/-- One more operator waits. -/
theorem Covers.wait {p : Pending} (h : s.Covers ts)
    (hp : ∀ vs, Pending.Covers vs s.pending → Pending.Covers (vs ++ us) (p :: s.pending)) :
    (s.wait p).Covers (ts ++ us) := by
  cases h with
  | @mk ts ws vs p ps rest h he hps => simpa [Surroundings.wait] using Covers.mk h he (hp vs hps)

/-- When the operators of an expression are closed, only its tokens stand behind the rest. -/
theorem Covers.closeAll (h : s.Covers ts) (he : ExprPart.Spelled us (expr termLevel e)) :
    ∃ ts' us', ts ++ us = ts' ++ us' ∧ Covers ts' ⟨s.purpose, [], s.enclosing⟩ ∧
      ExprPart.Spelled us' (expr 0 (Pending.closeAll s.pending e)) := by
  cases h with
  | @mk ts ws vs p ps rest hp hr hps =>
    have hm : Pending.required ps ≤ termLevel :=
      Nat.le_trans (Pending.required_le_unary ps) (by decide)
    refine ⟨ts ++ ws, vs ++ us, by simp, ?_, hps.closeAll he hm⟩
    simpa using Covers.mk hp hr .nil

theorem Covers.operand? (h : s.Covers ts) :
    s.operand? t = some y → ExprStep.Covers (ts ++ [t]) y := by
  fun_cases Surroundings.operand? s t with
  | case1 hk =>
    rintro ⟨⟩
    exact (Expr.PlaceSpelled.ident hk).covers h
  | case2 hk =>
    rintro ⟨⟩
    cases h with
    | @mk ts us vs p ps rest hp he hps =>
      simpa [enter] using ExprStep.Covers.operand (.mk hp (.group he hps hk) .nil)
  | case3 hk =>
    rintro ⟨⟩
    exact .operand (h.wait fun vs hvs => .unary hvs (by rw [hk]; rfl))
  | case4 hk =>
    rintro ⟨⟩
    exact .operand (h.wait fun vs hvs => .unary hvs (by rw [hk]; rfl))
  | case5 hk f ps rest he hps =>
    -- The parenthesis ends a call without arguments, within the expression or as a statement.
    rintro ⟨⟩
    obtain ⟨p, _, _⟩ := s
    subst hps he
    cases h with
    | mk hp he hnil =>
      cases hnil
      cases he with
      | @call ts us vs _ _ _ f l he hps hf hl ha =>
        obtain rfl := ha.eq_nil
        simpa using (ExprPart.Spelled.call hf hl .noArgs hk).covers (.mk hp he hps)
  | case6 hk f hp he hps =>
    rintro ⟨⟩
    obtain ⟨_, _, _⟩ := s
    subst hps he hp
    cases h with
    | mk hp he hnil =>
      cases hnil
      cases he
      cases hp with
      | argument hf hl ha =>
        obtain rfl := ha.eq_nil
        exact .called hf hl .noArgs hk
  | case7 => rintro ⟨⟩
  | case8 =>
    intro hy
    obtain ⟨e, he, rfl⟩ := Option.map_eq_some_iff.1 hy
    exact (ExprPart.Spelled.literal he).covers h

theorem Covers.rparen? (h : Covers ts ⟨s.purpose, [], s.enclosing⟩)
    (he : ExprPart.Spelled us (expr 0 e)) (ht : t.kind = .rparen) :
    s.rparen? e = some y → ExprStep.Covers (ts ++ us ++ [t]) y := by
  fun_cases Surroundings.rparen? s e with
  | case1 ps rest hr =>
    rintro ⟨⟩
    rw [hr] at h
    cases h with
    | mk hp hr hnil =>
      cases hnil
      cases hr with
      | group hr hps hl => simpa using (ExprPart.Spelled.group hl he ht).covers (.mk hp hr hps)
  | case2 f es ps rest hr =>
    rintro ⟨⟩
    rw [hr] at h
    cases h with
    | mk hp hr hnil =>
      cases hnil
      cases hr with
      | call hr hps hf hl ha =>
        simpa using (ExprPart.Spelled.call hf hl (ha.spelled he) ht).covers (.mk hp hr hps)
  | case3 g hp hr =>
    rintro ⟨⟩
    rw [hp, hr] at h
    cases h with
    | mk hp hr hnil =>
      cases hnil
      cases hr
      simpa using ExprStep.Covers.done hp he (congrArg some ht.symm)
  | case4 f es hp hr =>
    rintro ⟨⟩
    rw [hp, hr] at h
    cases h with
    | mk hp hr hnil =>
      cases hnil
      cases hr
      cases hp with
      | argument hf hl ha => simpa using ExprStep.Covers.called hf hl (ha.spelled he) ht
  | case5 => rintro ⟨⟩

theorem Covers.comma? (h : Covers ts ⟨s.purpose, [], s.enclosing⟩)
    (he : ExprPart.Spelled us (expr 0 e)) (ht : t.kind = .comma) :
    s.comma? e = some y → ExprStep.Covers (ts ++ us ++ [t]) y := by
  fun_cases Surroundings.comma? s e with
  | case1 f es ps rest hr =>
    rintro ⟨⟩
    rw [hr] at h
    cases h with
    | mk hp hr hnil =>
      cases hnil
      cases hr with
      | call hr hps hf hl ha =>
        have ha' := ArgsCover.more (ha.spelled he) (by simp) ht
        simpa using ExprStep.Covers.operand (.mk hp (.call hr hps hf hl ha') .nil)
  | case2 f es hp hr =>
    rintro ⟨⟩
    rw [hp, hr] at h
    cases h with
    | mk hp hr hnil =>
      cases hnil
      cases hr
      cases hp with
      | argument hf hl ha =>
        have ha' := ArgsCover.more (ha.spelled he) (by simp) ht
        simpa using ExprStep.Covers.operand (.mk (.argument hf hl ha') .nil .nil)
  | case3 => rintro ⟨⟩

theorem Covers.semicolon? (h : Covers ts ⟨s.purpose, [], s.enclosing⟩)
    (he : ExprPart.Spelled us (expr 0 e)) (ht : t.kind = .semicolon) :
    s.semicolon? e = some y → ExprStep.Covers (ts ++ us ++ [t]) y := by
  have hdone (hr : s.enclosing = []) (hk : s.purpose.endKind? = some .semicolon) :
      ExprStep.Covers (ts ++ us ++ [t]) (.done s.purpose e) := by
    rw [hr] at h
    cases h with
    | mk hp hr hnil =>
      cases hnil
      cases hr
      simpa using ExprStep.Covers.done hp he (hk.trans (congrArg some ht.symm))
  fun_cases Surroundings.semicolon? s e with
  | case1 p hp hr | case2 hp hr | case3 hp hr =>
    rintro ⟨⟩
    rw [hp] at hdone
    exact hdone hr rfl
  | case4 => rintro ⟨⟩

theorem Covers.operator? {op : BinaryOp} {r : Surroundings} (h : s.Covers ts)
    (he : ExprPart.Spelled us (expr termLevel e)) (ht : BinaryOp.ofKind? t.kind = some op) :
    s.operator? op e = some r → r.Covers (ts ++ us ++ [t]) := by
  cases h with
  | @mk ts ws vs p ps rest hp hr hps =>
    have hm : Pending.required ps ≤ termLevel :=
      Nat.le_trans (Pending.required_le_unary ps) (by decide)
    have hl : op.leftLevel ≤ termLevel := by cases op <;> decide
    cases hset : Pending.settle op.leftLevel ps e with
    | mk qs f =>
      obtain ⟨vs', us', htu, hqs, hf⟩ := hps.settle he hm hl hset
      simp only [Surroundings.operator?, hset]
      split
      · next hreq =>
        rintro ⟨⟩
        have hts : ts ++ ws ++ vs ++ us ++ [t] = ts ++ ws ++ (vs' ++ us' ++ [t]) := by
          rw [← htu]
          simp
        rw [hts]
        exact .mk hp hr (.binary hqs hreq hf ht)
      · rintro ⟨⟩

theorem Covers.after? {o : Operand} (h : s.Covers ts)
    (ho : ExprPart.Spelled us (expr termLevel o.expr))
    (hbare : o.bare → Expr.PlaceSpelled us o.expr) :
    s.after? o t = some y → ExprStep.Covers (ts ++ us ++ [t]) y := by
  obtain ⟨ts', us', htu, h', he'⟩ := h.closeAll ho
  fun_cases Surroundings.after? s o t with
  | case1 r hk =>
    rintro ⟨⟩
    exact .field h (hbare rfl) hk
  | case2 f hk =>
    rintro ⟨⟩
    cases hbare rfl with
    | @ident x hx =>
      cases h with
      | mk hp hr hps =>
        simpa [enter] using ExprStep.Covers.operand (.mk hp (.call hr hps hx hk .nil) .nil)
  | case3 p hk =>
    intro hy
    obtain ⟨r, hr, rfl⟩ := Option.map_eq_some_iff.1 hy
    rw [assign?] at hr
    split at hr
    · next hreq =>
      cases hr
      rw [List.append_assoc]
      exact .operand (h.wait fun vs hvs => by simpa using hvs.assign hreq (hbare rfl) hk)
    · cases hr
  | case4 o hk =>
    rw [htu]
    exact h'.rparen? he' hk
  | case5 o hk =>
    rw [htu]
    exact h'.comma? he' hk
  | case6 o hk =>
    rw [htu]
    exact h'.semicolon? he' hk
  | case7 =>
    intro hy
    obtain ⟨op, hop, hy⟩ := Option.bind_eq_some_iff.1 hy
    obtain ⟨r, hr, rfl⟩ := Option.map_eq_some_iff.1 hy
    exact .operand (h.operator? ho hop hr)

end Surroundings

/-- What a step in an expression keeps. -/
theorem ExprStep.Covers.next? {x y : ExprStep} (h : ExprStep.Covers ts x) :
    x.next? t = some y → ExprStep.Covers (ts ++ [t]) y := by
  cases h with
  | operand h => exact h.operand?
  | @field ts us s r d h hr hd =>
    rw [ExprStep.next?]
    split
    · next hx =>
      rintro ⟨⟩
      simpa using (hr.dot hd hx).covers h
    · rintro ⟨⟩
  | after h ho hbare => exact h.after? ho hbare
  | done => rintro ⟨⟩
  | called => rintro ⟨⟩

end Carrot
