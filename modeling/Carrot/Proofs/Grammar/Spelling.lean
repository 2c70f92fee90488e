import Carrot.Partial.Program

/-! # What tokens spell

The language by its syntax trees: which sequences of tokens spell a given type,
place, expression, statement or declaration. Expressions are spelled at a level;
a form that binds more tightly than required may stand wherever a looser one may.
Lists grow at their end, as they do in the grammar.
-/

namespace Carrot

variable {α : Type} {ts us : List Token} {t x : Token}

/-! ### Lists of parts -/

/-- Tokens that spell some parts one after another. -/
inductive Sequence (P : List Token → α → Prop) : List Token → List α → Prop
  | nil : Sequence P [] []
  | snoc {ts us a as} (h : Sequence P ts as) (ha : P us a) : Sequence P (ts ++ us) (as ++ [a])

/-- Tokens that spell some parts with commas between them. -/
inductive Separated (P : List Token → α → Prop) : List Token → List α → Prop
  | nil : Separated P [] []
  | one {ts a} (ha : P ts a) : Separated P ts [a]
  | snoc {ts us a as} {c : Token} (h : Separated P ts as) (hne : as ≠ []) (hc : c.kind = .comma)
      (ha : P us a) : Separated P (ts ++ c :: us) (as ++ [a])

theorem Sequence.one {P : List Token → α → Prop} {a : α} (ha : P ts a) : Sequence P ts [a] :=
  .snoc .nil ha

theorem Sequence.append {P : List Token → α → Prop} {as bs : List α} (ha : Sequence P ts as)
    (hb : Sequence P us bs) : Sequence P (ts ++ us) (as ++ bs) := by
  induction hb with
  | nil => simpa using ha
  | snoc _ hb ih => simpa only [List.append_assoc] using ih.snoc hb

theorem Separated.eq_nil {P : List Token → α → Prop} (h : Separated P ts []) : ts = [] := by
  generalize has : ([] : List α) = as at h
  cases h with
  | nil => rfl
  | _ => simp at has

/-- One more part in front of some that are separated by commas. -/
theorem Separated.cons {P : List Token → α → Prop} {a : α} {as : List α} {c : Token} (ha : P ts a)
    (hc : c.kind = .comma) (h : Separated P us as) (hne : as ≠ []) :
    Separated P (ts ++ c :: us) (a :: as) := by
  induction h with
  | nil => exact absurd rfl hne
  | one hb => exact .snoc (.one ha) (by simp) hc hb
  | snoc _ hne' hc' hb ih => simpa using Separated.snoc (ih hne') (by simp) hc' hb

/-! ### Types and variables -/

inductive TypeExpr.Spelled : List Token → TypeExpr → Prop
  | word {t ty} (h : TypeExpr.ofKind? t.kind = some ty) : Spelled [t] ty
  | struct {s x : Token} (hs : s.kind = .kwStruct) (hx : x.kind = .ident) :
      Spelled [s, x] (.struct x.ident)

inductive VarDecl.Spelled : List Token → VarDecl → Prop
  | ofType {ts ty} {x e : Token} (hty : TypeExpr.Spelled ts ty) (hx : x.kind = .ident)
      (he : e.kind = .semicolon) : Spelled (ts ++ [x, e]) (.ofType ty x.ident)

/-! ### Expressions -/

/-- Tokens that spell a name or a chain of names. -/
inductive Expr.PlaceSpelled : List Token → Expr → Prop
  | ident {x : Token} (hx : x.kind = .ident) : PlaceSpelled [x] (.ident x.ident)
  | dot {ts r} {d x : Token} (hr : PlaceSpelled ts r) (hd : d.kind = .dot) (hx : x.kind = .ident) :
      PlaceSpelled (ts ++ [d, x]) (.dot r x.ident)

/-- The operator that a kind of token writes before its operand. -/
def UnaryOp.ofKind? : TokenKind → Option UnaryOp
  | .minus => some .negate
  | .not => some .not
  | _ => none

/-- What is spelled inside an expression: an expression at some level, or arguments. -/
inductive ExprPart where
  | expr (level : Nat) (e : Expr)
  | args (es : List Expr)

namespace ExprPart

/-- The level of what needs no operator. -/
def termLevel : Nat := 7

inductive Spelled : List Token → ExprPart → Prop
  | place {ts e} (h : Expr.PlaceSpelled ts e) : Spelled ts (expr termLevel e)
  | literal {t e} (h : Token.literal? t = some e) : Spelled [t] (expr termLevel e)
  | group {ts e} {l r : Token} (hl : l.kind = .lparen) (h : Spelled ts (expr 0 e))
      (hr : r.kind = .rparen) : Spelled (l :: ts ++ [r]) (expr termLevel e)
  | call {ts es} {f l r : Token} (hf : f.kind = .ident) (hl : l.kind = .lparen)
      (h : Spelled ts (args es)) (hr : r.kind = .rparen) :
      Spelled (f :: l :: ts ++ [r]) (expr termLevel (.call f.ident es))
  | unary {ts op e} {t : Token} (ht : UnaryOp.ofKind? t.kind = some op)
      (h : Spelled ts (expr UnaryOp.level e)) : Spelled (t :: ts) (expr UnaryOp.level (.unary op e))
  | binary {ts us op a b} {t : Token} (ha : Spelled ts (expr op.leftLevel a))
      (ht : BinaryOp.ofKind? t.kind = some op) (hb : Spelled us (expr op.rightLevel b)) :
      Spelled (ts ++ t :: us) (expr op.level (.binary op a b))
  | assign {ts us p v} {t : Token} (hp : Expr.PlaceSpelled ts p) (ht : t.kind = .assign)
      (hv : Spelled us (expr 0 v)) : Spelled (ts ++ t :: us) (expr 0 (.assign p v))
  | lower {ts l e} (h : Spelled ts (expr (l + 1) e)) : Spelled ts (expr l e)
  | noArgs : Spelled [] (args [])
  | firstArg {ts e} (h : Spelled ts (expr 0 e)) : Spelled ts (args [e])
  | nextArg {ts us es e} {c : Token} (h : Spelled ts (args es)) (hne : es ≠ [])
      (hc : c.kind = .comma) (he : Spelled us (expr 0 e)) :
      Spelled (ts ++ c :: us) (args (es ++ [e]))

/-- What is spelled at a level is spelled at every lower one. -/
theorem Spelled.mono {e : Expr} {l m : Nat} (h : Spelled ts (expr m e)) (hl : l ≤ m) :
    Spelled ts (expr l e) := by
  induction hl with
  | refl => exact h
  | step _ ih => exact ih h.lower

end ExprPart

/-! ### Statements -/

/-- The keyword of a guarded statement. -/
def Guard.keyword : Guard → TokenKind
  | .ifGuard => .kwIf
  | .whileGuard => .kwWhile
  | .repeatGuard => .kwRepeat

/-- What is spelled inside a function: a statement, some statements, or a block with its
braces. -/
inductive StmtPart where
  | stmt (s : Stmt)
  | stmts (ss : List Stmt)
  | block (b : FnBody)

namespace StmtPart

open ExprPart (expr args)

inductive Spelled : List Token → StmtPart → Prop
  | assign {ts us p v} {t e : Token} (hp : Expr.PlaceSpelled ts p) (ht : t.kind = .assign)
      (hv : ExprPart.Spelled us (expr 0 v)) (he : e.kind = .semicolon) :
      Spelled (ts ++ t :: us ++ [e]) (stmt (.assign p v))
  | increment {ts p} {t e : Token} (hp : Expr.PlaceSpelled ts p) (ht : t.kind = .increment)
      (he : e.kind = .semicolon) : Spelled (ts ++ [t, e]) (stmt (.increment p))
  | decrement {ts p} {t e : Token} (hp : Expr.PlaceSpelled ts p) (ht : t.kind = .decrement)
      (he : e.kind = .semicolon) : Spelled (ts ++ [t, e]) (stmt (.decrement p))
  | read {ts p} {k a e : Token} (hk : k.kind = .kwCin) (ha : a.kind = .shiftRight)
      (hp : Expr.PlaceSpelled ts p) (he : e.kind = .semicolon) :
      Spelled (k :: a :: ts ++ [e]) (stmt (.read p))
  | write {ts v} {k a e : Token} (hk : k.kind = .kwCout) (ha : a.kind = .shiftLeft)
      (hv : ExprPart.Spelled ts (expr 0 v)) (he : e.kind = .semicolon) :
      Spelled (k :: a :: ts ++ [e]) (stmt (.write v))
  | call {ts es} {f l r e : Token} (hf : f.kind = .ident) (hl : l.kind = .lparen)
      (h : ExprPart.Spelled ts (args es)) (hr : r.kind = .rparen) (he : e.kind = .semicolon) :
      Spelled (f :: l :: ts ++ [r, e]) (stmt (.call f.ident es))
  | ret {k e : Token} (hk : k.kind = .kwReturn) (he : e.kind = .semicolon) :
      Spelled [k, e] (stmt (.ret none))
  | retValue {ts v} {k e : Token} (hk : k.kind = .kwReturn)
      (hv : ExprPart.Spelled ts (expr 0 v)) (he : e.kind = .semicolon) :
      Spelled (k :: ts ++ [e]) (stmt (.ret (some v)))
  | guarded {ts us c b} {k l r : Token} (g : Guard) (hk : k.kind = g.keyword)
      (hl : l.kind = .lparen) (hc : ExprPart.Spelled ts (expr 0 c)) (hr : r.kind = .rparen)
      (hb : Spelled us (block b)) :
      Spelled (k :: l :: ts ++ r :: us) (stmt ((Owner.ofGuard g c).close b))
  | ifElse {ts us vs c b d} {k l r e : Token} (hk : k.kind = .kwIf) (hl : l.kind = .lparen)
      (hc : ExprPart.Spelled ts (expr 0 c)) (hr : r.kind = .rparen) (hb : Spelled us (block b))
      (he : e.kind = .kwElse) (hd : Spelled vs (block d)) :
      Spelled (k :: l :: ts ++ r :: us ++ e :: vs)
        (stmt (.ifElse c b.decls b.stmts d.decls d.stmts))
  | noStmts : Spelled [] (stmts [])
  | nextStmt {ts us ss s} (h : Spelled ts (stmts ss)) (hs : Spelled us (stmt s)) :
      Spelled (ts ++ us) (stmts (ss ++ [s]))
  | block {ts us ds ss} {l r : Token} (hl : l.kind = .lbrace)
      (hds : Sequence VarDecl.Spelled ts ds) (hss : Spelled us (stmts ss))
      (hr : r.kind = .rbrace) : Spelled (l :: ts ++ us ++ [r]) (block ⟨ds, ss⟩)

theorem Spelled.stmts_nil (h : Spelled ts (stmts [])) : ts = [] := by
  generalize hp : stmts [] = p at h
  cases h with
  | noStmts => rfl
  | nextStmt => simp at hp
  | _ => cases hp

/-- The last statement has tokens of its own. -/
theorem Spelled.stmts_snoc {ss : List Stmt} {s : Stmt} (h : Spelled ts (stmts (ss ++ [s]))) :
    ∃ us vs, ts = us ++ vs ∧ Spelled us (stmts ss) ∧ Spelled vs (stmt s) := by
  generalize hp : stmts (ss ++ [s]) = p at h
  cases h with
  | noStmts => simp at hp
  | @nextStmt us vs ss' s' h hs =>
    obtain ⟨rfl, hss⟩ := List.append_inj' (stmts.inj hp) rfl
    cases hss
    exact ⟨us, vs, rfl, h, hs⟩
  | _ => cases hp

/-- The tokens of an `if` statement without `else`. -/
theorem Spelled.ifThen {c : Expr} {ds : List VarDecl} {ss : List Stmt}
    (h : Spelled ts (stmt (.ifThen c ds ss))) :
    ∃ k l us r vs, ts = k :: l :: us ++ r :: vs ∧ k.kind = .kwIf ∧ l.kind = .lparen ∧
      ExprPart.Spelled us (expr 0 c) ∧ r.kind = .rparen ∧ Spelled vs (.block ⟨ds, ss⟩) := by
  generalize hp : stmt (.ifThen c ds ss) = p at h
  cases h with
  | @guarded us vs c b k l r g hk hl hc hr hb =>
    cases g with
    | ifGuard =>
      cases hp
      exact ⟨k, l, us, r, vs, rfl, hk, hl, hc, hr, hb⟩
    | _ => cases hp
  | _ => cases hp

end StmtPart

/-! ### Declarations -/

inductive Formal.Spelled : List Token → Formal → Prop
  | mk {ts ty} {x : Token} (hty : TypeExpr.Spelled ts ty) (hx : x.kind = .ident) :
      Spelled (ts ++ [x]) ⟨ty, x.ident⟩

/-- The tokens of a struct declaration without the semicolon that may end it. -/
inductive StructDecl.Spelled : List Token → StructDecl → Prop
  | mk {ts ds} {k x l r : Token} (hk : k.kind = .kwStruct) (hx : x.kind = .ident)
      (hl : l.kind = .lbrace) (hds : Sequence VarDecl.Spelled ts ds) (hne : ds ≠ [])
      (hr : r.kind = .rbrace) : Spelled (k :: x :: l :: ts ++ [r]) ⟨x.ident, ds⟩

inductive Decl.Spelled : List Token → Decl → Prop
  | var {ts d} (h : VarDecl.Spelled ts d) : Spelled ts (.var d)
  | func {ts us vs ty fs b} {x l r : Token} (hty : TypeExpr.Spelled ts ty) (hx : x.kind = .ident)
      (hl : l.kind = .lparen) (hfs : Separated Formal.Spelled us fs) (hr : r.kind = .rparen)
      (hb : StmtPart.Spelled vs (.block b)) :
      Spelled (ts ++ x :: l :: us ++ r :: vs) (.func ⟨ty, x.ident, fs, b⟩)
  | struct {ts d} (h : StructDecl.Spelled ts d) : Spelled ts (.struct d)
  | structEnd {ts d} {e : Token} (h : StructDecl.Spelled ts d) (he : e.kind = .semicolon) :
      Spelled (ts ++ [e]) (.struct d)

end Carrot
