import Carrot.Proofs.Grammar.Spelling
import Carrot.Proofs.Parsing.Reads

/-! # Single steps

What a token does to an expression that is partly read depends on its kind only. An
operator first closes those before it that bind more tightly; the end of the
expression closes all of them. Between two declarations, a token starts the next one.
-/

namespace Carrot

/-! ### Operators that wait -/

namespace Pending

theorem closeAll_append (ps qs : List Pending) (e : Expr) :
    closeAll (ps ++ qs) e = closeAll qs (closeAll ps e) := List.foldl_append

/-- Settling closes what binds tightly enough and stops in front of the rest. -/
theorem settle_append {l : Nat} {ps qs : List Pending} (hps : ∀ p ∈ ps, l ≤ p.level)
    (hqs : ∀ q ∈ qs.head?, q.level < l) (e : Expr) :
    settle l (ps ++ qs) e = (qs, closeAll ps e) := by
  induction ps generalizing e with
  | nil =>
    cases qs with
    | nil => rfl
    | cons q qs =>
      rw [List.nil_append, settle, if_neg (Nat.not_le.2 (hqs q rfl))]
      rfl
  | cons p ps ih =>
    obtain ⟨hp, hps⟩ := List.forall_mem_cons.1 hps
    rw [List.cons_append, settle, if_pos hp]
    exact ih hps (p.close e)

theorem forall_mem_snoc {l : Nat} {ps : List Pending} {q : Pending} (hps : ∀ p ∈ ps, l ≤ p.level)
    (hq : l ≤ q.level) : ∀ p ∈ ps ++ [q], l ≤ p.level := by
  simpa [or_imp, forall_and] using ⟨hps, hq⟩

end Pending

namespace BinaryOp

theorem level_le_leftLevel (op : BinaryOp) : op.level ≤ op.leftLevel := by
  cases op <;> decide

theorem level_lt_unary (op : BinaryOp) : op.level < UnaryOp.level := by
  cases op <;> decide

theorem level_pos (op : BinaryOp) : 0 < op.level := by
  cases op <;> decide

/-- An operator that may stand behind some others does not close the innermost of them. -/
theorem lt_leftLevel_of_required {op : BinaryOp} {ps : List Pending}
    (h : Pending.required ps ≤ op.level) : ∀ p ∈ ps.head?, p.level < op.leftLevel := by
  intro p hp
  obtain ⟨ps, rfl⟩ : ∃ qs, ps = p :: qs := by
    cases ps with
    | nil => simp at hp
    | cons q qs => exact ⟨qs, by simp_all⟩
  have hl := op.level_le_leftLevel
  cases p with
  | assign t => exact Nat.lt_of_lt_of_le op.level_pos hl
  | binary o l =>
    have : o.level + 1 ≤ op.level := h
    simp only [Pending.level]
    omega
  | unary o => exact absurd (show UnaryOp.level ≤ op.level from h) (Nat.not_le.2 op.level_lt_unary)

end BinaryOp

/-! ### Tokens by their kind -/

namespace Surroundings

variable {s : Surroundings} {t : Token}

@[simp] theorem wait_purpose (p : Pending) : (s.wait p).purpose = s.purpose := rfl

@[simp] theorem wait_pending (p : Pending) : (s.wait p).pending = p :: s.pending := rfl

@[simp] theorem wait_enclosing (p : Pending) : (s.wait p).enclosing = s.enclosing := rfl

theorem operand?_ident (h : t.kind = .ident) :
    s.operand? t = some (.after s ⟨.ident t.ident, true⟩) := by
  simp [operand?, h]

theorem operand?_lparen (h : t.kind = .lparen) :
    s.operand? t = some (.operand (s.enter .group)) := by
  simp [operand?, h]

theorem operand?_literal {e : Expr} (h : t.literal? = some e) :
    s.operand? t = some (.after s ⟨e, false⟩) := by
  unfold operand?
  split <;> simp_all [Token.literal?]

theorem operand?_unary {op : UnaryOp} (h : UnaryOp.ofKind? t.kind = some op) :
    s.operand? t = some (.operand (s.wait (.unary op))) := by
  unfold operand?
  split <;> simp_all [UnaryOp.ofKind?]

theorem after?_operator {o : Operand} {op : BinaryOp} (h : BinaryOp.ofKind? t.kind = some op) :
    s.after? o t = (s.operator? op o.expr).map .operand := by
  unfold after?
  split <;> simp_all [BinaryOp.ofKind?]

theorem after?_lparen {f : Ident} (h : t.kind = .lparen) :
    s.after? ⟨.ident f, true⟩ t = some (.operand (s.enter (.call f []))) := by
  simp [after?, h]

theorem after?_dot {r : Expr} (h : t.kind = .dot) :
    s.after? ⟨r, true⟩ t = some (.field s r) := by
  simp [after?, h]

theorem after?_assign {e : Expr} (h : t.kind = .assign) (hs : Pending.required s.pending = 0) :
    s.after? ⟨e, true⟩ t = some (.operand (s.wait (.assign e))) := by
  simp [after?, h, assign?, hs]

theorem after?_rparen {o : Operand} (h : t.kind = .rparen) :
    s.after? o t = s.rparen? (Pending.closeAll s.pending o.expr) := by
  unfold after?
  split <;> simp_all

theorem after?_comma {o : Operand} (h : t.kind = .comma) :
    s.after? o t = s.comma? (Pending.closeAll s.pending o.expr) := by
  unfold after?
  split <;> simp_all

theorem after?_semicolon {o : Operand} (h : t.kind = .semicolon) :
    s.after? o t = s.semicolon? (Pending.closeAll s.pending o.expr) := by
  unfold after?
  split <;> simp_all

end Surroundings

/-! ### Ends of expressions -/

/-- The kind of the token that ends an expression with this purpose, except an argument. -/
def Purpose.endKind? : Purpose → Option TokenKind
  | .assign _ | .write | .ret => some .semicolon
  | .guard _ => some .rparen
  | .argument _ _ => none

/-! ### Ends of declarations -/

namespace PartialProgram

variable {p : PartialProgram} {t : Token}

/-- Between two declarations; a semicolon may still belong to the one before. -/
def IsBetween (p : PartialProgram) : Prop := p.current = .none ∨ p.current = .structEnd

theorem next?_first (hp : p.IsBetween) (ht : t.kind ≠ .semicolon) :
    p.next? t = (OpenDecl.first? t).map p.moveTo := by
  rcases hp with hp | hp <;> simp [next?, hp]

theorem complete?_of_isBetween (hp : p.IsBetween) : p.complete? = some p.decls.reverse := by
  rcases hp with hp | hp <;> simp [complete?, hp]

end PartialProgram

end Carrot
