import Carrot.Proofs.Parsing.Steps

/-! # What spells an expression can be read

Reading the tokens that spell an expression leads to a state that holds it. The
operators of the new expression are left waiting on top of those that waited before;
closing them gives its tree.
-/

namespace Carrot

/-! ### Argument lists -/

/-- Where an argument list stands: in a call statement, or in a call that is an operand. -/
inductive ArgSite where
  | statement (callee : Ident)
  | operand (s : Surroundings) (callee : Ident)

namespace ArgSite

/-- The surroundings of an argument behind `args`, the latest first. -/
def surroundings (a : ArgSite) (args : List Expr) (ps : List Pending) : Surroundings :=
  match a with
  | statement f => ⟨.argument f args, ps, []⟩
  | operand s f => ⟨s.purpose, ps, (.call f args, s.pending) :: s.enclosing⟩

/-- What is reached behind the parenthesis that closes the list. -/
def close (a : ArgSite) (args : List Expr) : ExprStep :=
  match a with
  | statement f => .called f args
  | operand s f => .after s ⟨.call f args, false⟩

variable {a : ArgSite} {args : List Expr} {ps : List Pending} {o : Operand} {t : Token}

@[simp] theorem surroundings_pending : (a.surroundings args ps).pending = ps := by
  cases a <;> rfl

theorem wait_surroundings :
    (⟨(a.surroundings args []).purpose, ps, (a.surroundings args []).enclosing⟩ : Surroundings) =
      a.surroundings args ps := by
  cases a <;> rfl

theorem operand?_rparen (h : t.kind = .rparen) :
    (a.surroundings [] []).operand? t = some (a.close []) := by
  cases a <;> simp [Surroundings.operand?, h, surroundings, close]

theorem after?_rparen (h : t.kind = .rparen) :
    (a.surroundings args ps).after? o t =
      some (a.close (Pending.closeAll ps o.expr :: args).reverse) := by
  rw [Surroundings.after?_rparen h, surroundings_pending]
  cases a <;> rfl

theorem after?_comma (h : t.kind = .comma) :
    (a.surroundings args ps).after? o t =
      some (.operand (a.surroundings (Pending.closeAll ps o.expr :: args) [])) := by
  rw [Surroundings.after?_comma h, surroundings_pending]
  cases a <;> rfl

end ArgSite

/-! ### Expressions -/

/-- How a place is read: it stands before whatever waits. -/
theorem Expr.PlaceSpelled.reads {ts : List Token} {e : Expr} (h : PlaceSpelled ts e)
    (s : Surroundings) : (ExprStep.operand s).Reads ts (.after s ⟨e, true⟩) := by
  induction h with
  | ident hx => exact .one (Surroundings.operand?_ident hx)
  | dot _ hd hx ih =>
    refine ih.append (.cons (Surroundings.after?_dot hd) (.one ?_))
    simp [ExprStep.next?, hx]

namespace ExprPart

/-- How a part of an expression is read. -/
def IsRead (ts : List Token) : ExprPart → Prop
  | expr l e => ∀ s : Surroundings, Pending.required s.pending ≤ l → ∃ ps o,
      (ExprStep.operand s).Reads ts (.after ⟨s.purpose, ps ++ s.pending, s.enclosing⟩ o) ∧
        (∀ p ∈ ps, l ≤ p.level) ∧ Pending.closeAll ps o.expr = e
  | args es => ∀ (a : ArgSite) {r : Token}, r.kind = .rparen →
      (ExprStep.operand (a.surroundings [] [])).Reads (ts ++ [r]) (a.close es) ∧
        (es ≠ [] → ∀ {c : Token}, c.kind = .comma →
          (ExprStep.operand (a.surroundings [] [])).Reads (ts ++ [c])
            (.operand (a.surroundings es.reverse [])))

/-- A part that leaves nothing waiting is read at every level. -/
theorem isRead_of_reads {ts : List Token} {l : Nat} {e : Expr}
    (h : ∀ s, ∃ bare, (ExprStep.operand s).Reads ts (.after s ⟨e, bare⟩)) :
    IsRead ts (expr l e) := by
  intro s _
  obtain ⟨bare, hr⟩ := h s
  exact ⟨[], ⟨e, bare⟩, hr, by simp, rfl⟩

/-- An expression that stands alone is read up to its end. -/
theorem IsRead.reads {ts : List Token} {e : Expr} (h : IsRead ts (expr 0 e)) {s : Surroundings}
    (hs : s.pending = []) : ∃ ps o,
      (ExprStep.operand s).Reads ts (.after ⟨s.purpose, ps, s.enclosing⟩ o) ∧
        Pending.closeAll ps o.expr = e := by
  obtain ⟨ps, o, hr, -, he⟩ := h s (by simp [hs, Pending.required])
  exact ⟨ps, o, by simpa [hs] using hr, he⟩

/-- One more argument is read behind the ones before it. -/
theorem isRead_nextArg {ts us : List Token} {es : List Expr} {e : Expr}
    (h : ∀ a : ArgSite, (ExprStep.operand (a.surroundings [] [])).Reads ts
      (.operand (a.surroundings es.reverse []))) (he : IsRead us (expr 0 e)) :
    IsRead (ts ++ us) (args (es ++ [e])) := by
  intro a r hr
  obtain ⟨ps, o, ho, rfl⟩ := he.reads (s := a.surroundings es.reverse [])
    ArgSite.surroundings_pending
  rw [ArgSite.wait_surroundings] at ho
  have hread := (h a).append ho
  refine ⟨hread.snoc ?_, fun _ c hc => hread.snoc ?_⟩
  · rw [ExprStep.next?, ArgSite.after?_rparen hr]
    simp
  · rw [ExprStep.next?, ArgSite.after?_comma hc]
    simp

theorem Spelled.isRead {ts : List Token} {p : ExprPart} (h : Spelled ts p) : IsRead ts p := by
  induction h with
  | place h => exact isRead_of_reads fun s => ⟨true, h.reads s⟩
  | literal h => exact isRead_of_reads fun s => ⟨false, .one (Surroundings.operand?_literal h)⟩
  | group hl _ hr ih =>
    refine isRead_of_reads fun s => ⟨false, ?_⟩
    obtain ⟨ps, o, ho, rfl⟩ := ih.reads (s := s.enter .group) rfl
    refine (Reads.cons (Surroundings.operand?_lparen hl) ho).snoc ?_
    exact Surroundings.after?_rparen hr
  | @call ts es f l r hf hl _ hr ih =>
    refine isRead_of_reads fun s => ⟨false, ?_⟩
    have hargs := (ih (.operand s f.ident) hr).1
    exact .cons (Surroundings.operand?_ident hf) (.cons (Surroundings.after?_lparen hl) hargs)
  | @unary ts op e t ht _ ih =>
    intro s hs
    obtain ⟨ps, o, ho, hps, rfl⟩ := ih (s.wait (.unary op)) (Nat.le_refl _)
    refine ⟨ps ++ [.unary op], o, ?_, ?_, ?_⟩
    · simpa using Reads.cons (Surroundings.operand?_unary ht) ho
    · exact Pending.forall_mem_snoc hps (Nat.le_refl _)
    · rw [Pending.closeAll_append]
      rfl
  | @binary ts us op a b t _ ht _ iha ihb =>
    intro s hs
    -- What waits in the left side binds tightly enough to be closed by the operator.
    obtain ⟨ps, o, ho, hps, rfl⟩ := iha s (Nat.le_trans hs op.level_le_leftLevel)
    have hop : (ExprStep.after ⟨s.purpose, ps ++ s.pending, s.enclosing⟩ o).next? t =
        some (.operand (s.wait (.binary op (Pending.closeAll ps o.expr)))) := by
      rw [ExprStep.next?, Surroundings.after?_operator ht, Surroundings.operator?,
        Pending.settle_append hps (BinaryOp.lt_leftLevel_of_required hs)]
      simp [hs, Surroundings.wait]
    obtain ⟨qs, o', ho', hqs, rfl⟩ := ihb (s.wait (.binary op (Pending.closeAll ps o.expr)))
      (Nat.le_refl _)
    refine ⟨qs ++ [.binary op (Pending.closeAll ps o.expr)], o', ?_, ?_, ?_⟩
    · simpa using ho.append (.cons hop ho')
    · exact Pending.forall_mem_snoc (fun p hp => Nat.le_of_lt (hqs p hp)) (Nat.le_refl _)
    · rw [Pending.closeAll_append]
      rfl
  | @assign ts us p v t hp ht _ ih =>
    intro s hs
    have hopen := Surroundings.after?_assign (e := p) ht (Nat.le_zero.1 hs)
    obtain ⟨ps, o, ho, -, rfl⟩ := ih (s.wait (.assign p)) (Nat.le_refl _)
    refine ⟨ps ++ [.assign p], o, ?_, fun _ _ => Nat.zero_le _, ?_⟩
    · simpa using (hp.reads s).append (.cons hopen ho)
    · rw [Pending.closeAll_append]
      rfl
  | lower _ ih =>
    intro s hs
    obtain ⟨ps, o, ho, hps, he⟩ := ih s (Nat.le_succ_of_le hs)
    exact ⟨ps, o, ho, fun p hp => Nat.le_of_succ_le (hps p hp), he⟩
  | noArgs =>
    intro a r hr
    exact ⟨.one (ArgSite.operand?_rparen hr), fun h => absurd rfl h⟩
  | firstArg _ ih =>
    have h (a : ArgSite) : (ExprStep.operand (a.surroundings [] [])).Reads []
        (.operand (a.surroundings ([] : List Expr).reverse [])) := .nil
    exact isRead_nextArg h ih
  | nextArg _ hne hc _ ih ihe =>
    have h := isRead_nextArg (fun a => (ih a (r := ⟨.rparen, "", default⟩) rfl).2 hne hc) ihe
    simpa using h

end ExprPart

end Carrot
