import Carrot.Proofs.Layout.Respelling

/-! # Dots in a written program

The receiver of a field is written in parentheses, so the words of a program with
dots have a dot directly behind a closing parenthesis. Such words are never read to
their end: whatever a parenthesis closes, no dot can come next.
-/

namespace Carrot

/-! ### Dots behind parentheses -/

/-- The words have a dot directly behind a closing parenthesis. -/
def Dotted (ws : List TokenWord) : Prop := [TokenKind.rparen.word, TokenKind.dot.word] <:+: ws

namespace Dotted

variable {ws vs : List TokenWord} {w : TokenWord}

theorem cons (h : Dotted ws) : Dotted (w :: ws) := List.infix_cons h

theorem append (h : Dotted ws) : Dotted (ws ++ vs) := List.infix_append_of_infix_left h

theorem behind (h : Dotted ws) : Dotted (vs ++ ws) := List.infix_append_of_infix_right h

theorem flatMap {α : Type} {words : α → List TokenWord} {as : List α} {a : α} (ha : a ∈ as)
    (h : Dotted (words a)) : Dotted (as.flatMap words) := by
  induction as with
  | nil => simp at ha
  | cons b as ih =>
    rw [List.flatMap_cons]
    rcases List.mem_cons.1 ha with rfl | ha
    · exact h.append
    · exact (ih ha).behind

end Dotted

mutual

theorem Expr.dotted : ∀ {e : Expr}, e.hasDot = true → Dotted e.words
  | .int _ _, h | .str _ _, h | .bool _ _, h | .ident _, h => by simp [hasDot] at h
  | .dot r f, _ => by
    rw [words]
    exact .behind ⟨[], [f.word], rfl⟩
  | .assign t v, h => by
    rw [hasDot, Bool.or_eq_true] at h
    rw [words]
    rcases h with h | h
    · exact (Expr.dotted h).cons.append.append
    · exact (Expr.dotted h).cons.behind.append
  | .call f es, h => by
    rw [hasDot] at h
    rw [words]
    exact (Expr.args_dotted h).cons.cons.append
  | .unary op e, h => by
    rw [hasDot] at h
    rw [words]
    exact (Expr.dotted h).cons.cons.append
  | .binary op l r, h => by
    rw [hasDot, Bool.or_eq_true] at h
    rw [words]
    rcases h with h | h
    · exact (Expr.dotted h).cons.append.append
    · exact (Expr.dotted h).cons.behind.append

theorem Expr.args_dotted : ∀ {es : List Expr}, Expr.listHasDot es = true →
    Dotted (Expr.argsWords es)
  | e :: es, h => by
    rw [listHasDot, Bool.or_eq_true] at h
    rw [argsWords]
    rcases h with h | h
    · exact (Expr.dotted h).append
    · exact (Expr.moreArgs_dotted h).behind

theorem Expr.moreArgs_dotted : ∀ {es : List Expr}, Expr.listHasDot es = true →
    Dotted (Expr.moreArgsWords es)
  | e :: es, h => by
    rw [listHasDot, Bool.or_eq_true] at h
    rw [moreArgsWords]
    rcases h with h | h
    · exact (Expr.dotted h).cons.append
    · exact (Expr.moreArgs_dotted h).behind

end

theorem dotted_guardWords {g : Guard} {c : Expr} (h : c.hasDot = true) :
    Dotted (guardWords g c) :=
  (Expr.dotted h).cons.cons.append

theorem dotted_blockWords {ds : List VarDecl} {ws : List TokenWord} (h : Dotted ws) :
    Dotted (blockWords ds ws) :=
  h.behind.append

mutual

theorem Stmt.dotted : ∀ {s : Stmt}, s.hasDot = true → Dotted s.words
  | .assign t v, h => by
    rw [hasDot, Bool.or_eq_true] at h
    rw [words]
    rcases h with h | h
    · exact (Expr.dotted h).append.append
    · exact (Expr.dotted h).cons.behind.append
  | .increment p, h | .decrement p, h => by
    rw [hasDot] at h
    rw [words]
    exact (Expr.dotted h).append
  | .read p, h | .write p, h => by
    rw [hasDot] at h
    rw [words]
    exact (Expr.dotted h).cons.cons.append
  | .ifThen c ds ss, h | .whileLoop c ds ss, h | .repeatLoop c ds ss, h => by
    rw [hasDot, Bool.or_eq_true] at h
    rw [words]
    rcases h with h | h
    · exact (dotted_guardWords h).append
    · exact (dotted_blockWords (Stmt.list_dotted h)).behind
  | .ifElse c ds ss eds ess, h => by
    rw [hasDot, Bool.or_eq_true, Bool.or_eq_true] at h
    rw [words]
    rcases h with (h | h) | h
    · exact (dotted_guardWords h).append.append
    · exact (dotted_blockWords (Stmt.list_dotted h)).behind.append
    · exact (dotted_blockWords (Stmt.list_dotted h)).cons.behind
  | .call f es, h => by
    rw [hasDot] at h
    rw [words]
    exact (Expr.dotted (e := .call f es) (by rw [Expr.hasDot, h])).append
  | .ret none, h => by simp [hasDot] at h
  | .ret (some v), h => by
    rw [hasDot] at h
    rw [words]
    exact (Expr.dotted h).cons.append

theorem Stmt.list_dotted : ∀ {ss : List Stmt}, Stmt.listHasDot ss = true →
    Dotted (Stmt.listWords ss)
  | s :: ss, h => by
    rw [listHasDot, Bool.or_eq_true] at h
    rw [listWords]
    rcases h with h | h
    · exact (Stmt.dotted h).append
    · exact (Stmt.list_dotted h).behind

end

theorem Program.dotted {p : Program} (h : p.hasDot = true) : Dotted p.words := by
  obtain ⟨d, hd, hdot⟩ := List.any_eq_true.1 h
  refine .flatMap hd ?_
  cases d with
  | func d => exact (dotted_blockWords (Stmt.list_dotted hdot)).cons.behind
  | _ => cases hdot

/-! ### No dot is read behind a parenthesis -/

/-- An expression that has just been read up to a closing parenthesis. -/
def ExprStep.IsClosed : ExprStep → Prop
  | .after _ e => e.bare = false
  | .done (.guard _) _ | .called _ _ => True
  | _ => False

section

variable {r d : Token} (hr : r.kind = .rparen) (hd : d.kind = .dot)

theorem Surroundings.isClosed_of_rparen? {s : Surroundings} {e : Expr} {x : ExprStep}
    (h : s.rparen? e = some x) : x.IsClosed := by
  unfold rparen? at h
  split at h <;> cases h <;> simp [ExprStep.IsClosed]

include hr in
theorem ExprStep.isClosed_of_next? {x y : ExprStep} (h : x.next? r = some y) : y.IsClosed := by
  cases x with
  | operand s =>
    simp only [next?, Surroundings.operand?, hr] at h
    split at h <;> cases h <;> simp [IsClosed]
  | field s e => simp [next?, hr] at h
  | after s e =>
    simp only [next?, Surroundings.after?, hr] at h
    exact Surroundings.isClosed_of_rparen? h
  | done p e => cases h
  | called f es => cases h

namespace PartialBody

include hd in
/-- A dot is refused behind an expression that ends with a parenthesis. -/
theorem next?_follow_dot {b : PartialBody} {x : ExprStep} (hx : x.IsClosed) :
    (b.follow x).next? d = none := by
  cases x with
  | after s e =>
    obtain ⟨e, bare⟩ := e
    cases hx
    rw [follow_of_isOpen rfl, next?_expr, ExprStep.next?]
    simp [Surroundings.after?, hd, BinaryOp.ofKind?]
  | done p e =>
    cases p with
    | guard g => simp [follow, next?, hd]
    | _ => cases hx
  | called f es => simp [follow, next?, hd]
  | _ => cases hx

include hr in
theorem openStmt?_rparen (b : PartialBody) : b.openStmt? r = none := by
  simp [openStmt?, openDecl?, TypeExpr.ofKind?, hr]

include hr hd in
theorem next?_dot {b c : PartialBody} (h : b.next? r = some c) : c.next? d = none := by
  cases hp : b.point with
  | between => simp [next?, hp, hr, openStmt?_rparen hr] at h
  | place t => simp [next?, hp, hr, place?] at h
  | returned => simp [next?, hp, hr, Surroundings.operand?, Surroundings.ofPurpose] at h
  | expr x =>
    simp only [next?, hp, hr] at h
    obtain ⟨y, hy, rfl⟩ := Option.map_eq_some_iff.1 h
    exact next?_follow_dot hd (ExprStep.isClosed_of_next? hr hy)
  | _ => simp [next?, hp, hr] at h

end PartialBody

namespace PartialProgram

include hr hd in
theorem next?_dot {p q : PartialProgram} (h : p.next? r = some q) : q.next? d = none := by
  cases hp : p.current with
  | formals f i =>
    simp only [next?, hp] at h
    obtain ⟨c, hc, rfl⟩ := Option.map_eq_some_iff.1 h
    cases i <;> simp [OpenDecl.formal?, hr, TypeExpr.ofKind?] at hc <;> subst hc <;>
      simp [next?, hd]
  | fields s fs i =>
    cases fs <;> cases i <;> simp [next?, hp, hr, OpenDecl.field?, TypeExpr.ofKind?] at h
  | body b =>
    simp only [next?, hp, body?, hr] at h
    obtain ⟨c, hc, rfl⟩ := Option.map_eq_some_iff.1 h
    simp [next?, body?, hd, PartialBody.next?_dot hr hd hc]
  | _ => simp [next?, hp, hr, OpenDecl.first?, TypeExpr.ofKind?] at h

/-- No tokens with a dot behind a closing parenthesis are read to their end. -/
theorem not_reads_of_dotted {p q : PartialProgram} {ts : List Token} {ws : List TokenWord}
    (hts : HaveWords ts ws) (hws : Dotted ws) : ¬p.Reads ts q := by
  intro h
  obtain ⟨us, vs, rfl⟩ := hws
  simp only [HaveWords.append_iff, HaveWords.cons_iff, HaveWords.nil_iff] at hts
  obtain ⟨_, vs, rfl, ⟨us, _, rfl, hus, r, _, rfl, hr, d, _, rfl, hd, rfl⟩, hvs⟩ := hts
  obtain ⟨q₃, h, -⟩ := Reads.append_iff.1 h
  obtain ⟨q₁, -, h⟩ := Reads.append_iff.1 h
  obtain ⟨q₂, h₁, h⟩ := Reads.cons_iff.1 h
  obtain ⟨q₃, h₂, -⟩ := Reads.cons_iff.1 h
  rw [next?_dot (Token.kind_eq hr) (Token.kind_eq hd) h₁] at h₂
  cases h₂

end PartialProgram

end

end Carrot
