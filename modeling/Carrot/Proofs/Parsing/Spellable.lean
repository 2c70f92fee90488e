import Carrot.Proofs.Layout.Brief

/-! # Tokens for every tree

Each well-formed tree is spelled by some tokens that can be written. As they are chosen, parentheses
stand only where they are needed.
-/

namespace Carrot

/-! ### Expressions -/

theorem Expr.IsPlace.exists_spelled {p : Expr} (h : p.IsPlace) :
    ∃ ts, Writable ts ∧ Expr.PlaceSpelled ts p := ⟨_, h.spelled_tokens⟩

namespace ExprPart

/-- Some tokens that can be written spell this part. -/
def Spellable (p : ExprPart) : Prop := ∃ ts, Writable ts ∧ Spelled ts p

theorem spellable {e : Expr} (h : e.WellFormed) : Spellable (expr 0 e) :=
  ⟨_, (spelled_tokens h).1, (spelled_tokens h).2.mono (Nat.zero_le _)⟩

theorem spellable_args {es : List Expr} (h : Expr.ListWellFormed es) : Spellable (args es) :=
  ⟨_, spelled_argTokens h⟩

end ExprPart

/-! ### Types and variables -/

theorem TypeExpr.exists_spelled {ty : TypeExpr} (h : ty.WellFormed) :
    ∃ ts, Writable ts ∧ TypeExpr.Spelled ts ty := ⟨_, spelled_tokens h⟩

theorem VarDecl.exists_spelled {d : VarDecl} (h : d.WellFormed) :
    ∃ ts, Writable ts ∧ VarDecl.Spelled ts d := by
  obtain ⟨ts, hts, hty⟩ := TypeExpr.exists_spelled h.type
  refine ⟨ts ++ [d.name.token, TokenKind.semicolon.token], ?_, ?_⟩
  · simp [hts, Ident.writable_token h.name]
  · have := VarDecl.Spelled.ofType hty (x := d.name.token) rfl
      (e := TokenKind.semicolon.token) rfl
    rwa [Ident.ident_token h.name, ← h.eq_ofType] at this

theorem Formal.exists_spelled {f : Formal} (h : f.WellFormed) :
    ∃ ts, Writable ts ∧ Formal.Spelled ts f := ⟨_, spelled_tokens h⟩

section Lists

variable {α : Type} {P : List Token → α → Prop} {as : List α}

theorem Sequence.exists_spelled (h : ∀ a ∈ as, ∃ ts, Writable ts ∧ P ts a) :
    ∃ ts, Writable ts ∧ Sequence P ts as := by
  induction as with
  | nil => exact ⟨[], by simp, .nil⟩
  | cons a as ih =>
    obtain ⟨ha, has⟩ := List.forall_mem_cons.1 h
    obtain ⟨ts, hts, ha⟩ := ha
    obtain ⟨us, hus, has⟩ := ih has
    exact ⟨ts ++ us, by simp [hts, hus], .append (.one ha) has⟩

theorem Separated.exists_spelled (h : ∀ a ∈ as, ∃ ts, Writable ts ∧ P ts a) :
    ∃ ts, Writable ts ∧ Separated P ts as := by
  induction as with
  | nil => exact ⟨[], by simp, .nil⟩
  | cons a as ih =>
    obtain ⟨⟨ts, hts, ha⟩, has⟩ := List.forall_mem_cons.1 h
    obtain ⟨us, hus, has⟩ := ih has
    cases as with
    | nil => exact ⟨ts, hts, .one ha⟩
    | cons b bs =>
      exact ⟨ts ++ TokenKind.comma.token :: us, by simp [hts, hus], .cons ha rfl has (by simp)⟩

end Lists

/-! ### Statements -/

namespace StmtPart

open ExprPart (expr args)

def Spellable (p : StmtPart) : Prop := ∃ ts, Writable ts ∧ Spelled ts p

theorem spellable_block {ds : List VarDecl} {ss : List Stmt} (hds : ∀ d ∈ ds, d.WellFormed)
    (hss : Spellable (stmts ss)) : Spellable (block ⟨ds, ss⟩) := by
  obtain ⟨ts, hts, hds⟩ := Sequence.exists_spelled fun d hd => VarDecl.exists_spelled (hds d hd)
  obtain ⟨us, hus, hss⟩ := hss
  exact ⟨TokenKind.lbrace.token :: ts ++ us ++ [TokenKind.rbrace.token], by simp [hts, hus],
    .block rfl hds hss rfl⟩

/-- A statement that starts with a keyword and a condition, in front of its block. -/
theorem spellable_guarded (g : Guard) {c : Expr} {b : FnBody} (hc : c.WellFormed)
    (hb : Spellable (block b)) : Spellable (stmt ((Owner.ofGuard g c).close b)) := by
  obtain ⟨ts, hts, hc⟩ := ExprPart.spellable hc
  obtain ⟨us, hus, hb⟩ := hb
  exact ⟨g.keyword.token :: TokenKind.lparen.token :: ts ++ TokenKind.rparen.token :: us,
    by simp [hts, hus, g.writable_token], .guarded g rfl rfl hc rfl hb⟩

mutual

theorem spellable : ∀ {s : Stmt}, s.WellFormed → Spellable (stmt s)
  | .assign t v, h => by
    obtain ⟨ts, hts, ht⟩ := h.1.exists_spelled
    obtain ⟨us, hus, hv⟩ := ExprPart.spellable h.2
    exact ⟨ts ++ TokenKind.assign.token :: us ++ [TokenKind.semicolon.token], by simp [hts, hus],
      .assign ht rfl hv rfl⟩
  | .increment p, h => by
    obtain ⟨ts, hts, hp⟩ := Expr.IsPlace.exists_spelled (p := p) h
    exact ⟨ts ++ [TokenKind.increment.token, TokenKind.semicolon.token], by simp [hts],
      .increment hp rfl rfl⟩
  | .decrement p, h => by
    obtain ⟨ts, hts, hp⟩ := Expr.IsPlace.exists_spelled (p := p) h
    exact ⟨ts ++ [TokenKind.decrement.token, TokenKind.semicolon.token], by simp [hts],
      .decrement hp rfl rfl⟩
  | .read p, h => by
    obtain ⟨ts, hts, hp⟩ := Expr.IsPlace.exists_spelled (p := p) h
    exact ⟨TokenKind.kwCin.token :: TokenKind.shiftRight.token :: ts ++
      [TokenKind.semicolon.token], by simp [hts], .read rfl rfl hp rfl⟩
  | .write v, h => by
    obtain ⟨ts, hts, hv⟩ := ExprPart.spellable (e := v) h
    exact ⟨TokenKind.kwCout.token :: TokenKind.shiftLeft.token :: ts ++
      [TokenKind.semicolon.token], by simp [hts], .write rfl rfl hv rfl⟩
  | .ifThen c ds ss, h =>
    spellable_guarded .ifGuard h.1 (spellable_block h.2.1 (spellable_list h.2.2))
  | .whileLoop c ds ss, h =>
    spellable_guarded .whileGuard h.1 (spellable_block h.2.1 (spellable_list h.2.2))
  | .repeatLoop c ds ss, h =>
    spellable_guarded .repeatGuard h.1 (spellable_block h.2.1 (spellable_list h.2.2))
  | .ifElse c ds ss eds ess, h => by
    obtain ⟨hc, hds, hss, heds, hess⟩ := h
    obtain ⟨ts, hts, hc⟩ := ExprPart.spellable hc
    obtain ⟨us, hus, hb⟩ := spellable_block hds (spellable_list hss)
    obtain ⟨vs, hvs, hd⟩ := spellable_block heds (spellable_list hess)
    exact ⟨TokenKind.kwIf.token :: TokenKind.lparen.token :: ts ++ TokenKind.rparen.token :: us ++
      TokenKind.kwElse.token :: vs, by simp [hts, hus, hvs], .ifElse rfl rfl hc rfl hb rfl hd⟩
  | .call f es, h => by
    obtain ⟨ts, hts, hes⟩ := ExprPart.spellable_args h.2
    refine ⟨f.token :: TokenKind.lparen.token :: ts ++
      [TokenKind.rparen.token, TokenKind.semicolon.token],
      by simp [hts, Ident.writable_token h.1], ?_⟩
    have := Spelled.call (f := f.token) (l := TokenKind.lparen.token) rfl rfl hes
      (r := TokenKind.rparen.token) rfl (e := TokenKind.semicolon.token) rfl
    rwa [Ident.ident_token h.1] at this
  | .ret none, _ =>
    ⟨[TokenKind.kwReturn.token, TokenKind.semicolon.token], by simp, .ret rfl rfl⟩
  | .ret (some v), h => by
    obtain ⟨ts, hts, hv⟩ := ExprPart.spellable (e := v) h
    exact ⟨TokenKind.kwReturn.token :: ts ++ [TokenKind.semicolon.token], by simp [hts],
      .retValue rfl hv rfl⟩

/-- Further statements behind some. -/
theorem spellable_moreStmts : ∀ {ss ss₀ : List Stmt}, Stmt.ListWellFormed ss →
    Spellable (stmts ss₀) → Spellable (stmts (ss₀ ++ ss))
  | [], ss₀, _, h₀ => by rwa [List.append_nil]
  | s :: ss, ss₀, h, ⟨ts, hts, h₀⟩ => by
    obtain ⟨us, hus, hs⟩ := spellable h.1
    have hnext : Spellable (stmts (ss₀ ++ [s])) := ⟨ts ++ us, by simp [hts, hus], .nextStmt h₀ hs⟩
    simpa using spellable_moreStmts h.2 hnext

theorem spellable_list {ss : List Stmt} (h : Stmt.ListWellFormed ss) : Spellable (stmts ss) :=
  spellable_moreStmts h ⟨[], by simp, .noStmts⟩

end

end StmtPart

/-! ### Declarations -/

theorem Decl.exists_spelled {d : Decl} (h : d.WellFormed) :
    ∃ ts, Writable ts ∧ Decl.Spelled ts d := by
  cases d with
  | var d =>
    obtain ⟨ts, hts, hd⟩ := VarDecl.exists_spelled h
    exact ⟨ts, hts, .var hd⟩
  | func d =>
    obtain ⟨ts, hts, hty⟩ := TypeExpr.exists_spelled h.returnType
    obtain ⟨us, hus, hfs⟩ := Separated.exists_spelled fun f hf =>
      Formal.exists_spelled (h.formals f hf)
    obtain ⟨vs, hvs, hb⟩ := StmtPart.spellable_block h.body.decls
      (StmtPart.spellable_list h.body.stmts)
    refine ⟨ts ++ d.name.token :: TokenKind.lparen.token :: us ++ TokenKind.rparen.token :: vs,
      by simp [hts, hus, hvs, Ident.writable_token h.name], ?_⟩
    have := Decl.Spelled.func hty (x := d.name.token) rfl (l := TokenKind.lparen.token) rfl hfs
      (r := TokenKind.rparen.token) rfl hb
    rwa [Ident.ident_token h.name] at this
  | struct d =>
    obtain ⟨ts, hts, hds⟩ := Sequence.exists_spelled fun f hf =>
      VarDecl.exists_spelled (h.fields f hf)
    refine ⟨TokenKind.kwStruct.token :: d.name.token :: TokenKind.lbrace.token :: ts ++
      [TokenKind.rbrace.token], by simp [hts, Ident.writable_token h.name], .struct ?_⟩
    have := StructDecl.Spelled.mk (k := TokenKind.kwStruct.token) rfl (x := d.name.token) rfl
      (l := TokenKind.lbrace.token) rfl hds h.fields_ne_nil (r := TokenKind.rbrace.token) rfl
    rwa [Ident.ident_token h.name] at this

end Carrot
