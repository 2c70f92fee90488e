import Carrot.Proofs.Grammar.Denotation

/-! # Syntax trees are spelled by derivations

Each way of spelling a part is a derivation from its nonterminal. With the converse,
the derivations of a program are the ways of spelling it, and the tokens determine
its tree.
-/

namespace Carrot.Grammar

open ExprPart (expr args termLevel)

/-! ### Names, types and variables -/

/-- A rule derives its nonterminal from what derives its symbols. -/
theorem Derives.rule {n : Nonterminal} {rhs : List Symbol} {ts : List Token} {vs : List Value}
    {v : Value} (hr : ⟨n, rhs⟩ ∈ rules) (h : Derives rhs ts vs) (hv : action n vs = some v) :
    Derives [.part n] ts [v] := by
  simpa using Derives.part hr h hv .nil

theorem Derives.cons {n : Nonterminal} {xs : List Symbol} {ts us : List Token} {v : Value}
    {vs : List Value} (h : Derives [.part n] ts [v]) (hs : Derives xs us vs) :
    Derives (.part n :: xs) (ts ++ us) (v :: vs) := by
  cases h with
  | part hr hn hv h =>
    cases h
    simpa using Derives.part hr hn hv hs

theorem derives_name {x : Token} (hx : x.kind = .ident) :
    Derives [.part .name] [x] [.ident x.ident] :=
  .rule (by decide) (.token hx .nil) rfl

theorem derives_type {ts : List Token} {ty : TypeExpr} (h : TypeExpr.Spelled ts ty) :
    Derives [.part .type] ts [.type ty] := by
  cases h with
  | @word t _ h =>
    have hv : action .type [.token t] = some (.type ty) := by simp [action, Action.type, h]
    cases hk : t.kind <;> rw [hk] at h <;> cases h
    all_goals exact .rule (by decide) (.token hk .nil) hv
  | struct hk hx => exact .rule (by decide) (.token hk (derives_name hx)) rfl

theorem derives_varDecl {ts : List Token} {d : VarDecl} (h : VarDecl.Spelled ts d) :
    Derives [.part .varDecl] ts [.var d] := by
  cases h with
  | ofType hty hx he =>
    exact .rule (by decide) ((derives_type hty).cons ((derives_name hx).cons (.token he .nil))) rfl

theorem derives_varDecls {ts : List Token} {ds : List VarDecl}
    (h : Sequence VarDecl.Spelled ts ds) (hne : ds ≠ []) :
    Derives [.part .varDecls] ts [.vars ds] := by
  induction h with
  | nil => exact absurd rfl hne
  | @snoc ts us d ds h hd ih =>
    have hlast := derives_varDecl hd
    cases h with
    | nil => exact .rule (by decide) hlast rfl
    | snoc => exact .rule (by decide) ((ih (by simp)).cons hlast) rfl

theorem derives_declList {ts : List Token} {ds : List VarDecl}
    (h : Sequence VarDecl.Spelled ts ds) : Derives [.part .declList] ts [.vars ds] := by
  cases h with
  | nil => exact .rule (by decide) .nil rfl
  | snoc h hd => exact .rule (by decide) (derives_varDecls (h.snoc hd) (by simp)) rfl

theorem derives_place {ts : List Token} {e : Expr} (h : Expr.PlaceSpelled ts e) :
    Derives [.part .place] ts [.expr e] := by
  induction h with
  | ident hx => exact .rule (by decide) (derives_name hx) rfl
  | dot _ hd hx ih => exact .rule (by decide) (ih.cons (.token hd (derives_name hx))) rfl

/-! ### Expressions -/

/-- The nonterminal of a level. -/
def levelPart : Nat → Nonterminal
  | 0 => .expr
  | 1 => .orExpr
  | 2 => .andExpr
  | 3 => .relExpr
  | 4 => .addExpr
  | 5 => .mulExpr
  | 6 => .unaryExpr
  | _ => .term

/-- How a part of an expression is derived; arguments behind the first have a nonterminal of
their own. -/
def IsDerived (ts : List Token) : ExprPart → Prop
  | expr l e => Derives [.part (levelPart l)] ts [.expr e]
  | args [] => ts = []
  | args (e :: es) => (es = [] ∧ Derives [.part .expr] ts [.expr e]) ∨
      ∃ us vs, ts = us ++ vs ∧ Derives [.part .expr] us [.expr e] ∧
        Derives [.part .moreActuals] vs [.exprs es]

theorem IsDerived.actuals {ts : List Token} {es : List Expr} (h : IsDerived ts (args es)) :
    Derives [.part .actuals] ts [.exprs es] := by
  cases es with
  | nil =>
    obtain rfl := h
    exact .rule (by decide) .nil rfl
  | cons e es =>
    rcases h with ⟨rfl, h⟩ | ⟨us, vs, rfl, he, hes⟩
    · exact .rule (by decide) h rfl
    · exact .rule (by decide) (he.cons hes) rfl

theorem IsDerived.nextArg {ts us : List Token} {c : Token} {es : List Expr} {e : Expr}
    (h : IsDerived ts (args es)) (hne : es ≠ []) (hc : c.kind = .comma)
    (he : Derives [.part .expr] us [.expr e]) : IsDerived (ts ++ c :: us) (args (es ++ [e])) := by
  cases es with
  | nil => exact absurd rfl hne
  | cons f es =>
    rcases h with ⟨rfl, h⟩ | ⟨us, vs, rfl, hf, hes⟩
    · exact .inr ⟨_, _, rfl, h, .rule (by decide) (.token hc he) rfl⟩
    · refine .inr ⟨us, _, List.append_assoc .., hf, ?_⟩
      exact .rule (by decide) (hes.cons (.token hc he)) rfl

theorem derives_literal {t : Token} {e : Expr} (h : t.literal? = some e) :
    Derives [.part .term] [t] [.expr e] := by
  have hv : action .term [.token t] = some (.expr e) := by simp [action, Action.term, h]
  cases hk : t.kind <;> simp only [Token.literal?, hk, reduceCtorEq] at h
  all_goals exact .rule (by decide) (.token hk .nil) hv

theorem derives_binary {ts us : List Token} {t : Token} {op : BinaryOp} {a b : Expr}
    (ha : Derives [.part (levelPart op.leftLevel)] ts [.expr a])
    (ht : BinaryOp.ofKind? t.kind = some op)
    (hb : Derives [.part (levelPart op.rightLevel)] us [.expr b]) :
    Derives [.part (levelPart op.level)] (ts ++ t :: us) [.expr (.binary op a b)] := by
  have hv : Action.binaryExpr [.expr a, .token t, .expr b] = some (.expr (.binary op a b)) := by
    simp [Action.binaryExpr, ht]
  cases hk : t.kind <;> rw [hk] at ht <;> cases ht
  all_goals exact .rule (by decide) (ha.cons (.token hk hb)) hv

theorem derives_unary {ts : List Token} {t : Token} {op : UnaryOp} {e : Expr}
    (ht : UnaryOp.ofKind? t.kind = some op) (he : Derives [.part .unaryExpr] ts [.expr e]) :
    Derives [.part .unaryExpr] (t :: ts) [.expr (.unary op e)] := by
  have hv : action .unaryExpr [.token t, .expr e] = some (.expr (.unary op e)) := by
    simp [action, Action.unaryExpr, ht]
  cases hk : t.kind <;> rw [hk] at ht <;> cases ht
  all_goals exact .rule (by decide) (.token hk he) hv

theorem derives_lower {ts : List Token} {l : Nat} {e : Expr}
    (h : Derives [.part (levelPart (l + 1))] ts [.expr e]) :
    Derives [.part (levelPart l)] ts [.expr e] := by
  match l with
  | 0 | 1 | 2 | 3 | 4 | 5 | 6 => exact .rule (by decide) h rfl
  | _ + 7 => exact h

theorem isDerived {ts : List Token} {p : ExprPart} (h : ExprPart.Spelled ts p) :
    IsDerived ts p := by
  induction h with
  | place h => exact .rule (by decide) (derives_place h) rfl
  | literal h => exact derives_literal h
  | group hl _ hr ih => exact .rule (by decide) (.token hl (ih.cons (.token hr .nil))) rfl
  | call hf hl _ hr ih =>
    have hcall := Derives.rule (n := .call) (by decide)
      ((derives_name hf).cons (.token hl (ih.actuals.cons (.token hr .nil)))) rfl
    exact .rule (by decide) hcall rfl
  | unary ht _ ih => exact derives_unary ht ih
  | binary _ ht _ iha ihb => exact derives_binary iha ht ihb
  | assign hp ht _ ih =>
    have hassign := Derives.rule (n := .assignExpr) (by decide)
      ((derives_place hp).cons (.token ht ih)) rfl
    exact .rule (by decide) hassign rfl
  | lower _ ih => exact derives_lower ih
  | noArgs => rfl
  | firstArg _ ih => exact .inl ⟨rfl, ih⟩
  | nextArg _ hne hc _ ih ihe => exact ih.nextArg hne hc ihe

theorem derives_expr {ts : List Token} {e : Expr} (h : ExprPart.Spelled ts (expr 0 e)) :
    Derives [.part .expr] ts [.expr e] := isDerived h

theorem derives_actuals {ts : List Token} {es : List Expr} (h : ExprPart.Spelled ts (args es)) :
    Derives [.part .actuals] ts [.exprs es] := (isDerived h).actuals

/-! ### Statements -/

/-- How a part of a function is derived. -/
def IsDerivedStmt (ts : List Token) : StmtPart → Prop
  | .stmt s => Derives [.part .stmt] ts [.stmt s]
  | .stmts ss => (ss = [] ∧ ts = []) ∨ Derives [.part .stmts] ts [.stmts ss]
  | .block b => Derives [.part .block] ts [.body b] ∧ Derives [.part .fnBody] ts [.body b]

theorem derives_counted {ts : List Token} {p : Expr} {s : Stmt} {k : TokenKind} {t e : Token}
    (hr : ⟨.stmt, [.part .place, .token k, .token .semicolon]⟩ ∈ rules)
    (hp : Expr.PlaceSpelled ts p) (ht : t.kind = k) (he : e.kind = .semicolon)
    (hs : Action.counted k p = some (.stmt s)) :
    Derives [.part .stmt] (ts ++ [t, e]) [.stmt s] := by
  subst ht
  apply Derives.rule hr ((derives_place hp).cons (.token rfl (.token he .nil)))
  cases hp <;> exact hs

theorem derives_guarded {ts us : List Token} {g : Guard} {c : Expr} {b : FnBody} {k l r : Token}
    (hk : k.kind = g.keyword) (hl : l.kind = .lparen) (hc : ExprPart.Spelled ts (expr 0 c))
    (hr : r.kind = .rparen) (hb : Derives [.part .block] us [.body b]) :
    Derives [.part .stmt] (k :: l :: ts ++ r :: us) [.stmt ((Owner.ofGuard g c).close b)] := by
  have hsymbols : Derives [.token g.keyword, .token .lparen, .part .expr, .token .rparen,
      .part .block] (k :: l :: ts ++ r :: us)
      [.token k, .token l, .expr c, .token r, .body b] :=
    .token hk (.token hl ((derives_expr hc).cons (.token hr hb)))
  cases g
  all_goals
    apply Derives.rule (by decide) hsymbols
    simp [action, Action.stmt, Action.guarded, hk, Guard.keyword, Owner.ofGuard, Owner.close]

theorem isDerivedStmt {ts : List Token} {p : StmtPart} (h : StmtPart.Spelled ts p) :
    IsDerivedStmt ts p := by
  induction h with
  | assign hp ht hv he =>
    have hassign := Derives.rule (n := .assignExpr) (by decide)
      ((derives_place hp).cons (.token ht (derives_expr hv))) rfl
    exact .rule (by decide) (hassign.cons (.token he .nil)) rfl
  | increment hp ht he => exact derives_counted (by decide) hp ht he rfl
  | decrement hp ht he => exact derives_counted (by decide) hp ht he rfl
  | @read ts p k a e hk ha hp he =>
    apply Derives.rule (by decide)
      (.token hk (.token ha ((derives_place hp).cons (.token he .nil))))
    simp [action, Action.stmt, Action.transfer, hk]
  | @write ts p k a e hk ha hv he =>
    apply Derives.rule (by decide) (.token hk (.token ha ((derives_expr hv).cons (.token he .nil))))
    simp [action, Action.stmt, Action.transfer, hk]
  | @call ts es f l r e hf hl h hr he =>
    have hcall := Derives.rule (n := .call) (by decide)
      ((derives_name hf).cons (.token hl ((derives_actuals h).cons (.token hr .nil)))) rfl
    have hsymbols := hcall.cons (.token he .nil)
    simpa [IsDerivedStmt] using Derives.rule (n := .stmt) (by decide) hsymbols rfl
  | ret hk he => exact .rule (by decide) (.token hk (.token he .nil)) rfl
  | retValue hk hv he =>
    exact .rule (by decide) (.token hk ((derives_expr hv).cons (.token he .nil))) rfl
  | guarded g hk hl hc hr _ ih => exact derives_guarded hk hl hc hr ih.1
  | @ifElse ts us vs c b d k l r e hk hl hc hr _ he _ ihb ihd =>
    have hsymbols := Derives.token hk (.token hl ((derives_expr hc).cons (.token hr
      (ihb.1.cons (.token he ihd.1)))))
    simpa [IsDerivedStmt] using Derives.rule (n := .stmt) (by decide) hsymbols rfl
  | noStmts => exact .inl ⟨rfl, rfl⟩
  | nextStmt _ _ ih ihs =>
    rcases ih with ⟨rfl, rfl⟩ | ih
    · exact .inr (.rule (by decide) ihs rfl)
    · exact .inr (.rule (by decide) (ih.cons ihs) rfl)
  | @block ts us ds ss l r hl hds _ hr ih =>
    have hstmts : Derives [.part .stmtList] us [.stmts ss] := by
      rcases ih with ⟨rfl, rfl⟩ | ih
      · exact .rule (by decide) .nil rfl
      · exact .rule (by decide) ih rfl
    have hsymbols := Derives.token hl ((derives_declList hds).cons (hstmts.cons (.token hr .nil)))
    rw [← List.append_assoc, ← List.cons_append] at hsymbols
    exact ⟨.rule (by decide) hsymbols rfl, .rule (by decide) hsymbols rfl⟩

/-! ### Declarations -/

theorem derives_formal {ts : List Token} {f : Formal} (h : Formal.Spelled ts f) :
    Derives [.part .formal] ts [.formal f] := by
  cases h with
  | mk hty hx => exact .rule (by decide) ((derives_type hty).cons (derives_name hx)) rfl

/-- Formals behind the first have a nonterminal of their own. -/
theorem derives_moreFormals {ts : List Token} {f : Formal} {fs : List Formal}
    (h : Separated Formal.Spelled ts (f :: fs)) :
    (fs = [] ∧ Derives [.part .formal] ts [.formal f]) ∨
      ∃ us vs, ts = us ++ vs ∧ Derives [.part .formal] us [.formal f] ∧
        Derives [.part .moreFormals] vs [.formals fs] := by
  generalize hgs : f :: fs = gs at h
  induction h generalizing f fs with
  | nil => cases hgs
  | one hf =>
    cases hgs
    exact .inl ⟨rfl, derives_formal hf⟩
  | @snoc ts us g gs c h hne hc hg ih =>
    cases gs with
    | nil => exact absurd rfl hne
    | cons g' gs =>
      cases hgs
      rcases ih rfl with ⟨rfl, hf⟩ | ⟨us, vs, rfl, hf, hfs⟩
      · exact .inr ⟨_, _, rfl, hf, .rule (by decide) (.token hc (derives_formal hg)) rfl⟩
      · refine .inr ⟨us, _, List.append_assoc .., hf, ?_⟩
        exact .rule (by decide) (hfs.cons (.token hc (derives_formal hg))) rfl

theorem derives_formals {ts : List Token} {fs : List Formal}
    (h : Separated Formal.Spelled ts fs) : Derives [.part .formals] ts [.formals fs] := by
  cases fs with
  | nil =>
    obtain rfl := h.eq_nil
    exact .rule (by decide) .nil rfl
  | cons f fs =>
    rcases derives_moreFormals h with ⟨rfl, hf⟩ | ⟨us, vs, rfl, hf, hfs⟩
    · exact .rule (by decide) hf rfl
    · exact .rule (by decide) (hf.cons hfs) rfl

theorem derives_decl {ts : List Token} {d : Decl} (h : Decl.Spelled ts d) :
    Derives [.part .decl] ts [.decl d] := by
  cases h with
  | var h => exact .rule (by decide) (derives_varDecl h) rfl
  | @func ts us vs ty fs b x l r hty hx hl hfs hr hb =>
    have hsymbols := (derives_type hty).cons ((derives_name hx).cons (.token hl
      ((derives_formals hfs).cons (.token hr (isDerivedStmt hb).2))))
    have hfunc := Derives.rule (n := .fnDecl) (by decide) hsymbols rfl
    simpa using Derives.rule (n := .decl) (by decide) hfunc rfl
  | struct h =>
    cases h with
    | mk hk hx hl hds hne hr =>
      have hstruct := Derives.rule (n := .structDecl) (by decide) (.token hk ((derives_name hx).cons
        (.token hl ((derives_varDecls hds hne).cons (.token hr .nil))))) rfl
      exact .rule (by decide) hstruct rfl
  | structEnd h he =>
    cases h with
    | mk hk hx hl hds hne hr =>
      have hstruct := Derives.rule (n := .structDecl) (by decide) (.token hk ((derives_name hx).cons
        (.token hl ((derives_varDecls hds hne).cons (.token hr (.token he .nil)))))) rfl
      simpa using Derives.rule (n := .decl) (by decide) hstruct rfl

theorem derives_decls {ts : List Token} {ds : List Decl} (h : Sequence Decl.Spelled ts ds) :
    (ds = [] ∧ ts = []) ∨ Derives [.part .decls] ts [.decls ds] := by
  induction h with
  | nil => exact .inl ⟨rfl, rfl⟩
  | snoc _ hd ih =>
    rcases ih with ⟨rfl, rfl⟩ | ih
    · exact .inr (.rule (by decide) (derives_decl hd) rfl)
    · exact .inr (.rule (by decide) (ih.cons (derives_decl hd)) rfl)

/-- The grammar derives a program from a text exactly if the text spells its declarations. -/
theorem derivesProgram_iff {ts : List Token} {ds : List Decl} :
    DerivesProgram ts ds ↔ Sequence Decl.Spelled ts ds := by
  constructor
  · intro h
    obtain ⟨ds', hds, h⟩ := h.denotes
    cases hds
    exact h
  · intro h
    have hprogram : Derives [.part .program] ts [.decls ds] := by
      rcases derives_decls h with ⟨rfl, rfl⟩ | h
      · exact .rule (by decide) .nil rfl
      · exact .rule (by decide) h rfl
    exact .rule (by decide) hprogram rfl

end Carrot.Grammar
