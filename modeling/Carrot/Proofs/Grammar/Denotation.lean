import Carrot.Proofs.Grammar.Derivation

/-! # Derivations spell syntax trees

What the rules derive from a nonterminal, with the values their actions give, is what
spells the trees of its kind. Each rule keeps this by itself, whatever the others do,
so it holds of all derivations.
-/

namespace Carrot.Grammar

open ExprPart (expr args termLevel)

/-! ### What nonterminals stand for -/

/-- Tokens that spell an expression at a level, with its value. -/
def DenotesExpr (l : Nat) (ts : List Token) (v : Value) : Prop :=
  ∃ e, v = .expr e ∧ ExprPart.Spelled ts (expr l e)

/-- The parts that a nonterminal stands for, with their values. -/
def Denotes (n : Nonterminal) (ts : List Token) (v : Value) : Prop :=
  match n with
  | .root | .program | .decls => ∃ ds, v = .decls ds ∧ Sequence Decl.Spelled ts ds
  | .decl | .structDecl | .fnDecl => ∃ d, v = .decl d ∧ Decl.Spelled ts d
  | .varDecl => ∃ d, v = .var d ∧ VarDecl.Spelled ts d
  | .varDecls => ∃ ds, v = .vars ds ∧ Sequence VarDecl.Spelled ts ds ∧ ds ≠ []
  | .declList => ∃ ds, v = .vars ds ∧ Sequence VarDecl.Spelled ts ds
  | .formal => ∃ f, v = .formal f ∧ Formal.Spelled ts f
  | .formals => ∃ fs, v = .formals fs ∧ Separated Formal.Spelled ts fs
  | .moreFormals => ∃ fs, v = .formals fs ∧
      ∀ us f, Formal.Spelled us f → Separated Formal.Spelled (us ++ ts) (f :: fs)
  | .fnBody | .block => ∃ b, v = .body b ∧ StmtPart.Spelled ts (.block b)
  | .stmtList | .stmts => ∃ ss, v = .stmts ss ∧ StmtPart.Spelled ts (.stmts ss)
  | .stmt => ∃ s, v = .stmt s ∧ StmtPart.Spelled ts (.stmt s)
  | .type => ∃ ty, v = .type ty ∧ TypeExpr.Spelled ts ty
  | .assignExpr => ∃ p w us t vs, v = .expr (.assign p w) ∧ ts = us ++ t :: vs ∧
      Expr.PlaceSpelled us p ∧ t.kind = .assign ∧ ExprPart.Spelled vs (expr 0 w)
  | .expr => DenotesExpr 0 ts v
  | .orExpr => DenotesExpr 1 ts v
  | .andExpr => DenotesExpr 2 ts v
  | .relExpr => DenotesExpr 3 ts v
  | .addExpr => DenotesExpr 4 ts v
  | .mulExpr => DenotesExpr 5 ts v
  | .unaryExpr => DenotesExpr UnaryOp.level ts v
  | .term => DenotesExpr termLevel ts v
  | .call => ∃ f l us r es, v = .expr (.call f.ident es) ∧ ts = f :: l :: us ++ [r] ∧
      f.kind = .ident ∧ l.kind = .lparen ∧ ExprPart.Spelled us (args es) ∧ r.kind = .rparen
  | .actuals => ∃ es, v = .exprs es ∧ ExprPart.Spelled ts (args es)
  | .moreActuals => ∃ es, v = .exprs es ∧
      ∀ us e, ExprPart.Spelled us (expr 0 e) → ExprPart.Spelled (us ++ ts) (args (e :: es))
  | .place => ∃ e, v = .expr e ∧ Expr.PlaceSpelled ts e
  | .name => ∃ x, v = .ident x.ident ∧ ts = [x] ∧ x.kind = .ident

/-! ### Rules -/

/-- Behind the tokens `ts` with the values `vs`, the symbols `xs` complete what `n` stands for. -/
def Completes (n : Nonterminal) : List Symbol → List Token → List Value → Prop
  | [], ts, vs => ∀ v, action n vs = some v → Denotes n ts v
  | .token k :: xs, ts, vs => ∀ t, t.kind = k → Completes n xs (ts ++ [t]) (vs ++ [.token t])
  | .part m :: xs, ts, vs => ∀ us v, Denotes m us v → Completes n xs (ts ++ us) (vs ++ [v])

/-- The action of a rule makes what its nonterminal stands for. -/
def Rule.Sound (r : Rule) : Prop := Completes r.lhs r.rhs [] []

theorem sound_typeRules : ∀ r ∈ typeRules, r.Sound := by
  simp only [typeRules, List.forall_mem_cons]
  refine ⟨?_, ?_, ?_, ?_, ?_, by simp⟩
  · intro k hk v hv
    exact ⟨.int, by simpa [action, Action.type, hk, TypeExpr.ofKind?, eq_comm] using hv,
      .word (by rw [hk]; rfl)⟩
  · intro k hk v hv
    exact ⟨.bool, by simpa [action, Action.type, hk, TypeExpr.ofKind?, eq_comm] using hv,
      .word (by rw [hk]; rfl)⟩
  · intro k hk v hv
    exact ⟨.void, by simpa [action, Action.type, hk, TypeExpr.ofKind?, eq_comm] using hv,
      .word (by rw [hk]; rfl)⟩
  · rintro k hk _ _ ⟨x, rfl, rfl, hx⟩ _ ⟨⟩
    exact ⟨_, rfl, .struct hk hx⟩
  · rintro x hx _ ⟨⟩
    exact ⟨x, rfl, rfl, hx⟩

theorem sound_declRules : ∀ r ∈ declRules, r.Sound := by
  simp only [declRules, List.forall_mem_cons]
  -- One goal for each rule, in the order of the rules.
  refine ⟨?_, ?_, ?_, ?_, ?_, ?_, ?_, ?_, ?_, ?_, ?_, ?_, ?_, ?_, ?_, ?_, ?_, ?_, ?_, ?_, ?_, ?_,
    ?_, ?_, ?_, ?_, by simp⟩
  · rintro ts _ ⟨ds, rfl, h⟩ _ ⟨⟩
    exact ⟨ds, rfl, h⟩
  · rintro _ ⟨⟩
    exact ⟨[], rfl, .nil⟩
  · rintro ts _ ⟨d, rfl, h⟩ _ ⟨⟩
    exact ⟨[d], rfl, .one h⟩
  · rintro ts _ ⟨ds, rfl, h⟩ us _ ⟨d, rfl, hd⟩ _ ⟨⟩
    exact ⟨ds ++ [d], rfl, h.snoc hd⟩
  · rintro ts _ ⟨d, rfl, h⟩ _ ⟨⟩
    exact ⟨_, rfl, .var h⟩
  · rintro ts _ ⟨d, rfl, h⟩ _ ⟨⟩
    exact ⟨d, rfl, h⟩
  · rintro ts _ ⟨d, rfl, h⟩ _ ⟨⟩
    exact ⟨d, rfl, h⟩
  · rintro ts _ ⟨ty, rfl, h⟩ _ _ ⟨x, rfl, rfl, hx⟩ e he _ ⟨⟩
    exact ⟨_, rfl, by simpa using VarDecl.Spelled.ofType h hx he⟩
  · rintro k hk _ _ ⟨x, rfl, rfl, hx⟩ l hl ts _ ⟨ds, rfl, h, hne⟩ r hr e he _ ⟨⟩
    exact ⟨_, rfl, by simpa using Decl.Spelled.structEnd (.mk hk hx hl h hne hr) he⟩
  · rintro k hk _ _ ⟨x, rfl, rfl, hx⟩ l hl ts _ ⟨ds, rfl, h, hne⟩ r hr _ ⟨⟩
    exact ⟨_, rfl, by simpa using Decl.Spelled.struct (.mk hk hx hl h hne hr)⟩
  · rintro ts _ ⟨d, rfl, h⟩ _ ⟨⟩
    exact ⟨[d], rfl, .one h, by simp⟩
  · rintro ts _ ⟨ds, rfl, h, -⟩ us _ ⟨d, rfl, hd⟩ _ ⟨⟩
    exact ⟨ds ++ [d], rfl, h.snoc hd, by simp⟩
  · rintro ts _ ⟨ty, rfl, h⟩ _ _ ⟨x, rfl, rfl, hx⟩ l hl us _ ⟨fs, rfl, hfs⟩ r hr vs _
    rintro ⟨b, rfl, hb⟩ _ ⟨⟩
    exact ⟨_, rfl, by simpa using Decl.Spelled.func h hx hl hfs hr hb⟩
  · rintro ts _ ⟨f, rfl, h⟩ us _ ⟨fs, rfl, hfs⟩ _ ⟨⟩
    exact ⟨f :: fs, rfl, hfs _ _ h⟩
  · rintro ts _ ⟨f, rfl, h⟩ _ ⟨⟩
    exact ⟨[f], rfl, .one h⟩
  · rintro _ ⟨⟩
    exact ⟨[], rfl, .nil⟩
  · rintro c hc ts _ ⟨f, rfl, h⟩ _ ⟨⟩
    exact ⟨[f], rfl, fun us g hg => (Separated.one hg).snoc (by simp) hc h⟩
  · rintro ts _ ⟨fs, rfl, hfs⟩ c hc us _ ⟨f, rfl, h⟩ _ ⟨⟩
    refine ⟨fs ++ [f], rfl, fun vs g hg => ?_⟩
    simpa using (hfs vs g hg).snoc (by simp) hc h
  · rintro ts _ ⟨ty, rfl, h⟩ _ _ ⟨x, rfl, rfl, hx⟩ _ ⟨⟩
    exact ⟨_, rfl, .mk h hx⟩
  · rintro l hl ts _ ⟨ds, rfl, hds⟩ us _ ⟨ss, rfl, hss⟩ r hr _ ⟨⟩
    exact ⟨_, rfl, .block hl hds hss hr⟩
  · rintro ts _ ⟨ds, rfl, h, -⟩ _ ⟨⟩
    exact ⟨ds, rfl, h⟩
  · rintro _ ⟨⟩
    exact ⟨[], rfl, .nil⟩
  · rintro ts _ ⟨ss, rfl, h⟩ _ ⟨⟩
    exact ⟨ss, rfl, h⟩
  · rintro _ ⟨⟩
    exact ⟨[], rfl, .noStmts⟩
  · rintro ts _ ⟨s, rfl, h⟩ _ ⟨⟩
    exact ⟨[s], rfl, .nextStmt .noStmts h⟩
  · rintro ts _ ⟨ss, rfl, h⟩ us _ ⟨s, rfl, hs⟩ _ ⟨⟩
    exact ⟨ss ++ [s], rfl, h.nextStmt hs⟩

theorem completes_guarded {g : Guard} {k : TokenKind} (hg : g.keyword = k) :
    Completes .stmt [.token k, .token .lparen, .part .expr, .token .rparen, .part .block]
      [] [] := by
  rintro t ht l hl ts _ ⟨c, rfl, hc⟩ r hr us _ ⟨b, rfl, hb⟩ v hv
  subst hg
  refine ⟨(Owner.ofGuard g c).close b, ?_, by simpa using .guarded g ht hl hc hr hb⟩
  cases g <;> simpa [action, Action.stmt, Action.guarded, ht, Guard.keyword, Owner.ofGuard,
    Owner.close, eq_comm] using hv

theorem sound_stmtRules : ∀ r ∈ stmtRules, r.Sound := by
  simp only [stmtRules, List.forall_mem_cons]
  refine ⟨?_, ?_, ?_, ?_, ?_, completes_guarded (g := .ifGuard) rfl, ?_,
    completes_guarded (g := .whileGuard) rfl, completes_guarded (g := .repeatGuard) rfl,
    ?_, ?_, ?_, ?_, by simp⟩
  · rintro _ _ ⟨p, w, us, t, vs, rfl, rfl, hp, ht, hw⟩ e he _ ⟨⟩
    exact ⟨_, rfl, by simpa using StmtPart.Spelled.assign hp ht hw he⟩
  · rintro ts _ ⟨p, rfl, hp⟩ t ht e he v hv
    refine ⟨.increment p, ?_, by simpa using .increment hp ht he⟩
    cases hp <;> simpa [action, Action.stmt, Action.counted, ht, eq_comm] using hv
  · rintro ts _ ⟨p, rfl, hp⟩ t ht e he v hv
    refine ⟨.decrement p, ?_, by simpa using .decrement hp ht he⟩
    cases hp <;> simpa [action, Action.stmt, Action.counted, ht, eq_comm] using hv
  · rintro k hk a ha ts _ ⟨p, rfl, hp⟩ e he v hv
    refine ⟨.read p, ?_, by simpa using .read hk ha hp he⟩
    simpa [action, Action.stmt, Action.transfer, hk, eq_comm] using hv
  · rintro k hk a ha ts _ ⟨w, rfl, hw⟩ e he v hv
    refine ⟨.write w, ?_, by simpa using .write hk ha hw he⟩
    simpa [action, Action.stmt, Action.transfer, hk, eq_comm] using hv
  · rintro k hk l hl ts _ ⟨c, rfl, hc⟩ r hr us _ ⟨b, rfl, hb⟩ e he vs _ ⟨d, rfl, hd⟩ _ ⟨⟩
    exact ⟨_, rfl, by simpa using StmtPart.Spelled.ifElse hk hl hc hr hb he hd⟩
  · rintro _ _ ⟨f, l, us, r, es, rfl, rfl, hf, hl, hes, hr⟩ e he _ ⟨⟩
    exact ⟨_, rfl, by simpa using .call hf hl hes hr he⟩
  · rintro k hk ts _ ⟨w, rfl, hw⟩ e he _ ⟨⟩
    exact ⟨_, rfl, by simpa using .retValue hk hw he⟩
  · rintro k hk e he _ ⟨⟩
    exact ⟨_, rfl, .ret hk he⟩
  · rintro l hl ts _ ⟨ds, rfl, hds⟩ us _ ⟨ss, rfl, hss⟩ r hr _ ⟨⟩
    exact ⟨_, rfl, .block hl hds hss hr⟩

/-- An operand that is handed on is spelled at the lower level too. -/
theorem completes_lower {n m : Nonterminal} {l : Nat} (hm : Denotes m = DenotesExpr (l + 1))
    (hn : Denotes n = DenotesExpr l) (hv : action n = Action.binaryExpr) :
    Completes n [.part m] [] [] := by
  intro ts v h w hw
  rw [hm] at h
  obtain ⟨e, rfl, he⟩ := h
  rw [hv] at hw
  cases hw
  rw [hn]
  exact ⟨e, rfl, he.lower⟩

/-- An operator between two operands. -/
theorem completes_binary {n a b : Nonterminal} {k : TokenKind} {op : BinaryOp}
    (hk : BinaryOp.ofKind? k = some op) (ha : Denotes a = DenotesExpr op.leftLevel)
    (hb : Denotes b = DenotesExpr op.rightLevel) (hn : Denotes n = DenotesExpr op.level)
    (hv : action n = Action.binaryExpr) :
    Completes n [.part a, .token k, .part b] [] [] := by
  intro ts v hl t ht us w hr x hx
  rw [ha] at hl
  rw [hb] at hr
  obtain ⟨l, rfl, hl⟩ := hl
  obtain ⟨r, rfl, hr⟩ := hr
  subst ht
  rw [hn]
  refine ⟨.binary op l r, ?_, by simpa using .binary hl hk hr⟩
  simpa [hv, Action.binaryExpr, hk, eq_comm] using hx

theorem completes_unary {k : TokenKind} {op : UnaryOp} (hk : UnaryOp.ofKind? k = some op) :
    Completes .unaryExpr [.token k, .part .unaryExpr] [] [] := by
  rintro t rfl ts _ ⟨e, rfl, he⟩ v hv
  refine ⟨.unary op e, ?_, .unary hk he⟩
  simpa [action, Action.unaryExpr, hk, eq_comm] using hv

theorem completes_literal {k : TokenKind} (hk : ∀ t : Token, t.kind = k → t.literal?.isSome) :
    Completes .term [.token k] [] [] := by
  intro t ht v hv
  obtain ⟨e, he⟩ := Option.isSome_iff_exists.1 (hk t ht)
  refine ⟨e, ?_, .literal he⟩
  simpa [action, Action.term, he, eq_comm] using hv

theorem sound_exprRules : ∀ r ∈ exprRules, r.Sound := by
  simp only [exprRules, List.forall_mem_cons]
  refine ⟨?_, completes_lower rfl rfl rfl, ?_,
    completes_binary rfl rfl rfl rfl rfl, completes_lower rfl rfl rfl,
    completes_binary rfl rfl rfl rfl rfl, completes_lower rfl rfl rfl,
    completes_binary rfl rfl rfl rfl rfl, completes_binary rfl rfl rfl rfl rfl,
    completes_binary rfl rfl rfl rfl rfl, completes_binary rfl rfl rfl rfl rfl,
    completes_binary rfl rfl rfl rfl rfl, completes_binary rfl rfl rfl rfl rfl,
    completes_lower rfl rfl rfl,
    completes_binary rfl rfl rfl rfl rfl, completes_binary rfl rfl rfl rfl rfl,
    completes_lower rfl rfl rfl,
    completes_binary rfl rfl rfl rfl rfl, completes_binary rfl rfl rfl rfl rfl,
    completes_lower rfl rfl rfl,
    completes_unary rfl, completes_unary rfl, ?_, ?_,
    completes_literal fun t ht => by simp [Token.literal?, ht],
    completes_literal fun t ht => by simp [Token.literal?, ht],
    completes_literal fun t ht => by simp [Token.literal?, ht],
    completes_literal fun t ht => by simp [Token.literal?, ht],
    ?_, ?_, ?_, ?_, ?_, ?_, ?_, ?_, ?_, ?_, by simp⟩
  · rintro _ _ ⟨p, w, us, t, vs, rfl, rfl, hp, ht, hw⟩ _ ⟨⟩
    exact ⟨_, rfl, .assign hp ht hw⟩
  · rintro ts _ ⟨p, rfl, hp⟩ t ht us _ ⟨w, rfl, hw⟩ _ ⟨⟩
    exact ⟨p, w, ts, t, us, rfl, by simp, hp, ht, hw⟩
  · rintro ts _ ⟨e, rfl, he⟩ _ ⟨⟩
    exact ⟨e, rfl, he.lower⟩
  · rintro ts _ ⟨p, rfl, hp⟩ _ ⟨⟩
    exact ⟨p, rfl, .place hp⟩
  · rintro l hl ts _ ⟨e, rfl, he⟩ r hr _ ⟨⟩
    exact ⟨e, rfl, .group hl he hr⟩
  · rintro _ _ ⟨f, l, us, r, es, rfl, rfl, hf, hl, hes, hr⟩ _ ⟨⟩
    exact ⟨_, rfl, .call hf hl hes hr⟩
  · rintro _ _ ⟨f, rfl, rfl, hf⟩ l hl ts _ ⟨es, rfl, hes⟩ r hr _ ⟨⟩
    exact ⟨f, l, ts, r, es, rfl, rfl, hf, hl, hes, hr⟩
  · rintro ts _ ⟨e, rfl, he⟩ us _ ⟨es, rfl, hes⟩ _ ⟨⟩
    exact ⟨e :: es, rfl, hes _ _ he⟩
  · rintro ts _ ⟨e, rfl, he⟩ _ ⟨⟩
    exact ⟨[e], rfl, .firstArg he⟩
  · rintro _ ⟨⟩
    exact ⟨[], rfl, .noArgs⟩
  · rintro c hc ts _ ⟨e, rfl, he⟩ _ ⟨⟩
    exact ⟨[e], rfl, fun us f hf => .nextArg (.firstArg hf) (by simp) hc he⟩
  · rintro ts _ ⟨es, rfl, hes⟩ c hc us _ ⟨e, rfl, he⟩ _ ⟨⟩
    refine ⟨es ++ [e], rfl, fun vs f hf => ?_⟩
    simpa using ExprPart.Spelled.nextArg (hes vs f hf) (by simp) hc he
  · rintro _ _ ⟨x, rfl, rfl, hx⟩ _ ⟨⟩
    exact ⟨_, rfl, .ident hx⟩
  · rintro ts _ ⟨p, rfl, hp⟩ d hd _ _ ⟨x, rfl, rfl, hx⟩ _ ⟨⟩
    exact ⟨_, rfl, by simpa using hp.dot hd hx⟩

theorem sound_rules : ∀ r ∈ rules, r.Sound := by
  simp only [rules, List.forall_mem_append, List.forall_mem_cons, List.cons_append]
  refine ⟨?_, ⟨⟨sound_declRules, sound_typeRules⟩, sound_stmtRules⟩, sound_exprRules⟩
  rintro ts _ ⟨ds, rfl, h⟩ _ ⟨⟩
  exact ⟨ds, rfl, h⟩

/-- Derived tokens complete what they stand for. -/
theorem Derives.completes {n : Nonterminal} {xs : List Symbol} {ts us : List Token}
    {vs ws : List Value} (h : Derives xs us ws) (hn : Completes n xs ts vs) :
    Completes n [] (ts ++ us) (vs ++ ws) := by
  induction h generalizing n ts vs with
  | nil => simpa using hn
  | token hk _ ih => simpa using ih (hn _ hk)
  | @part m rhs us ws v xs us' vs' hr _ hv _ ihm ih =>
    have hm : Denotes m us v := by
      have hc := ihm (sound_rules _ hr)
      exact hc v (by simpa using hv)
    simpa using ih (hn us v hm)

/-- What is derived from a nonterminal is what it stands for. -/
theorem Derives.denotes {n : Nonterminal} {ts : List Token} {v : Value}
    (h : Derives [.part n] ts [v]) : Denotes n ts v := by
  cases h with
  | part hr hn hv h =>
    cases h
    simpa using hn.completes (sound_rules _ hr) _ (by simpa using hv)

end Carrot.Grammar
