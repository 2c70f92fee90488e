import Carrot.Proofs.Parsing.FirstError

/-! # Derivations of kinds

Whether tokens are a program is a matter of their kinds: the actions have a value for
all parts that the rules derive, so no derivation is refused for what it stands for.
-/

namespace Carrot.Grammar

/-- `Yields xs ks`: the rules derive tokens of the kinds `ks` from the symbols `xs`. -/
inductive Yields : List Symbol → List TokenKind → Prop
  | nil : Yields [] []
  | token {k xs ks} (h : Yields xs ks) : Yields (.token k :: xs) (k :: ks)
  | part {n rhs xs ks ls} (hr : ⟨n, rhs⟩ ∈ rules) (hn : Yields rhs ks) (h : Yields xs ls) :
      Yields (.part n :: xs) (ks ++ ls)

namespace Yields

variable {n : Nonterminal} {rhs xs ys : List Symbol} {ks ls : List TokenKind}

theorem rule (hr : ⟨n, rhs⟩ ∈ rules) (h : Yields rhs ks) : Yields [.part n] ks := by
  simpa using Yields.part hr h .nil

theorem append (hx : Yields xs ks) (hy : Yields ys ls) : Yields (xs ++ ys) (ks ++ ls) := by
  induction hx with
  | nil => exact hy
  | token _ ih => exact .token ih
  | part hr hn _ _ ih => simpa using Yields.part hr hn ih

theorem append_iff :
    Yields (xs ++ ys) ks ↔ ∃ us vs, ks = us ++ vs ∧ Yields xs us ∧ Yields ys vs := by
  constructor
  · intro h
    induction xs generalizing ks with
    | nil => exact ⟨[], ks, rfl, .nil, h⟩
    | cons x xs ih =>
      cases h with
      | token h =>
        obtain ⟨us, vs, rfl, hx, hy⟩ := ih h
        exact ⟨_ :: us, vs, rfl, .token hx, hy⟩
      | part hr hn h =>
        obtain ⟨us, vs, rfl, hx, hy⟩ := ih h
        exact ⟨_ ++ us, vs, (List.append_assoc ..).symm, .part hr hn hx, hy⟩
  · rintro ⟨us, vs, rfl, hx, hy⟩
    exact hx.append hy

end Yields

/-! ### Values -/

/-- `P` of all values that the parts of a nonterminal can have, by their form. -/
def ForValues (n : Nonterminal) (P : Value → Prop) : Prop :=
  match n with
  | .root | .program | .decls => ∀ ds, P (.decls ds)
  | .decl | .structDecl | .fnDecl => ∀ d, P (.decl d)
  | .varDecl => ∀ d, P (.var d)
  | .varDecls | .declList => ∀ ds, P (.vars ds)
  | .formal => ∀ f, P (.formal f)
  | .formals | .moreFormals => ∀ fs, P (.formals fs)
  | .fnBody | .block => ∀ b, P (.body b)
  | .stmtList | .stmts => ∀ ss, P (.stmts ss)
  | .stmt => ∀ s, P (.stmt s)
  | .type => ∀ t, P (.type t)
  | .assignExpr => ∀ p v, P (.expr (.assign p v))
  | .call => ∀ f es, P (.expr (.call f es))
  | .actuals | .moreActuals => ∀ es, P (.exprs es)
  | .name => ∀ x, P (.ident x)
  | .expr | .orExpr | .andExpr | .relExpr | .addExpr | .mulExpr | .unaryExpr | .term | .place =>
      ∀ e, P (.expr e)

theorem ForValues.of_denotes {n : Nonterminal} {P : Value → Prop} {ts : List Token} {v : Value}
    (h : ForValues n P) (hv : Denotes n ts v) : P v := by
  cases n <;> simp only [Denotes, DenotesExpr] at hv
  case assignExpr =>
    obtain ⟨_, _, _, _, _, rfl, -⟩ := hv
    exact h _ _
  case call =>
    obtain ⟨_, _, _, _, _, rfl, -⟩ := hv
    exact h _ _
  all_goals
    obtain ⟨_, rfl, -⟩ := hv
    exact h _

/-- Behind parts with the values `vs`, parts for the symbols `xs` complete what the action of `n`
has a value for. -/
def HasValue (n : Nonterminal) : List Symbol → List Value → Prop
  | [], vs => (action n vs).isSome
  | .token k :: xs, vs => ∀ t, t.kind = k → HasValue n xs (vs ++ [.token t])
  | .part m :: xs, vs => ForValues m fun v => HasValue n xs (vs ++ [v])

theorem hasValue_declRules : ∀ r ∈ declRules, HasValue r.lhs r.rhs [] := by
  simp [declRules, HasValue, ForValues, action, Action.decls, Action.decl, Action.varDecl,
    Action.structDecl, Action.varDecls, Action.fnDecl, Action.formals, Action.moreFormals,
    Action.formal, Action.body, Action.stmts]

theorem hasValue_typeRules : ∀ r ∈ typeRules, HasValue r.lhs r.rhs [] := by
  simp +contextual [typeRules, HasValue, ForValues, action, Action.type, Action.name,
    TypeExpr.ofKind?]

theorem hasValue_stmtRules : ∀ r ∈ stmtRules, HasValue r.lhs r.rhs [] := by
  simp +contextual [stmtRules, HasValue, ForValues, action, Action.stmt, Action.body,
    Action.guarded, Action.counted, Action.transfer]

theorem hasValue_exprRules : ∀ r ∈ exprRules, HasValue r.lhs r.rhs [] := by
  simp +contextual [exprRules, HasValue, ForValues, action, Action.assignExpr,
    Action.binaryExpr, Action.unaryExpr, Action.term, Action.call, Action.actuals,
    Action.moreActuals, Action.place, BinaryOp.ofKind?, UnaryOp.ofKind?, Token.literal?]

theorem hasValue_rules : ∀ r ∈ rules, HasValue r.lhs r.rhs [] := by
  simp only [rules, List.forall_mem_append, List.forall_mem_cons, List.cons_append]
  refine ⟨?_, ⟨⟨hasValue_declRules, hasValue_typeRules⟩, hasValue_stmtRules⟩, hasValue_exprRules⟩
  simp [HasValue, ForValues, action, Action.decls]

/-- Parts that are derived have a value together. -/
theorem Derives.isSome_action {n : Nonterminal} {xs : List Symbol} {ts : List Token}
    {vs ws : List Value} (h : Derives xs ts ws) (hn : HasValue n xs vs) :
    (action n (vs ++ ws)).isSome := by
  induction h generalizing vs with
  | nil => simpa [HasValue] using hn
  | token hk _ ih => simpa using ih (hn _ hk)
  | part hr hp hv _ _ ih =>
    have hpart := (Derives.rule hr hp hv).denotes
    simpa using ih (ForValues.of_denotes hn hpart)

/-! ### Tokens and their kinds -/

theorem Derives.yields {xs : List Symbol} {ts : List Token} {vs : List Value}
    (h : Derives xs ts vs) : Yields xs (ts.map (·.kind)) := by
  induction h with
  | nil => exact .nil
  | token hk _ ih =>
    subst hk
    exact .token ih
  | part hr _ _ _ ihn ih =>
    rw [List.map_append]
    exact .part hr ihn ih

theorem Yields.derives {xs : List Symbol} {ts : List Token} (h : Yields xs (ts.map (·.kind))) :
    ∃ vs, Derives xs ts vs := by
  generalize hks : ts.map (·.kind) = ks at h
  induction h generalizing ts with
  | nil =>
    obtain rfl := List.map_eq_nil_iff.1 hks
    exact ⟨[], .nil⟩
  | token _ ih =>
    obtain ⟨t, us, rfl, hk, hus⟩ := List.map_eq_cons_iff.1 hks
    obtain ⟨vs, hvs⟩ := ih hus
    exact ⟨_, .token hk hvs⟩
  | part hr _ _ ihn ih =>
    obtain ⟨us, us', rfl, hus, hus'⟩ := List.map_eq_append_iff.1 hks
    obtain ⟨ws, hws⟩ := ihn hus
    obtain ⟨vs, hvs⟩ := ih hus'
    obtain ⟨v, hv⟩ := Option.isSome_iff_exists.1 (hws.isSome_action (hasValue_rules _ hr))
    exact ⟨v :: vs, .part hr hws hv hvs⟩

/-- The kinds of the tokens of a program. -/
def IsProgramKinds (ks : List TokenKind) : Prop := Yields [.part .root] ks

theorem isProgram_iff_isProgramKinds {ts : List Token} :
    IsProgram ts ↔ IsProgramKinds (ts.map (·.kind)) := by
  constructor
  · rintro ⟨ds, h⟩
    exact h.yields
  · intro hts
    obtain ⟨vs, hvs⟩ := hts.derives
    cases hvs with
    | part hr hp hv h =>
      cases h
      obtain ⟨ds, rfl, -⟩ := (Derives.rule hr hp hv).denotes
      exact ⟨ds, by simpa [DerivesProgram] using Derives.rule hr hp hv⟩

/-- Some program starts with tokens exactly if the kinds of one start with theirs. -/
theorem startsProgram_iff_kinds {ts : List Token} :
    StartsProgram ts ↔ ∃ ks, IsProgramKinds (ts.map (·.kind) ++ ks) := by
  constructor
  · rintro ⟨us, h⟩
    exact ⟨us.map (·.kind), by simpa using isProgram_iff_isProgramKinds.1 h⟩
  · rintro ⟨ks, h⟩
    refine ⟨ks.map TokenKind.sample, isProgram_iff_isProgramKinds.2 ?_⟩
    simpa [Function.comp_def] using h

end Carrot.Grammar
