import Carrot.Proofs.Resolution.Faultless
import Carrot.Proofs.Scoping

/-! # Resolution is lexical scoping

The scopes that resolution pushes, extends and pops are at every point the accepted
declarations of the blocks around the point. So every use is given what it stands
for in the tree, and the undeclared names that are reported are, in order, those
that stand for nothing.
-/

namespace Carrot.Scoping

/-- The uses `xs` and the findings `ds` are what scoping says of the sites `ss`. -/
structure Agree (base : Nat) (ss : List Site) (xs : List Ident) (ds : List Diagnostic) :
    Prop where
  uses : xs = ss.filterMap (Site.resolved? base)
  missing : ds.filter (·.code = .undeclared) =
    (ss.filterMap (Site.missing? base)).map fun x => .error x.position .undeclared

namespace Agree

variable {base : Nat} {ss ts : List Site} {xs ys : List Ident} {ds es : List Diagnostic}

theorem nil : Agree base [] [] [] := ⟨rfl, rfl⟩

theorem append (h : Agree base ss xs ds) (k : Agree base ts ys es) :
    Agree base (ss ++ ts) (xs ++ ys) (ds ++ es) := by
  constructor
  · rw [List.filterMap_append, h.uses, k.uses]
  · rw [List.filter_append, List.filterMap_append, List.map_append, h.missing, k.missing]

/-- Findings of another kind do not count. -/
theorem other (hds : ∀ d ∈ ds, d.code ≠ .undeclared) : Agree base [] [] ds :=
  ⟨rfl, by simpa [List.filter_eq_nil_iff] using hds⟩

end Agree

/-! ### Expressions -/

section Expressions

variable {base : Nat} {blocks : Blocks} {n : Names}

theorem agree_ident (h : n.table.scopes = scopes base blocks) (x : Ident) :
    Agree base [.use blocks x] [(n.ident x).node] (n.ident x).found := by
  have hfind : n.table.lookupGlobal x.name = find base blocks x.name := by
    rw [SymbolTable.lookupGlobal, h, find]
  unfold Names.ident
  rw [hfind]
  cases hx : find base blocks x.name <;>
    constructor <;> simp [Site.resolved?, Site.missing?, Ident.noted, hx, Diagnostic.error]

/-- A field is never reported as undeclared. -/
theorem agree_field (hint : Hint) (x : Ident) : Agree base [] [] (n.field hint x).found := by
  apply Agree.other
  fun_cases Names.field n hint x <;> simp_all [Resolved.silent, Diagnostic.error]

mutual

theorem agree_expr (h : n.table.scopes = scopes base blocks) :
    ∀ e : Expr, Agree base (exprSites blocks e.uses) (n.expr e).node.uses (n.expr e).found
  | .int _ _ | .str _ _ | .bool _ _ => by
    simp only [Names.expr, Resolved.silent, Expr.uses]
    exact .nil
  | .ident x => by
    simp only [Names.expr, Expr.uses]
    exact agree_ident h x
  | .dot e x => by
    simp only [Names.expr, Expr.uses]
    simpa using (agree_expr h e).append (agree_field (n.expr e).hint x)
  | .assign t v | .binary _ t v => by
    simp only [Names.expr, Resolved.both, Expr.uses, exprSites, List.map_append]
    exact (agree_expr h t).append (agree_expr h v)
  | .call f args => by
    simp only [Names.expr, Resolved.both, Expr.uses]
    exact (agree_ident h f).append (agree_exprs h args)
  | .unary _ e => by
    simp only [Names.expr, Resolved.wrap, Expr.uses]
    exact agree_expr h e

theorem agree_exprs (h : n.table.scopes = scopes base blocks) :
    ∀ es : List Expr,
      Agree base (exprSites blocks (Expr.listUses es)) (Expr.listUses (n.exprs es).node)
        (n.exprs es).found
  | [] => by
    simp only [Names.exprs, Resolved.silent, Expr.listUses]
    exact .nil
  | e :: es => by
    simp only [Names.exprs, Resolved.both, Expr.listUses, exprSites, List.map_append]
    exact (agree_expr h e).append (agree_exprs h es)

end

end Expressions

/-! ### Declarations -/

theorem binding?_var_struct {base : Nat} {c : Context} {d : VarDecl} {tag : Ident}
    (ht : d.type = .struct tag) :
    (Item.var d).binding? base c.outer c.front =
      ((c.find tag.name).bind (·.structRef?)).map fun ref =>
        ⟨tag.name, some d.name.position, .instanceOf (some ref)⟩ := by
  simp only [Item.binding?, ht]
  rfl

/-- A variable declaration leaves what its block accepts. -/
theorem varDecl_context (base : Nat) (c : Context) (d : VarDecl) :
    (c.varDecl d).context = { c with front := accept base c.outer c.front (.var d) } := by
  fun_cases Context.varDecl c d with
  | case1 hv => rw [accept_of_unfit (by simp [Item.binding?, hv])]
  | case2 hv b hb => rw [accept_of_taken (i := .var d) hb]
  | case3 hv hfree =>
    fun_cases Context.declareVar c d with
    | case1 tag ht hfind => rw [accept_of_unfit (by simp [binding?_var_struct ht, hfind])]
    | case2 tag ht b hfind href =>
      rw [accept_of_unfit (by simp [binding?_var_struct ht, hfind, href])]
    | case3 tag ht b hfind ref href own =>
      have hb : (Item.var d).binding? base c.outer c.front = some own := by
        simp [binding?_var_struct ht, hfind, href, own]
      rw [accept_of_free (i := .var d) hfree hb]
      rfl
    | case4 hstruct own =>
      have hb : (Item.var d).binding? base c.outer c.front = some own := by
        cases ht : d.type <;> simp_all [Item.binding?, own]
      rw [accept_of_free (i := .var d) hfree hb]
      rfl

theorem formal_context (base : Nat) (c : Context) (f : Formal) :
    (c.formal f).context = { c with front := accept base c.outer c.front (.formal f) } := by
  fun_cases Context.formal c f with
  | case1 hv => rw [accept_of_unfit (by simp [Item.binding?, hv])]
  | case2 hv hl =>
    obtain ⟨b, hb⟩ := Option.isSome_iff_exists.1 hl
    rw [accept_of_taken (i := .formal f) hb]
  | case3 hv hl own =>
    have hb : (Item.formal f).binding? base c.outer c.front = some own := by
      simp only [Item.binding?, hv, if_false, own]
    rw [accept_of_free (i := .formal f) (Option.not_isSome_iff_eq_none.1 hl) hb]
    rfl

section Declarations

variable {base : Nat} {c : Context} {before : List Item} {outer : Blocks}

theorem front_eq (h : c.scopes = scopes base (before :: outer)) :
    c.front = scope base (scopes base outer) before := List.head_eq_of_cons_eq h

theorem outer_eq (h : c.scopes = scopes base (before :: outer)) : c.outer = scopes base outer :=
  List.tail_eq_of_cons_eq h

/-- The scopes behind one more declaration of the innermost block. -/
theorem scopes_accept (h : c.scopes = scopes base (before :: outer)) (i : Item) :
    ({ c with front := accept base c.outer c.front i } : Context).scopes =
      scopes base ((before ++ [i]) :: outer) := by
  simp only [Context.scopes, scopes, scope_append_singleton, front_eq h, outer_eq h]

theorem agree_varDecl (h : c.scopes = scopes base (before :: outer)) (d : VarDecl) :
    Agree base [.decl (before :: outer) d] [] (c.varDecl d).found := by
  have hlocal : findLocal base (before :: outer) d.name.name = c.front.lookup d.name.name := by
    rw [front_eq h]; rfl
  have hfind (x : String) : find base (before :: outer) x = c.find x := by
    rw [find, ← h]; rfl
  refine ⟨rfl, ?_⟩
  fun_cases Context.varDecl c d with
  | case1 hv => simp [Site.missing?, hv, Diagnostic.error]
  | case2 hv b hb =>
    cases ht : d.type <;> cases hf : b.isFormal <;>
      simp [Site.missing?, ht, hlocal, hb, Diagnostic.error]
  | case3 hv hfree =>
    fun_cases Context.declareVar c d <;> simp_all [Site.missing?, Diagnostic.error]

theorem agree_varDecls (h : c.scopes = scopes base (before :: outer)) (ds : List VarDecl) :
    Agree base (declSites outer before ds) [] (c.varDecls ds).found ∧
      (c.varDecls ds).context.scopes = scopes base ((before ++ ds.map .var) :: outer) := by
  induction ds generalizing c before with
  | nil => exact ⟨.nil, by simpa [Context.varDecls, Context.all] using h⟩
  | cons d ds ih =>
    have hscopes : (c.varDecl d).context.scopes = scopes base ((before ++ [.var d]) :: outer) := by
      rw [varDecl_context base, scopes_accept h]
    obtain ⟨hagree, hrest⟩ := ih hscopes
    exact ⟨(agree_varDecl h d).append hagree, by simpa [Context.varDecls, Context.all] using hrest⟩

theorem agree_formals (h : c.scopes = scopes base (before :: outer)) (fs : List Formal) :
    Agree base [] [] (c.formals fs).found ∧
      (c.formals fs).context.scopes = scopes base ((before ++ fs.map .formal) :: outer) := by
  induction fs generalizing c before with
  | nil => exact ⟨.nil, by simpa [Context.formals, Context.all] using h⟩
  | cons f fs ih =>
    have hscopes : (c.formal f).context.scopes =
        scopes base ((before ++ [.formal f]) :: outer) := by
      rw [formal_context base, scopes_accept h]
    have hfound : Agree base [] [] (c.formal f).found := by
      apply Agree.other
      fun_cases Context.formal c f <;> simp [Diagnostic.error]
    obtain ⟨hagree, hrest⟩ := ih hscopes
    exact ⟨hfound.append hagree, by simpa [Context.formals, Context.all] using hrest⟩

/-- A new scope is a block without declarations. -/
theorem scopes_enter (h : c.scopes = scopes base outer) :
    c.enter.scopes = scopes base ([] :: outer) := by
  rw [scopes, ← h]
  rfl

end Declarations

/-! ### Statements -/

section Statements

variable {base : Nat}

/-- The contents of a block agree if its statements do behind its declarations. -/
theorem agree_block {c : Context} {blocks : Blocks} {ss : List Stmt} (ds : List VarDecl)
    (h : c.scopes = scopes base blocks)
    (hss : ∀ k : Context, k.scopes = scopes base (ds.map .var :: blocks) →
      Agree base (stmtsSites (ds.map .var :: blocks) ss) (Stmt.listUses (k.stmts ss).node)
        (k.stmts ss).found) :
    let o := c.enter.varDecls ds
    Agree base (declSites blocks [] ds ++ stmtsSites (ds.map .var :: blocks) ss)
      (Stmt.listUses (o.context.stmts ss).node) (o.body (o.context.stmts ss)).found := by
  obtain ⟨hds, hscopes⟩ := agree_varDecls (scopes_enter h) ds
  exact hds.append (hss _ hscopes)

mutual

theorem agree_stmt : ∀ (t : Stmt) (c : Context) (blocks : Blocks),
    c.scopes = scopes base blocks →
      Agree base (stmtSites blocks t) (c.stmt t).node.uses (c.stmt t).found
  | .assign t v, _, _, h => by
    simp only [Context.stmt, Resolved.both, Stmt.uses, stmtSites, exprSites, List.map_append]
    exact (agree_expr h t).append (agree_expr h v)
  | .increment p, _, _, h | .decrement p, _, _, h | .read p, _, _, h | .write p, _, _, h
  | .ret (some p), _, _, h => by
    simp only [Context.stmt, Resolved.wrap, Stmt.uses, stmtSites]
    exact agree_expr h p
  | .ret none, _, _, _ => by
    simp only [Context.stmt, Resolved.silent, Stmt.uses, stmtSites]
    exact .nil
  | .call f args, _, _, h => by
    simp only [Context.stmt, Resolved.both, Stmt.uses, stmtSites]
    exact (agree_ident h f).append (agree_exprs h args)
  | .ifThen e ds ss, _, _, h | .whileLoop e ds ss, _, _, h | .repeatLoop e ds ss, _, _, h => by
    simp only [Context.stmt, Resolved.both, Stmt.uses, stmtSites]
    exact (agree_expr h e).append (agree_block ds h fun k => agree_stmts ss k _)
  | .ifElse e ds ss eds ess, _, _, h => by
    simp only [Context.stmt, Resolved.both, Stmt.uses, stmtSites]
    exact ((agree_expr h e).append (agree_block ds h fun k => agree_stmts ss k _)).append
      (agree_block eds h fun k => agree_stmts ess k _)

theorem agree_stmts : ∀ (ss : List Stmt) (c : Context) (blocks : Blocks),
    c.scopes = scopes base blocks →
      Agree base (stmtsSites blocks ss) (Stmt.listUses (c.stmts ss).node) (c.stmts ss).found
  | [], _, _, _ => by
    simp only [Context.stmts, Resolved.silent, Stmt.listUses, stmtsSites]
    exact .nil
  | s :: ss, c, blocks, h => by
    simp only [Context.stmts, Resolved.both, Stmt.listUses, stmtsSites]
    exact (agree_stmt s c blocks h).append (agree_stmts ss c blocks h)

end

end Statements

/-! ### The top level -/

/-- How many struct declarations a scope binds. -/
def structCount (s : Scope Binding) : Nat := s.countP fun e => e.2.structRef?.isSome

/-- `c` is what is in scope behind the declarations `before` at the top level. -/
structure AtTop (base : Nat) (c : Context) (before : List Item) : Prop where
  scopes : c.scopes = Scoping.scopes base [before]
  nextId : c.fields.nextId = base + structCount c.front

section TopLevel

variable {base : Nat} {c : Context} {before : List Item}

theorem structCount_varDecl (c : Context) (d : VarDecl) :
    structCount (c.varDecl d).context.front = structCount c.front := by
  fun_cases Context.varDecl c d with
  | case1 | case2 => rfl
  | case3 =>
    fun_cases Context.declareVar c d <;>
      simp [structCount, Context.bind, Binding.structRef?]

theorem AtTop.varDecl (h : AtTop base c before) (d : VarDecl) :
    AtTop base (c.varDecl d).context (before ++ [.var d]) := by
  constructor
  · rw [varDecl_context base, scopes_accept h.scopes]
  · rw [(c.varDecl_extends d).fields, structCount_varDecl, h.nextId]

theorem fnName_context (base : Nat) (c : Context) (d : FnDecl) :
    (c.fnName d).context = { c with front := accept base c.outer c.front (.func d) } := by
  fun_cases Context.fnName c d with
  | case1 hl =>
    obtain ⟨b, hb⟩ := Option.isSome_iff_exists.1 hl
    rw [accept_of_taken (i := .func d) hb]
  | case2 hl =>
    rw [accept_of_free (i := .func d) (Option.not_isSome_iff_eq_none.1 hl) rfl]
    rfl

theorem AtTop.fnName (h : AtTop base c before) (d : FnDecl) :
    AtTop base (c.fnName d).context (before ++ [.func d]) := by
  constructor
  · rw [fnName_context base, scopes_accept h.scopes]
  · fun_cases Context.fnName c d with
    | case1 => exact h.nextId
    | case2 =>
      rw [Context.bind, h.nextId]
      simp [structCount, Session.fnBinding, Binding.structRef?]

theorem agree_fnDecl (h : AtTop base c before) (d : FnDecl) :
    Agree base (topSites base before (.func d)) (Stmt.listUses (c.fnDecl d).node.body.stmts)
      (c.fnDecl d).found := by
  have hname : Agree base [] [] (c.fnName d).found := by
    apply Agree.other
    fun_cases Context.fnName c d <;> simp [Diagnostic.error]
  obtain ⟨hfs, hformals⟩ := agree_formals (scopes_enter (h.fnName d).scopes) d.formals
  obtain ⟨hds, hscopes⟩ := agree_varDecls hformals d.body.decls
  exact (hname.append hfs).append (hds.append (agree_stmts d.body.stmts _ _ hscopes))

theorem withStruct_scopes (h : AtTop base c before) {d : StructDecl}
    (hfree : c.front.lookup d.name.name = none) :
    (c.withStruct d).scopes = scopes base [before ++ [.struct d]] := by
  have hb : (Item.struct d).binding? base c.outer c.front = some (c.structBinding d) := by
    simp only [Item.binding?, Context.structBinding, h.nextId, structCount]
  rw [← scopes_accept h.scopes, accept_of_free (i := .struct d) hfree hb]
  rfl

theorem AtTop.structDecl (h : AtTop base c before) (d : StructDecl) :
    AtTop base (c.structDecl d).context (before ++ [.struct d]) := by
  fun_cases Context.structDecl c d with
  | case1 hl =>
    obtain ⟨b, hb⟩ := Option.isSome_iff_exists.1 hl
    refine ⟨?_, h.nextId⟩
    rw [← scopes_accept h.scopes, accept_of_taken (i := .struct d) hb]
  | case2 hl =>
    refine ⟨withStruct_scopes h (Option.not_isSome_iff_eq_none.1 hl), ?_⟩
    rw [Context.withStruct, StructFields.nextId_register, h.nextId]
    simp [structCount, Context.bind, Context.structBinding, Binding.ofStruct, Binding.structRef?]
    omega

theorem agree_structDecl (h : AtTop base c before) (d : StructDecl) :
    Agree base (topSites base before (.struct d)) [] (c.structDecl d).found := by
  have hlocal : findLocal base [before] d.name.name = c.front.lookup d.name.name := by
    rw [front_eq h.scopes]; rfl
  simp only [topSites, hlocal]
  fun_cases Context.structDecl c d with
  | case1 hl =>
    rw [if_neg fun hfree => by simp [hfree] at hl]
    exact .other (by simp [Diagnostic.error])
  | case2 hl =>
    have hfree := Option.not_isSome_iff_eq_none.1 hl
    rw [if_pos hfree]
    exact (agree_varDecls (scopes_enter (withStruct_scopes h hfree)) d.fields).1

theorem agree_decl (h : AtTop base c before) (d : Decl) :
    Agree base (topSites base before d) (c.decl d).node.uses (c.decl d).found ∧
      AtTop base (c.decl d).context (before ++ [.ofDecl d]) := by
  cases d with
  | var d => exact ⟨agree_varDecl h.scopes d, h.varDecl d⟩
  | func d => exact ⟨agree_fnDecl h d, h.fnName d⟩
  | struct d => exact ⟨agree_structDecl h d, h.structDecl d⟩

theorem agree_decls (h : AtTop base c before) (ds : List Decl) :
    Agree base (sites base before ds) ((c.decls ds).node.flatMap Decl.uses)
      (c.decls ds).found := by
  induction ds generalizing c before with
  | nil => exact .nil
  | cons d ds ih =>
    obtain ⟨hagree, htop⟩ := agree_decl h d
    exact hagree.append (ih htop)

end TopLevel

end Carrot.Scoping

namespace Carrot.Resolution

open Scoping

/-- Resolution is lexical scoping: each use is given what its name stands for, the binding of
the first accepted declaration in the innermost block that has one, and is left as it was if
there is none; and exactly the names that stand for nothing are reported as undeclared, each
once and in order. -/
theorem uses_eq_scoping (p : Program) (fields : StructFields) (hp : Named p.declared) :
    let base := fields.nextId
    (sites base [] p.decls).filterMap Site.use? = p.uses ∧
      (ofProgram p fields).program.uses =
        (sites base [] p.decls).filterMap (Site.resolved? base) ∧
      (ofProgram p fields).diagnostics.filter (·.code = .undeclared) =
        ((sites base [] p.decls).filterMap (Site.missing? base)).map
          (fun x => .error x.position .undeclared) ∧
      ∀ blocks name b, find base blocks name = some b ↔ StandsFor base blocks name b := by
  intro base
  have htop : AtTop base (.initial fields) [] := ⟨rfl, rfl⟩
  have hagree := agree_decls htop p.decls
  rw [ofProgram_eq p fields hp]
  exact ⟨use?_sites base [] p.decls, hagree.uses, hagree.missing, find_eq_some_iff base⟩

/-- A global `x` that a block hides, a formal `a` that a local repeats, and an unknown `y`. -/
def hidingProgram : Program :=
  let ident (name : String) (column : Int) : Ident := ⟨name, ⟨1, column⟩, none⟩
  let a (column : Int) : Expr := .ident (ident "a" column)
  let x (column : Int) : Expr := .ident (ident "x" column)
  ⟨[.var ⟨.int, ident "x" 5, VarDecl.notStruct⟩,
    .func ⟨.void, ident "main" 13, [⟨.int, ident "a" 22⟩],
      ⟨[⟨.bool, ident "a" 32, VarDecl.notStruct⟩],
        [.ifThen (a 39) [⟨.bool, ident "x" 49, VarDecl.notStruct⟩] [.assign (x 52) (a 56)],
          .assign (x 61) (.ident (ident "y" 65))]⟩⟩], stdinName⟩

theorem uses_eq_scoping_hidingProgram :
    Named hidingProgram.declared ∧
      (ofProgram hidingProgram).program.uses.map (fun x => x.binding.map (·.label)) =
        [some "int", some "bool", some "int", some "int", none] ∧
      (ofProgram hidingProgram).diagnostics.filter (·.code = .undeclared) =
        [.error ⟨1, 65⟩ .undeclared] := by
  have hnamed : Named hidingProgram.declared := by unfold Named; decide
  obtain ⟨-, huses, hmissing, -⟩ := uses_eq_scoping hidingProgram .empty hnamed
  refine ⟨hnamed, ?_, ?_⟩
  · rw [huses]
    decide
  · rw [hmissing]
    decide

end Carrot.Resolution
