import Carrot.Proofs.Resolution.Context

/-! # Sessions without a fault

Where all declared names are not empty, a session never meets a fault, and every
visitor notes and finds what the scopes and struct fields alone determine. The
session behind it has the scopes that the declaration hands on, the log with the
findings behind it, and a mark if there was one or something was found.
-/

namespace Carrot

/-! ### Declared names -/

mutual

/-- The names that the declarations in a statement declare. -/
def Stmt.declared : Stmt → List Ident
  | .ifThen _ ds ss | .whileLoop _ ds ss | .repeatLoop _ ds ss =>
    ds.map (·.name) ++ Stmt.listDeclared ss
  | .ifElse _ ds ss eds ess =>
    ds.map (·.name) ++ Stmt.listDeclared ss ++ (eds.map (·.name) ++ Stmt.listDeclared ess)
  | _ => []

def Stmt.listDeclared : List Stmt → List Ident
  | [] => []
  | s :: ss => s.declared ++ Stmt.listDeclared ss

end

def FnBody.declared (b : FnBody) : List Ident := b.decls.map (·.name) ++ Stmt.listDeclared b.stmts

def FnDecl.declared (d : FnDecl) : List Ident :=
  d.name :: (d.formals.map (·.name) ++ d.body.declared)

def StructDecl.declared (d : StructDecl) : List Ident := d.name :: d.fields.map (·.name)

def Decl.declared : Decl → List Ident
  | .var d => [d.name]
  | .func d => d.declared
  | .struct d => d.declared

/-- All names that a program declares, in the order of the text. -/
def Program.declared (p : Program) : List Ident := p.decls.flatMap Decl.declared

/-- No name among these is empty. -/
def Named (xs : List Ident) : Prop := ∀ x ∈ xs, x.name ≠ ""

@[simp] theorem named_nil : Named [] := by simp [Named]

@[simp] theorem named_cons {x : Ident} {xs : List Ident} :
    Named (x :: xs) ↔ x.name ≠ "" ∧ Named xs := List.forall_mem_cons

@[simp] theorem named_append {xs ys : List Ident} : Named (xs ++ ys) ↔ Named xs ∧ Named ys :=
  List.forall_mem_append

/-! ### Findings -/

namespace Session

/-- The session without a fault that has `c` in scope. -/
def ofContext (c : Context) (marked : Bool) (log : List Diagnostic) : Session :=
  ⟨⟨c.scopes, marked⟩, c.fields, log, none⟩

theorem marked_append (m : Bool) (ds es : List Diagnostic) :
    (m || !ds.isEmpty || !es.isEmpty) = (m || !(ds ++ es).isEmpty) := by
  cases ds <;> simp

theorem report_ofContext (c : Context) (m : Bool) (log ds : List Diagnostic) :
    (ofContext c m log).report ds = ofContext c (m || !ds.isEmpty) (log ++ ds) := by
  cases ds <;> simp [report, ofContext, SymbolTable.mark]

theorem error_ofContext (c : Context) (m : Bool) (log : List Diagnostic) (p : Position)
    (e : Code) : (ofContext c m log).error p e = ofContext c true (log ++ [.error p e]) := by
  simp [error, report_ofContext]

theorem run_ofContext {α : Type} (c : Context) (m : Bool) (log : List Diagnostic) (x : α)
    (f : α → Session → α × Session) :
    (ofContext c m log).run x f = f x (ofContext c m log) := rfl

theorem push_ofContext (c : Context) (m : Bool) (log : List Diagnostic) :
    (ofContext c m log).push = ofContext c.enter m log := rfl

theorem pop_ofContext {c d : Context} (m : Bool) (log : List Diagnostic)
    (ho : d.outer = c.scopes) (hf : d.fields = c.fields) :
    (ofContext d m log).pop = ofContext c m log := by
  simp [pop, ofContext, SymbolTable.pop, Context.scopes] at *
  exact ⟨ho, hf⟩

theorem lookupLocal_ofContext (c : Context) (m : Bool) (log : List Diagnostic) (name : String) :
    (ofContext c m log).table.lookupLocal name = c.front.lookup name := rfl

theorem lookupGlobal_ofContext (c : Context) (m : Bool) (log : List Diagnostic)
    (name : String) : (ofContext c m log).table.lookupGlobal name = c.find name := rfl

/-- A free name that is not empty can be bound. -/
theorem declare_ofContext {c : Context} {x : Ident} (m : Bool) (log : List Diagnostic)
    (b : Binding) (hx : x.name ≠ "") (hfree : c.front.lookup x.name = none) :
    (ofContext c m log).declare x b =
      ({ x with binding := some b }, ofContext (c.bind x.name b) m log) := by
  simp [declare, ofContext, SymbolTable.add, Context.scopes, Context.bind, Option.filter, hx,
    hfree]

end Session

/-- What was resolved in `c`, and the session behind it. -/
def Resolved.session {α : Type} (r : Resolved α) (c : Context) (marked : Bool)
    (log : List Diagnostic) : α × Session :=
  (r.node, .ofContext c (marked || !r.found.isEmpty) (log ++ r.found))

/-- What was declared, and the session behind it. -/
def Outcome.session {α : Type} (o : Outcome α) (marked : Bool) (log : List Diagnostic) :
    α × Session :=
  (o.node, .ofContext o.context (marked || !o.found.isEmpty) (log ++ o.found))

/-! ### Expressions -/

namespace Names

variable {n k : Names}

theorem structOf?_congr (ht : n.table.scopes = k.table.scopes) (label : String)
    (decl : Option StructRef) : n.structOf? label decl = k.structOf? label decl := by
  simp only [structOf?, SymbolTable.lookupGlobal, ht]

theorem ident_congr (ht : n.table.scopes = k.table.scopes) (x : Ident) :
    n.ident x = k.ident x := by
  simp only [ident, SymbolTable.lookupGlobal, ht]

theorem field_congr (ht : n.table.scopes = k.table.scopes) (hf : n.fields = k.fields)
    (h : Hint) (x : Ident) : n.field h x = k.field h x := by
  cases h <;> simp only [field, structOf?_congr ht, hf]

mutual

/-- The mark of the table has no part in what an expression stands for. -/
theorem expr_congr (ht : n.table.scopes = k.table.scopes) (hf : n.fields = k.fields) :
    ∀ e : Expr, n.expr e = k.expr e
  | .int _ _ | .str _ _ | .bool _ _ => by simp only [expr]
  | .ident x => by simp only [expr, ident_congr ht]
  | .dot e x => by simp only [expr, expr_congr ht hf e, field_congr ht hf]
  | .assign t v => by simp only [expr, expr_congr ht hf t, expr_congr ht hf v]
  | .call f args => by simp only [expr, ident_congr ht, exprs_congr ht hf args]
  | .unary _ e => by simp only [expr, expr_congr ht hf e]
  | .binary _ l r => by simp only [expr, expr_congr ht hf l, expr_congr ht hf r]

theorem exprs_congr (ht : n.table.scopes = k.table.scopes) (hf : n.fields = k.fields) :
    ∀ es : List Expr, n.exprs es = k.exprs es
  | [] => by simp only [exprs]
  | e :: es => by simp only [exprs, expr_congr ht hf e, exprs_congr ht hf es]

end

end Names

namespace Session

theorem expr_ofContext (c : Context) (m : Bool) (log : List Diagnostic) (e : Expr) :
    (ofContext c m log).expr e = (c.names.expr e).session c m log := by
  have h := Names.expr_congr (n := (ofContext c m log).names) (k := c.names) rfl rfl e
  simp [expr, run_ofContext, report_ofContext, h, Resolved.session]

theorem exprs_ofContext (c : Context) (m : Bool) (log : List Diagnostic) (es : List Expr) :
    (ofContext c m log).exprs es = (c.names.exprs es).session c m log := by
  have h := Names.exprs_congr (n := (ofContext c m log).names) (k := c.names) rfl rfl es
  simp [exprs, run_ofContext, report_ofContext, h, Resolved.session]

theorem ident_ofContext (c : Context) (m : Bool) (log : List Diagnostic) (x : Ident) :
    (ofContext c m log).ident x = (c.names.ident x).session c m log := by
  have h := Names.ident_congr (n := (ofContext c m log).names) (k := c.names) rfl x
  simp [ident, run_ofContext, report_ofContext, h, Resolved.session]

end Session

/-! ### Declarations of variables and formals -/

namespace Session

theorem declareVar_ofContext {c : Context} {d : VarDecl} (m : Bool) (log : List Diagnostic)
    (hd : d.name.name ≠ "") (hfree : c.front.lookup d.name.name = none) :
    (ofContext c m log).declareVar d = (c.declareVar d).session m log := by
  cases ht : d.type with
  | struct tag =>
    simp only [declareVar, Context.declareVar, ht, lookupGlobal_ofContext]
    cases hb : c.find tag.name with
    | none => simp [Outcome.session, error_ofContext]
    | some b =>
      cases hr : b.structRef? with
      | none => simp [Outcome.session, error_ofContext, hr]
      | some ref => simp [Outcome.session, declare_ofContext _ _ _ hd hfree, hr]
  | int | bool | void =>
    simp [declareVar, Context.declareVar, ht, declare_ofContext _ _ _ hd hfree, Outcome.session]

theorem varDecl_ofContext (c : Context) (d : VarDecl) (m : Bool) (log : List Diagnostic)
    (hd : d.name.name ≠ "") :
    (ofContext c m log).varDecl d = (c.varDecl d).session m log := by
  simp only [varDecl, run_ofContext, Context.varDecl, lookupLocal_ofContext]
  by_cases hv : d.type = .void
  · simp [hv, error_ofContext, Outcome.session]
  · simp only [hv, if_false]
    cases hl : c.front.lookup d.name.name with
    | none => exact declareVar_ofContext m log hd hl
    | some b => cases hb : b.isFormal <;> simp [hb, error_ofContext, Outcome.session]

theorem formal_ofContext (c : Context) (f : Formal) (m : Bool) (log : List Diagnostic)
    (hf : f.name.name ≠ "") :
    (ofContext c m log).formal f = (c.formal f).session m log := by
  simp only [formal, run_ofContext, Context.formal, lookupLocal_ofContext]
  by_cases hv : f.type = .void
  · simp [hv, error_ofContext, Outcome.session]
  · simp only [hv, if_false]
    by_cases hl : (c.front.lookup f.name.name).isSome
    · simp [hl, error_ofContext, Outcome.session]
    · have hfree : c.front.lookup f.name.name = none := Option.not_isSome_iff_eq_none.1 hl
      simp [hfree, declare_ofContext _ _ _ hf hfree, Outcome.session]

/-- A list is resolved without a fault if each of its parts is. -/
theorem all_ofContext {α : Type} {f : Session → α → α × Session} {g : Context → α → Outcome α}
    {P : α → Prop} (hfg : ∀ c x m log, P x → f (ofContext c m log) x = (g c x).session m log)
    (c : Context) (xs : List α) (m : Bool) (log : List Diagnostic) (hxs : ∀ x ∈ xs, P x) :
    all f (ofContext c m log) xs = (Context.all g c xs).session m log := by
  induction xs generalizing c m log with
  | nil => simp [all, Context.all, Outcome.session]
  | cons x xs ih =>
    rw [List.forall_mem_cons] at hxs
    simp only [all, Context.all, hfg c x m log hxs.1, Outcome.session, ih _ _ _ hxs.2]
    simp only [marked_append, List.append_assoc]

theorem varDecls_ofContext (c : Context) (ds : List VarDecl) (m : Bool) (log : List Diagnostic)
    (hds : Named (ds.map (·.name))) :
    all varDecl (ofContext c m log) ds = (c.varDecls ds).session m log :=
  all_ofContext varDecl_ofContext c ds m log (by simpa [Named] using hds)

theorem formals_ofContext (c : Context) (fs : List Formal) (m : Bool) (log : List Diagnostic)
    (hfs : Named (fs.map (·.name))) :
    all formal (ofContext c m log) fs = (c.formals fs).session m log :=
  all_ofContext formal_ofContext c fs m log (by simpa [Named] using hfs)

end Session

/-! ### What declarations leave as it was -/

namespace Context

/-- What each part of a list preserves, the list preserves. -/
theorem all_preserves {α : Type} {f : Context → α → Outcome α} {I : Context → Prop}
    (hf : ∀ {c}, I c → ∀ x, I (f c x).context) {c : Context} (h : I c) (xs : List α) :
    I (all f c xs).context := by
  induction xs generalizing c with
  | nil => exact h
  | cons x xs ih => exact ih (hf h x)

/-- The context differs from `c` in its innermost scope at most. -/
structure Extends (d c : Context) : Prop where
  outer : d.outer = c.outer
  fields : d.fields = c.fields

namespace Extends

theorem refl (c : Context) : c.Extends c := ⟨rfl, rfl⟩

theorem trans {a b c : Context} (h : a.Extends b) (k : b.Extends c) : a.Extends c :=
  ⟨h.outer.trans k.outer, h.fields.trans k.fields⟩

theorem bind (c : Context) (name : String) (b : Binding) : (c.bind name b).Extends c := ⟨rfl, rfl⟩

end Extends

theorem varDecl_extends (c : Context) (d : VarDecl) : (c.varDecl d).context.Extends c := by
  fun_cases varDecl c d
  · exact .refl c
  · exact .refl c
  · fun_cases declareVar c d
    · exact .refl c
    · exact .refl c
    · exact .bind c _ _
    · exact .bind c _ _

theorem formal_extends (c : Context) (f : Formal) : (c.formal f).context.Extends c := by
  fun_cases formal c f
  · exact .refl c
  · exact .refl c
  · exact .bind c _ _

theorem all_extends {α : Type} {f : Context → α → Outcome α}
    (hf : ∀ c x, (f c x).context.Extends c) (c : Context) (xs : List α) :
    (all f c xs).context.Extends c := by
  induction xs generalizing c with
  | nil => exact .refl c
  | cons x xs ih => exact (ih _).trans (hf c x)

theorem varDecls_extends (c : Context) (ds : List VarDecl) :
    (c.varDecls ds).context.Extends c := all_extends varDecl_extends c ds

theorem formals_extends (c : Context) (fs : List Formal) :
    (c.formals fs).context.Extends c := all_extends formal_extends c fs

end Context
/-! ### Statements -/

namespace Session

/-- Closing the scope of a block gives back what was in scope before it. -/
theorem pop_varDecls (c : Context) (ds : List VarDecl) (m : Bool) (log : List Diagnostic) :
    (ofContext (c.enter.varDecls ds).context m log).pop = ofContext c m log :=
  pop_ofContext m log (c.enter.varDecls_extends ds).outer (c.enter.varDecls_extends ds).fields

mutual

theorem stmt_ofContext (c : Context) (m : Bool) (log : List Diagnostic) :
    ∀ t : Stmt, Named t.declared → (ofContext c m log).stmt t = (c.stmt t).session c m log
  | .assign _ _, _ | .increment _, _ | .decrement _, _ | .read _, _ | .write _, _ | .call _ _, _
  | .ret (some _), _ => by
    simp only [stmt, Context.stmt, expr_ofContext, exprs_ofContext, ident_ofContext,
      Resolved.session, Resolved.both, Resolved.wrap, marked_append, List.append_assoc]
  | .ret none, _ => by simp [stmt, Context.stmt, Resolved.session, Resolved.silent]
  | .ifThen _ ds ss, h | .whileLoop _ ds ss, h | .repeatLoop _ ds ss, h => by
    obtain ⟨hds, hss⟩ := named_append.1 h
    simp only [stmt, Context.stmt, expr_ofContext, push_ofContext, Resolved.session,
      Outcome.session, varDecls_ofContext _ _ _ _ hds, stmts_ofContext _ _ _ ss hss,
      pop_varDecls, Resolved.both, Outcome.body, marked_append, List.append_assoc]
  | .ifElse _ ds ss eds ess, h => by
    obtain ⟨hthen, helse⟩ := named_append.1 h
    obtain ⟨hds, hss⟩ := named_append.1 hthen
    obtain ⟨heds, hess⟩ := named_append.1 helse
    simp only [stmt, Context.stmt, expr_ofContext, push_ofContext, Resolved.session,
      Outcome.session, varDecls_ofContext _ _ _ _ hds, stmts_ofContext _ _ _ ss hss,
      varDecls_ofContext _ _ _ _ heds, stmts_ofContext _ _ _ ess hess,
      pop_varDecls, Resolved.both, Outcome.body, marked_append, List.append_assoc]

theorem stmts_ofContext (c : Context) (m : Bool) (log : List Diagnostic) :
    ∀ ss : List Stmt, Named (Stmt.listDeclared ss) →
      (ofContext c m log).stmts ss = (c.stmts ss).session c m log
  | [], _ => by simp [stmts, Context.stmts, Resolved.session, Resolved.silent]
  | s :: ss, h => by
    obtain ⟨hs, hss⟩ := named_append.1 h
    simp only [stmts, Context.stmts, stmt_ofContext _ _ _ s hs, Resolved.session,
      stmts_ofContext _ _ _ ss hss, Resolved.both, marked_append, List.append_assoc]

end

/-! ### Functions and structs -/

theorem body_ofContext (c : Context) (b : FnBody) (m : Bool) (log : List Diagnostic)
    (hb : Named b.declared) :
    (ofContext c m log).body b = ((c.body b).node, ofContext (c.varDecls b.decls).context
      (m || !(c.body b).found.isEmpty) (log ++ (c.body b).found)) := by
  obtain ⟨hds, hss⟩ := named_append.1 hb
  simp only [body, Context.body, varDecls_ofContext _ _ _ _ hds, Outcome.session,
    stmts_ofContext _ _ _ _ hss, Resolved.session, Outcome.body, marked_append,
    List.append_assoc]

/-- Binds the name of a function, unless it is taken. -/
def fnName (s : Session) (d : FnDecl) : Ident × Session :=
  if (s.table.lookupLocal d.name.name).isSome then
    (d.name, s.error d.name.position .multiplyDeclared)
  else s.declare d.name (fnBinding d)

theorem fnDecl_eq (s : Session) (d : FnDecl) :
    s.fnDecl d = s.run d fun d s =>
      let (x, s) := s.fnName d
      let (fs, s) := all formal s.push d.formals
      let (b, s) := s.body d.body
      (⟨d.returnType, x, fs, b⟩, s.pop) := rfl

theorem fnName_ofContext (c : Context) (d : FnDecl) (m : Bool) (log : List Diagnostic)
    (hname : d.name.name ≠ "") :
    (ofContext c m log).fnName d = (c.fnName d).session m log := by
  rw [fnName, lookupLocal_ofContext, Context.fnName]
  by_cases hl : (c.front.lookup d.name.name).isSome
  · simp [hl, error_ofContext, Outcome.session]
  · have hfree : c.front.lookup d.name.name = none := Option.not_isSome_iff_eq_none.1 hl
    simp [hfree, declare_ofContext _ _ _ hname hfree, Outcome.session]

theorem fnDecl_ofContext (c : Context) (d : FnDecl) (m : Bool) (log : List Diagnostic)
    (hd : Named d.declared) : (ofContext c m log).fnDecl d = (c.fnDecl d).session m log := by
  obtain ⟨hname, hrest⟩ := named_cons.1 hd
  obtain ⟨hfs, hb⟩ := named_append.1 hrest
  have hscope := ((c.fnName d).context.enter.formals d.formals).context.varDecls_extends
    d.body.decls |>.trans ((c.fnName d).context.enter.formals_extends d.formals)
  simp only [fnDecl_eq, run_ofContext, fnName_ofContext _ _ _ _ hname, Outcome.session,
    push_ofContext, formals_ofContext _ _ _ _ hfs, body_ofContext _ _ _ _ hb,
    pop_ofContext _ _ hscope.outer hscope.fields, Context.fnDecl, marked_append,
    List.append_assoc]

end Session

namespace StructFields

theorem nextId_register (f : StructFields) (s : Scope Binding) :
    (f.register s).nextId = f.nextId + 1 := by
  simp [register, nextId]

@[simp] theorem table_register (f : StructFields) (s : Scope Binding) :
    (f.register s).table f.nextId = ⟨[s], false⟩ := by
  simp [table, register, nextId]

@[simp] theorem set_register (f : StructFields) (s t : Scope Binding) :
    (f.register s).set f.nextId ⟨[t], false⟩ = f.register t := by
  simp [set, register, nextId]

end StructFields

namespace Session

/-- Listing a field changes the table of its struct only. -/
theorem addField_ofContext (c : Context) (f : StructFields) (s : Scope Binding) (d : VarDecl)
    (m : Bool) (log : List Diagnostic) (hd : d.name.name ≠ "") :
    addField f.nextId (ofContext { c with fields := f.register s } m log) d =
      ofContext { c with fields := f.register (c.addField s d) } m log := by
  have hb : (ofContext { c with fields := f.register s } m log).fieldBinding? d =
      c.fieldBinding? d := rfl
  unfold addField Context.addField
  rw [hb]
  cases c.fieldBinding? d with
  | none => rfl
  | some b =>
    simp only [ofContext, Option.isSome_none, Bool.false_eq_true, if_false,
      StructFields.table_register, SymbolTable.addNew, SymbolTable.lookupLocal, List.head?_cons,
      Option.bind_some, Scope.insertNew]
    by_cases hl : (s.lookup d.name.name).isSome
    · simp only [hl, if_true, StructFields.set_register]
    · simp [hl, SymbolTable.add, Option.filter, hd, Context.scopes]

theorem addFields_ofContext (c : Context) (f : StructFields) (s : Scope Binding)
    (ds : List VarDecl) (m : Bool) (log : List Diagnostic) (hds : Named (ds.map (·.name))) :
    ds.foldl (addField f.nextId) (ofContext { c with fields := f.register s } m log) =
      ofContext { c with fields := f.register (ds.foldl c.addField s) } m log := by
  induction ds generalizing s with
  | nil => rfl
  | cons d ds ih =>
    obtain ⟨hd, hds⟩ := named_cons.1 hds
    rw [List.foldl_cons, addField_ofContext c f s d m log hd, ih _ hds, List.foldl_cons]

/-- A struct whose name is free is bound and its fields are listed. -/
theorem withStruct_ofContext {c : Context} {d : StructDecl} (m : Bool) (log : List Diagnostic)
    (hd : Named d.declared) (hfree : c.front.lookup d.name.name = none) :
    let s := ofContext c m log
    let t := { s with fields := s.fields.declare }
    let b := Binding.ofStruct d.name.name (some d.name.position) s.fields.nextId
    (t.declare d.name b).1 = { d.name with binding := some (c.structBinding d) } ∧
      d.fields.foldl (addField s.fields.nextId) (t.declare d.name b).2 =
        ofContext (c.withStruct d) m log := by
  obtain ⟨hname, hfs⟩ := named_cons.1 hd
  intro s t b
  let registered : Context := { c with fields := c.fields.register [] }
  have hdecl : t.declare d.name b = ({ d.name with binding := some b },
      ofContext (registered.bind d.name.name b) m log) :=
    declare_ofContext (c := registered) m log b hname hfree
  rw [hdecl]
  exact ⟨rfl, addFields_ofContext (c.bind d.name.name b) c.fields [] d.fields m log hfs⟩

theorem structDecl_ofContext (c : Context) (d : StructDecl) (m : Bool) (log : List Diagnostic)
    (hd : Named d.declared) :
    (ofContext c m log).structDecl d = (c.structDecl d).session m log := by
  obtain ⟨-, hfs⟩ := named_cons.1 hd
  simp only [structDecl, run_ofContext, Context.structDecl, lookupLocal_ofContext]
  by_cases hl : (c.front.lookup d.name.name).isSome
  · simp [hl, error_ofContext, Outcome.session]
  · have hfree : c.front.lookup d.name.name = none := Option.not_isSome_iff_eq_none.1 hl
    obtain ⟨hname, hlisted⟩ := withStruct_ofContext m log hd hfree
    simp only [hl, Bool.false_eq_true, if_false, hname, hlisted, push_ofContext, Outcome.session,
      varDecls_ofContext _ _ _ _ hfs, pop_varDecls]

theorem decl_ofContext (c : Context) (d : Decl) (m : Bool) (log : List Diagnostic)
    (hd : Named d.declared) : (ofContext c m log).decl d = (c.decl d).session m log := by
  cases d with
  | var d => simp only [decl, Context.decl, Outcome.session, varDecl_ofContext c d m log (by
      simpa [Decl.declared] using hd)]
  | func d => simp only [decl, Context.decl, Outcome.session, fnDecl_ofContext c d m log hd]
  | struct d => simp only [decl, Context.decl, Outcome.session, structDecl_ofContext c d m log hd]

theorem decls_ofContext (c : Context) (ds : List Decl) (m : Bool) (log : List Diagnostic)
    (hds : Named (ds.flatMap Decl.declared)) :
    all decl (ofContext c m log) ds = (c.decls ds).session m log :=
  all_ofContext decl_ofContext c ds m log
    fun d hd x hx => hds x (List.mem_flatMap.2 ⟨d, hd, hx⟩)

end Session

/-! ### Programs -/

namespace Resolution

/-- A whole run over a program whose declared names are not empty. -/
theorem ofProgram_eq (p : Program) (fields : StructFields) (hp : Named p.declared) :
    let o := (Context.initial fields).decls p.decls
    ofProgram p fields =
      ⟨⟨o.node, p.file⟩, .ofContext o.context (!o.found.isEmpty) o.found⟩ := by
  have h := Session.decls_ofContext (.initial fields) p.decls false [] hp
  simp only [Outcome.session, Bool.false_or, List.nil_append] at h
  have hnew : Session.new fields = .ofContext (.initial fields) false [] := rfl
  simp only [ofProgram, Session.program, hnew, h]

end Resolution

end Carrot
