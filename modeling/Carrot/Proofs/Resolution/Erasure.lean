import Carrot.Proofs.Resolution.Faultless
import Carrot.Proofs.Syntax.Relabel

/-! # Resolution fills in bindings only

Whatever is in scope and whatever is found, the tree behind resolution is the tree
before it in everything but the bindings of its identifiers.
-/

namespace Carrot

@[simp] theorem Ident.relabel_unbound (x : Ident) (b : Option Binding) :
    ({ x with binding := b } : Ident).relabel .unbound = x.relabel .unbound := rfl

/-! ### Expressions -/

namespace Names

theorem ident_unbound (n : Names) (x : Ident) :
    (n.ident x).node.relabel .unbound = x.relabel .unbound := by
  unfold ident
  split <;> rfl

theorem field_unbound (n : Names) (h : Hint) (x : Ident) :
    (n.field h x).node.relabel .unbound = x.relabel .unbound := by
  fun_cases field n h x <;> rfl

mutual

/-- Forgetting the bindings of what resolution returns leaves what it was given without bindings. -/
theorem expr_unbound (n : Names) : ∀ e : Expr,
    (n.expr e).node.relabel .unbound = e.relabel .unbound
  | .int _ _ | .str _ _ | .bool _ _ => by rw [expr, Resolved.silent]
  | .ident x => by simp only [expr, Expr.relabel, ident_unbound]
  | .dot e x => by simp only [expr, Expr.relabel, expr_unbound n e, field_unbound]
  | .assign t v => by
    simp only [expr, Resolved.both, Expr.relabel, expr_unbound n t, expr_unbound n v]
  | .call f args => by
    simp only [expr, Resolved.both, Expr.relabel, ident_unbound, exprs_unbound n args]
  | .unary op e => by simp only [expr, Resolved.wrap, Expr.relabel, expr_unbound n e]
  | .binary op l r => by
    simp only [expr, Resolved.both, Expr.relabel, expr_unbound n l, expr_unbound n r]

theorem exprs_unbound (n : Names) : ∀ es : List Expr,
    Expr.listRelabel .unbound (n.exprs es).node = Expr.listRelabel .unbound es
  | [] => by rw [exprs, Resolved.silent]
  | e :: es => by
    simp only [exprs, Resolved.both, Expr.listRelabel, expr_unbound n e, exprs_unbound n es]

end

end Names

/-! ### Declarations -/

namespace Context

theorem declareVar_unbound (c : Context) (d : VarDecl) :
    (c.declareVar d).node.relabel .unbound = d.relabel .unbound := by
  fun_cases declareVar c d <;> simp_all [VarDecl.relabel, TypeExpr.relabel]

theorem varDecl_unbound (c : Context) (d : VarDecl) :
    (c.varDecl d).node.relabel .unbound = d.relabel .unbound := by
  fun_cases varDecl c d
  · rfl
  · rfl
  · exact declareVar_unbound c d

theorem formal_unbound (c : Context) (f : Formal) :
    (c.formal f).node.relabel .unbound = f.relabel .unbound := by
  fun_cases formal c f <;> rfl

/-- What holds of each part of a list holds of the list, whatever is in scope at a part. -/
theorem all_unbound {α : Type} {f : Context → α → Outcome α} {forget : α → α}
    (hf : ∀ c x, forget (f c x).node = forget x) (c : Context) (xs : List α) :
    (all f c xs).node.map forget = xs.map forget := by
  induction xs generalizing c with
  | nil => rfl
  | cons x xs ih => simp only [all, List.map_cons, hf, ih]

theorem varDecls_unbound (c : Context) (ds : List VarDecl) :
    (c.varDecls ds).node.map (·.relabel .unbound) = ds.map (·.relabel .unbound) :=
  all_unbound varDecl_unbound c ds

theorem formals_unbound (c : Context) (fs : List Formal) :
    (c.formals fs).node.map (·.relabel .unbound) = fs.map (·.relabel .unbound) :=
  all_unbound formal_unbound c fs

mutual

/-- As for expressions; the context is that in front of the statement, since blocks change it. -/
theorem stmt_unbound (c : Context) : ∀ s : Stmt,
    (c.stmt s).node.relabel .unbound = s.relabel .unbound
  | .assign _ _ | .increment _ | .decrement _ | .read _ | .write _ | .call _ _ | .ret (some _) => by
    simp only [stmt, Resolved.both, Resolved.wrap, Stmt.relabel, Names.expr_unbound,
      Names.exprs_unbound, Names.ident_unbound]
  | .ret none => by rw [stmt, Resolved.silent]
  | .ifThen _ _ ss | .whileLoop _ _ ss | .repeatLoop _ _ ss => by
    simp only [stmt, Resolved.both, Outcome.body, Stmt.relabel, Names.expr_unbound,
      varDecls_unbound, stmts_unbound _ ss]
  | .ifElse _ _ ss _ ess => by
    simp only [stmt, Resolved.both, Outcome.body, Stmt.relabel, Names.expr_unbound,
      varDecls_unbound, stmts_unbound _ ss, stmts_unbound _ ess]

theorem stmts_unbound (c : Context) : ∀ ss : List Stmt,
    Stmt.listRelabel .unbound (c.stmts ss).node = Stmt.listRelabel .unbound ss
  | [] => by rw [stmts, Resolved.silent]
  | s :: ss => by
    simp only [stmts, Resolved.both, Stmt.listRelabel, stmt_unbound _ s, stmts_unbound _ ss]

end

theorem fnName_unbound (c : Context) (d : FnDecl) :
    (c.fnName d).node.relabel .unbound = d.name.relabel .unbound := by
  fun_cases fnName c d <;> rfl

theorem decl_unbound (c : Context) (d : Decl) :
    (c.decl d).node.relabel .unbound = d.relabel .unbound := by
  cases d with
  | var d => exact congrArg Decl.var (varDecl_unbound c d)
  | func d =>
    simp only [decl, fnDecl, body, Outcome.body, Decl.relabel, FnDecl.relabel, FnBody.relabel,
      fnName_unbound, formals_unbound, varDecls_unbound, stmts_unbound]
  | struct d =>
    simp only [decl, Decl.relabel]
    fun_cases structDecl c d with
    | case1 => rfl
    | case2 _ fs => simp only [StructDecl.relabel, Ident.relabel_unbound, fs, varDecls_unbound]

end Context

/-- Resolution returns the same program with bindings noted on it. -/
theorem Resolution.program_unbound (p : Program) (fields : StructFields) (hp : Named p.declared) :
    (ofProgram p fields).program.relabel .unbound = p.relabel .unbound := by
  rw [ofProgram_eq p fields hp]
  simp only [Program.relabel, Context.decls, Context.all_unbound Context.decl_unbound]

end Carrot
