import Carrot.Proofs.Resolution.Faultless

/-! # Only errors are found

Name resolution gives no warnings. So a run over a program ends without a mark on its table
exactly if its log holds no error, and then the log is empty.
-/

namespace Carrot

/-- All of these diagnostics are errors. -/
def OnlyErrors (ds : List Diagnostic) : Prop := ∀ d ∈ ds, d.isError

@[simp] theorem onlyErrors_nil : OnlyErrors [] := by simp [OnlyErrors]

@[simp] theorem onlyErrors_error (p : Position) (e : Code) : OnlyErrors [.error p e] := by
  simp [OnlyErrors, Diagnostic.error, Diagnostic.isError]

theorem OnlyErrors.append {ds es : List Diagnostic} (h : OnlyErrors ds) (k : OnlyErrors es) :
    OnlyErrors (ds ++ es) :=
  List.forall_mem_append.2 ⟨h, k⟩

/-- Among errors only, an error is there as soon as anything is. -/
theorem OnlyErrors.eq_nil_iff {ds : List Diagnostic} (h : OnlyErrors ds) :
    ds = [] ↔ ∀ d ∈ ds, d.isError = false := by
  constructor
  · rintro rfl
    simp
  · intro hnone
    refine List.eq_nil_iff_forall_not_mem.2 fun d hd => ?_
    have herror := h d hd
    rw [hnone d hd] at herror
    cases herror

namespace Names

variable (n : Names)

theorem onlyErrors_ident (x : Ident) : OnlyErrors (n.ident x).found := by
  fun_cases ident n x <;> simp

theorem onlyErrors_field (g : Hint) (x : Ident) : OnlyErrors (n.field g x).found := by
  fun_cases field n g x <;> simp [Resolved.silent]

mutual

theorem onlyErrors_expr : ∀ e : Expr, OnlyErrors (n.expr e).found
  | .int _ _ | .str _ _ | .bool _ _ => by
    rw [expr]
    exact onlyErrors_nil
  | .ident x => by
    rw [expr]
    exact onlyErrors_ident n x
  | .dot e x => by
    rw [expr]
    exact (onlyErrors_expr e).append (onlyErrors_field n _ x)
  | .assign t v => by
    rw [expr]
    exact (onlyErrors_expr t).append (onlyErrors_expr v)
  | .call f args => by
    rw [expr]
    exact (onlyErrors_ident n f).append (onlyErrors_exprs args)
  | .unary _ e => by
    rw [expr]
    exact onlyErrors_expr e
  | .binary _ l r => by
    rw [expr]
    exact (onlyErrors_expr l).append (onlyErrors_expr r)

theorem onlyErrors_exprs : ∀ es : List Expr, OnlyErrors (n.exprs es).found
  | [] => by
    rw [exprs]
    exact onlyErrors_nil
  | e :: es => by
    rw [exprs]
    exact (onlyErrors_expr e).append (onlyErrors_exprs es)

end

end Names

namespace Context

variable (c : Context)

theorem onlyErrors_declareVar (d : VarDecl) : OnlyErrors (c.declareVar d).found := by
  fun_cases declareVar c d <;> simp

theorem onlyErrors_varDecl (d : VarDecl) : OnlyErrors (c.varDecl d).found := by
  fun_cases varDecl c d with
  | case1 => exact onlyErrors_error _ _
  | case2 _ b =>
    dsimp only
    split <;> simp
  | case3 => exact onlyErrors_declareVar c d

theorem onlyErrors_formal (f : Formal) : OnlyErrors (c.formal f).found := by
  fun_cases formal c f <;> simp

/-- What reports errors only at each part of a list does so over the list. -/
theorem onlyErrors_all {α : Type} {f : Context → α → Outcome α}
    (h : ∀ c x, OnlyErrors (f c x).found) (c : Context) : ∀ xs, OnlyErrors (all f c xs).found
  | [] => onlyErrors_nil
  | x :: xs => (h c x).append (onlyErrors_all h _ xs)

theorem onlyErrors_varDecls (ds : List VarDecl) : OnlyErrors (c.varDecls ds).found :=
  onlyErrors_all onlyErrors_varDecl c ds

mutual

theorem onlyErrors_stmt (c : Context) : ∀ s : Stmt, OnlyErrors (c.stmt s).found
  | .assign t v => by
    rw [stmt]
    exact (Names.onlyErrors_expr _ t).append (Names.onlyErrors_expr _ v)
  | .increment p | .decrement p | .read p | .write p | .ret (some p) => by
    rw [stmt]
    exact Names.onlyErrors_expr _ p
  | .ret none => by
    rw [stmt]
    exact onlyErrors_nil
  | .ifThen e ds ss | .whileLoop e ds ss | .repeatLoop e ds ss => by
    rw [stmt]
    exact (Names.onlyErrors_expr _ e).append
      ((onlyErrors_varDecls _ ds).append (onlyErrors_stmts _ ss))
  | .ifElse e ds ss eds ess => by
    rw [stmt]
    exact ((Names.onlyErrors_expr _ e).append
      ((onlyErrors_varDecls _ ds).append (onlyErrors_stmts _ ss))).append
      ((onlyErrors_varDecls _ eds).append (onlyErrors_stmts _ ess))
  | .call f args => by
    rw [stmt]
    exact (Names.onlyErrors_ident _ f).append (Names.onlyErrors_exprs _ args)

theorem onlyErrors_stmts (c : Context) : ∀ ss : List Stmt, OnlyErrors (c.stmts ss).found
  | [] => by
    rw [stmts]
    exact onlyErrors_nil
  | s :: ss => by
    rw [stmts]
    exact (onlyErrors_stmt c s).append (onlyErrors_stmts c ss)

end

theorem onlyErrors_fnDecl (d : FnDecl) : OnlyErrors (c.fnDecl d).found := by
  have hname : OnlyErrors (c.fnName d).found := by
    fun_cases fnName c d <;> simp
  have hformals := onlyErrors_all onlyErrors_formal (c.fnName d).context.enter d.formals
  exact (hname.append hformals).append ((onlyErrors_varDecls _ _).append (onlyErrors_stmts _ _))

theorem onlyErrors_structDecl (d : StructDecl) : OnlyErrors (c.structDecl d).found := by
  fun_cases structDecl c d with
  | case1 => exact onlyErrors_error _ _
  | case2 => exact onlyErrors_varDecls _ _

theorem onlyErrors_decl (c : Context) (d : Decl) : OnlyErrors (c.decl d).found := by
  cases d with
  | var d => exact onlyErrors_varDecl c d
  | func d => exact onlyErrors_fnDecl c d
  | struct d => exact onlyErrors_structDecl c d

end Context

namespace Resolution

variable {p : Program} (fields : StructFields) (hp : Named p.declared)

include hp

theorem onlyErrors_diagnostics : OnlyErrors (ofProgram p fields).diagnostics := by
  rw [ofProgram_eq p fields hp]
  exact Context.onlyErrors_all Context.onlyErrors_decl _ _

/-- A program whose declared names are not empty is resolved to its end. -/
theorem fault_ofProgram : (ofProgram p fields).session.fault = none := by
  rw [ofProgram_eq p fields hp]
  rfl

/-- The mark on the table and the diagnostics agree on whether there was an error. -/
theorem ok_iff :
    (ofProgram p fields).ok ↔ ∀ d ∈ (ofProgram p fields).diagnostics, d.isError = false := by
  rw [← (onlyErrors_diagnostics fields hp).eq_nil_iff, ofProgram_eq p fields hp]
  simp [ok, diagnostics, Session.ofContext]

end Resolution

end Carrot
