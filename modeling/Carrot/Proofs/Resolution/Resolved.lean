import Carrot.Proofs.Parsing.WellFormed

/-! # Fully resolved trees

A tree is resolved if a binding is noted on each name of it that can have one. Only
the types of formals and functions never have one, nor does a local that repeats a
formal of its function.
-/

namespace Carrot

/-! ### Expressions -/

namespace Binding

/-- A struct instance. -/
def IsInstance (b : Binding) : Prop := ∃ decl, b.role = .instanceOf decl

def IsStruct (b : Binding) : Prop := ∃ name id, b.role = .structDecl name id

end Binding

def Ident.IsSet (x : Ident) : Prop := x.binding.isSome

/-- The identifier that names the value of a place: itself, or its last field. -/
def Expr.lastName? : Expr → Option Ident
  | .ident x | .dot _ x => some x
  | _ => none

/-- The last identifier of a place is bound to a struct instance. -/
def Expr.NamesInstance (e : Expr) : Prop :=
  ∃ x b, e.lastName? = some x ∧ x.binding = some b ∧ b.IsInstance

mutual

def Expr.IsResolved : Expr → Prop
  | .int _ _ | .str _ _ | .bool _ _ => True
  | .ident x => x.IsSet
  | .dot e x => e.IsResolved ∧ e.NamesInstance ∧ x.IsSet
  | .assign t v => t.IsResolved ∧ v.IsResolved
  | .call f args => f.IsSet ∧ Expr.ListResolved args
  | .unary _ e => e.IsResolved
  | .binary _ l r => l.IsResolved ∧ r.IsResolved

def Expr.ListResolved : List Expr → Prop
  | [] => True
  | e :: es => e.IsResolved ∧ Expr.ListResolved es

end

/-- The name of a struct type has no binding. -/
def TypeExpr.IsUnset (t : TypeExpr) : Prop := ∀ tag, t = .struct tag → tag.binding = none

structure VarDecl.IsResolved (d : VarDecl) : Prop where
  name : d.name.IsSet
  tag : ∀ tag, d.type = .struct tag → ∃ b, tag.binding = some b ∧ b.IsStruct

/-- A declaration that has been passed over. -/
structure VarDecl.IsUnset (d : VarDecl) : Prop where
  name : d.name.binding = none
  type : d.type.IsUnset

theorem TypeExpr.WellFormed.isUnset {t : TypeExpr} (h : t.WellFormed) : t.IsUnset := by
  intro tag htag
  rw [htag] at h
  exact h.binding_eq_none

theorem VarDecl.WellFormed.isUnset {d : VarDecl} (h : d.WellFormed) : d.IsUnset :=
  ⟨h.name.binding_eq_none, h.type.isUnset⟩

mutual

def Stmt.IsResolved : Stmt → Prop
  | .assign t v => t.IsResolved ∧ v.IsResolved
  | .increment p | .decrement p | .read p | .write p => p.IsResolved
  | .ifThen c ds ss | .whileLoop c ds ss | .repeatLoop c ds ss =>
    c.IsResolved ∧ (∀ d ∈ ds, d.IsResolved) ∧ Stmt.ListResolved ss
  | .ifElse c ds ss eds ess =>
    (c.IsResolved ∧ (∀ d ∈ ds, d.IsResolved) ∧ Stmt.ListResolved ss) ∧
      (∀ d ∈ eds, d.IsResolved) ∧ Stmt.ListResolved ess
  | .call f args => f.IsSet ∧ Expr.ListResolved args
  | .ret none => True
  | .ret (some v) => v.IsResolved

def Stmt.ListResolved : List Stmt → Prop
  | [] => True
  | s :: ss => s.IsResolved ∧ Stmt.ListResolved ss

end

def Formal.names (fs : List Formal) : List String := fs.map (·.name.name)

/-- A function whose formals and outermost locals have bindings, apart from the types of the
formals and from the locals that repeat a formal. -/
structure FnDecl.IsResolved (d : FnDecl) : Prop where
  name : d.name.IsSet
  returnType : d.returnType.IsUnset
  formals : ∀ f ∈ d.formals, f.name.IsSet ∧ f.type.IsUnset
  repeated : ∀ v ∈ d.body.decls, v.name.name ∈ Formal.names d.formals → v.IsUnset
  decls : ∀ v ∈ d.body.decls, v.name.name ∉ Formal.names d.formals → v.IsResolved
  stmts : Stmt.ListResolved d.body.stmts

structure StructDecl.IsResolved (d : StructDecl) : Prop where
  name : d.name.IsSet
  fields : ∀ v ∈ d.fields, v.IsResolved

def Decl.IsResolved : Decl → Prop
  | .var d => d.IsResolved
  | .func d => d.IsResolved
  | .struct d => d.IsResolved

def Program.IsResolved (p : Program) : Prop := ∀ d ∈ p.decls, d.IsResolved

end Carrot
