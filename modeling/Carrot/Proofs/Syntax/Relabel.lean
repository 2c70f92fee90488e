import Carrot.Syntax

/-! # Trees up to positions or bindings

A tree whose identifiers and positions are all changed in the same way. Two trees
that agree after such a change differ at most in what it forgets: the positions, or
the bindings that resolution notes.
-/

namespace Carrot

/-- A change of identifiers, and of the positions of literals. -/
structure Relabelling where
  ident : Ident → Ident
  position : Position → Position

namespace Relabelling

/-- Forgets all positions. -/
def unplaced : Relabelling := ⟨fun x => { x with position := .start }, fun _ => .start⟩

@[simp] theorem unplaced_position (p : Position) : unplaced.position p = .start := rfl

/-- Forgets all bindings. -/
def unbound : Relabelling := ⟨fun x => { x with binding := none }, id⟩

end Relabelling

section

variable (r : Relabelling)

def Ident.relabel (x : Ident) : Ident := r.ident x

mutual

def Expr.relabel : Expr → Expr
  | .int v p => .int v (r.position p)
  | .str t p => .str t (r.position p)
  | .bool b p => .bool b (r.position p)
  | .ident x => .ident (x.relabel r)
  | .dot e x => .dot e.relabel (x.relabel r)
  | .assign t v => .assign t.relabel v.relabel
  | .call f args => .call (f.relabel r) (Expr.listRelabel args)
  | .unary op e => .unary op e.relabel
  | .binary op a b => .binary op a.relabel b.relabel

def Expr.listRelabel : List Expr → List Expr
  | [] => []
  | e :: es => e.relabel :: Expr.listRelabel es

end

def TypeExpr.relabel : TypeExpr → TypeExpr
  | .struct tag => .struct (tag.relabel r)
  | t => t

def VarDecl.relabel (d : VarDecl) : VarDecl := ⟨d.type.relabel r, d.name.relabel r, d.size⟩

mutual

def Stmt.relabel : Stmt → Stmt
  | .assign t v => .assign (t.relabel r) (v.relabel r)
  | .increment p => .increment (p.relabel r)
  | .decrement p => .decrement (p.relabel r)
  | .read p => .read (p.relabel r)
  | .write v => .write (v.relabel r)
  | .ifThen c ds ss => .ifThen (c.relabel r) (ds.map (·.relabel r)) (Stmt.listRelabel ss)
  | .ifElse c ds ss eds ess =>
    .ifElse (c.relabel r) (ds.map (·.relabel r)) (Stmt.listRelabel ss)
      (eds.map (·.relabel r)) (Stmt.listRelabel ess)
  | .whileLoop c ds ss => .whileLoop (c.relabel r) (ds.map (·.relabel r)) (Stmt.listRelabel ss)
  | .repeatLoop c ds ss => .repeatLoop (c.relabel r) (ds.map (·.relabel r)) (Stmt.listRelabel ss)
  | .call f args => .call (f.relabel r) (Expr.listRelabel r args)
  | .ret none => .ret none
  | .ret (some v) => .ret (some (v.relabel r))

def Stmt.listRelabel : List Stmt → List Stmt
  | [] => []
  | s :: ss => s.relabel :: Stmt.listRelabel ss

end

def FnBody.relabel (b : FnBody) : FnBody :=
  ⟨b.decls.map (·.relabel r), Stmt.listRelabel r b.stmts⟩

def Formal.relabel (f : Formal) : Formal := ⟨f.type.relabel r, f.name.relabel r⟩

def FnDecl.relabel (d : FnDecl) : FnDecl :=
  ⟨d.returnType.relabel r, d.name.relabel r, d.formals.map (·.relabel r), d.body.relabel r⟩

def StructDecl.relabel (d : StructDecl) : StructDecl :=
  ⟨d.name.relabel r, d.fields.map (·.relabel r)⟩

def Decl.relabel : Decl → Decl
  | .var d => .var (d.relabel r)
  | .func d => .func (d.relabel r)
  | .struct d => .struct (d.relabel r)

def Program.relabel (p : Program) : Program := { p with decls := p.decls.map (·.relabel r) }

end

theorem VarDecl.relabel_ofType (r : Relabelling) (ty : TypeExpr) (x : Ident) :
    (VarDecl.ofType ty x).relabel r = .ofType (ty.relabel r) (x.relabel r) := by
  cases ty <;> rfl

end Carrot
