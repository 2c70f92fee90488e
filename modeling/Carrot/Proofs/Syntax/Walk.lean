import Carrot.Syntax

/-! # Walking a tree

The identifiers and literals of a tree, in the order in which they are met when the
parts of every node are taken from first to last. Where a leaf stands in a text is
left to its position.
-/

namespace Carrot

/-- A node without parts. -/
inductive Leaf where
  | ident (x : Ident)
  | int (value : Int) (position : Position)
  | str (text : String) (position : Position)
  | bool (value : Bool) (position : Position)
  deriving DecidableEq, Repr

namespace Leaf

def position : Leaf → Position
  | .ident x => x.position
  | .int _ p | .str _ p | .bool _ p => p

def ident? : Leaf → Option Ident
  | .ident x => some x
  | _ => none

end Leaf

mutual

/-- The leaves of an expression in the order of the text; operators leave none. -/
def Expr.leaves : Expr → List Leaf
  | .int v p => [.int v p]
  | .str t p => [.str t p]
  | .bool b p => [.bool b p]
  | .ident x => [.ident x]
  | .dot e x => e.leaves ++ [.ident x]
  | .assign t v => t.leaves ++ v.leaves
  | .call f args => [.ident f] ++ Expr.listLeaves args
  | .unary _ e => e.leaves
  | .binary _ l r => l.leaves ++ r.leaves

def Expr.listLeaves : List Expr → List Leaf
  | [] => []
  | e :: es => e.leaves ++ Expr.listLeaves es

end

def TypeExpr.leaves : TypeExpr → List Leaf
  | .struct tag => [.ident tag]
  | _ => []

def VarDecl.leaves (d : VarDecl) : List Leaf := d.type.leaves ++ [.ident d.name]

def Formal.leaves (f : Formal) : List Leaf := f.type.leaves ++ [.ident f.name]

mutual

def Stmt.leaves : Stmt → List Leaf
  | .assign t v => t.leaves ++ v.leaves
  | .increment p | .decrement p | .read p | .write p => p.leaves
  | .ifThen c ds ss | .whileLoop c ds ss | .repeatLoop c ds ss =>
    c.leaves ++ (ds.flatMap VarDecl.leaves ++ Stmt.listLeaves ss)
  | .ifElse c ds ss eds ess =>
    c.leaves ++ (ds.flatMap VarDecl.leaves ++ Stmt.listLeaves ss) ++
      (eds.flatMap VarDecl.leaves ++ Stmt.listLeaves ess)
  | .call f args => [.ident f] ++ Expr.listLeaves args
  | .ret none => []
  | .ret (some v) => v.leaves

def Stmt.listLeaves : List Stmt → List Leaf
  | [] => []
  | s :: ss => s.leaves ++ Stmt.listLeaves ss

end

def FnBody.leaves (b : FnBody) : List Leaf :=
  b.decls.flatMap VarDecl.leaves ++ Stmt.listLeaves b.stmts

def FnDecl.leaves (d : FnDecl) : List Leaf :=
  d.returnType.leaves ++ ([.ident d.name] ++ (d.formals.flatMap Formal.leaves ++ d.body.leaves))

def StructDecl.leaves (d : StructDecl) : List Leaf :=
  [.ident d.name] ++ d.fields.flatMap VarDecl.leaves

def Decl.leaves : Decl → List Leaf
  | .var d => d.leaves
  | .func d => d.leaves
  | .struct d => d.leaves

def Program.leaves (p : Program) : List Leaf := p.decls.flatMap Decl.leaves

/-- All identifiers of a program: declared names, names of struct types, uses and fields. -/
def Program.idents (p : Program) : List Ident := p.leaves.filterMap Leaf.ident?

theorem VarDecl.leaves_ofType (ty : TypeExpr) (x : Ident) :
    (VarDecl.ofType ty x).leaves = ty.leaves ++ [.ident x] := by
  cases ty <;> rfl

theorem Expr.listLeaves_append (es fs : List Expr) :
    Expr.listLeaves (es ++ fs) = Expr.listLeaves es ++ Expr.listLeaves fs := by
  induction es with
  | nil => rfl
  | cons e es ih => simp only [List.cons_append, listLeaves, ih, List.append_assoc]

theorem Stmt.listLeaves_append (ss ts : List Stmt) :
    Stmt.listLeaves (ss ++ ts) = Stmt.listLeaves ss ++ Stmt.listLeaves ts := by
  induction ss with
  | nil => rfl
  | cons s ss ih => simp only [List.cons_append, listLeaves, ih, List.append_assoc]

end Carrot
