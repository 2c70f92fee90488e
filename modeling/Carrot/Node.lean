import Carrot.Layout
import Carrot.Resolution.Program

/-! # Nodes

A node is any part of a program by itself. Declarations, statements and expressions
can be written as text; formals and types are only written as a part of what they
belong to. Everything but types and places can be resolved.
-/

namespace Carrot

inductive Node where
  | program (p : Program)
  | decl (d : Decl)
  | formal (f : Formal)
  | body (b : FnBody)
  | stmt (s : Stmt)
  | expr (e : Expr)
  | type (t : TypeExpr)
  | position (p : Position)
  deriving Repr

/-- The name of the form of an expression. -/
def Expr.form : Expr → String
  | .int .. => "IntLiteral"
  | .str .. => "StringLiteral"
  | .bool true _ => "TrueLiteral"
  | .bool false _ => "FalseLiteral"
  | .ident _ => "Identifier"
  | .dot .. => "DotAccess"
  | .assign .. => "AssignExp"
  | .call .. => "CallExp"
  | .unary .. => "UnaryExp"
  | .binary .. => "BinaryExp"

def TypeExpr.form : TypeExpr → String
  | .int => "IntType"
  | .bool => "BoolType"
  | .void => "VoidType"
  | .struct _ => "StructType"

def Stmt.form : Stmt → String
  | .assign .. => "AssignStmt"
  | .increment _ => "PostIncStmt"
  | .decrement _ => "PostDecStmt"
  | .read _ => "ReadStmt"
  | .write _ => "WriteStmt"
  | .ifThen .. => "IfStmt"
  | .ifElse .. => "IfElseStmt"
  | .whileLoop .. => "WhileStmt"
  | .repeatLoop .. => "RepeatStmt"
  | .call .. => "CallStmt"
  | .ret _ => "ReturnStmt"

def Decl.form : Decl → String
  | .var _ => "VarDecl"
  | .func _ => "FnDecl"
  | .struct _ => "StructDecl"

namespace Node

/-- The name of the form of a node. -/
def form : Node → String
  | .program _ => "Program"
  | .decl d => d.form
  | .formal _ => "FormalDecl"
  | .body _ => "FnBody"
  | .stmt s => s.form
  | .expr e => e.form
  | .type t => t.form
  | .position _ => "Position"

/-- The text of a node, if its form has one by itself. -/
def text? (indent : Int) : Node → Option String
  | .program p => some (Layout.program indent p)
  | .decl d => some (Layout.decl indent d)
  | .stmt s => some (Layout.stmt indent s)
  | .expr e => some e.text
  | .formal _ | .body _ | .type _ | .position _ => none

/-- Why a node without a text is not written. -/
def unwritable (n : Node) : String := "Cannot unparse node type '" ++ n.form ++ "'."

end Node

namespace Session

/-- Resolves a node; an expression also gives a hint for a dot behind it. -/
def node (s : Session) : Node → Node × Hint × Session
  | .program p =>
    let (p, s) := s.program p
    (.program p, .nothing, s)
  | .decl d =>
    let (d, s) := s.decl d
    (.decl d, .nothing, s)
  | .formal f =>
    let (f, s) := s.formal f
    (.formal f, .nothing, s)
  | .body b =>
    let (b, s) := s.body b
    (.body b, .nothing, s)
  | .stmt t =>
    let (t, s) := s.stmt t
    (.stmt t, .nothing, s)
  | .expr e =>
    let (f, t) := s.expr e
    (.expr f, (s.names.expr e).hint, t)
  | .type t => (.type t, .nothing, s.stop (.unsupported t.form))
  | .position p => (.position p, .nothing, s.stop (.unsupported (Node.position p).form))

end Session

end Carrot
