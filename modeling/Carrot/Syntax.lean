import Carrot.Binding

/-! # Syntax trees

Identifiers and literals know the place of their token, so that later stages can
point at it. An identifier also has room for the binding it stands for, which is
empty until names are resolved. Blocks list their declarations before their
statements.
-/

namespace Carrot

structure Ident where
  name : String
  position : Position
  binding : Option Binding := none
  deriving DecidableEq, Repr

inductive UnaryOp where
  | negate | not
  deriving DecidableEq, Repr

inductive BinaryOp where
  | add | sub | mul | div | and | or | eq | ne | lt | gt | le | ge
  deriving DecidableEq, Repr

namespace UnaryOp

def all : List UnaryOp := [.negate, .not]

def text : UnaryOp → String
  | .negate => "-"
  | .not => "!"

def ofText? (s : String) : Option UnaryOp := all.find? (·.text == s)

/-- How tightly a prefix operator binds. -/
def level : Nat := 6

end UnaryOp

namespace BinaryOp

def all : List BinaryOp := [.add, .sub, .mul, .div, .and, .or, .eq, .ne, .lt, .gt, .le, .ge]

def text : BinaryOp → String
  | .add => "+" | .sub => "-" | .mul => "*" | .div => "/" | .and => "&&" | .or => "||"
  | .eq => "==" | .ne => "!=" | .lt => "<" | .gt => ">" | .le => "<=" | .ge => ">="

def ofText? (s : String) : Option BinaryOp := all.find? (·.text == s)

/-- How tightly an operator binds; the larger level binds first. -/
def level : BinaryOp → Nat
  | .or => 1
  | .and => 2
  | .eq | .ne | .lt | .gt | .le | .ge => 3
  | .add | .sub => 4
  | .mul | .div => 5

/-- The least level of a left operand: comparisons do not chain, the others associate left. -/
def leftLevel (op : BinaryOp) : Nat := if op.level = 3 then 4 else op.level

/-- The least level of a right operand. -/
def rightLevel (op : BinaryOp) : Nat := op.level + 1

end BinaryOp

inductive Expr where
  | int (value : Int) (position : Position)
  /-- A string literal, as written, quotes included. -/
  | str (text : String) (position : Position)
  | bool (value : Bool) (position : Position)
  | ident (x : Ident)
  | dot (receiver : Expr) (field : Ident)
  | assign (target value : Expr)
  | call (callee : Ident) (args : List Expr)
  | unary (op : UnaryOp) (operand : Expr)
  | binary (op : BinaryOp) (left right : Expr)
  deriving Repr, Inhabited

inductive TypeExpr where
  | int | bool | void
  | struct (tag : Ident)
  deriving DecidableEq, Repr

/-- The label of a type; all struct types share one. -/
def TypeExpr.label : TypeExpr → String
  | .int => "int"
  | .bool => "bool"
  | .void => Binding.voidLabel
  | .struct _ => Binding.structLabel

structure VarDecl where
  type : TypeExpr
  name : Ident
  size : Int
  deriving DecidableEq, Repr

/-- The size of a variable that is not of struct type. -/
def VarDecl.notStruct : Int := -1

/-- A declaration as the text gives it: the size only tells struct types from the others. -/
def VarDecl.ofType (type : TypeExpr) (name : Ident) : VarDecl :=
  match type with
  | .struct _ => ⟨type, name, 0⟩
  | _ => ⟨type, name, notStruct⟩

structure Formal where
  type : TypeExpr
  name : Ident
  deriving DecidableEq, Repr

inductive Stmt where
  | assign (target value : Expr)
  | increment (place : Expr)
  | decrement (place : Expr)
  | read (place : Expr)
  | write (value : Expr)
  | ifThen (condition : Expr) (decls : List VarDecl) (stmts : List Stmt)
  | ifElse (condition : Expr) (thenDecls : List VarDecl) (thenStmts : List Stmt)
      (elseDecls : List VarDecl) (elseStmts : List Stmt)
  | whileLoop (condition : Expr) (decls : List VarDecl) (stmts : List Stmt)
  | repeatLoop (condition : Expr) (decls : List VarDecl) (stmts : List Stmt)
  | call (callee : Ident) (args : List Expr)
  | ret (value : Option Expr)
  deriving Repr, Inhabited

structure FnBody where
  decls : List VarDecl
  stmts : List Stmt
  deriving Repr

structure FnDecl where
  returnType : TypeExpr
  name : Ident
  formals : List Formal
  body : FnBody
  deriving Repr

structure StructDecl where
  name : Ident
  fields : List VarDecl
  deriving Repr

inductive Decl where
  | var (d : VarDecl)
  | func (d : FnDecl)
  | struct (d : StructDecl)
  deriving Repr

/-- The name of the file that stands for text without one. -/
def stdinName : String := "<stdin>"

structure Program where
  decls : List Decl
  file : String := stdinName
  deriving Repr

end Carrot
