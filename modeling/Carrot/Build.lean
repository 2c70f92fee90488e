import Carrot.Syntax

/-! # Trees by hand

Short ways to write trees that come from no text. What has no place of its own stands
at the start of a text, and types are given by their names: any name but those of the
basic types is the name of a struct.
-/

namespace Carrot.Build

def position (line column : Int := 1) : Position := ⟨line, column⟩

def ident (name : String) (line column : Int := 1) : Ident := ⟨name, position line column, none⟩

def int (value : Int) : Expr := .int value position

def str (text : String) : Expr := .str text position

def bool (value : Bool) : Expr := .bool value position

/-- The type of a name. -/
def type (name : String) : TypeExpr :=
  ([.int, .bool, .void].find? (·.label == name)).getD (.struct (ident name))

def dot (receiver : Expr) (field : String) : Expr := .dot receiver (ident field)

def call (callee : String) (args : List Expr := []) : Expr := .call (ident callee) args

/-- A prefix operation, if the operator exists. -/
def unary? (op : String) (operand : Expr) : Option Expr :=
  (UnaryOp.ofText? op).map (.unary · operand)

/-- An infix operation, if the operator exists. -/
def binary? (op : String) (left right : Expr) : Option Expr :=
  (BinaryOp.ofText? op).map (.binary · left right)

def varDecl (typeName name : String) : VarDecl := .ofType (type typeName) (ident name)

def formal (typeName name : String) : Formal := ⟨type typeName, ident name⟩

/-- A struct whose fields are given as pairs of a type's name and a name. -/
def structDecl (name : String) (fields : List (String × String)) : StructDecl :=
  ⟨ident name, fields.map fun f => varDecl f.1 f.2⟩

/-- A function whose formals are given as pairs of a type's name and a name. -/
def fnDecl (name : String) (returnType : String := Binding.voidLabel)
    (formals : List (String × String) := []) (decls : List VarDecl := [])
    (stmts : List Stmt := []) : FnDecl :=
  ⟨type returnType, ident name, formals.map (fun f => formal f.1 f.2), ⟨decls, stmts⟩⟩

def program (decls : List Decl) : Program := ⟨decls, stdinName⟩

end Carrot.Build
