import Carrot.Syntax

/-! # Programs as text

Sub-expressions are written with all their parentheses and blocks are indented by
four blanks. An identifier that has been resolved is followed by its binding in
parentheses. A negative indent counts as none, and the brace that ends a function
is never indented.
-/

namespace Carrot

/-- The note after a resolved identifier: a type, or a function's parameter and return types. -/
def Binding.note (b : Binding) : String :=
  match b.role with
  | .func params =>
    let types := String.intercalate ", " (params.map (·.type))
    (if types = "" then "-> " else types ++ " -> ") ++ b.label
  | _ => b.label

def Ident.text (x : Ident) : String :=
  match x.binding with
  | some b => x.name ++ "(" ++ b.note ++ ")"
  | none => x.name

mutual

def Expr.text : Expr → String
  | .int v _ => toString v
  | .str t _ => t
  | .bool true _ => "true"
  | .bool false _ => "false"
  | .ident x => x.text
  | .dot r f => "(" ++ r.text ++ ")." ++ f.text
  | .assign t v => "(" ++ t.text ++ " = " ++ v.text ++ ")"
  | .call f args => f.text ++ "(" ++ Expr.argsText args ++ ")"
  | .unary op e => "(" ++ op.text ++ e.text ++ ")"
  | .binary op l r => "(" ++ l.text ++ " " ++ op.text ++ " " ++ r.text ++ ")"

/-- The arguments of a call, separated by commas. -/
def Expr.argsText : List Expr → String
  | [] => ""
  | e :: es => e.text ++ Expr.moreArgsText es

/-- Further arguments, each after a comma. -/
def Expr.moreArgsText : List Expr → String
  | [] => ""
  | e :: es => ", " ++ e.text ++ Expr.moreArgsText es

end

def TypeExpr.text : TypeExpr → String
  | .struct tag => "struct " ++ tag.name
  | t => t.label

namespace Layout

/-- The blanks of one level. -/
def step : Int := 4

def blanks (indent : Int) : String := String.ofList (List.replicate indent.toNat ' ')

def varDecl (indent : Int) (d : VarDecl) : String :=
  blanks indent ++ d.type.text ++ " " ++ d.name.name ++ ";\n"

def varDecls (indent : Int) (ds : List VarDecl) : String := String.join (ds.map (varDecl indent))

/-- The contents of a block, its statements already written, and its closing brace. -/
def block (indent : Int) (ds : List VarDecl) (body : String) : String :=
  varDecls (indent + step) ds ++ body ++ blanks indent ++ "\x7d\n"

/-- The line that opens a guarded block. -/
def guarded (indent : Int) (keyword : String) (condition : Expr) : String :=
  blanks indent ++ keyword ++ " (" ++ condition.text ++ ") \x7b\n"

mutual

def stmt (indent : Int) : Stmt → String
  | .assign t v => blanks indent ++ t.text ++ " = " ++ v.text ++ ";\n"
  | .increment p => blanks indent ++ p.text ++ "++;\n"
  | .decrement p => blanks indent ++ p.text ++ "--;\n"
  | .read p => blanks indent ++ "cin >> " ++ p.text ++ ";\n"
  | .write v => blanks indent ++ "cout << " ++ v.text ++ ";\n"
  | .ifThen c ds ss => guarded indent "if" c ++ block indent ds (stmts (indent + step) ss)
  | .ifElse c ds ss eds ess =>
    guarded indent "if" c ++ block indent ds (stmts (indent + step) ss)
      ++ blanks indent ++ "else \x7b\n" ++ block indent eds (stmts (indent + step) ess)
  | .whileLoop c ds ss => guarded indent "while" c ++ block indent ds (stmts (indent + step) ss)
  | .repeatLoop c ds ss => guarded indent "repeat" c ++ block indent ds (stmts (indent + step) ss)
  | .call f args => blanks indent ++ (Expr.call f args).text ++ ";\n"
  | .ret none => blanks indent ++ "return;\n"
  | .ret (some v) => blanks indent ++ "return " ++ v.text ++ ";\n"

def stmts (indent : Int) : List Stmt → String
  | [] => ""
  | s :: ss => stmt indent s ++ stmts indent ss

end

def formal (f : Formal) : String := f.type.text ++ " " ++ f.name.name

def fnDecl (indent : Int) (d : FnDecl) : String :=
  blanks indent ++ d.returnType.text ++ " " ++ d.name.name ++ "("
    ++ String.intercalate ", " (d.formals.map formal) ++ ") \x7b\n"
    ++ varDecls (indent + step) d.body.decls ++ stmts (indent + step) d.body.stmts ++ "\x7d\n\n"

def structDecl (indent : Int) (d : StructDecl) : String :=
  blanks indent ++ "struct " ++ d.name.name ++ "\x7b\n" ++ varDecls (indent + step) d.fields
    ++ blanks indent ++ "\x7d;\n\n"

def decl (indent : Int) : Decl → String
  | .var d => varDecl indent d
  | .func d => fnDecl indent d
  | .struct d => structDecl indent d

def program (indent : Int) (p : Program) : String := String.join (p.decls.map (decl indent))

end Layout

/-- The canonical text of a program. -/
def Program.text (p : Program) : String := Layout.program 0 p

end Carrot
