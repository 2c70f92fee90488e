import Carrot.Json
import Carrot.Node

/-! # Artifacts

An artifact is the product of a compilation stage as a JSON value. A tree is written
with all its parts in a fixed order and without the names of its forms; an identifier
that is not resolved has a null for its binding. A binding tells what kind of
declaration it comes from; the fields of a struct are shown with their labels only, so
a struct may contain itself.
-/

namespace Carrot.Artifact

/-- For each struct declaration, its fields with their labels. -/
abbrev View := Nat → Snapshot

def position (p : Position) : Json := .obj [("line", .int p.line), ("col", .int p.column)]

def position? (p : Option Position) : Json := (p.map position).getD .null

def strings (ss : List String) : Json := .arr (ss.map .str)

def scope (s : List (String × String)) : Json := .obj (s.map fun e => (e.1, .str e.2))

def snapshot (s : Snapshot) : Json := .arr (s.map scope)

/-- The kind of declaration that a binding comes from. -/
def kind : Role → String
  | .var => "var"
  | .formal => "formal"
  | .func _ => "func"
  | .structDecl .. => "structDecl"
  | .instanceOf _ => "struct"

/-- What a binding of some role tells beside its kind, label and place. -/
def roleMembers (view : View) : Role → List (String × Json)
  | .func params =>
    [("formal_types", strings (params.map (·.type))),
      ("formal_names", strings (params.map (·.name)))]
  | .structDecl name id => [("name", .str name), ("fields", snapshot (view id))]
  | .var | .formal | .instanceOf _ => []

def binding (view : View) (b : Binding) : Json :=
  .obj ([("kind", .str (kind b.role)), ("type_label", .str b.label),
    ("declared_at", position? b.declaredAt)] ++ roleMembers view b.role)

def ident (view : View) (x : Ident) : Json :=
  .obj [("name", .str x.name), ("pos", position x.position),
    ("sym", (x.binding.map (binding view)).getD .null)]

mutual

def expr (view : View) : Expr → Json
  | .int v p => .obj [("value", .int v), ("pos", position p)]
  | .str t p => .obj [("value", .str t), ("pos", position p)]
  | .bool _ p => .obj [("pos", position p)]
  | .ident x => ident view x
  | .dot r f => .obj [("loc", expr view r), ("field", ident view f)]
  | .assign t v => .obj [("lhs", expr view t), ("rhs", expr view v)]
  | .call f args => .obj [("callee", ident view f), ("args", .arr (exprs view args))]
  | .unary op e => .obj [("op", .str op.text), ("operand", expr view e)]
  | .binary op l r => .obj [("op", .str op.text), ("left", expr view l), ("right", expr view r)]

def exprs (view : View) : List Expr → List Json
  | [] => []
  | e :: es => expr view e :: exprs view es

end

def typeExpr (view : View) (t : TypeExpr) : Json :=
  match t with
  | .struct tag => .obj [("label", .str t.label), ("name", ident view tag)]
  | t => .obj [("label", .str t.label)]

def varDecl (view : View) (d : VarDecl) : Json :=
  .obj [("var_type", typeExpr view d.type), ("name", ident view d.name), ("size", .int d.size)]

def varDecls (view : View) (ds : List VarDecl) : Json := .arr (ds.map (varDecl view))

mutual

def stmt (view : View) : Stmt → Json
  | .assign t v => .obj [("assign", expr view (.assign t v))]
  | .increment p | .decrement p | .read p => .obj [("loc", expr view p)]
  | .write v => .obj [("exp", expr view v)]
  | .ifThen c ds ss | .whileLoop c ds ss | .repeatLoop c ds ss =>
    .obj [("condition", expr view c), ("decls", varDecls view ds), ("stmts", .arr (stmts view ss))]
  | .ifElse c ds ss eds ess =>
    .obj [("condition", expr view c), ("then_decls", varDecls view ds),
      ("then_stmts", .arr (stmts view ss)), ("else_decls", varDecls view eds),
      ("else_stmts", .arr (stmts view ess))]
  | .call f args => .obj [("call", expr view (.call f args))]
  | .ret v => .obj [("exp", (v.map (expr view)).getD .null)]

def stmts (view : View) : List Stmt → List Json
  | [] => []
  | s :: ss => stmt view s :: stmts view ss

end

def body (view : View) (b : FnBody) : Json :=
  .obj [("decls", varDecls view b.decls), ("stmts", .arr (stmts view b.stmts))]

def formal (view : View) (f : Formal) : Json :=
  .obj [("param_type", typeExpr view f.type), ("name", ident view f.name)]

def decl (view : View) : Decl → Json
  | .var d => varDecl view d
  | .func d =>
    .obj [("return_type", typeExpr view d.returnType), ("name", ident view d.name),
      ("formals", .arr (d.formals.map (formal view))), ("body", body view d.body)]
  | .struct d => .obj [("name", ident view d.name), ("fields", varDecls view d.fields)]

def program (view : View) (p : Program) : Json :=
  .obj [("decls", .arr (p.decls.map (decl view))), ("file_path", .str p.file)]

def node (view : View) : Node → Json
  | .program p => program view p
  | .decl d => decl view d
  | .formal f => formal view f
  | .body b => body view b
  | .stmt s => stmt view s
  | .expr e => expr view e
  | .type t => typeExpr view t
  | .position p => position p

def diagnostic (d : Diagnostic) : Json :=
  .obj [("severity", .str d.severity.name), ("code", .str d.code.message),
    ("pos", position d.position)]

/-- The artifact of a program whose names are not resolved. -/
def ofProgram (p : Program) : Json := program (fun _ => []) p

/-- The artifact of name resolution: the resolved program, the global names, the diagnostics. -/
def ofResolution (r : Resolution) : Json :=
  .obj [("program", program r.session.fields.snapshot r.program), ("table", snapshot r.snapshot),
    ("diagnostics", .arr (r.diagnostics.map diagnostic))]

end Carrot.Artifact
