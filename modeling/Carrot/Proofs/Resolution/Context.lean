import Carrot.Resolution.Program

/-! # Name resolution as a function of what is in scope

A session carries a log, a mark and a fault along with its table. What resolution
notes and finds depends on the scopes and the struct fields alone, so here it is a
function of these: a declaration hands on what is in scope behind it, and a
statement or an expression leaves it as it was. No fault can occur in this form.
-/

namespace Carrot

/-- Binds a name behind the others of a scope, unless the scope has it. -/
def Scope.insertNew {β : Type} (s : Scope β) (name : String) (b : β) : Scope β :=
  if (s.lookup name).isSome then s else s ++ [(name, b)]

/-- Registers a struct with the fields it lists. -/
def StructFields.register (f : StructFields) (s : Scope Binding) : StructFields :=
  ⟨f.tables ++ [⟨[s], false⟩]⟩

/-- What is in scope: the scopes, the innermost apart, and the fields of all structs. -/
structure Context where
  front : Scope Binding
  outer : List (Scope Binding)
  fields : StructFields
  deriving DecidableEq, Repr

/-- What resolving a declaration gives: the node with its bindings, what is in scope behind
it, and what was found. -/
structure Outcome (α : Type) where
  node : α
  context : Context
  found : List Diagnostic
  deriving Repr

/-- A body whose declarations and statements are resolved. -/
def Outcome.body (o : Outcome (List VarDecl)) (r : Resolved (List Stmt)) : Resolved FnBody :=
  ⟨⟨o.node, r.node⟩, .nothing, o.found ++ r.found⟩

namespace Context

/-- A new table has one empty scope. -/
def initial (fields : StructFields) : Context := ⟨[], [], fields⟩

def scopes (c : Context) : List (Scope Binding) := c.front :: c.outer

def names (c : Context) : Names := ⟨⟨c.scopes, false⟩, c.fields⟩

/-- What a name stands for, the innermost scope first. -/
def find (c : Context) (name : String) : Option Binding := c.scopes.findSome? (·.lookup name)

def enter (c : Context) : Context := ⟨[], c.scopes, c.fields⟩

def bind (c : Context) (name : String) (b : Binding) : Context :=
  ⟨c.front ++ [(name, b)], c.outer, c.fields⟩

/-- Declares a variable of a type whose name is still free. -/
def declareVar (c : Context) (d : VarDecl) : Outcome VarDecl :=
  match d.type with
  | .struct tag =>
    match c.find tag.name with
    | none => ⟨d, c, [.error tag.position .undeclared]⟩
    | some b =>
      match b.structRef? with
      | none => ⟨d, c, [.error tag.position .invalidStructType]⟩
      | some ref =>
        let own : Binding := ⟨tag.name, some d.name.position, .instanceOf (some ref)⟩
        ⟨⟨.struct { tag with binding := some b }, { d.name with binding := some own }, d.size⟩,
          c.bind d.name.name own, []⟩
  | type =>
    let own : Binding := ⟨type.label, some d.name.position, .var⟩
    ⟨⟨type, { d.name with binding := some own }, d.size⟩, c.bind d.name.name own, []⟩

def varDecl (c : Context) (d : VarDecl) : Outcome VarDecl :=
  if d.type = .void then ⟨d, c, [.error d.name.position .voidNonFunction]⟩
  else
    match c.front.lookup d.name.name with
    | some b => ⟨d, c, if b.isFormal then [] else [.error d.name.position .multiplyDeclared]⟩
    | none => c.declareVar d

def formal (c : Context) (f : Formal) : Outcome Formal :=
  if f.type = .void then ⟨f, c, [.error f.name.position .voidNonFunction]⟩
  else if (c.front.lookup f.name.name).isSome then
    ⟨f, c, [.error f.name.position .multiplyDeclared]⟩
  else
    let own : Binding := ⟨f.type.label, some f.name.position, .formal⟩
    ⟨⟨f.type, { f.name with binding := some own }⟩, c.bind f.name.name own, []⟩

def all {α : Type} (f : Context → α → Outcome α) (c : Context) : List α → Outcome (List α)
  | [] => ⟨[], c, []⟩
  | x :: xs =>
    let o := f c x
    let os := all f o.context xs
    ⟨o.node :: os.node, os.context, o.found ++ os.found⟩

def varDecls (c : Context) (ds : List VarDecl) : Outcome (List VarDecl) := all varDecl c ds

def formals (c : Context) (fs : List Formal) : Outcome (List Formal) := all formal c fs

mutual

def stmt (c : Context) : Stmt → Resolved Stmt
  | .assign t v => .both .assign (c.names.expr t) (c.names.expr v)
  | .increment p => .wrap .increment (c.names.expr p)
  | .decrement p => .wrap .decrement (c.names.expr p)
  | .read p => .wrap .read (c.names.expr p)
  | .write v => .wrap .write (c.names.expr v)
  | .ifThen e ds ss =>
    let o := c.enter.varDecls ds
    .both (fun e b => .ifThen e b.decls b.stmts) (c.names.expr e) (o.body (stmts o.context ss))
  | .ifElse e ds ss eds ess =>
    let o := c.enter.varDecls ds
    let q := c.enter.varDecls eds
    .both (fun g b => .ifElse g.1 g.2.decls g.2.stmts b.decls b.stmts)
      (.both Prod.mk (c.names.expr e) (o.body (stmts o.context ss)))
      (q.body (stmts q.context ess))
  | .whileLoop e ds ss =>
    let o := c.enter.varDecls ds
    .both (fun e b => .whileLoop e b.decls b.stmts) (c.names.expr e)
      (o.body (stmts o.context ss))
  | .repeatLoop e ds ss =>
    let o := c.enter.varDecls ds
    .both (fun e b => .repeatLoop e b.decls b.stmts) (c.names.expr e)
      (o.body (stmts o.context ss))
  | .call f args => .both .call (c.names.ident f) (c.names.exprs args)
  | .ret none => .silent (.ret none)
  | .ret (some v) => .wrap (fun v => .ret (some v)) (c.names.expr v)

def stmts (c : Context) : List Stmt → Resolved (List Stmt)
  | [] => .silent []
  | s :: ss => .both .cons (stmt c s) (stmts c ss)

end

/-- The contents of a body in the scope that is innermost. -/
def body (c : Context) (b : FnBody) : Resolved FnBody :=
  let o := c.varDecls b.decls
  o.body (o.context.stmts b.stmts)

/-- Binds the name of a function, unless it is taken. -/
def fnName (c : Context) (d : FnDecl) : Outcome Ident :=
  if (c.front.lookup d.name.name).isSome then
    ⟨d.name, c, [.error d.name.position .multiplyDeclared]⟩
  else
    ⟨{ d.name with binding := some (Session.fnBinding d) },
      c.bind d.name.name (Session.fnBinding d), []⟩

def fnDecl (c : Context) (d : FnDecl) : Outcome FnDecl :=
  let x := c.fnName d
  let fs := x.context.enter.formals d.formals
  let b := fs.context.body d.body
  ⟨⟨d.returnType, x.node, fs.node, b.node⟩, x.context, x.found ++ fs.found ++ b.found⟩

/-- What a field is bound to in its struct, unless its type is void. -/
def fieldBinding? (c : Context) (d : VarDecl) : Option Binding :=
  match d.type with
  | .struct tag =>
    some ⟨tag.name, some d.name.position,
      .instanceOf ((c.find tag.name).bind (·.structRef?))⟩
  | .void => none
  | type => some ⟨type.label, some d.name.position, .var⟩

/-- Lists a field of a struct; the first field of a name counts. -/
def addField (c : Context) (s : Scope Binding) (d : VarDecl) : Scope Binding :=
  match c.fieldBinding? d with
  | none => s
  | some b => s.insertNew d.name.name b

/-- The binding of a struct that is declared next. -/
def structBinding (c : Context) (d : StructDecl) : Binding :=
  .ofStruct d.name.name (some d.name.position) c.fields.nextId

/-- What is in scope behind a struct whose name is free. -/
def withStruct (c : Context) (d : StructDecl) : Context :=
  let named := c.bind d.name.name (c.structBinding d)
  { named with fields := c.fields.register (d.fields.foldl named.addField []) }

def structDecl (c : Context) (d : StructDecl) : Outcome StructDecl :=
  if (c.front.lookup d.name.name).isSome then
    ⟨d, c, [.error d.name.position .multiplyDeclared]⟩
  else
    let fs := (c.withStruct d).enter.varDecls d.fields
    ⟨⟨{ d.name with binding := some (c.structBinding d) }, fs.node⟩, c.withStruct d, fs.found⟩

def decl (c : Context) : Decl → Outcome Decl
  | .var d =>
    let o := c.varDecl d
    ⟨.var o.node, o.context, o.found⟩
  | .func d =>
    let o := c.fnDecl d
    ⟨.func o.node, o.context, o.found⟩
  | .struct d =>
    let o := c.structDecl d
    ⟨.struct o.node, o.context, o.found⟩

def decls (c : Context) (ds : List Decl) : Outcome (List Decl) := all decl c ds

end Context

end Carrot
