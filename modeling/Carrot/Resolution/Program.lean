import Carrot.Resolution.Expr

/-! # Names in declarations, statements and programs

A declaration binds its name in the innermost scope, unless the scope has the name or
the type does not fit. Functions, struct declarations and blocks open a scope for
their contents and close it behind them. Every visitor returns the part with its
bindings noted, and the session behind it.
-/

namespace Carrot.Session

def all {α : Type} (f : Session → α → α × Session) (s : Session) : List α → List α × Session
  | [] => ([], s)
  | x :: xs =>
    let (x, s) := f s x
    let (xs, s) := all f s xs
    (x :: xs, s)

/-- Declares a variable of a type whose name is still free. -/
def declareVar (s : Session) (d : VarDecl) : VarDecl × Session :=
  match d.type with
  | .struct tag =>
    match s.table.lookupGlobal tag.name with
    | none => (d, s.error tag.position .undeclared)
    | some b =>
      match b.structRef? with
      | none => (d, s.error tag.position .invalidStructType)
      | some ref =>
        let (x, s) := s.declare d.name ⟨tag.name, some d.name.position, .instanceOf (some ref)⟩
        (⟨.struct { tag with binding := some b }, x, d.size⟩, s)
  | type =>
    let (x, s) := s.declare d.name ⟨type.label, some d.name.position, .var⟩
    (⟨type, x, d.size⟩, s)

/-- A variable must have a type other than void and a free name. A local that repeats the name
of a formal is passed over, and the formal stays in effect. -/
def varDecl (s : Session) (d : VarDecl) : VarDecl × Session :=
  s.run d fun d s =>
    if d.type = .void then (d, s.error d.name.position .voidNonFunction)
    else
      match s.table.lookupLocal d.name.name with
      | some b => (d, if b.isFormal then s else s.error d.name.position .multiplyDeclared)
      | none => s.declareVar d

def formal (s : Session) (f : Formal) : Formal × Session :=
  s.run f fun f s =>
    if f.type = .void then (f, s.error f.name.position .voidNonFunction)
    else if (s.table.lookupLocal f.name.name).isSome then
      (f, s.error f.name.position .multiplyDeclared)
    else
      let (x, s) := s.declare f.name ⟨f.type.label, some f.name.position, .formal⟩
      (⟨f.type, x⟩, s)

mutual

def stmt (s : Session) : Stmt → Stmt × Session
  | .assign t v =>
    let (t, s) := s.expr t
    let (v, s) := s.expr v
    (.assign t v, s)
  | .increment p =>
    let (p, s) := s.expr p
    (.increment p, s)
  | .decrement p =>
    let (p, s) := s.expr p
    (.decrement p, s)
  | .read p =>
    let (p, s) := s.expr p
    (.read p, s)
  | .write v =>
    let (v, s) := s.expr v
    (.write v, s)
  | .ifThen c ds ss =>
    let (c, s) := s.expr c
    let (ds, s) := all varDecl s.push ds
    let (ss, s) := stmts s ss
    (.ifThen c ds ss, s.pop)
  | .ifElse c ds ss eds ess =>
    let (c, s) := s.expr c
    let (ds, s) := all varDecl s.push ds
    let (ss, s) := stmts s ss
    let (eds, s) := all varDecl s.pop.push eds
    let (ess, s) := stmts s ess
    (.ifElse c ds ss eds ess, s.pop)
  | .whileLoop c ds ss =>
    let (c, s) := s.expr c
    let (ds, s) := all varDecl s.push ds
    let (ss, s) := stmts s ss
    (.whileLoop c ds ss, s.pop)
  | .repeatLoop c ds ss =>
    let (c, s) := s.expr c
    let (ds, s) := all varDecl s.push ds
    let (ss, s) := stmts s ss
    (.repeatLoop c ds ss, s.pop)
  | .call f args =>
    let (f, s) := s.ident f
    let (args, s) := s.exprs args
    (.call f args, s)
  | .ret none => (.ret none, s)
  | .ret (some v) =>
    let (v, s) := s.expr v
    (.ret (some v), s)

def stmts (s : Session) : List Stmt → List Stmt × Session
  | [] => ([], s)
  | x :: xs =>
    let (x, s) := stmt s x
    let (xs, s) := stmts s xs
    (x :: xs, s)

end

def block (s : Session) (b : FnBody) : FnBody × Session :=
  let (ds, s) := all varDecl s.push b.decls
  let (ss, s) := s.stmts b.stmts
  (⟨ds, ss⟩, s.pop)

/-- Resolves the contents of a body in the scope of its function. -/
def body (s : Session) (b : FnBody) : FnBody × Session :=
  let (ds, s) := all varDecl s b.decls
  let (ss, s) := s.stmts b.stmts
  (⟨ds, ss⟩, s)

/-- The binding of a function; its signature lists void formals too. -/
def fnBinding (d : FnDecl) : Binding :=
  ⟨d.returnType.label, some d.name.position,
    .func (Param.signature (d.formals.map fun f => ⟨f.name.name, f.type.label⟩))⟩

/-- A function is bound before its body is resolved; the body of a function whose name is taken
is resolved all the same. -/
def fnDecl (s : Session) (d : FnDecl) : FnDecl × Session :=
  s.run d fun d s =>
    let (x, s) :=
      if (s.table.lookupLocal d.name.name).isSome then
        (d.name, s.error d.name.position .multiplyDeclared)
      else s.declare d.name (fnBinding d)
    let (fs, s) := all formal s.push d.formals
    let (b, s) := s.body d.body
    (⟨d.returnType, x, fs, b⟩, s.pop)

/-- What a field is bound to in its struct, unless its type is void. -/
def fieldBinding? (s : Session) (d : VarDecl) : Option Binding :=
  match d.type with
  | .struct tag =>
    some ⟨tag.name, some d.name.position,
      .instanceOf ((s.table.lookupGlobal tag.name).bind (·.structRef?))⟩
  | .void => none
  | type => some ⟨type.label, some d.name.position, .var⟩

/-- Lists a field in struct `id`; the first field of a name counts. -/
def addField (id : Nat) (s : Session) (d : VarDecl) : Session :=
  if s.fault.isSome then s
  else
    match s.fieldBinding? d with
    | none => s
    | some b =>
      match (s.fields.table id).addNew d.name.name b with
      | .ok t => { s with fields := s.fields.set id t }
      | .error e => s.stop (.field e)

/-- A struct is bound first, so that its fields may be of its own type. Its fields are listed,
and then declared in a scope of their own, which reports the ones that are void or repeated. -/
def structDecl (s : Session) (d : StructDecl) : StructDecl × Session :=
  s.run d fun d s =>
    if (s.table.lookupLocal d.name.name).isSome then
      (d, s.error d.name.position .multiplyDeclared)
    else
      let id := s.fields.nextId
      let s := { s with fields := s.fields.declare }
      -- From here on the struct is known, also to its own fields.
      let (x, s) := s.declare d.name (.ofStruct d.name.name (some d.name.position) id)
      let s := d.fields.foldl (addField id) s
      let (fs, s) := all varDecl s.push d.fields
      (⟨x, fs⟩, s.pop)

def decl (s : Session) : Decl → Decl × Session
  | .var d =>
    let (d, s) := s.varDecl d
    (.var d, s)
  | .func d =>
    let (d, s) := s.fnDecl d
    (.func d, s)
  | .struct d =>
    let (d, s) := s.structDecl d
    (.struct d, s)

def program (s : Session) (p : Program) : Program × Session :=
  let (ds, s) := all decl s p.decls
  (⟨ds, p.file⟩, s)

end Carrot.Session

namespace Carrot

/-- What one run of name resolution over a program gives. -/
structure Resolution where
  program : Program
  session : Session
  deriving Repr

namespace Resolution

def ofProgram (p : Program) (fields : StructFields := .empty) : Resolution :=
  let (p, s) := (Session.new fields).program p
  ⟨p, s⟩

def diagnostics (r : Resolution) : List Diagnostic := r.session.log

def ok (r : Resolution) : Bool := !r.session.table.marked

def snapshot (r : Resolution) : Snapshot := r.session.table.snapshot (·.label)

end Resolution

end Carrot
