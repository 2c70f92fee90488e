import Carrot.Resolution.Session

/-! # Names in expressions

An expression only reads the table: resolving it notes bindings on its identifiers
and finds diagnostics. It also gives a hint for a dot behind it: nothing, a struct
instance whose fields can be looked up, or a plain value. A chain of dots reports at
most its first problem.
-/

namespace Carrot

/-- What an expression offers to a dot behind it. -/
inductive Hint where
  | nothing
  /-- A struct instance, with the declaration it was checked against. -/
  | struct (b : Binding) (decl : Option StructRef)
  /-- A value without fields, last named at `position`. -/
  | plain (position : Position)
  deriving DecidableEq, Repr

namespace Hint

/-- The hint of a name at `position` that stands for `b`. -/
def ofBinding (b : Binding) (position : Position) : Hint :=
  match b.role with
  | .instanceOf decl => .struct b decl
  | _ => .plain position

def binding? : Hint → Option Binding
  | .nothing => none
  | .struct b _ => some b
  | .plain p => some (.plain p)

end Hint

/-- What resolving a part of a program gives. -/
structure Resolved (α : Type) where
  node : α
  hint : Hint
  found : List Diagnostic
  deriving Repr

namespace Resolved

variable {α β : Type}

def silent (node : α) : Resolved α := ⟨node, .nothing, []⟩

/-- A part around `r` that offers nothing to a dot. -/
def wrap (f : α → β) (r : Resolved α) : Resolved β := ⟨f r.node, .nothing, r.found⟩

/-- A part around `r` and, behind it, `q`. -/
def both {γ : Type} (f : α → β → γ) (r : Resolved α) (q : Resolved β) : Resolved γ :=
  ⟨f r.node q.node, .nothing, r.found ++ q.found⟩

end Resolved

structure Names where
  table : SymbolTable Binding
  fields : StructFields

namespace Names

/-- The declaration in which the fields of an instance are looked up: the one that its type
names here, or else the one it was checked against. -/
def structOf? (n : Names) (label : String) (decl : Option StructRef) : Option Nat :=
  match (n.table.lookupGlobal label).bind (·.structRef?) with
  | some r => some r.id
  | none => decl.map (·.id)

def ident (n : Names) (x : Ident) : Resolved Ident :=
  match n.table.lookupGlobal x.name with
  | none => ⟨x, .nothing, [.error x.position .undeclared]⟩
  | some b => ⟨{ x with binding := some b }, .ofBinding b x.position, []⟩

/-- Resolves a field behind an expression that offers `hint`. -/
def field (n : Names) (hint : Hint) (x : Ident) : Resolved Ident :=
  match hint with
  -- What stands in front has been reported, or its struct is not known.
  | .nothing => .silent x
  | .plain p => ⟨x, .nothing, [.error p .dotAccessNonStruct]⟩
  | .struct b decl =>
    match n.structOf? b.label decl with
    | none => .silent x
    | some id =>
      match n.fields.lookup id x.name with
      | none => ⟨x, .nothing, [.error x.position .invalidStructField]⟩
      | some f => ⟨{ x with binding := some f }, .ofBinding f x.position, []⟩

mutual

def expr (n : Names) : Expr → Resolved Expr
  | .int v p => .silent (.int v p)
  | .str t p => .silent (.str t p)
  | .bool v p => .silent (.bool v p)
  | .ident x =>
    let r := n.ident x
    ⟨.ident r.node, r.hint, r.found⟩
  | .dot e x =>
    let r := n.expr e
    let q := n.field r.hint x
    ⟨.dot r.node q.node, q.hint, r.found ++ q.found⟩
  | .assign t v => .both .assign (n.expr t) (n.expr v)
  | .call f args => .both .call (n.ident f) (n.exprs args)
  | .unary op e => .wrap (.unary op) (n.expr e)
  | .binary op l r => .both (.binary op) (n.expr l) (n.expr r)

def exprs (n : Names) : List Expr → Resolved (List Expr)
  | [] => .silent []
  | e :: es => .both .cons (n.expr e) (n.exprs es)

end

end Names

namespace Session

def names (s : Session) : Names := ⟨s.table, s.fields⟩

/-- Resolves an expression and reports what was found. -/
def expr (s : Session) (e : Expr) : Expr × Session :=
  s.run e fun e s =>
    let r := s.names.expr e
    (r.node, s.report r.found)

def exprs (s : Session) (es : List Expr) : List Expr × Session :=
  s.run es fun es s =>
    let r := s.names.exprs es
    (r.node, s.report r.found)

def ident (s : Session) (x : Ident) : Ident × Session :=
  s.run x fun x s =>
    let r := s.names.ident x
    (r.node, s.report r.found)

end Session

end Carrot
