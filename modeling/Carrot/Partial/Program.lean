import Carrot.Partial.Body

/-! # Programs that are partly read

`PartialProgram.next?` reads one token and refuses a token that cannot come next.
What has been read is a tree whose right edge is still open; a program is complete
between two declarations. Because tokens are taken one by one, the first token
that is refused is the first one behind which no program can follow.
-/

namespace Carrot

inductive FieldPoint where
  | between
  | tag
  | type (t : TypeExpr)
  | name (d : VarDecl)
  deriving Repr

inductive FormalPoint where
  | first
  | next
  | tag
  | type (t : TypeExpr)
  | after
  deriving Repr

inductive OpenDecl where
  /-- Between declarations. -/
  | none
  /-- After a struct declaration, which a semicolon may still end. -/
  | structEnd
  /-- After `struct`, and after the name behind it. -/
  | tag
  | tagName (name : Ident)
  /-- After a type, and after the name behind it. -/
  | type (t : TypeExpr)
  | name (t : TypeExpr) (x : Ident)
  /-- In a struct declaration; the fields are kept latest first. -/
  | fields (name : Ident) (fields : List VarDecl) (p : FieldPoint)
  /-- In the formals of a function. -/
  | formals (h : FnHead) (p : FormalPoint)
  /-- Before the brace that opens a function's body. -/
  | bodyOpen (h : FnHead)
  | body (b : PartialBody)
  deriving Repr

/-- A program that has been read up to some token; its declarations are kept latest first. -/
structure PartialProgram where
  decls : List Decl
  current : OpenDecl
  deriving Repr

namespace OpenDecl

def first? (t : Token) : Option OpenDecl :=
  if t.kind = .kwStruct then some .tag else (TypeExpr.ofKind? t.kind).map .type

/-- Reads the next token of a field list that does not end there. -/
def field? (name : Ident) (fs : List VarDecl) (p : FieldPoint) (t : Token) : Option OpenDecl :=
  match p, t.kind with
  | .between, .kwStruct => some (.fields name fs .tag)
  | .between, k => (TypeExpr.ofKind? k).map fun ty => .fields name fs (.type ty)
  | .tag, .ident => some (.fields name fs (.type (.struct t.ident)))
  | .type ty, .ident => some (.fields name fs (.name (.ofType ty t.ident)))
  | .name d, .semicolon => some (.fields name (d :: fs) .between)
  | _, _ => Option.none

def formal? (h : FnHead) (p : FormalPoint) (t : Token) : Option OpenDecl :=
  match p, t.kind with
  | .first, .rparen | .after, .rparen => some (.bodyOpen { h with formals := h.formals.reverse })
  | .first, .kwStruct | .next, .kwStruct => some (.formals h .tag)
  | .first, k | .next, k => (TypeExpr.ofKind? k).map fun ty => .formals h (.type ty)
  | .tag, .ident => some (.formals h (.type (.struct t.ident)))
  | .type ty, .ident => some (.formals { h with formals := ⟨ty, t.ident⟩ :: h.formals } .after)
  | .after, .comma => some (.formals h .next)
  | _, _ => Option.none

end OpenDecl

namespace PartialProgram

def start : PartialProgram := ⟨[], .none⟩

def moveTo (p : PartialProgram) (d : OpenDecl) : PartialProgram := ⟨p.decls, d⟩

def finish (p : PartialProgram) (d : Decl) (next : OpenDecl := .none) : PartialProgram :=
  ⟨d :: p.decls, next⟩

def body? (p : PartialProgram) (b : PartialBody) (t : Token) : Option PartialProgram :=
  match t.kind, b.complete? with
  | .rbrace, some f => some (p.finish (.func f))
  | _, _ => (b.next? t).map fun b => p.moveTo (.body b)

/-- Reads the next token of a program. -/
def next? (p : PartialProgram) (t : Token) : Option PartialProgram :=
  match p.current, t.kind with
  | .structEnd, .semicolon => some (p.moveTo .none)
  | .none, _ | .structEnd, _ => (OpenDecl.first? t).map p.moveTo
  | .tag, .ident => some (p.moveTo (.tagName t.ident))
  | .tagName s, .lbrace => some (p.moveTo (.fields s [] .between))
  | .tagName s, .ident => some (p.moveTo (.name (.struct s) t.ident))
  | .type ty, .ident => some (p.moveTo (.name ty t.ident))
  | .name ty x, .semicolon => some (p.finish (.var (.ofType ty x)))
  | .name ty x, .lparen => some (p.moveTo (.formals ⟨ty, x, []⟩ .first))
  | .fields s (f :: fs) .between, .rbrace =>
      some (p.finish (.struct ⟨s, (f :: fs).reverse⟩) .structEnd)
  | .fields s fs q, _ => (OpenDecl.field? s fs q t).map p.moveTo
  | .formals h q, _ => (OpenDecl.formal? h q t).map p.moveTo
  | .bodyOpen h, .lbrace => some (p.moveTo (.body (.start h)))
  | .body b, _ => p.body? b t
  | _, _ => Option.none

/-- The declarations of a program that may end here. -/
def complete? (p : PartialProgram) : Option (List Decl) :=
  match p.current with
  | .none | .structEnd => some p.decls.reverse
  | _ => Option.none

/-- Reads tokens up to the end or to the first one that is refused. -/
def read (p : PartialProgram) : List Token → Except Token PartialProgram
  | [] => .ok p
  | t :: ts =>
    match p.next? t with
    | some q => q.read ts
    | none => .error t

theorem read_append (p : PartialProgram) (ts us : List Token) :
    p.read (ts ++ us) = (p.read ts).bind fun q => q.read us := by
  induction ts generalizing p with
  | nil => rfl
  | cons t ts ih =>
    simp only [List.cons_append, read]
    cases h : p.next? t with
    | none => rfl
    | some q => exact ih q

end PartialProgram

end Carrot
