import Carrot.Partial.Expr

/-! # Function bodies that are partly read

A body is read one token at a time. The blocks around the current point are kept
innermost first, each with the statement that the block inside it belongs to.
Declarations are accepted only while their block has no statement.
-/

namespace Carrot

/-- A block that is open; its declarations and statements are kept latest first. -/
structure OpenBlock where
  decls : List VarDecl
  stmts : List Stmt
  deriving Repr

/-- The statement that an inner block belongs to. -/
inductive Owner where
  | ifThen (condition : Expr)
  | ifElse (condition : Expr) (decls : List VarDecl) (stmts : List Stmt)
  | whileLoop (condition : Expr)
  | repeatLoop (condition : Expr)
  deriving Repr

namespace OpenBlock

def empty : OpenBlock := ⟨[], []⟩

def addDecl (b : OpenBlock) (d : VarDecl) : OpenBlock := ⟨d :: b.decls, b.stmts⟩

def addStmt (b : OpenBlock) (s : Stmt) : OpenBlock := ⟨b.decls, s :: b.stmts⟩

def body (b : OpenBlock) : FnBody := ⟨b.decls.reverse, b.stmts.reverse⟩

end OpenBlock

namespace Owner

def ofGuard (g : Guard) (condition : Expr) : Owner :=
  match g with
  | .ifGuard => .ifThen condition
  | .whileGuard => .whileLoop condition
  | .repeatGuard => .repeatLoop condition

/-- The statement once its block is complete. -/
def close (o : Owner) (b : FnBody) : Stmt :=
  match o with
  | .ifThen c => .ifThen c b.decls b.stmts
  | .ifElse c ds ss => .ifElse c ds ss b.decls b.stmts
  | .whileLoop c => .whileLoop c b.decls b.stmts
  | .repeatLoop c => .repeatLoop c b.decls b.stmts

end Owner

inductive Point where
  /-- Between statements. -/
  | between
  /-- In a declaration: after `struct`, after its type, after its name. -/
  | localTag
  | localType (t : TypeExpr)
  | localName (d : VarDecl)
  /-- After a place that begins a statement, and after a dot behind it. -/
  | place (target : Expr)
  | placeDot (target : Expr)
  /-- In an input statement: after its keyword, its arrows, its place, a dot. -/
  | readArrows
  | readName
  | readPlace (target : Expr)
  | readDot (target : Expr)
  /-- After the keyword of an output statement. -/
  | writeArrows
  /-- After the keyword of a guarded statement. -/
  | guardOpen (g : Guard)
  /-- Before the brace that opens a block. -/
  | blockOpen (o : Owner)
  /-- After `return`. -/
  | returned
  /-- Before the semicolon that ends a statement. -/
  | semicolon (s : Stmt)
  | expr (x : ExprStep)
  deriving Repr

/-- The head of a function; its formals are kept latest first while they are read. -/
structure FnHead where
  returnType : TypeExpr
  name : Ident
  formals : List Formal
  deriving Repr

structure PartialBody where
  head : FnHead
  outer : List (OpenBlock × Owner)
  block : OpenBlock
  point : Point
  deriving Repr

def TypeExpr.ofKind? : TokenKind → Option TypeExpr
  | .kwInt => some .int
  | .kwBool => some .bool
  | .kwVoid => some .void
  | _ => none

namespace PartialBody

/-- The body just behind its opening brace. -/
def start (h : FnHead) : PartialBody := ⟨h, [], .empty, .between⟩

def moveTo (b : PartialBody) (p : Point) : PartialBody := { b with point := p }

def finish (b : PartialBody) (s : Stmt) : PartialBody :=
  { b with block := b.block.addStmt s, point := .between }

/-- Goes on where an expression has been read up to `x`. -/
def follow (b : PartialBody) (x : ExprStep) : PartialBody :=
  match x with
  | .done (.assign t) e => b.finish (.assign t e)
  | .done .write e => b.finish (.write e)
  | .done .ret e => b.finish (.ret (some e))
  | .done (.guard g) e => b.moveTo (.blockOpen (.ofGuard g e))
  | .called f args => b.moveTo (.semicolon (.call f args))
  | x => b.moveTo (.expr x)

def expect (b : PartialBody) (p : Purpose) : PartialBody :=
  b.moveTo (.expr (.operand (.ofPurpose p)))

def openDecl? (b : PartialBody) (t : Token) : Option PartialBody :=
  if t.kind = .kwStruct then some (b.moveTo .localTag)
  else (TypeExpr.ofKind? t.kind).map fun ty => b.moveTo (.localType ty)

/-- Reads `else` behind an `if` statement that has none yet. -/
def openElse? (b : PartialBody) : Option PartialBody :=
  match b.block.stmts with
  | .ifThen c ds ss :: rest =>
      some { b with block := ⟨b.block.decls, rest⟩, point := .blockOpen (.ifElse c ds ss) }
  | _ => none

def openStmt? (b : PartialBody) (t : Token) : Option PartialBody :=
  match t.kind with
  | .ident => some (b.moveTo (.place (.ident t.ident)))
  | .kwCin => some (b.moveTo .readArrows)
  | .kwCout => some (b.moveTo .writeArrows)
  | .kwIf => some (b.moveTo (.guardOpen .ifGuard))
  | .kwWhile => some (b.moveTo (.guardOpen .whileGuard))
  | .kwRepeat => some (b.moveTo (.guardOpen .repeatGuard))
  | .kwReturn => some (b.moveTo .returned)
  | .kwElse => b.openElse?
  -- Declarations stand in front of all statements of their block.
  | _ => if b.block.stmts.isEmpty then b.openDecl? t else none

/-- Closes the innermost block if it is not the body itself. -/
def closeBlock? (b : PartialBody) : Option PartialBody :=
  match b.outer with
  | (block, owner) :: outer =>
      some ⟨b.head, outer, block.addStmt (owner.close b.block.body), .between⟩
  | [] => none

def openBlock (b : PartialBody) (o : Owner) : PartialBody :=
  ⟨b.head, (b.block, o) :: b.outer, .empty, .between⟩

def place? (b : PartialBody) (target : Expr) (k : TokenKind) : Option PartialBody :=
  match k, target with
  | .dot, r => some (b.moveTo (.placeDot r))
  | .lparen, .ident f => some (b.expect (.argument f []))
  | .assign, r => some (b.expect (.assign r))
  | .increment, r => some (b.moveTo (.semicolon (.increment r)))
  | .decrement, r => some (b.moveTo (.semicolon (.decrement r)))
  | _, _ => none

/-- Reads the next token, except the brace that ends the body. -/
def next? (b : PartialBody) (t : Token) : Option PartialBody :=
  match b.point, t.kind with
  | .between, .rbrace => b.closeBlock?
  | .between, _ => b.openStmt? t
  | .localTag, .ident => some (b.moveTo (.localType (.struct t.ident)))
  | .localType ty, .ident => some (b.moveTo (.localName (.ofType ty t.ident)))
  | .localName d, .semicolon => some { b with block := b.block.addDecl d, point := .between }
  | .place r, k => b.place? r k
  | .placeDot r, .ident => some (b.moveTo (.place (.dot r t.ident)))
  | .readArrows, .shiftRight => some (b.moveTo .readName)
  | .readName, .ident => some (b.moveTo (.readPlace (.ident t.ident)))
  | .readPlace r, .dot => some (b.moveTo (.readDot r))
  | .readPlace r, .semicolon => some (b.finish (.read r))
  | .readDot r, .ident => some (b.moveTo (.readPlace (.dot r t.ident)))
  | .writeArrows, .shiftLeft => some (b.expect .write)
  | .guardOpen g, .lparen => some (b.expect (.guard g))
  | .blockOpen o, .lbrace => some (b.openBlock o)
  | .returned, .semicolon => some (b.finish (.ret none))
  | .returned, _ => ((Surroundings.ofPurpose .ret).operand? t).map b.follow
  | .semicolon s, .semicolon => some (b.finish s)
  | .expr x, _ => (x.next? t).map b.follow
  | _, _ => none

/-- The function, if the brace that ends the body may come next. -/
def complete? (b : PartialBody) : Option FnDecl :=
  match b.point, b.outer with
  | .between, [] => some ⟨b.head.returnType, b.head.name, b.head.formals, b.block.body⟩
  | _, _ => none

end PartialBody

end Carrot
