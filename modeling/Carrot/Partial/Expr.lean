import Carrot.Syntax
import Carrot.Token

/-! # Expressions that are partly read

An expression is read one token at a time. Operators that wait for their right
operand are kept innermost first, and so are the parentheses that are still open.
The level of an operator decides whether it takes the operand before it or leaves
it to the operator that waits.
-/

namespace Carrot

/-- An assignment or operator that has its left side and waits for the right one. -/
inductive Pending where
  | assign (target : Expr)
  | binary (op : BinaryOp) (left : Expr)
  | unary (op : UnaryOp)
  deriving Repr

namespace Pending

def level : Pending → Nat
  | .assign _ => 0
  | .binary op _ => op.level
  | .unary _ => UnaryOp.level

def rightLevel : Pending → Nat
  | .assign _ => 0
  | .binary op _ => op.rightLevel
  | .unary _ => UnaryOp.level

def close : Pending → Expr → Expr
  | .assign t, e => .assign t e
  | .binary op l, e => .binary op l e
  | .unary op, e => .unary op e

/-- Closes the innermost operators whose level is at least `level`. -/
def settle (level : Nat) : List Pending → Expr → List Pending × Expr
  | [], e => ([], e)
  | p :: ps, e => if level ≤ p.level then settle level ps (p.close e) else (p :: ps, e)

def closeAll (ps : List Pending) (e : Expr) : Expr := ps.foldl (fun e p => p.close e) e

/-- The least level that an expression after these operators must have. -/
def required : List Pending → Nat
  | [] => 0
  | p :: _ => p.rightLevel

end Pending

/-- A parenthesis that is open in an expression; arguments are kept latest first. -/
inductive Bracket where
  | group
  | call (callee : Ident) (args : List Expr)
  deriving Repr

inductive Guard where
  | ifGuard | whileGuard | repeatGuard
  deriving DecidableEq, Repr

/-- What the expression is for in its statement; arguments are kept latest first. -/
inductive Purpose where
  | assign (target : Expr)
  | write
  | ret
  | guard (g : Guard)
  | argument (callee : Ident) (args : List Expr)
  deriving Repr

/-- What surrounds the operand that is read next: the operators that wait for it, and
around them the open parentheses, each with the operators that wait for it in turn. -/
structure Surroundings where
  purpose : Purpose
  pending : List Pending
  enclosing : List (Bracket × List Pending)
  deriving Repr

namespace Surroundings

def ofPurpose (p : Purpose) : Surroundings := ⟨p, [], []⟩

def enter (s : Surroundings) (b : Bracket) : Surroundings :=
  ⟨s.purpose, [], (b, s.pending) :: s.enclosing⟩

def wait (s : Surroundings) (p : Pending) : Surroundings := ⟨s.purpose, p :: s.pending, s.enclosing⟩

def operator? (s : Surroundings) (op : BinaryOp) (e : Expr) : Option Surroundings :=
  let (ps, left) := Pending.settle op.leftLevel s.pending e
  -- What still waits takes the whole operation, so the operation must bind tightly enough.
  if Pending.required ps ≤ op.level then some ⟨s.purpose, .binary op left :: ps, s.enclosing⟩
  else none

def assign? (s : Surroundings) (target : Expr) : Option Surroundings :=
  -- An assignment is an operand of no operator.
  if Pending.required s.pending = 0 then some (s.wait (.assign target)) else none

end Surroundings

/-- An operand that has been read. A bare one is a name or a chain of names outside
parentheses: a dot may follow it, or an assignment sign. -/
structure Operand where
  expr : Expr
  bare : Bool
  deriving Repr

inductive ExprStep where
  /-- The next operand is to be read. -/
  | operand (s : Surroundings)
  /-- A dot was read after `receiver`; a name must follow. -/
  | field (s : Surroundings) (receiver : Expr)
  /-- An operand is complete. -/
  | after (s : Surroundings) (e : Operand)
  /-- The whole expression is complete, and its statement takes over. -/
  | done (p : Purpose) (e : Expr)
  /-- The arguments of a call statement are complete. -/
  | called (callee : Ident) (args : List Expr)
  deriving Repr

def BinaryOp.ofKind? : TokenKind → Option BinaryOp
  | .plus => some .add
  | .minus => some .sub
  | .times => some .mul
  | .divide => some .div
  | .and => some .and
  | .or => some .or
  | .equal => some .eq
  | .notEqual => some .ne
  | .less => some .lt
  | .greater => some .gt
  | .lessEqual => some .le
  | .greaterEqual => some .ge
  | _ => none

def decimalValue (digits : List Char) : Nat :=
  digits.foldl (fun n c => 10 * n + (c.toNat - '0'.toNat)) 0

/-- The largest value that a literal may have; larger ones count as this one. -/
def maxInt : Nat := 2147483647

def Token.intValue (t : Token) : Nat := min (decimalValue t.text.toList) maxInt

def Token.ident (t : Token) : Ident := ⟨t.text, t.position, none⟩

def Token.literal? (t : Token) : Option Expr :=
  match t.kind with
  | .intLit => some (.int t.intValue t.position)
  | .strLit => some (.str t.text t.position)
  | .kwTrue => some (.bool true t.position)
  | .kwFalse => some (.bool false t.position)
  | _ => none

namespace Surroundings

/-- Reads the first token of an operand, or the end of an empty argument list. -/
def operand? (s : Surroundings) (t : Token) : Option ExprStep :=
  match t.kind with
  | .ident => some (.after s ⟨.ident t.ident, true⟩)
  | .lparen => some (.operand (s.enter .group))
  | .minus => some (.operand (s.wait (.unary .negate)))
  | .not => some (.operand (s.wait (.unary .not)))
  | .rparen =>
    -- A call without arguments; behind an argument a comma would want another one.
    match s.pending, s.enclosing, s.purpose with
    | [], (.call f [], ps) :: rest, p => some (.after ⟨p, ps, rest⟩ ⟨.call f [], false⟩)
    | [], [], .argument f [] => some (.called f [])
    | _, _, _ => none
  | _ => t.literal?.map fun e => .after s ⟨e, false⟩

def rparen? (s : Surroundings) (e : Expr) : Option ExprStep :=
  match s.enclosing, s.purpose with
  | (.group, ps) :: rest, p => some (.after ⟨p, ps, rest⟩ ⟨e, false⟩)
  | (.call f args, ps) :: rest, p =>
      some (.after ⟨p, ps, rest⟩ ⟨.call f (e :: args).reverse, false⟩)
  | [], .guard g => some (.done (.guard g) e)
  | [], .argument f args => some (.called f (e :: args).reverse)
  | [], _ => none

def comma? (s : Surroundings) (e : Expr) : Option ExprStep :=
  match s.enclosing, s.purpose with
  | (.call f args, ps) :: rest, p => some (.operand ⟨p, [], (.call f (e :: args), ps) :: rest⟩)
  | [], .argument f args => some (.operand ⟨.argument f (e :: args), [], []⟩)
  | _, _ => none

def semicolon? (s : Surroundings) (e : Expr) : Option ExprStep :=
  match s.enclosing, s.purpose with
  | [], .assign t => some (.done (.assign t) e)
  | [], .write => some (.done .write e)
  | [], .ret => some (.done .ret e)
  | _, _ => none

/-- Reads the token that follows an operand. -/
def after? (s : Surroundings) (e : Operand) (t : Token) : Option ExprStep :=
  match t.kind, e with
  | .dot, ⟨r, true⟩ => some (.field s r)
  | .lparen, ⟨.ident f, true⟩ => some (.operand (s.enter (.call f [])))
  | .assign, ⟨target, true⟩ => (s.assign? target).map .operand
  | .rparen, e => s.rparen? (Pending.closeAll s.pending e.expr)
  | .comma, e => s.comma? (Pending.closeAll s.pending e.expr)
  | .semicolon, e => s.semicolon? (Pending.closeAll s.pending e.expr)
  | k, e => (BinaryOp.ofKind? k).bind fun op => (s.operator? op e.expr).map .operand

end Surroundings

/-- Reads the next token of an expression; a finished expression takes no more. -/
def ExprStep.next? (x : ExprStep) (t : Token) : Option ExprStep :=
  match x with
  | .operand s => s.operand? t
  | .field s r => if t.kind = .ident then some (.after s ⟨.dot r t.ident, true⟩) else none
  | .after s e => s.after? e t
  | .done .. | .called .. => none

end Carrot
