import Carrot.Grammar
import Carrot.Proofs.Grammar.Spelling

/-! # Derivations and their values

A derivation takes a sequence of tokens apart by the rules of the grammar. Each rule
has an action, which makes the value of the whole from the values of its symbols.
Nothing here knows how a text is read from left to right.
-/

namespace Carrot.Grammar

/-- What a symbol of a derivation stands for. -/
inductive Value where
  | token (t : Token)
  | ident (x : Ident)
  | type (t : TypeExpr)
  | var (d : VarDecl)
  | vars (ds : List VarDecl)
  | formal (f : Formal)
  | formals (fs : List Formal)
  | expr (e : Expr)
  | exprs (es : List Expr)
  | stmt (s : Stmt)
  | stmts (ss : List Stmt)
  | body (b : FnBody)
  | decl (d : Decl)
  | decls (ds : List Decl)

/-! ### Actions -/

namespace Action

def type : List Value → Option Value
  | [.token t] => (TypeExpr.ofKind? t.kind).map .type
  | [.token _, .ident x] => some (.type (.struct x))
  | _ => none

def name : List Value → Option Value
  | [.token t] => some (.ident t.ident)
  | _ => none

def varDecl : List Value → Option Value
  | [.type t, .ident x, .token _] => some (.var (.ofType t x))
  | _ => none

def varDecls : List Value → Option Value
  | [] => some (.vars [])
  | [.var d] => some (.vars [d])
  | [.vars ds, .var d] => some (.vars (ds ++ [d]))
  | [.vars ds] => some (.vars ds)
  | _ => none

def structDecl : List Value → Option Value
  | [.token _, .ident x, .token _, .vars ds, .token _, .token _]
  | [.token _, .ident x, .token _, .vars ds, .token _] => some (.decl (.struct ⟨x, ds⟩))
  | _ => none

def formal : List Value → Option Value
  | [.type t, .ident x] => some (.formal ⟨t, x⟩)
  | _ => none

def formals : List Value → Option Value
  | [] => some (.formals [])
  | [.formal f] => some (.formals [f])
  | [.formal f, .formals fs] => some (.formals (f :: fs))
  | _ => none

def moreFormals : List Value → Option Value
  | [.token _, .formal f] => some (.formals [f])
  | [.formals fs, .token _, .formal f] => some (.formals (fs ++ [f]))
  | _ => none

def fnDecl : List Value → Option Value
  | [.type t, .ident x, .token _, .formals fs, .token _, .body b] =>
      some (.decl (.func ⟨t, x, fs, b⟩))
  | _ => none

def body : List Value → Option Value
  | [.token _, .vars ds, .stmts ss, .token _] => some (.body ⟨ds, ss⟩)
  | _ => none

def decl : List Value → Option Value
  | [.var d] => some (.decl (.var d))
  | [.decl d] => some (.decl d)
  | _ => none

def decls : List Value → Option Value
  | [] => some (.decls [])
  | [.decl d] => some (.decls [d])
  | [.decls ds, .decl d] => some (.decls (ds ++ [d]))
  | [.decls ds] => some (.decls ds)
  | _ => none

def stmts : List Value → Option Value
  | [] => some (.stmts [])
  | [.stmt s] => some (.stmts [s])
  | [.stmts ss, .stmt s] => some (.stmts (ss ++ [s]))
  | [.stmts ss] => some (.stmts ss)
  | _ => none

/-- A guarded statement, by its keyword. -/
def guarded (k : TokenKind) (c : Expr) (b : FnBody) : Option Value :=
  match k with
  | .kwIf => some (.stmt (.ifThen c b.decls b.stmts))
  | .kwWhile => some (.stmt (.whileLoop c b.decls b.stmts))
  | .kwRepeat => some (.stmt (.repeatLoop c b.decls b.stmts))
  | _ => none

/-- A statement that is a place and a sign behind it. -/
def counted (k : TokenKind) (place : Expr) : Option Value :=
  match k with
  | .increment => some (.stmt (.increment place))
  | .decrement => some (.stmt (.decrement place))
  | _ => none

/-- An input or output statement, by its keyword. -/
def transfer (k : TokenKind) (e : Expr) : Option Value :=
  match k with
  | .kwCin => some (.stmt (.read e))
  | .kwCout => some (.stmt (.write e))
  | _ => none

def stmt : List Value → Option Value
  | [.expr (.assign t v), .token _] => some (.stmt (.assign t v))
  | [.expr (.call f args), .token _] => some (.stmt (.call f args))
  | [.expr p, .token t, .token _] => counted t.kind p
  | [.token t, .token _, .expr e, .token _] => transfer t.kind e
  | [.token t, .token _, .expr c, .token _, .body b] => guarded t.kind c b
  | [.token _, .token _, .expr c, .token _, .body b, .token _, .body e] =>
      some (.stmt (.ifElse c b.decls b.stmts e.decls e.stmts))
  | [.token _, .expr v, .token _] => some (.stmt (.ret (some v)))
  | [.token _, .token _] => some (.stmt (.ret none))
  | _ => none

def assignExpr : List Value → Option Value
  | [.expr t, .token _, .expr v] => some (.expr (.assign t v))
  | _ => none

/-- A form with one operand handed on, or with an operator between two. -/
def binaryExpr : List Value → Option Value
  | [.expr e] => some (.expr e)
  | [.expr l, .token t, .expr r] => (BinaryOp.ofKind? t.kind).map fun op => .expr (.binary op l r)
  | _ => none

def unaryExpr : List Value → Option Value
  | [.expr e] => some (.expr e)
  | [.token t, .expr e] => (UnaryOp.ofKind? t.kind).map fun op => .expr (.unary op e)
  | _ => none

def term : List Value → Option Value
  | [.expr e] => some (.expr e)
  | [.token t] => t.literal?.map .expr
  | [.token _, .expr e, .token _] => some (.expr e)
  | _ => none

def call : List Value → Option Value
  | [.ident f, .token _, .exprs args, .token _] => some (.expr (.call f args))
  | _ => none

def actuals : List Value → Option Value
  | [] => some (.exprs [])
  | [.expr e] => some (.exprs [e])
  | [.expr e, .exprs es] => some (.exprs (e :: es))
  | _ => none

def moreActuals : List Value → Option Value
  | [.token _, .expr e] => some (.exprs [e])
  | [.exprs es, .token _, .expr e] => some (.exprs (es ++ [e]))
  | _ => none

def place : List Value → Option Value
  | [.ident x] => some (.expr (.ident x))
  | [.expr r, .token _, .ident x] => some (.expr (.dot r x))
  | _ => none

end Action

/-- The action of the rules of a nonterminal. -/
def action : Nonterminal → List Value → Option Value
  | .root | .program | .decls => Action.decls
  | .decl => Action.decl
  | .varDecl => Action.varDecl
  | .structDecl => Action.structDecl
  | .varDecls | .declList => Action.varDecls
  | .fnDecl => Action.fnDecl
  | .formals => Action.formals
  | .moreFormals => Action.moreFormals
  | .formal => Action.formal
  | .fnBody | .block => Action.body
  | .stmtList | .stmts => Action.stmts
  | .type => Action.type
  | .stmt => Action.stmt
  | .assignExpr => Action.assignExpr
  | .expr | .orExpr | .andExpr | .relExpr | .addExpr | .mulExpr => Action.binaryExpr
  | .unaryExpr => Action.unaryExpr
  | .term => Action.term
  | .call => Action.call
  | .actuals => Action.actuals
  | .moreActuals => Action.moreActuals
  | .place => Action.place
  | .name => Action.name

/-! ### Derivations -/

/-- `Derives xs ts vs`: the rules derive the tokens `ts` from the symbols `xs`, and the actions
give these symbols the values `vs`. -/
inductive Derives : List Symbol → List Token → List Value → Prop
  | nil : Derives [] [] []
  | token {k xs t ts vs} (hk : t.kind = k) (h : Derives xs ts vs) :
      Derives (.token k :: xs) (t :: ts) (.token t :: vs)
  | part {n rhs ts ws v xs us vs} (hr : ⟨n, rhs⟩ ∈ rules) (hn : Derives rhs ts ws)
      (hv : action n ws = some v) (h : Derives xs us vs) :
      Derives (.part n :: xs) (ts ++ us) (v :: vs)

/-- A whole text is derived from the root; its value lists the declarations of a program. -/
def DerivesProgram (ts : List Token) (ds : List Decl) : Prop :=
  Derives [.part .root] ts [.decls ds]

end Carrot.Grammar
