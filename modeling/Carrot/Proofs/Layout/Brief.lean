import Carrot.Proofs.Layout.Spaced

/-! # Tokens with few parentheses

An expression is written with parentheses only where the table of levels asks for them: an operand
is put in parentheses if it holds together less tightly than its place requires. The levels of the
grammar are those of the table, so the tokens spell the expression.
-/

namespace Carrot

/-! ### Tokens that can be written -/

/-- The token of a kind with one spelling. Where it stands does not matter. -/
def TokenKind.token (k : TokenKind) : Token := ⟨k, k.spelling, .start⟩

def Ident.token (x : Ident) : Token := ⟨.ident, x.name, x.position⟩

theorem Ident.ident_token {x : Ident} (hx : x.IsRaw) : x.token.ident = x := by
  rw [token, Token.ident, ← hx.binding_eq_none]

def Writable (ts : List Token) : Prop := ∀ t ∈ ts, t.word.Writable

section

variable {ts us : List Token}

@[simp] theorem writable_nil : Writable [] := by simp [Writable]

@[simp] theorem writable_append : Writable (ts ++ us) ↔ Writable ts ∧ Writable us :=
  List.forall_mem_append

@[simp] theorem writable_cons {t : Token} :
    Writable (t :: ts) ↔ t.word.Writable ∧ Writable ts := List.forall_mem_cons

@[simp] theorem TokenKind.writable_token {k : TokenKind} (hi : k ≠ .ident) (hn : k ≠ .intLit)
    (hs : k ≠ .strLit) : k.token.word.Writable := .fixed hi hn hs

theorem UnaryOp.writable_token (op : UnaryOp) : op.kind.token.word.Writable := by
  cases op <;> simp [kind]

theorem BinaryOp.writable_token (op : BinaryOp) : op.kind.token.word.Writable := by
  cases op <;> simp [kind]

theorem Guard.writable_token (g : Guard) : g.keyword.token.word.Writable := by
  cases g <;> simp [keyword]

end

theorem Ident.writable_token {x : Ident} (hx : x.IsRaw) : x.token.word.Writable := .name hx.isName

/-! ### The table of levels -/

/-- How tightly the parts of an expression hold together. -/
def Expr.level : Expr → Nat
  | .assign .. => 0
  | .binary .or .. => 1
  | .binary .and .. => 2
  | .binary .eq .. | .binary .ne .. | .binary .lt .. | .binary .gt .. | .binary .le ..
  | .binary .ge .. => 3
  | .binary .add .. | .binary .sub .. => 4
  | .binary .mul .. | .binary .div .. => 5
  | .unary .. => 6
  | .int .. | .str .. | .bool .. | .ident .. | .dot .. | .call .. => 7

/-- The least levels that the left and the right of an operator may have without parentheses. -/
def BinaryOp.operandLevels : BinaryOp → Nat × Nat
  | .or => (1, 2)
  | .and => (2, 3)
  | .eq | .ne | .lt | .gt | .le | .ge => (4, 4)
  | .add | .sub => (4, 5)
  | .mul | .div => (5, 6)

theorem Expr.level_binary (op : BinaryOp) (a b : Expr) : (Expr.binary op a b).level = op.level := by
  cases op <;> rfl

theorem BinaryOp.operandLevels_eq (op : BinaryOp) :
    op.operandLevels = (op.leftLevel, op.rightLevel) := by
  cases op <;> rfl

/-! ### Writing expressions -/

/-- The tokens of an operand where level `n` is required, in parentheses if `e` is below. -/
def Expr.operand (n : Nat) (e : Expr) (ts : List Token) : List Token :=
  if e.level < n then TokenKind.lparen.token :: ts ++ [TokenKind.rparen.token] else ts

mutual

/-- The tokens of an expression, with parentheses only where they are needed. -/
def Expr.tokens : Expr → List Token
  | .int v p => [⟨.intLit, toString v, p⟩]
  | .str s p => [⟨.strLit, s, p⟩]
  | .bool b p => [⟨if b then .kwTrue else .kwFalse, if b then "true" else "false", p⟩]
  | .ident x => [x.token]
  | .dot r f => r.tokens ++ [TokenKind.dot.token, f.token]
  | .assign t v => t.tokens ++ TokenKind.assign.token :: v.operand 0 v.tokens
  | .call f es => f.token :: TokenKind.lparen.token :: Expr.argTokens es ++ [TokenKind.rparen.token]
  | .unary op e => op.kind.token :: e.operand 6 e.tokens
  | .binary op a b =>
    a.operand op.operandLevels.1 a.tokens ++ op.kind.token :: b.operand op.operandLevels.2 b.tokens

def Expr.argTokens : List Expr → List Token
  | [] => []
  | e :: es => e.operand 0 e.tokens ++ Expr.moreArgTokens es

/-- Further arguments, each with a comma in front of it. -/
def Expr.moreArgTokens : List Expr → List Token
  | [] => []
  | e :: es => TokenKind.comma.token :: e.operand 0 e.tokens ++ Expr.moreArgTokens es

end

section

variable {e : Expr} {ts : List Token}

theorem Expr.writable_operand {n : Nat} (h : Writable ts) : Writable (e.operand n ts) := by
  unfold operand
  split <;> simp [h]

/-- What is spelled at its own level is spelled as an operand wherever it stands. -/
theorem ExprPart.Spelled.operand {n : Nat} (h : Spelled ts (expr e.level e)) (hn : n ≤ termLevel) :
    Spelled (e.operand n ts) (expr n e) := by
  unfold Expr.operand
  split
  · exact (Spelled.group rfl (h.mono (Nat.zero_le _)) rfl).mono hn
  · next hlevel => exact h.mono (Nat.not_lt.1 hlevel)

theorem Expr.IsPlace.spelled_tokens : ∀ {p : Expr}, p.IsPlace →
    Writable p.tokens ∧ Expr.PlaceSpelled p.tokens p
  | .ident x, hx => by
    have h := Expr.PlaceSpelled.ident (x := x.token) rfl
    rw [Ident.ident_token hx] at h
    exact ⟨by simp [tokens, Ident.writable_token hx], h⟩
  | .dot r f, hp => by
    obtain ⟨hts, hr⟩ := hp.1.spelled_tokens
    have h := hr.dot (d := TokenKind.dot.token) (x := f.token) rfl rfl
    rw [Ident.ident_token hp.2] at h
    exact ⟨by simp [tokens, hts, Ident.writable_token hp.2], h⟩

end

namespace ExprPart

mutual

/-- The tokens of an expression can be written, and they spell it at its own level. -/
theorem spelled_tokens : ∀ {e : Expr}, e.WellFormed →
    Writable e.tokens ∧ Spelled e.tokens (expr e.level e)
  | .int v p, h => by
    obtain ⟨n, rfl⟩ := Int.eq_ofNat_of_zero_le h.1
    have hn : n ≤ maxInt := Int.ofNat_le.1 h.2
    have hliteral : Token.literal? ⟨.intLit, n.repr, p⟩ = some (.int n p) := by
      rw [Token.literal?, Token.intValue, decimalValue_repr, Nat.min_eq_left hn]
    have hw : TokenWord.Writable ⟨.intLit, n.repr⟩ := .number hn
    exact ⟨writable_cons.2 ⟨hw, writable_nil⟩, .literal hliteral⟩
  | .str s p, h => by
    have hw : TokenWord.Writable ⟨.strLit, s⟩ := .string h
    exact ⟨writable_cons.2 ⟨hw, writable_nil⟩, .literal rfl⟩
  | .bool true p, _ => by
    have hw : TokenKind.kwTrue.word.Writable := .fixed nofun nofun nofun
    exact ⟨writable_cons.2 ⟨hw, writable_nil⟩, .literal rfl⟩
  | .bool false p, _ => by
    have hw : TokenKind.kwFalse.word.Writable := .fixed nofun nofun nofun
    exact ⟨writable_cons.2 ⟨hw, writable_nil⟩, .literal rfl⟩
  | .ident x, h => by
    obtain ⟨hts, hp⟩ := Expr.IsPlace.spelled_tokens (p := .ident x) h
    exact ⟨hts, .place hp⟩
  | .dot r f, h => by
    obtain ⟨hts, hp⟩ := Expr.IsPlace.spelled_tokens (p := .dot r f) h
    exact ⟨hts, .place hp⟩
  | .assign t v, h => by
    obtain ⟨hts, ht⟩ := h.1.spelled_tokens
    obtain ⟨hus, hv⟩ := spelled_tokens h.2
    refine ⟨by simp [Expr.tokens, hts, Expr.writable_operand hus], ?_⟩
    exact .assign ht rfl (hv.operand (Nat.zero_le _))
  | .call f es, h => by
    obtain ⟨hts, hargs⟩ := spelled_argTokens h.2
    refine ⟨by simp [Expr.tokens, hts, Ident.writable_token h.1], ?_⟩
    have := Spelled.call (f := f.token) (l := TokenKind.lparen.token) rfl rfl hargs
      (r := TokenKind.rparen.token) rfl
    rwa [Ident.ident_token h.1] at this
  | .unary op e, h => by
    obtain ⟨hts, he⟩ := spelled_tokens (e := e) h
    have hop : UnaryOp.ofKind? op.kind.token.kind = some op := unaryOfKind?_kind op
    refine ⟨by simp [Expr.tokens, op.writable_token, Expr.writable_operand hts], ?_⟩
    exact .unary hop (he.operand (by decide))
  | .binary op a b, h => by
    obtain ⟨hts, ha⟩ := spelled_tokens h.1
    obtain ⟨hus, hb⟩ := spelled_tokens h.2
    have hop : BinaryOp.ofKind? op.kind.token.kind = some op := binaryOfKind?_kind op
    rw [Expr.tokens, Expr.level_binary, op.operandLevels_eq]
    refine ⟨by simp [op.writable_token, Expr.writable_operand, hts, hus], ?_⟩
    exact .binary (ha.operand (level_le_termLevel op).1) hop (hb.operand (level_le_termLevel op).2)

theorem spelled_argTokens : ∀ {es : List Expr}, Expr.ListWellFormed es →
    Writable (Expr.argTokens es) ∧ Spelled (Expr.argTokens es) (args es)
  | [], _ => ⟨by simp [Expr.argTokens], .noArgs⟩
  | e :: es, h => by
    obtain ⟨hts, he⟩ := spelled_tokens h.1
    obtain ⟨hus, hes⟩ :=
      spelled_moreArgTokens h.2 (.firstArg (he.operand (Nat.zero_le _))) (by simp)
    exact ⟨by simp [Expr.argTokens, Expr.writable_operand hts, hus], hes⟩

/-- Further arguments behind some. -/
theorem spelled_moreArgTokens : ∀ {es es₀ : List Expr} {ts : List Token}, Expr.ListWellFormed es →
    Spelled ts (args es₀) → es₀ ≠ [] → Writable (Expr.moreArgTokens es) ∧
      Spelled (ts ++ Expr.moreArgTokens es) (args (es₀ ++ es))
  | [], es₀, ts, _, h₀, _ => ⟨by simp [Expr.moreArgTokens], by simpa [Expr.moreArgTokens] using h₀⟩
  | e :: es, es₀, ts, h, h₀, hne => by
    obtain ⟨hts, he⟩ := spelled_tokens h.1
    obtain ⟨hus, hes⟩ := spelled_moreArgTokens h.2
      (.nextArg h₀ hne (c := TokenKind.comma.token) rfl (he.operand (Nat.zero_le _))) (by simp)
    refine ⟨by simp [Expr.moreArgTokens, Expr.writable_operand hts, hus], ?_⟩
    simpa [Expr.moreArgTokens] using hes

end

end ExprPart

/-! ### Writing types and formals -/

def TypeExpr.tokens : TypeExpr → List Token
  | .int => [TokenKind.kwInt.token]
  | .bool => [TokenKind.kwBool.token]
  | .void => [TokenKind.kwVoid.token]
  | .struct tag => [TokenKind.kwStruct.token, tag.token]

theorem TypeExpr.spelled_tokens {ty : TypeExpr} (h : ty.WellFormed) :
    Writable ty.tokens ∧ TypeExpr.Spelled ty.tokens ty := by
  cases ty with
  | int => exact ⟨by simp [tokens], .word rfl⟩
  | bool => exact ⟨by simp [tokens], .word rfl⟩
  | void => exact ⟨by simp [tokens], .word rfl⟩
  | struct tag =>
    refine ⟨by simp [tokens, Ident.writable_token h], ?_⟩
    have := TypeExpr.Spelled.struct (s := TokenKind.kwStruct.token) (x := tag.token) rfl rfl
    rwa [Ident.ident_token h] at this

def Formal.tokens (f : Formal) : List Token := f.type.tokens ++ [f.name.token]

theorem Formal.spelled_tokens {f : Formal} (h : f.WellFormed) :
    Writable f.tokens ∧ Formal.Spelled f.tokens f := by
  obtain ⟨hts, hty⟩ := TypeExpr.spelled_tokens h.type
  refine ⟨by simp [tokens, hts, Ident.writable_token h.name], ?_⟩
  have := Formal.Spelled.mk hty (x := f.name.token) rfl
  rwa [Ident.ident_token h.name] at this

end Carrot
