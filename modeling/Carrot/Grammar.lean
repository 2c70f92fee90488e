import Carrot.Token

/-! # The grammar

The rules of the language as data: each nonterminal with the sequences of symbols
that it may stand for. Repetition is written with left recursive rules, and a
repetition that may be empty has a rule of its own for that.
-/

namespace Carrot.Grammar

/-- The parts of a text. Each level of binding strength has an expression of its own, and a place is
a name or a chain of dots. -/
inductive Nonterminal where
  | root | program | decls | decl | varDecl | structDecl | varDecls | fnDecl
  | formals | moreFormals | formal | fnBody | declList | stmtList | stmts | type | stmt | block
  | expr | assignExpr | orExpr | andExpr | relExpr | addExpr | mulExpr | unaryExpr | term
  | call | actuals | moreActuals | place | name
  deriving DecidableEq, Repr

inductive Symbol where
  | token (kind : TokenKind)
  | part (n : Nonterminal)
  deriving DecidableEq, Repr

structure Rule where
  lhs : Nonterminal
  rhs : List Symbol
  deriving DecidableEq, Repr

section

open Carrot.Grammar.Symbol

def typeRules : List Rule :=
  [⟨.type, [token .kwInt]⟩, ⟨.type, [token .kwBool]⟩, ⟨.type, [token .kwVoid]⟩,
    ⟨.type, [token .kwStruct, part .name]⟩, ⟨.name, [token .ident]⟩]

def declRules : List Rule :=
  [⟨.program, [part .decls]⟩, ⟨.program, []⟩,
    ⟨.decls, [part .decl]⟩, ⟨.decls, [part .decls, part .decl]⟩,
    ⟨.decl, [part .varDecl]⟩, ⟨.decl, [part .fnDecl]⟩, ⟨.decl, [part .structDecl]⟩,
    ⟨.varDecl, [part .type, part .name, token .semicolon]⟩,
    ⟨.structDecl, [token .kwStruct, part .name, token .lbrace, part .varDecls, token .rbrace,
      token .semicolon]⟩,
    ⟨.structDecl, [token .kwStruct, part .name, token .lbrace, part .varDecls, token .rbrace]⟩,
    ⟨.varDecls, [part .varDecl]⟩, ⟨.varDecls, [part .varDecls, part .varDecl]⟩,
    ⟨.fnDecl, [part .type, part .name, token .lparen, part .formals, token .rparen,
      part .fnBody]⟩,
    ⟨.formals, [part .formal, part .moreFormals]⟩, ⟨.formals, [part .formal]⟩, ⟨.formals, []⟩,
    ⟨.moreFormals, [token .comma, part .formal]⟩,
    ⟨.moreFormals, [part .moreFormals, token .comma, part .formal]⟩,
    ⟨.formal, [part .type, part .name]⟩,
    ⟨.fnBody, [token .lbrace, part .declList, part .stmtList, token .rbrace]⟩,
    ⟨.declList, [part .varDecls]⟩, ⟨.declList, []⟩,
    ⟨.stmtList, [part .stmts]⟩, ⟨.stmtList, []⟩,
    ⟨.stmts, [part .stmt]⟩, ⟨.stmts, [part .stmts, part .stmt]⟩]

def stmtRules : List Rule :=
  [⟨.stmt, [part .assignExpr, token .semicolon]⟩,
    ⟨.stmt, [part .place, token .increment, token .semicolon]⟩,
    ⟨.stmt, [part .place, token .decrement, token .semicolon]⟩,
    ⟨.stmt, [token .kwCin, token .shiftRight, part .place, token .semicolon]⟩,
    ⟨.stmt, [token .kwCout, token .shiftLeft, part .expr, token .semicolon]⟩,
    ⟨.stmt, [token .kwIf, token .lparen, part .expr, token .rparen, part .block]⟩,
    ⟨.stmt, [token .kwIf, token .lparen, part .expr, token .rparen, part .block,
      token .kwElse, part .block]⟩,
    ⟨.stmt, [token .kwWhile, token .lparen, part .expr, token .rparen, part .block]⟩,
    ⟨.stmt, [token .kwRepeat, token .lparen, part .expr, token .rparen, part .block]⟩,
    ⟨.stmt, [part .call, token .semicolon]⟩,
    ⟨.stmt, [token .kwReturn, part .expr, token .semicolon]⟩,
    ⟨.stmt, [token .kwReturn, token .semicolon]⟩,
    ⟨.block, [token .lbrace, part .declList, part .stmtList, token .rbrace]⟩]

def exprRules : List Rule :=
  [⟨.expr, [part .assignExpr]⟩, ⟨.expr, [part .orExpr]⟩,
    ⟨.assignExpr, [part .place, token .assign, part .expr]⟩,
    ⟨.orExpr, [part .orExpr, token .or, part .andExpr]⟩, ⟨.orExpr, [part .andExpr]⟩,
    ⟨.andExpr, [part .andExpr, token .and, part .relExpr]⟩, ⟨.andExpr, [part .relExpr]⟩,
    ⟨.relExpr, [part .addExpr, token .equal, part .addExpr]⟩,
    ⟨.relExpr, [part .addExpr, token .notEqual, part .addExpr]⟩,
    ⟨.relExpr, [part .addExpr, token .less, part .addExpr]⟩,
    ⟨.relExpr, [part .addExpr, token .greater, part .addExpr]⟩,
    ⟨.relExpr, [part .addExpr, token .lessEqual, part .addExpr]⟩,
    ⟨.relExpr, [part .addExpr, token .greaterEqual, part .addExpr]⟩,
    ⟨.relExpr, [part .addExpr]⟩,
    ⟨.addExpr, [part .addExpr, token .plus, part .mulExpr]⟩,
    ⟨.addExpr, [part .addExpr, token .minus, part .mulExpr]⟩, ⟨.addExpr, [part .mulExpr]⟩,
    ⟨.mulExpr, [part .mulExpr, token .times, part .unaryExpr]⟩,
    ⟨.mulExpr, [part .mulExpr, token .divide, part .unaryExpr]⟩, ⟨.mulExpr, [part .unaryExpr]⟩,
    ⟨.unaryExpr, [token .minus, part .unaryExpr]⟩, ⟨.unaryExpr, [token .not, part .unaryExpr]⟩,
    ⟨.unaryExpr, [part .term]⟩,
    ⟨.term, [part .place]⟩, ⟨.term, [token .intLit]⟩, ⟨.term, [token .strLit]⟩,
    ⟨.term, [token .kwTrue]⟩, ⟨.term, [token .kwFalse]⟩,
    ⟨.term, [token .lparen, part .expr, token .rparen]⟩, ⟨.term, [part .call]⟩,
    ⟨.call, [part .name, token .lparen, part .actuals, token .rparen]⟩,
    ⟨.actuals, [part .expr, part .moreActuals]⟩, ⟨.actuals, [part .expr]⟩, ⟨.actuals, []⟩,
    ⟨.moreActuals, [token .comma, part .expr]⟩,
    ⟨.moreActuals, [part .moreActuals, token .comma, part .expr]⟩,
    ⟨.place, [part .name]⟩, ⟨.place, [part .place, token .dot, part .name]⟩]

end

/-- All rules; the first one only says where a text starts. -/
def rules : List Rule :=
  ⟨.root, [.part .program]⟩ :: declRules ++ typeRules ++ stmtRules ++ exprRules

end Carrot.Grammar
