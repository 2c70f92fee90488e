import Carrot.Position

/-! # Tokens

The kinds of token, how each is spelled and how messages name it. Keywords and
symbols have one spelling each; identifiers and literals carry their text.
-/

namespace Carrot

inductive TokenKind where
  | ident | intLit | strLit
  | kwTrue | kwFalse | kwInt | kwBool | kwVoid | kwStruct | kwCin | kwCout
  | kwIf | kwElse | kwWhile | kwRepeat | kwReturn
  | increment | decrement | shiftRight | shiftLeft
  | and | or | equal | notEqual | lessEqual | greaterEqual
  | semicolon | comma | dot | lparen | rparen | lbrace | rbrace
  | assign | plus | minus | times | divide | not | less | greater
  deriving DecidableEq, Repr

/-- A token with the text it was written as and the place it starts at. -/
structure Token where
  kind : TokenKind
  text : String
  position : Position
  deriving DecidableEq, Repr

namespace TokenKind

def keywords : List (String × TokenKind) :=
  [("int", .kwInt), ("bool", .kwBool), ("void", .kwVoid), ("true", .kwTrue), ("false", .kwFalse),
    ("struct", .kwStruct), ("cin", .kwCin), ("cout", .kwCout), ("if", .kwIf), ("else", .kwElse),
    ("while", .kwWhile), ("repeat", .kwRepeat), ("return", .kwReturn)]

/-- The kind of a word: its keyword, or an identifier. -/
def ofWord (w : String) : TokenKind := (keywords.lookup w).getD .ident

/-- Symbols, longer spellings first, so that the first one that fits is the longest. -/
def symbols : List (List Char × TokenKind) :=
  [(['+', '+'], .increment), (['-', '-'], .decrement), (['>', '>'], .shiftRight),
    (['<', '<'], .shiftLeft), (['&', '&'], .and), (['|', '|'], .or), (['=', '='], .equal),
    (['!', '='], .notEqual), (['<', '='], .lessEqual), (['>', '='], .greaterEqual),
    ([';'], .semicolon), ([','], .comma), (['.'], .dot), (['('], .lparen), ([')'], .rparen),
    (['\x7b'], .lbrace), (['\x7d'], .rbrace), (['='], .assign), (['+'], .plus), (['-'], .minus),
    (['*'], .times), (['/'], .divide), (['!'], .not), (['<'], .less), (['>'], .greater)]

def all : List TokenKind :=
  [.ident, .intLit, .strLit] ++ keywords.map (·.2) ++ symbols.map (·.2)

theorem mem_all (k : TokenKind) : k ∈ all := by cases k <;> decide

/-- The formal name of a kind, by which lists of kinds are sorted. -/
def name : TokenKind → String
  | .ident => "ID" | .intLit => "INTLITERAL" | .strLit => "STRINGLITERAL"
  | .kwTrue => "TRUE" | .kwFalse => "FALSE" | .kwInt => "INT" | .kwBool => "BOOL"
  | .kwVoid => "VOID" | .kwStruct => "STRUCT" | .kwCin => "CIN" | .kwCout => "COUT"
  | .kwIf => "IF" | .kwElse => "ELSE" | .kwWhile => "WHILE" | .kwRepeat => "REPEAT"
  | .kwReturn => "RETURN"
  | .increment => "__ANON_0" | .decrement => "__ANON_1"
  | .shiftRight => "__ANON_2" | .shiftLeft => "__ANON_3"
  | .and => "AND" | .or => "OR" | .equal => "EQUALS" | .notEqual => "NOTEQUALS"
  | .lessEqual => "LESSEQ" | .greaterEqual => "GREATEREQ"
  | .semicolon => "SEMICOLON" | .comma => "COMMA" | .dot => "DOT"
  | .lparen => "LPAR" | .rparen => "RPAR" | .lbrace => "LBRACE" | .rbrace => "RBRACE"
  | .assign => "EQUAL" | .plus => "PLUS" | .minus => "MINUS" | .times => "TIMES"
  | .divide => "DIVIDE" | .not => "NOT" | .less => "LESS" | .greater => "GREATER"

end TokenKind

/-- What may come next in a text: a token of some kind, or the end. -/
inductive Terminal where
  | token (kind : TokenKind)
  | endOfText
  deriving DecidableEq, Repr

namespace Terminal

def endName : String := "$END"

def name : Terminal → String
  | .token k => k.name
  | .endOfText => endName

/-- Wordings that replace a formal name in messages; other names stand for themselves. -/
def wordings : List (String × String) :=
  [("ID", "an identifier"), ("INTLITERAL", "an integer literal"),
    ("STRINGLITERAL", "a string literal"), ("TRUE", "'true'"), ("FALSE", "'false'"),
    ("SEMICOLON", "a semicolon ';'"), ("COMMA", "a comma ','"), ("DOT", "a dot '.'"),
    ("LPAR", "an opening parenthesis '('"), ("RPAR", "a closing parenthesis ')'"),
    ("LBRACE", "an opening brace '\x7b'"), ("RBRACE", "a closing brace '\x7d'"),
    ("EQUAL", "an assignment '='"), ("INT", "the 'int' keyword"), ("BOOL", "the 'bool' keyword"),
    ("VOID", "the 'void' keyword"), ("STRUCT", "the 'struct' keyword"),
    (endName, "the end of the file")]

def wording (name : String) : String := (wordings.lookup name).getD name

end Terminal

end Carrot
