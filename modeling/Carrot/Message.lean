/-! # Messages

Every message has a code. Its wording is fixed text with named gaps, which the
details of an occurrence fill.
-/

namespace Carrot

/-- A part of a wording: fixed text, or a gap for the detail of that name. -/
inductive Piece where
  | text (s : String)
  | gap (name : String)
  deriving DecidableEq, Repr

/-- The named details of one occurrence. -/
abbrev Details := List (String × String)

namespace Piece

def source : Piece → String
  | .text s => s
  | .gap n => "\x7b" ++ n ++ "\x7d"

/-- A piece with its gap filled; a missing detail leaves nothing. -/
def fill (d : Details) : Piece → String
  | .text s => s
  | .gap n => (d.lookup n).getD ""

/-- The detail that a piece needs and does not find. -/
def missing? (d : Details) : Piece → Option String
  | .text _ => none
  | .gap n => if (d.lookup n).isSome then none else some n

end Piece

inductive Code where
  | multiplyDeclared | undeclared | voidNonFunction | invalidStructType
  | dotAccessNonStruct | invalidStructField
  | intLiteralTooLarge
  | unmatchedBracket | unclosedString | badEscape
  | unexpectedToken | invalidCharacter | parsingError
  deriving DecidableEq, Repr

namespace Code

def all : List Code :=
  [.multiplyDeclared, .undeclared, .voidNonFunction, .invalidStructType, .dotAccessNonStruct,
    .invalidStructField, .intLiteralTooLarge, .unmatchedBracket, .unclosedString, .badEscape,
    .unexpectedToken, .invalidCharacter, .parsingError]

def name : Code → String
  | .multiplyDeclared => "MULTIPLY_DECLARED"
  | .undeclared => "UNDECLARED"
  | .voidNonFunction => "VOID_NON_FUNCTION"
  | .invalidStructType => "INVALID_STRUCT_TYPE"
  | .dotAccessNonStruct => "DOT_ACCESS_NON_STRUCT"
  | .invalidStructField => "INVALID_STRUCT_FIELD"
  | .intLiteralTooLarge => "INT_LITERAL_TOO_LARGE"
  | .unmatchedBracket => "SYNTAX_UNMATCHED_BRACKET"
  | .unclosedString => "SYNTAX_UNCLOSED_STRING"
  | .badEscape => "SYNTAX_BAD_ESCAPE"
  | .unexpectedToken => "SYNTAX_UNEXPECTED_TOKEN"
  | .invalidCharacter => "SYNTAX_INVALID_CHARACTER"
  | .parsingError => "SYNTAX_PARSING_ERROR"

def ofName? (s : String) : Option Code := all.find? (·.name == s)

/-- The names of the two details that wordings use. -/
def charDetail : String := "char"

def textDetail : String := "details"

def wording : Code → List Piece
  | .multiplyDeclared => [.text "Multiply declared identifier"]
  | .undeclared => [.text "Undeclared identifier"]
  | .voidNonFunction => [.text "Non-function declared void"]
  | .invalidStructType => [.text "Invalid name of struct type"]
  | .dotAccessNonStruct => [.text "Dot-access of non-struct type"]
  | .invalidStructField => [.text "Invalid struct field name"]
  | .intLiteralTooLarge => [.text "integer literal too large; using max value"]
  | .unmatchedBracket =>
      [.text "Syntax Error: Unmatched bracket '", .gap charDetail, .text "'."]
  | .unclosedString => [.text "Syntax Error: Unterminated string literal."]
  | .badEscape =>
      [.text "Syntax Error: String literal with bad escaped character '\\", .gap charDetail,
        .text "'."]
  | .unexpectedToken => [.text "Syntax Error: Invalid syntax. ", .gap textDetail]
  | .invalidCharacter =>
      [.text "Syntax Error: Illegal character '", .gap charDetail, .text "'."]
  | .parsingError =>
      [.text "Syntax Error: A general parsing error occurred. Details: ", .gap textDetail]

def message (c : Code) : String := String.join (c.wording.map Piece.source)

def fill (c : Code) (d : Details) : String := String.join (c.wording.map (Piece.fill d))

/-- The first detail that the wording needs and `d` lacks. -/
def missing? (c : Code) (d : Details) : Option String := c.wording.findSome? (Piece.missing? d)

end Code

end Carrot
