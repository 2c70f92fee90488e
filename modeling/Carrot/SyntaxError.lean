import Carrot.Diagnostic
import Carrot.Token

/-! # Syntax errors

What can be wrong with a text, by cause. Each cause knows its code, its place and
the details that fill the wording of its message.
-/

namespace Carrot

/-- A terminal that cannot stand where it was found: a token with its text, or the end. -/
structure Found where
  text : String
  isEnd : Bool
  deriving DecidableEq, Repr

namespace Found

def token (t : Token) : Found := ⟨t.text, false⟩

def endOfText : Found := ⟨"", true⟩

def remark (f : Found) : String :=
  if f.isEnd then "but reached the end of the file instead."
  else "but found '" ++ f.text ++ "' instead."

end Found

inductive SyntaxError where
  | unmatchedBracket (position : Position) (bracket : Char)
  | unclosedString (position : Position)
  /-- A backslash before a character that may not follow it, or at the end of a line. -/
  | badEscape (position : Position) (escaped : Option Char)
  /-- A terminal that cannot come next, with the formal names of those that can. -/
  | unexpected (position : Option Position) (found : Found) (expected : List String)
  | invalidCharacter (position : Position) (character : Char)
  | general (reason : String)
  deriving DecidableEq, Repr

namespace SyntaxError

/-- A place given as two numbers; lines count from one. -/
def place? (line column : Option Int) : Option Position :=
  match line, column with
  | some l, some c => if 0 < l then some ⟨l, c⟩ else none
  | _, _ => none

/-- Inserts a name in code point order, unless it is there. -/
def insertName (n : String) : List String → List String
  | [] => [n]
  | m :: ms => if n < m then n :: m :: ms else if n = m then m :: ms else m :: insertName n ms

/-- The names without repetition in code point order. -/
def sortNames (ns : List String) : List String := ns.foldr insertName []

/-- A list of alternatives: all but the last after commas, the last after "or". -/
def alternatives : List String → String
  | [] => ""
  | [a] => a
  | [a, b] => a ++ " or " ++ b
  | a :: as => a ++ ", " ++ alternatives as

/-- What was expected and what was there. -/
def expectation (found : Found) (expected : List String) : String :=
  match (sortNames expected).map Terminal.wording with
  | [] => "Found unexpected token '" ++ found.text ++ "'."
  | [a] => "Expected " ++ a ++ ", " ++ found.remark
  | as => "Expected one of: " ++ alternatives as ++ ", " ++ found.remark

def code : SyntaxError → Code
  | .unmatchedBracket .. => .unmatchedBracket
  | .unclosedString .. => .unclosedString
  | .badEscape .. => .badEscape
  | .unexpected .. => .unexpectedToken
  | .invalidCharacter .. => .invalidCharacter
  | .general .. => .parsingError

def position? : SyntaxError → Option Position
  | .unmatchedBracket p _ | .unclosedString p | .badEscape p _ | .invalidCharacter p _ => some p
  | .unexpected p _ _ => p
  | .general _ => none

def details : SyntaxError → Details
  | .unmatchedBracket _ c | .invalidCharacter _ c => [(Code.charDetail, c.toString)]
  | .unclosedString _ => []
  | .badEscape _ c => [(Code.charDetail, (c.map Char.toString).getD "")]
  | .unexpected _ f ns => [(Code.textDetail, expectation f ns)]
  | .general r => [(Code.textDetail, r)]

/-- The notice that ends a run over `file` because of this error. -/
def notice (e : SyntaxError) (file : Option String) : Notice :=
  ⟨e.code, e.position?, file, e.details⟩

/-- Every syntax error can be written out. -/
theorem missing?_notice (e : SyntaxError) (file : Option String) :
    (e.notice file).missing? = none := by
  cases e <;> rfl

end SyntaxError

end Carrot
