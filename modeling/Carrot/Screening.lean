import Carrot.SyntaxError
import Carrot.Text.Lines
import Carrot.Token.Lexer

/-! # Screening a text before it is read

A quick pass, line by line, over brackets and string literals only: its messages
for a forgotten bracket or quote are clearer than those of the grammar. A comment
hides the rest of its line. The first offence in reading order is reported;
brackets that are never closed are noticed last.
-/

namespace Carrot.Screening

/-- Brackets that are open, the innermost first, each with its place. -/
abbrev Open := List (Char × Position)

def closing? (c : Char) : Option Char :=
  if c = '(' then some ')' else if c = '\x7b' then some '\x7d' else none

def isClosing (c : Char) : Bool := c = ')' || c = '\x7d'

def bracket (p : Position) (c : Char) (stack : Open) : Except SyntaxError Open :=
  if (closing? c).isSome then .ok ((c, p) :: stack)
  else if isClosing c then
    match stack with
    | (o, _) :: rest => if closing? o = some c then .ok rest else .error (.unmatchedBracket p c)
    | [] => .error (.unmatchedBracket p c)
  else .ok stack

/-- Screens the rest of a line from column `col` on; `quote` is the place of the string
literal that is open there, if one is. -/
def line (row col : Int) (quote : Option Position) (stack : Open) :
    List Char → Except SyntaxError Open
  | [] =>
    match quote with
    | some q => .error (.unclosedString q)
    | none => .ok stack
  | c :: cs =>
    match quote with
    | some q =>
      if c = '\\' then
        match cs with
        | [] => .error (.badEscape ⟨row, col⟩ none)
        | e :: rest =>
          if Lexeme.isEscape e then line row (col + 2) (some q) stack rest
          else .error (.badEscape ⟨row, col⟩ (some e))
      else line row (col + 1) (if c = '"' then none else some q) stack cs
    | none =>
      -- A comment takes the rest of the line.
      if c = '#' || (c = '/' && cs.head? = some '/') then .ok stack
      else if c = '"' then line row (col + 1) (some ⟨row, col⟩) stack cs
      else
        match bracket ⟨row, col⟩ c stack with
        | .error e => .error e
        | .ok stack => line row (col + 1) none stack cs

def lines (row : Int) (stack : Open) : List (List Char) → Except SyntaxError Open
  | [] => .ok stack
  | l :: ls =>
    match line row 1 none stack l with
    | .error e => .error e
    | .ok stack => lines (row + 1) stack ls

/-- The first offence in a text, if there is one. -/
def check (text : List Char) : Except SyntaxError Unit :=
  match lines 1 [] (Text.lines text) with
  | .error e => .error e
  | .ok [] => .ok ()
  | .ok ((c, p) :: _) => .error (.unmatchedBracket p c)

end Carrot.Screening
