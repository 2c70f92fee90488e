import Carrot.Grammar.Automaton
import Carrot.Partial.Program
import Carrot.Screening

/-! # From a text to a program

A text is screened, cut into tokens and read. The first token that cannot come next
is reported; a character that starts no token counts only if all tokens before it
could be read. Numbers are looked at last, in the order of the text: one that is too
large is clamped with a warning, one that is too long to be converted is an error.
-/

namespace Carrot.Source

/-- The longest number that is converted. -/
def maxDigits : Nat := 4300

def tooLong (n : Nat) : SyntaxError :=
  .general ("Error trying to process rule \"int_lit\":\n\nExceeds the limit ("
    ++ toString maxDigits ++ " digits) for integer string conversion: value has "
    ++ toString n ++ " digits; use sys.set_int_max_str_digits() to increase the limit")

/-- The error for a terminal that cannot come behind the tokens before it. -/
def unexpected (position : Option Position) (found : Found) (tokens : List Token) : SyntaxError :=
  .unexpected position found ((Grammar.expected (tokens.map (·.kind))).map Terminal.name)

def readTokens (ts : Tokens) : Except SyntaxError (List Decl) :=
  match PartialProgram.start.read ts.tokens with
  | .error t => .error (unexpected (some t.position) (.token t) ts.tokens)
  | .ok p =>
    match ts.stop, p.complete? with
    | some (c, pos), _ => .error (.invalidCharacter pos c)
    | none, some decls => .ok decls
    | none, none =>
      .error (unexpected (ts.tokens.getLast?.map (·.position)) .endOfText ts.tokens)

/-- Looks at the numbers among the tokens: the warnings up to the first that is too long, and
the error for that one. -/
def checkNumbers : List Token → List Diagnostic × Option SyntaxError
  | [] => ([], none)
  | t :: ts =>
    if t.kind = .intLit then
      if maxDigits < t.text.length then ([], some (tooLong t.text.length))
      else
        let (ds, e) := checkNumbers ts
        if maxInt < decimalValue t.text.toList then
          (.warning t.position .intLiteralTooLarge :: ds, e)
        else (ds, e)
    else checkNumbers ts

/-- What reading a text gives: warnings, and a program or the error that prevents it. -/
structure Parsed where
  warnings : List Diagnostic
  result : Except SyntaxError Program

def Parsed.error (e : SyntaxError) : Parsed := ⟨[], .error e⟩

def parse (text : String) (file : String := stdinName) : Parsed :=
  match Screening.check text.toList with
  | .error e => .error e
  | .ok () =>
    let tokens := Tokens.ofText text.toList
    match readTokens tokens with
    | .error e => .error e
    | .ok decls =>
      let (warnings, failure) := checkNumbers tokens.tokens
      ⟨warnings, match failure with
        | some e => .error e
        | none => .ok ⟨decls, file⟩⟩

end Carrot.Source
