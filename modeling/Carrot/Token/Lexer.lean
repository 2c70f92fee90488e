import Carrot.Token

/-! # From characters to tokens

At each place the first class that fits is taken, as long as it can be: string
literals, words, comments, blanks, numbers, then symbols. Comments and blanks are
layout and leave no token. Cutting stops at the first character that starts
nothing. Only ASCII letters and digits form words and numbers.
-/

namespace Carrot

/-- What a run of characters is: a token of some kind, or layout. -/
inductive Lexeme where
  | token (kind : TokenKind)
  | layout
  deriving DecidableEq, Repr

namespace Lexeme

def isDigit (c : Char) : Bool := '0' ≤ c && c ≤ '9'

def isLetter (c : Char) : Bool := ('a' ≤ c && c ≤ 'z') || ('A' ≤ c && c ≤ 'Z') || c = '_'

def isWordChar (c : Char) : Bool := isLetter c || isDigit c

def isBlank (c : Char) : Bool :=
  c = ' ' || c = '\t' || c = '\x0c' || c = '\r' || c = '\n'

def isEscape (c : Char) : Bool :=
  c = 'n' || c = 't' || c = '\'' || c = '"' || c = '?' || c = '\\'

/-- How many characters of a string literal follow its opening quote, if it is closed on
its line and all its escapes are known. -/
def stringTail? : List Char → Option Nat
  | [] => none
  | ['\\'] => none
  | '"' :: _ => some 1
  | '\n' :: _ => none
  | '\\' :: c :: cs => if isEscape c then (stringTail? cs).map (· + 2) else none
  | _ :: cs => (stringTail? cs).map (· + 1)

def span (p : Char → Bool) (cs : List Char) : Nat := (cs.takeWhile p).length

/-- The comment that starts at `c`, as the number of characters after `c`. -/
def commentTail? (c : Char) (cs : List Char) : Option Nat :=
  if c = '#' || (c = '/' && cs.head? = some '/') then some (span (· ≠ '\n') cs) else none

def symbol? (cs : List Char) : Option (TokenKind × Nat) :=
  (TokenKind.symbols.find? fun s => s.1.isPrefixOf cs).map fun s => (s.2, s.1.length - 1)

/-- The lexeme that starts with `c` when `cs` follows, and how many of `cs` belong to it. -/
def first? (c : Char) (cs : List Char) : Option (Lexeme × Nat) :=
  if c = '"' then (stringTail? cs).map fun n => (.token .strLit, n)
  else if isLetter c then
    let n := span isWordChar cs
    some (.token (.ofWord (String.ofList (c :: cs.take n))), n)
  else match commentTail? c cs with
    | some n => some (.layout, n)
    | none =>
      if isBlank c then some (.layout, span isBlank cs)
      else if isDigit c then some (.token .intLit, span isDigit cs)
      else (symbol? (c :: cs)).map fun s => (.token s.1, s.2)

/-- The tokens this lexeme leaves when it is written as `text` at `p`. -/
def tokens (l : Lexeme) (text : List Char) (p : Position) : List Token :=
  match l with
  | .token k => [⟨k, String.ofList text, p⟩]
  | .layout => []

end Lexeme

/-- A text cut into tokens, up to its end or to a character that starts nothing. -/
structure Tokens where
  tokens : List Token
  stop : Option (Char × Position)
  deriving DecidableEq, Repr

namespace Tokens

def scan (p : Position) : List Char → Tokens
  | [] => ⟨[], none⟩
  | c :: cs =>
    match Lexeme.first? c cs with
    | none => ⟨[], some (c, p)⟩
    | some (l, n) =>
      let text := c :: cs.take n
      let rest := scan (p.after text) (cs.drop n)
      ⟨l.tokens text p ++ rest.tokens, rest.stop⟩
  termination_by cs => cs.length
  decreasing_by simp only [List.length_drop, List.length_cons]; omega

def ofText (cs : List Char) : Tokens := scan .start cs

end Tokens

end Carrot
