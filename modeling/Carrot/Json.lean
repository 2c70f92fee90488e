/-! # JSON values and their text

An object lists its members in the order in which they are written. The text is
ASCII: a character outside it is written as one or two units of four hexadecimal
digits. A value is written on one line, or with every item on a line of its own,
indented by its depth; an empty list or object stays together either way.
-/

namespace Carrot

inductive Json where
  | null
  | bool (b : Bool)
  | int (i : Int)
  | str (s : String)
  | arr (items : List Json)
  | obj (members : List (String × Json))
  deriving Repr, Inhabited

namespace Json

def hexDigit (n : Nat) : Char :=
  if n < 10 then Char.ofNat ('0'.toNat + n) else Char.ofNat ('a'.toNat + (n - 10))

/-- A unit of sixteen bits as four digits after its mark. -/
def unit (n : Nat) : List Char :=
  ['\\', 'u', hexDigit (n / 4096 % 16), hexDigit (n / 256 % 16), hexDigit (n / 16 % 16),
    hexDigit (n % 16)]

/-- A character as a string writes it; beyond sixteen bits it takes two units. -/
def escape (c : Char) : List Char :=
  if c = '"' then ['\\', '"']
  else if c = '\\' then ['\\', '\\']
  else if c = '\n' then ['\\', 'n']
  else if c = '\r' then ['\\', 'r']
  else if c = '\t' then ['\\', 't']
  else if c = '\x08' then ['\\', 'b']
  else if c = '\x0c' then ['\\', 'f']
  else if ' ' ≤ c ∧ c ≤ '~' then [c]
  else if c.toNat < 0x10000 then unit c.toNat
  else
    let n := c.toNat - 0x10000
    unit (0xd800 + n / 0x400) ++ unit (0xdc00 + n % 0x400)

def quoted (s : String) : String := "\"" ++ String.ofList (s.toList.flatMap escape) ++ "\""

def ofBool : Bool → String
  | true => "true"
  | false => "false"

mutual

def line : Json → List String
  | null => ["null"]
  | bool b => [ofBool b]
  | int i => [toString i]
  | str s => [quoted s]
  | arr [] => ["[]"]
  | arr (v :: vs) => "[" :: v.line ++ lineItems vs ++ ["]"]
  | obj [] => ["\x7b\x7d"]
  | obj ((k, v) :: ms) => "\x7b" :: quoted k :: ": " :: v.line ++ lineMembers ms ++ ["\x7d"]

/-- Further items on the line, each after a comma. -/
def lineItems : List Json → List String
  | [] => []
  | v :: vs => ", " :: v.line ++ lineItems vs

def lineMembers : List (String × Json) → List String
  | [] => []
  | (k, v) :: ms => ", " :: quoted k :: ": " :: v.line ++ lineMembers ms

end

/-- The start of a line at some depth, with `step` blanks for each level. -/
def newline (step depth : Nat) : String :=
  String.ofList ('\n' :: List.replicate (step * depth) ' ')

mutual

/-- The pieces of a value whose items stand on lines of their own; `depth` is the depth of the
value. -/
def block (step depth : Nat) : Json → List String
  | null => ["null"]
  | bool b => [ofBool b]
  | int i => [toString i]
  | str s => [quoted s]
  | arr [] => ["[]"]
  | arr (v :: vs) =>
    "[" :: newline step (depth + 1) :: v.block step (depth + 1)
      ++ blockItems step (depth + 1) vs ++ [newline step depth, "]"]
  | obj [] => ["\x7b\x7d"]
  | obj ((k, v) :: ms) =>
    "\x7b" :: newline step (depth + 1) :: quoted k :: ": " :: v.block step (depth + 1)
      ++ blockMembers step (depth + 1) ms ++ [newline step depth, "\x7d"]

/-- Further items at `depth`, each on a line after a comma. -/
def blockItems (step depth : Nat) : List Json → List String
  | [] => []
  | v :: vs => "," :: newline step depth :: v.block step depth ++ blockItems step depth vs

def blockMembers (step depth : Nat) : List (String × Json) → List String
  | [] => []
  | (k, v) :: ms =>
    "," :: newline step depth :: quoted k :: ": " :: v.block step depth
      ++ blockMembers step depth ms

end

/-- The text of a value: on one line, or with the given number of blanks for each level. -/
def text (v : Json) : Option Nat → String
  | none => String.join v.line
  | some step => String.join (v.block step 0)

end Json

end Carrot
