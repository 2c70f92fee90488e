/-! # Places in a source text

A place is a line and a column, both counted from one. Only a line feed ends a
line here, and a column counts characters since the last line feed. The fields
are integers because a place may also be given from outside, where any number is
allowed.
-/

namespace Carrot

structure Position where
  line : Int
  column : Int
  deriving DecidableEq, Repr, Inhabited

namespace Position

def start : Position := ⟨1, 1⟩

/-- The place after one character. -/
def next (p : Position) (c : Char) : Position :=
  if c = '\n' then ⟨p.line + 1, 1⟩ else ⟨p.line, p.column + 1⟩

/-- The place after a run of characters. -/
def after (p : Position) (cs : List Char) : Position := cs.foldl next p

@[simp] theorem after_nil (p : Position) : p.after [] = p := rfl

@[simp] theorem after_cons (p : Position) (c : Char) (cs : List Char) :
    p.after (c :: cs) = (p.next c).after cs := rfl

theorem after_append (p : Position) (cs ds : List Char) :
    p.after (cs ++ ds) = (p.after cs).after ds := List.foldl_append

/-- A place as diagnostics write it: line, colon, column. -/
def text (p : Position) : String := toString p.line ++ ":" ++ toString p.column

end Position

end Carrot
