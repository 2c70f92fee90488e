/-! # Lines of a text

A line ends at any of ten breaks; a carriage return and a line feed that follow
each other are one break. A break at the very end starts no further line. Files are
read with every carriage return turned into a line feed.
-/

namespace Carrot.Text

def isLineBreak (c : Char) : Bool :=
  c = '\n' || c = '\r' || c = '\x0b' || c = '\x0c' || c = '\x1c' || c = '\x1d' || c = '\x1e' ||
    c = '\u0085' || c = '\u2028' || c = '\u2029'

def consLine (c : Char) : List (List Char) → List (List Char)
  | [] => [[c]]
  | l :: ls => (c :: l) :: ls

/-- The lines of a text without their breaks. -/
def lines : List Char → List (List Char)
  | [] => []
  | '\r' :: '\n' :: cs => [] :: lines cs
  | c :: cs => if isLineBreak c then [] :: lines cs else consLine c (lines cs)

/-- The text with each carriage return, and the line feed behind it, as one line feed. -/
def unifyBreaks : List Char → List Char
  | [] => []
  | '\r' :: '\n' :: cs => '\n' :: unifyBreaks cs
  | c :: cs => (if c = '\r' then '\n' else c) :: unifyBreaks cs

theorem not_isLineBreak_of_mem_lines {cs l : List Char} {c : Char}
    (hl : l ∈ lines cs) (hc : c ∈ l) : isLineBreak c = false := by
  fun_induction lines cs generalizing l with
  | case1 => simp at hl
  | case2 cs ih =>
    rcases List.mem_cons.1 hl with rfl | hl
    · simp at hc
    · exact ih hl hc
  | case3 d cs _ _ ih =>
    rcases List.mem_cons.1 hl with rfl | hl
    · simp at hc
    · exact ih hl hc
  | case4 d cs _ hd ih =>
    cases h : lines cs with
    | nil => simp_all [consLine]
    | cons m ms =>
      rw [h, consLine] at hl
      rcases List.mem_cons.1 hl with rfl | hl
      · rcases List.mem_cons.1 hc with rfl | hc
        · simpa using hd
        · exact ih (h ▸ List.mem_cons_self) hc
      · exact ih (h ▸ List.mem_cons_of_mem _ hl) hc

end Carrot.Text
