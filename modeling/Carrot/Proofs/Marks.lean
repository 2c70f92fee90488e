import Carrot.Proofs.Screening
import Mathlib.Data.List.Basic

/-! # What screening looks at

A line is cut into code, string literals and comments. The characters of code and what is wrong
with string literals are marked, in the order in which they are noticed: a string literal that
is not closed is noticed at the end of its line, behind its escapes. Screening a text is going
through its marks.
-/

namespace Carrot.Screening

/-! ### The pieces of a line -/

/-- What a string literal consists of. At the end of a line nothing follows a backslash. -/
inductive Letter where
  | plain (c : Char)
  | escape (e : Option Char)
  deriving DecidableEq, Repr

inductive Piece where
  | code (c : Char)
  | string (letters : List Letter) (closed : Bool)
  | comment (cs : List Char)
  deriving DecidableEq, Repr

def Letter.chars : Letter → List Char
  | .plain c => [c]
  | .escape e => '\\' :: e.toList

def Piece.chars : Piece → List Char
  | .code c => [c]
  | .string letters closed =>
    '"' :: letters.flatMap Letter.chars ++ if closed then ['"'] else []
  | .comment cs => cs

mutual

/-- Cuts a line from a point outside of strings and comments. -/
def cut : List Char → List Piece
  | [] => []
  | c :: cs =>
    if c = '#' || (c = '/' && cs.head? = some '/') then [.comment (c :: cs)]
    else if c = '"' then
      let (letters, closed, rest) := cutString cs
      .string letters closed :: rest
    else .code c :: cut cs

/-- The rest of a string literal, whether it is closed, and the pieces behind it. -/
def cutString : List Char → List Letter × Bool × List Piece
  | [] => ([], false, [])
  | c :: cs =>
    if c = '\\' then
      match cs with
      | [] => ([.escape none], false, [])
      | e :: rest =>
        let (letters, rest) := cutString rest
        (.escape (some e) :: letters, rest)
    else if c = '"' then ([], true, cut cs)
    else
      let (letters, rest) := cutString cs
      (.plain c :: letters, rest)

end

mutual

/-- The pieces of a line make up the line. -/
theorem flatMap_chars_cut : ∀ l : List Char, (cut l).flatMap Piece.chars = l
  | [] => rfl
  | c :: cs => by
    rw [cut]
    split
    · simp [Piece.chars]
    · split
      · next hq =>
        rw [List.flatMap_cons, Piece.chars, List.append_assoc, hq, List.cons_append]
        exact congrArg _ (chars_cutString cs)
      · rw [List.flatMap_cons, flatMap_chars_cut cs]
        rfl

theorem chars_cutString : ∀ l : List Char, (cutString l).1.flatMap Letter.chars ++
    ((if (cutString l).2.1 then ['"'] else []) ++ (cutString l).2.2.flatMap Piece.chars) = l
  | [] => rfl
  | c :: cs => by
    rw [cutString.eq_def]
    dsimp only
    split
    · next hb =>
      cases cs with
      | nil => rw [hb]; rfl
      | cons e rest =>
        have := chars_cutString rest
        simp only [List.flatMap_cons, Letter.chars, List.append_assoc, this, hb]
        rfl
    · split
      · next hq => simp [flatMap_chars_cut cs, hq]
      · have := chars_cutString cs
        simp only [List.flatMap_cons, Letter.chars, List.append_assoc, this]
        rfl

end

/-! ### What can be blamed -/

/-- A character of code, or what is wrong with a string literal, with its place. -/
inductive Mark where
  | code (p : Position) (c : Char)
  | badEscape (p : Position) (e : Option Char)
  | unclosed (p : Position)
  deriving DecidableEq, Repr

/-- The characters that may follow a backslash. -/
def escapes : List Char := ['n', 't', '\'', '"', '?', '\\']

/-- The place some characters further in the same line. -/
def ahead (p : Position) (n : Nat) : Position := ⟨p.line, p.column + n⟩

/-- The marks of things that follow each other in a line from place `p` on. -/
def along {α : Type} (chars : α → List Char) (marks : Position → α → List Mark) (p : Position) :
    List α → List Mark
  | [] => []
  | x :: xs => marks p x ++ along chars marks (ahead p (chars x).length) xs

def Letter.marks (p : Position) : Letter → List Mark
  | .plain _ => []
  | .escape e => if e.any (· ∈ escapes) then [] else [.badEscape p e]

/-- The marks of a piece that starts at `p`. -/
def Piece.marks (p : Position) : Piece → List Mark
  | .code c => [.code p c]
  | .string letters closed =>
    along Letter.chars Letter.marks (ahead p 1) letters ++ if closed then [] else [.unclosed p]
  | .comment _ => []

def lineMarks (row : Int) (l : List Char) : List Mark :=
  along Piece.chars Piece.marks ⟨row, 1⟩ (cut l)

/-- The marks of a text, in the order in which they are noticed. -/
def marks (text : List Char) : List Mark :=
  (Text.lines text).zipIdx.flatMap fun l => lineMarks (l.2 + 1) l.1

/-! ### Screening goes through the marks -/

/-- The open brackets behind one more mark. -/
def judgeMark (stack : Open) : Mark → Except SyntaxError Open
  | .code p c => bracket p c stack
  | .badEscape p e => .error (.badEscape p e)
  | .unclosed p => .error (.unclosedString p)

def judge (stack : Open) (ms : List Mark) : Except SyntaxError Open := ms.foldlM judgeMark stack

theorem judge_append (stack : Open) (ms ms' : List Mark) :
    judge stack (ms ++ ms') = (judge stack ms).bind (judge · ms') := List.foldlM_append

theorem judge_cons (stack : Open) (m : Mark) (ms : List Mark) :
    judge stack (m :: ms) = (judgeMark stack m).bind (judge · ms) := List.foldlM_cons

theorem isEscape_iff (c : Char) : Lexeme.isEscape c = true ↔ c ∈ escapes := by
  simp [Lexeme.isEscape, escapes, or_assoc]

theorem ahead_ahead (p : Position) (m n : Nat) : ahead (ahead p m) n = ahead p (m + n) := by
  simp [ahead, Int.add_assoc]

/-- The marks from a point in the string literal with the quote at `q`. -/
def restMarks (q p : Position) : List Letter × Bool × List Piece → List Mark
  | (letters, closed, rest) =>
    along Letter.chars Letter.marks p letters ++ ((if closed then [] else [.unclosed q]) ++
      along Piece.chars Piece.marks
        (ahead p ((letters.flatMap Letter.chars).length + if closed then 1 else 0)) rest)

theorem restMarks_letter (q p : Position) (l : Letter) (r : List Letter × Bool × List Piece) :
    restMarks q p (l :: r.1, r.2) = l.marks p ++ restMarks q (ahead p l.chars.length) r := by
  simp only [restMarks, along, List.append_assoc, ahead_ahead, List.flatMap_cons,
    List.length_append, Nat.add_assoc]

/-- The marks of a string literal and of what follows it. -/
theorem along_string (p : Position) (r : List Letter × Bool × List Piece) :
    along Piece.chars Piece.marks p (.string r.1 r.2.1 :: r.2.2) =
      restMarks p (ahead p 1) r := by
  have hlen : (Piece.string r.1 r.2.1).chars.length =
      1 + ((r.1.flatMap Letter.chars).length + if r.2.1 then 1 else 0) := by
    cases r.2.1 <;> simp [Piece.chars] <;> omega
  rw [along, hlen, ← ahead_ahead]
  simp only [Piece.marks, restMarks, List.append_assoc]

theorem cutString_escape (e : Char) (cs : List Char) : cutString ('\\' :: e :: cs) =
    (.escape (some e) :: (cutString cs).1, (cutString cs).2) := rfl

theorem cutString_close (cs : List Char) : cutString ('"' :: cs) = ([], true, cut cs) := by
  rw [cutString.eq_def]
  simp

theorem cutString_plain {c : Char} (hb : c ≠ '\\') (hq : c ≠ '"') (cs : List Char) :
    cutString (c :: cs) = (.plain c :: (cutString cs).1, (cutString cs).2) := by
  rw [cutString.eq_def]
  simp only [if_neg hb, if_neg hq]

/-- From any point of a line outside of comments, screening goes through the marks ahead. -/
theorem line_eq_judge (row col : Int) (quote : Option Position) (stack : Open) (l : List Char) :
    line row col quote stack l = judge stack (match quote with
      | none => along Piece.chars Piece.marks ⟨row, col⟩ (cut l)
      | some q => restMarks q ⟨row, col⟩ (cutString l)) := by
  -- The cases follow the screening of a line: first inside a literal, then outside of one.
  fun_induction line row col quote stack l with
  | case1 col stack q => rfl
  | case2 col stack => rfl
  | case3 col stack q => rfl
  | case4 col stack q e rest hescape ih =>
    rw [ih]
    dsimp only
    rw [cutString_escape, restMarks_letter, Letter.marks,
      if_pos (by simpa using (isEscape_iff e).1 hescape)]
    rfl
  | case5 col stack q e rest hescape =>
    dsimp only
    rw [cutString_escape, restMarks_letter, Letter.marks,
      if_neg (by simpa using mt (isEscape_iff e).2 hescape)]
    rfl
  | case6 col stack c cs q hb ih =>
    rw [ih]
    by_cases hq : c = '"'
    · simp only [hq, if_true]
      rw [cutString_close]
      rfl
    · simp only [if_neg hq]
      rw [cutString_plain hb hq, restMarks_letter]
      rfl
  | case7 col stack c cs hcomment =>
    dsimp only
    rw [cut, if_pos hcomment]
    rfl
  | case8 col stack cs hcomment ih =>
    rw [ih]
    dsimp only
    rw [cut, if_neg hcomment, if_pos rfl]
    dsimp only
    rw [along_string]
    rfl
  | case9 col stack c cs hcomment hq e he =>
    dsimp only
    rw [cut, if_neg hcomment, if_neg hq, along, Piece.marks, List.singleton_append, judge_cons,
      judgeMark, he]
    rfl
  | case10 col stack c cs hcomment hq stack' he ih =>
    rw [ih]
    dsimp only
    rw [cut, if_neg hcomment, if_neg hq, along, Piece.marks, List.singleton_append, judge_cons,
      judgeMark, he]
    rfl

theorem lines_eq_judge (k : Nat) (stack : Open) (ls : List (List Char)) :
    lines (k + 1) stack ls =
      judge stack ((ls.zipIdx k).flatMap fun l => lineMarks (l.2 + 1) l.1) := by
  induction ls generalizing k stack with
  | nil => rfl
  | cons l ls ih =>
    rw [lines, line_eq_judge, List.zipIdx_cons, List.flatMap_cons, judge_append]
    dsimp only [lineMarks]
    cases judge stack (along Piece.chars Piece.marks ⟨k + 1, 1⟩ (cut l)) with
    | error e => rfl
    | ok stack => exact ih (k + 1) stack

theorem check_eq (text : List Char) : check text =
    match judge [] (marks text) with
    | .error e => .error e
    | .ok [] => .ok ()
    | .ok ((c, p) :: _) => .error (.unmatchedBracket p c) := by
  unfold check marks
  rw [← lines_eq_judge 0]
  rfl

end Carrot.Screening
