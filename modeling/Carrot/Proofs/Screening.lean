import Carrot.Screening

/-! # Screening character by character

Screening works line by line and keeps places for its messages. Whether a text passes
depends on less: on what a character is inside of, and on the brackets that are open.
This gives one pass over the characters, which agrees with screening on every text.
-/

namespace Carrot.Screening

/-- What a character is inside of. -/
inductive Mode where
  | code | quote | escape | comment
  deriving DecidableEq, Repr

/-- A line may end here. -/
def Mode.endsLine : Mode → Bool
  | .code | .comment => true
  | .quote | .escape => false

/-- The open brackets after one more character of code, if it fits. -/
def brackets? (c : Char) (stack : List Char) : Option (List Char) :=
  if (closing? c).isSome then some (c :: stack)
  else if isClosing c then
    match stack with
    | o :: rest => if closing? o = some c then some rest else none
    | [] => none
  else some stack

/-- Whether the rest of a text passes behind the open brackets `stack`. -/
def passes (m : Mode) (stack : List Char) : List Char → Bool
  | [] => m.endsLine && stack.isEmpty
  | c :: cs =>
    if Text.isLineBreak c then m.endsLine && passes .code stack cs
    else match m with
      | .comment => passes .comment stack cs
      | .escape => Lexeme.isEscape c && passes .quote stack cs
      | .quote => passes (if c = '\\' then .escape else if c = '"' then .code else .quote) stack cs
      | .code =>
        if c = '#' || (c = '/' && cs.head? = some '/') then passes .comment stack cs
        else if c = '"' then passes .quote stack cs
        else match brackets? c stack with
          | none => false
          | some stack => passes .code stack cs

theorem passes_of_isLineBreak {m : Mode} {stack cs : List Char} {c : Char}
    (hc : Text.isLineBreak c) :
    passes m stack (c :: cs) = (m.endsLine && passes .code stack cs) := by
  rw [passes.eq_def]
  simp only [hc, if_true]

section

variable {stack cs : List Char} {c : Char} (hc : Text.isLineBreak c = false)

include hc

theorem passes_comment : passes .comment stack (c :: cs) = passes .comment stack cs := by
  rw [passes.eq_def]
  simp [hc]

theorem passes_escape :
    passes .escape stack (c :: cs) = (Lexeme.isEscape c && passes .quote stack cs) := by
  rw [passes.eq_def]
  simp [hc]

theorem passes_quote : passes .quote stack (c :: cs) =
    passes (if c = '\\' then .escape else if c = '"' then .code else .quote) stack cs := by
  rw [passes.eq_def]
  simp [hc]

theorem passes_code : passes .code stack (c :: cs) =
    if c = '#' || (c = '/' && cs.head? = some '/') then passes .comment stack cs
    else if c = '"' then passes .quote stack cs
    else match brackets? c stack with
      | none => false
      | some stack => passes .code stack cs := by
  rw [passes.eq_def]
  simp only [hc, Bool.false_eq_true, if_false]

end

/-! ### Screening by lines is screening by characters -/

/-- Screening ends without an offence and with all brackets closed. -/
def closed : Except SyntaxError Open → Bool
  | .ok [] => true
  | _ => false

/-- Screens from a point inside the first of some lines. -/
def screenFrom (row col : Int) (quote : Option Position) (stack : Open) (ls : List (List Char)) :
    Except SyntaxError Open :=
  (line row col quote stack (ls.headD [])).bind fun stack => lines (row + 1) stack ls.tail

theorem check_eq_ok_iff (text : List Char) :
    check text = .ok () ↔ closed (lines 1 [] (Text.lines text)) = true := by
  unfold check closed
  split <;> simp_all

theorem lines_eq_screenFrom (row : Int) (stack : Open) (ls : List (List Char)) :
    lines row stack ls = screenFrom row 1 none stack ls := by
  cases ls with
  | nil => simp [lines, screenFrom, line, Except.bind]
  | cons l ls =>
    simp only [lines, screenFrom, List.headD_cons, List.tail_cons]
    cases line row 1 none stack l <;> rfl

theorem brackets?_map (p : Position) (c : Char) (stack : Open) :
    brackets? c (stack.map (·.1)) =
      match bracket p c stack with
      | .ok s => some (s.map (·.1))
      | .error _ => none := by
  unfold brackets? bracket
  split
  · rfl
  · split
    · cases stack with
      | nil => rfl
      | cons o rest =>
        simp only [List.map_cons]
        split <;> rfl
    · rfl

@[simp] theorem headD_consLine (c : Char) (ls : List (List Char)) :
    (Text.consLine c ls).headD [] = c :: ls.headD [] := by
  cases ls <;> rfl

@[simp] theorem tail_consLine (c : Char) (ls : List (List Char)) :
    (Text.consLine c ls).tail = ls.tail := by
  cases ls <;> rfl

theorem isLineBreak_of_isEscape {c : Char} (h : Lexeme.isEscape c) :
    Text.isLineBreak c = false := by
  simp only [Lexeme.isEscape, Bool.or_eq_true, decide_eq_true_eq] at h
  rcases h with ((((rfl | rfl) | rfl) | rfl) | rfl) | rfl <;> rfl

/-- The mode at a point of a line outside comments. -/
def modeOf : Option Position → Mode
  | some _ => .quote
  | none => .code

/-- A break ends an empty line; a line feed behind a carriage return belongs to it. -/
theorem lines_of_isLineBreak {c : Char} (cs : List Char) (hc : Text.isLineBreak c) :
    ∃ ds, ds.length ≤ cs.length ∧ Text.lines (c :: cs) = [] :: Text.lines ds ∧
      ∀ stack, passes .code stack ds = passes .code stack cs := by
  generalize hl : c :: cs = l
  fun_cases Text.lines l with
  | case1 => cases hl
  | case2 ds =>
    cases hl
    refine ⟨ds, Nat.le_succ _, rfl, fun stack => ?_⟩
    rw [passes_of_isLineBreak (by decide)]
    rfl
  | case3 =>
    cases hl
    exact ⟨cs, Nat.le_refl _, rfl, fun stack => rfl⟩
  | case4 _ _ _ h =>
    cases hl
    exact absurd hc h

theorem lines_of_not_isLineBreak {c : Char} {cs : List Char} (hc : Text.isLineBreak c = false) :
    Text.lines (c :: cs) = Text.consLine c (Text.lines cs) := by
  generalize hl : c :: cs = l
  fun_cases Text.lines l with
  | case1 => cases hl
  | case2 =>
    cases hl
    exact absurd hc (by decide)
  | case3 _ _ _ h =>
    cases hl
    rw [hc] at h
    cases h
  | case4 =>
    cases hl
    rfl

/-- Behind a break, screening starts afresh with the brackets that are open. -/
theorem screenFrom_nil_cons (row col : Int) (quote : Option Position) (stack : Open)
    (ls : List (List Char)) :
    closed (screenFrom row col quote stack ([] :: ls)) =
      ((modeOf quote).endsLine && closed (screenFrom (row + 1) 1 none stack ls)) := by
  cases quote with
  | none => rw [← lines_eq_screenFrom]; rfl
  | some q => rfl

/-- Behind a backslash in a string literal. -/
theorem closed_escape (row col : Int) (q : Position) (stack : Open) (ls : List (List Char)) :
    closed (screenFrom row col (some q) stack (Text.consLine '\\' ls)) =
      match ls.headD [] with
      | [] => false
      | e :: l => Lexeme.isEscape e &&
          closed (screenFrom row (col + 2) (some q) stack (l :: ls.tail)) := by
  rw [screenFrom, headD_consLine, tail_consLine, line.eq_def]
  simp only [if_true]
  cases ls.headD [] with
  | nil => rfl
  | cons e l =>
    by_cases he : Lexeme.isEscape e
    · simp [he, screenFrom]
    · simp [he, closed, Except.bind]

/-- One more character of a string literal. -/
theorem closed_quote (row col : Int) (q : Position) (stack : Open) (c : Char)
    (ls : List (List Char)) (hc : c ≠ '\\') :
    closed (screenFrom row col (some q) stack (Text.consLine c ls)) =
      closed (screenFrom row (col + 1) (if c = '"' then none else some q) stack ls) := by
  rw [screenFrom, headD_consLine, tail_consLine, line.eq_def]
  simp only [if_neg hc]
  rfl

/-- One more character of code. -/
theorem closed_code (row col : Int) (stack : Open) (c : Char) (ls : List (List Char)) :
    closed (screenFrom row col none stack (Text.consLine c ls)) =
      if c = '#' || (c = '/' && (ls.headD []).head? = some '/') then
        closed (lines (row + 1) stack ls.tail)
      else if c = '"' then closed (screenFrom row (col + 1) (some ⟨row, col⟩) stack ls)
      else match bracket ⟨row, col⟩ c stack with
        | .error _ => false
        | .ok stack => closed (screenFrom row (col + 1) none stack ls) := by
  rw [screenFrom, headD_consLine, tail_consLine, line.eq_def]
  dsimp only
  split
  · rfl
  · split
    · rfl
    · cases bracket ⟨row, col⟩ c stack <;> rfl

/-- The first line of a text starts with its first character, unless that is a break. -/
theorem head?_headD_lines {cs : List Char} {c : Char} (hc : Text.isLineBreak c = false) :
    ((Text.lines cs).headD []).head? = some c ↔ cs.head? = some c := by
  cases cs with
  | nil => exact Iff.rfl
  | cons d ds =>
    by_cases hd : Text.isLineBreak d
    · obtain ⟨es, -, hes, -⟩ := lines_of_isLineBreak ds hd
      have hne : d ≠ c := by
        intro h
        rw [h, hc] at hd
        cases hd
      simp [hes, hne]
    · rw [lines_of_not_isLineBreak (by simpa using hd), headD_consLine]
      rfl

mutual

/-- Screening from a point outside comments. -/
theorem closed_screenFrom (row col : Int) (quote : Option Position) (stack : Open) :
    ∀ cs : List Char, closed (screenFrom row col quote stack (Text.lines cs)) =
      passes (modeOf quote) (stack.map (·.1)) cs
  | [] => by
    cases quote <;> cases stack <;> rfl
  | c :: cs => by
    by_cases hc : Text.isLineBreak c
    · obtain ⟨ds, hlen, hds, hpass⟩ := lines_of_isLineBreak cs hc
      rw [hds, screenFrom_nil_cons, closed_screenFrom _ _ _ _ ds, passes_of_isLineBreak hc, ← hpass]
      rfl
    · have hc := Bool.eq_false_iff.2 hc
      rw [lines_of_not_isLineBreak hc]
      cases quote with
      | some q =>
        rw [modeOf, passes_quote hc]
        by_cases hb : c = '\\'
        · rw [hb, closed_escape, if_pos rfl]
          exact closed_screenFrom_escape row (col + 2) q stack cs
        · rw [closed_quote _ _ _ _ _ _ hb, if_neg hb, closed_screenFrom _ _ _ _ cs]
          split <;> rfl
      | none =>
        rw [modeOf, passes_code hc, closed_code, closed_lines_tail _ _ cs,
          closed_screenFrom _ _ _ _ cs, brackets?_map ⟨row, col⟩]
        simp only [head?_headD_lines (show Text.isLineBreak '/' = false by decide)]
        split
        · rfl
        · split
          · rfl
          · cases bracket ⟨row, col⟩ c stack with
            | error e => rfl
            | ok s => exact closed_screenFrom _ _ _ _ cs
  termination_by cs => cs.length

/-- Screening behind a backslash in a string literal. -/
theorem closed_screenFrom_escape (row col : Int) (q : Position) (stack : Open) :
    ∀ cs : List Char, (match (Text.lines cs).headD [] with
      | [] => false
      | e :: l => Lexeme.isEscape e &&
          closed (screenFrom row col (some q) stack (l :: (Text.lines cs).tail))) =
      passes .escape (stack.map (·.1)) cs
  | [] => rfl
  | c :: cs => by
    by_cases hc : Text.isLineBreak c
    · obtain ⟨ds, -, hds, -⟩ := lines_of_isLineBreak cs hc
      rw [hds, passes_of_isLineBreak hc]
      rfl
    · have hc := Bool.eq_false_iff.2 hc
      rw [lines_of_not_isLineBreak hc, passes_escape hc, headD_consLine, tail_consLine]
      have hrest := closed_screenFrom row col (some q) stack cs
      rw [screenFrom] at hrest
      simp only [screenFrom, List.headD_cons, List.tail_cons, hrest]
      rfl
  termination_by cs => cs.length

/-- Screening from a point inside a comment, which hides the rest of its line. -/
theorem closed_lines_tail (row : Int) (stack : Open) :
    ∀ cs : List Char, closed (lines row stack (Text.lines cs).tail) =
      passes .comment (stack.map (·.1)) cs
  | [] => by
    cases stack <;> rfl
  | c :: cs => by
    by_cases hc : Text.isLineBreak c
    · obtain ⟨ds, hlen, hds, hpass⟩ := lines_of_isLineBreak cs hc
      rw [hds, List.tail_cons, lines_eq_screenFrom, closed_screenFrom _ _ _ _ ds,
        passes_of_isLineBreak hc, ← hpass]
      rfl
    · have hc := Bool.eq_false_iff.2 hc
      rw [lines_of_not_isLineBreak hc, tail_consLine, closed_lines_tail row stack cs,
        passes_comment hc]
  termination_by cs => cs.length

end

/-- A text passes screening exactly if its characters do. -/
theorem check_eq_ok_iff_passes (text : List Char) :
    check text = .ok () ↔ passes .code [] text = true := by
  rw [check_eq_ok_iff, lines_eq_screenFrom, closed_screenFrom]
  rfl

/-! ### Characters that change nothing -/

/-- The characters that screening treats in a way of their own. -/
def special : List Char :=
  ['\n', '\r', '\x0b', '\x0c', '\x1c', '\x1d', '\x1e', '\u0085', '\u2028', '\u2029',
    '#', '/', '"', '(', ')', '\x7b', '\x7d']

theorem isLineBreak_of_not_special {c : Char} (hc : c ∉ special) : Text.isLineBreak c = false := by
  simp only [special, List.mem_cons, List.not_mem_nil, or_false, not_or] at hc
  simp only [Text.isLineBreak, hc, decide_false, Bool.or_false]

theorem passes_plain {stack cs : List Char} {c : Char} (hc : c ∉ special) :
    passes .code stack (c :: cs) = passes .code stack cs := by
  rw [passes_code (isLineBreak_of_not_special hc)]
  simp only [special, List.mem_cons, List.not_mem_nil, or_false, not_or] at hc
  simp [hc, brackets?, closing?, isClosing]

theorem passes_plain_append {stack cs ds : List Char} (hc : ∀ c ∈ ds, c ∉ special) :
    passes .code stack (ds ++ cs) = passes .code stack cs := by
  induction ds with
  | nil => rfl
  | cons d ds ih =>
    obtain ⟨hd, hds⟩ := List.forall_mem_cons.1 hc
    rw [List.cons_append, passes_plain hd, ih hds]

theorem passes_newline {stack cs : List Char} :
    passes .code stack ('\n' :: cs) = passes .code stack cs := by
  rw [passes_of_isLineBreak (by decide)]
  rfl

/-- A slash that starts no comment. -/
theorem passes_slash {stack cs : List Char} (hcs : cs.head? ≠ some '/') :
    passes .code stack ('/' :: cs) = passes .code stack cs := by
  rw [passes_code (by decide)]
  simp [hcs, brackets?, closing?, isClosing]

theorem passes_open {stack cs : List Char} {o c : Char} (ho : closing? o = some c) :
    passes .code stack (o :: cs) = passes .code (o :: stack) cs := by
  unfold closing? at ho
  split at ho
  · next h =>
    rw [h, passes_code (by decide)]
    rfl
  · split at ho
    · next h =>
      rw [h, passes_code (by decide)]
      rfl
    · cases ho

theorem passes_close {stack cs : List Char} {o c : Char} (ho : closing? o = some c) :
    passes .code (o :: stack) (c :: cs) = passes .code stack cs := by
  unfold closing? at ho
  split at ho
  · next h =>
    cases ho
    rw [h, passes_code (by decide)]
    rfl
  · split at ho
    · next h =>
      cases ho
      rw [h, passes_code (by decide)]
      rfl
    · cases ho

/-! ### Going on behind some characters -/

theorem passes_tail {m : Mode} {stack cs : List Char} {c : Char} (h : passes m stack (c :: cs)) :
    ∃ m' stack', passes m' stack' cs := by
  by_cases hc : Text.isLineBreak c
  · rw [passes_of_isLineBreak hc, Bool.and_eq_true] at h
    exact ⟨.code, stack, h.2⟩
  · have hc := Bool.eq_false_iff.2 hc
    cases m with
    | comment => exact ⟨.comment, stack, passes_comment hc ▸ h⟩
    | escape =>
      rw [passes_escape hc, Bool.and_eq_true] at h
      exact ⟨.quote, stack, h.2⟩
    | quote => exact ⟨_, stack, passes_quote hc ▸ h⟩
    | code =>
      rw [passes_code hc] at h
      split at h
      · exact ⟨.comment, stack, h⟩
      · split at h
        · exact ⟨.quote, stack, h⟩
        · split at h
          · cases h
          · exact ⟨.code, _, h⟩

/-- Characters of code that start neither a string literal nor a comment are followed by code. -/
theorem passes_code_tail {stack cs : List Char} {c : Char} (h : passes .code stack (c :: cs))
    (hq : c ≠ '"') (hcomment : ¬(c = '#' ∨ c = '/' ∧ cs.head? = some '/')) :
    ∃ stack', passes .code stack' cs := by
  by_cases hc : Text.isLineBreak c
  · rw [passes_of_isLineBreak hc, Bool.and_eq_true] at h
    exact ⟨stack, h.2⟩
  · rw [passes_code (Bool.eq_false_iff.2 hc), if_neg (by simpa using hcomment), if_neg hq] at h
    split at h
    · cases h
    · exact ⟨_, h⟩

theorem passes_code_append {stack ds cs : List Char} (h : passes .code stack (ds ++ cs))
    (hds : ∀ d ∈ ds, d ≠ '"' ∧ d ≠ '#' ∧ d ≠ '/') : ∃ stack', passes .code stack' cs := by
  induction ds generalizing stack with
  | nil => exact ⟨stack, h⟩
  | cons d ds ih =>
    obtain ⟨⟨hq, hn, hs⟩, hds⟩ := List.forall_mem_cons.1 hds
    obtain ⟨stack', h'⟩ := passes_code_tail h hq (by simp [hn, hs])
    exact ih h' hds

/-- Whatever happens up to a line feed, code follows it. -/
theorem passes_behind_line {m : Mode} {stack cs : List Char} (h : passes m stack cs) :
    ∃ stack', passes .code stack' (cs.dropWhile (· ≠ '\n')) := by
  induction cs generalizing m stack with
  | nil => exact ⟨[], rfl⟩
  | cons c cs ih =>
    by_cases hc : c = '\n'
    · rw [hc, passes_of_isLineBreak (by decide), Bool.and_eq_true] at h
      refine ⟨stack, ?_⟩
      rw [hc, List.dropWhile_cons_of_neg (by simp), passes_newline]
      exact h.2
    · rw [List.dropWhile_cons_of_pos (by simpa using hc)]
      obtain ⟨m', stack', h'⟩ := passes_tail h
      exact ih h'

end Carrot.Screening
