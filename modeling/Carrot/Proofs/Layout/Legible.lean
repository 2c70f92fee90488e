import Carrot.Layout
import Carrot.Proofs.Parsing.WellFormed

/-! # Texts put together from words

A text can be read if it is cut into words to its end and passes screening. Such a
text is put together from the back: each lemma sets one more word, or a blank, in
front of a text that can be read. Brackets are opened in front of a text that
closes them.
-/

namespace Carrot

namespace TokenKind

/-- How a kind with one spelling is written. -/
def spelling (k : TokenKind) : String :=
  match symbols.find? (·.2 == k) with
  | some s => String.ofList s.1
  | none => ((keywords.find? (·.2 == k)).map (·.1)).getD ""

/-- The word of a kind with one spelling. -/
def word (k : TokenKind) : TokenWord := ⟨k, k.spelling⟩

end TokenKind

/-- The kind of token that writes an operator. -/
def UnaryOp.kind : UnaryOp → TokenKind
  | .negate => .minus
  | .not => .not

def BinaryOp.kind : BinaryOp → TokenKind
  | .add => .plus | .sub => .minus | .mul => .times | .div => .divide | .and => .and | .or => .or
  | .eq => .equal | .ne => .notEqual | .lt => .less | .gt => .greater | .le => .lessEqual
  | .ge => .greaterEqual

def Ident.word (x : Ident) : TokenWord := ⟨.ident, x.name⟩

/-! ### Texts that can be read -/

/-- The rest of a text behind the open brackets `stack`: it is cut into the words `ws` and
passes screening. -/
structure Legible (stack : List Char) (cs : List Char) (ws : List TokenWord) : Prop where
  lexes : Lexes cs ws
  passes : Screening.passes .code stack cs

/-- A text that makes no word before it longer. -/
def Stops (cs : List Char) : Prop := ∀ c ∈ cs.head?, Lexeme.isWordChar c = false

theorem stops_cons {c : Char} {cs : List Char} (hc : Lexeme.isWordChar c = false) :
    Stops (c :: cs) := by
  intro d hd
  obtain rfl : c = d := by simpa using hd
  exact hc

namespace Lexeme

theorem not_special_of_isWordChar {c : Char} (hc : isWordChar c) : c ∉ Screening.special := by
  intro h
  have hall : Screening.special.all (!isWordChar ·) := by decide
  have hword := List.all_eq_true.1 hall c h
  rw [hc] at hword
  cases hword

theorem isWordChar_of_isLetter {c : Char} (hc : isLetter c) : isWordChar c := by
  simp [isWordChar, hc]

theorem isWordChar_of_isDigit {c : Char} (hc : isDigit c) : isWordChar c := by
  simp [isWordChar, hc]

theorem isBlank_cases {c : Char} (hc : isBlank c) :
    c = ' ' ∨ c = '\t' ∨ c = '\x0c' ∨ c = '\r' ∨ c = '\n' := by
  simpa [isBlank, or_assoc] using hc

theorem isWordChar_of_isBlank {c : Char} (hc : isBlank c) : isWordChar c = false := by
  rcases isBlank_cases hc with rfl | rfl | rfl | rfl | rfl <;> decide

theorem isDigit_of_isBlank {c : Char} (hc : isBlank c) : isDigit c = false := by
  rcases isBlank_cases hc with rfl | rfl | rfl | rfl | rfl <;> decide

theorem ne_quote_of_isWordChar {c : Char} (hc : isWordChar c) : c ≠ '"' := by
  rintro rfl
  exact absurd hc (by decide)

theorem first?_letter {c : Char} (cs : List Char) (hc : isLetter c) :
    first? c cs = some (.token (.ofWord (String.ofList (c :: cs.take (span isWordChar cs)))),
      span isWordChar cs) := by
  unfold first?
  rw [if_neg (ne_quote_of_isWordChar (isWordChar_of_isLetter hc)), if_pos hc]

theorem isLetter_of_isDigit {c : Char} (hc : isDigit c) : isLetter c = false := by
  have hne : c ≠ '_' := by
    rintro rfl
    exact absurd hc (by decide)
  simp only [isDigit, Bool.and_eq_true, decide_eq_true_eq, Char.le_def,
    UInt32.le_iff_toNat_le] at hc
  simp only [isLetter, hne, Char.le_def, UInt32.le_iff_toNat_le, decide_false, Bool.or_false,
    Bool.or_eq_false_iff, Bool.and_eq_false_iff, decide_eq_false_iff_not]
  simp at hc ⊢
  omega

/-- A digit opens no literal and no comment, and it is no letter and no blank. -/
theorem first?_digit {c : Char} (cs : List Char) (hc : isDigit c) :
    first? c cs = some (.token .intLit, span isDigit cs) := by
  have hne : ∀ d ∈ ['"', '#', '/', ' ', '\t', '\x0c', '\r', '\n'], c ≠ d := by
    intro d hd h
    have hall : ['"', '#', '/', ' ', '\t', '\x0c', '\r', '\n'].all (!isDigit ·) := by decide
    have hdigit := List.all_eq_true.1 hall d hd
    rw [← h, hc] at hdigit
    cases hdigit
  simp only [List.forall_mem_cons] at hne
  simp [first?, commentTail?, isBlank, isLetter_of_isDigit hc, hc, hne]

theorem first?_blank {c : Char} (cs : List Char) (hc : isBlank c) :
    first? c cs = some (.layout, span isBlank cs) := by
  rcases isBlank_cases hc with rfl | rfl | rfl | rfl | rfl <;> rfl

/-- A natural number is written in digits. -/
theorem exists_digits (n : Nat) : ∃ c cs, n.repr.toList = c :: cs ∧ ∀ d ∈ c :: cs, isDigit d := by
  obtain ⟨c, cs, hcs⟩ := List.exists_cons_of_ne_nil (Nat.toDigits_ne_nil (n := n) (b := 10))
  refine ⟨c, cs, Nat.toList_repr.trans hcs, fun d hd => ?_⟩
  rw [← hcs] at hd
  simpa [isDigit, Char.isDigit, Char.le_def] using
    Nat.isDigit_of_mem_toDigits (by decide) (by decide) hd

section

variable {c : Char} {cs : List Char}

theorem symbol?_minus (hc : c ≠ '-') : symbol? ('-' :: c :: cs) = some (.minus, 0) := by
  simp [symbol?, TokenKind.symbols, Ne.symm hc]

theorem first?_minus (hc : c ≠ '-') : first? '-' (c :: cs) = some (.token .minus, 0) := by
  have h : first? '-' (c :: cs) = (symbol? ('-' :: c :: cs)).map fun s => (.token s.1, s.2) := rfl
  rw [h, symbol?_minus hc]
  rfl

theorem symbol?_not (hc : c ≠ '=') : symbol? ('!' :: c :: cs) = some (.not, 0) := by
  simp [symbol?, TokenKind.symbols, Ne.symm hc]

theorem first?_not (hc : c ≠ '=') : first? '!' (c :: cs) = some (.token .not, 0) := by
  have h : first? '!' (c :: cs) = (symbol? ('!' :: c :: cs)).map fun s => (.token s.1, s.2) := rfl
  rw [h, symbol?_not hc]
  rfl

end

end Lexeme

/-- The blanks at the start of a text belong to no word. -/
theorem Lexes.drop_blanks {cs : List Char} {ws : List TokenWord} (h : Lexes cs ws) :
    Lexes (cs.drop (Lexeme.span Lexeme.isBlank cs)) ws := by
  cases cs with
  | nil => exact h
  | cons c cs =>
    by_cases hc : Lexeme.isBlank c
    · have hfirst := Lexeme.first?_blank cs hc
      cases h with
      | token h => simp [hfirst] at h
      | layout h hs =>
        rw [hfirst] at h
        cases h
        simpa [Lexeme.span, hc] using hs
    · simpa [Lexeme.span, hc] using h

namespace Legible

variable {stack rest : List Char} {ws : List TokenWord}

theorem nil : Legible [] [] [] := ⟨.nil, rfl⟩

/-- A word is read up to a character that cannot belong to it. -/
theorem run {c : Char} {cs : List Char} (hc : Lexeme.isLetter c)
    (hcs : ∀ d ∈ cs, Lexeme.isWordChar d) (hr : Stops rest) (h : Legible stack rest ws) :
    Legible stack (c :: cs ++ rest)
      (⟨.ofWord (String.ofList (c :: cs)), String.ofList (c :: cs)⟩ :: ws) := by
  have hspan := Lexeme.span_append hcs hr
  constructor
  · have hfirst := Lexeme.first?_letter (cs ++ rest) hc
    rw [hspan, List.take_left] at hfirst
    have hlex := Lexes.token hfirst (by rw [List.drop_left]; exact h.lexes)
    rwa [List.take_left] at hlex
  · rw [Screening.passes_plain_append, h.passes]
    exact List.forall_mem_cons.2 ⟨Lexeme.not_special_of_isWordChar
      (Lexeme.isWordChar_of_isLetter hc), fun d hd => Lexeme.not_special_of_isWordChar (hcs d hd)⟩

theorem name {x : Ident} (hx : x.IsRaw) (hr : Stops rest) (h : Legible stack rest ws) :
    Legible stack (x.name.toList ++ rest) (x.word :: ws) := by
  obtain ⟨c, cs, hname, hc, hcs, hk⟩ := hx.isName
  have hrun := run hc hcs hr h
  rwa [← hname, String.ofList_toList, hk] at hrun

theorem number {c : Char} {cs : List Char} (hc : ∀ d ∈ c :: cs, Lexeme.isDigit d) (hr : Stops rest)
    (h : Legible stack rest ws) :
    Legible stack (c :: cs ++ rest) (⟨.intLit, String.ofList (c :: cs)⟩ :: ws) := by
  obtain ⟨hd, hds⟩ := List.forall_mem_cons.1 hc
  have hr' : ∀ d ∈ rest.head?, Lexeme.isDigit d = false := by
    intro d hd
    have hword := hr d hd
    simp only [Lexeme.isWordChar, Bool.or_eq_false_iff] at hword
    exact hword.2
  have hspan := Lexeme.span_append hds hr'
  constructor
  · have hfirst := Lexeme.first?_digit (cs ++ rest) hd
    rw [hspan] at hfirst
    have hlex := Lexes.token hfirst (by rw [List.drop_left]; exact h.lexes)
    rwa [List.take_left] at hlex
  · rw [Screening.passes_plain_append, h.passes]
    exact fun d hd => Lexeme.not_special_of_isWordChar (Lexeme.isWordChar_of_isDigit (hc d hd))

theorem string {s : String} (hs : IsStringLiteral s) (h : Legible stack rest ws) :
    Legible stack (s.toList ++ rest) (⟨.strLit, s⟩ :: ws) := by
  obtain ⟨cs, hlist, htail, hbreak⟩ := hs
  have hs : s = String.ofList ('"' :: cs) := by rw [← hlist, String.ofList_toList]
  rw [hlist, List.cons_append]
  constructor
  · have hfirst : Lexeme.first? '"' (cs ++ rest) = some (.token .strLit, cs.length) := by
      unfold Lexeme.first?
      rw [if_pos rfl, htail.stringTail? rest]
      rfl
    have hlex := Lexes.token hfirst (by rw [List.drop_left]; exact h.lexes)
    rwa [List.take_left, ← hs] at hlex
  · rw [Screening.passes_code (by decide)]
    exact (htail.passes stack rest).trans (by simpa [h.passes] using hbreak)

/-- A blank in front of a text does not change its words. -/
theorem blank {c : Char} (hc : c = ' ' ∨ c = '\n') (h : Legible stack rest ws) :
    Legible stack (c :: rest) ws := by
  constructor
  · refine .layout (Lexeme.first?_blank _ ?_) h.lexes.drop_blanks
    rcases hc with rfl | rfl <;> rfl
  · rcases hc with rfl | rfl
    · rw [Screening.passes_plain (by decide), h.passes]
    · rw [Screening.passes_newline, h.passes]

/-- A number in front of a text that makes no word longer. -/
theorem natural (n : Nat) (hr : Stops rest) (h : Legible stack rest ws) :
    Legible stack (n.repr.toList ++ rest) (⟨.intLit, n.repr⟩ :: ws) := by
  obtain ⟨c, cs, hcs, hdigit⟩ := Lexeme.exists_digits n
  have hnumber := number hdigit hr h
  rwa [← hcs, String.ofList_toList] at hnumber

/-! ### Words with one spelling -/

theorem keyword (k : TokenKind) {c : Char} (cs : List Char)
    (hw : String.ofList (c :: cs) = k.spelling)
    (hk : Lexeme.isLetter c ∧ cs.all Lexeme.isWordChar ∧ TokenKind.ofWord k.spelling = k)
    (hr : Stops rest) (h : Legible stack rest ws) :
    Legible stack (c :: cs ++ rest) (k.word :: ws) := by
  have hrun := run hk.1 (List.all_eq_true.1 hk.2.1) hr h
  rwa [hw, hk.2.2] at hrun

/-- A symbol that screening does not look at. -/
theorem symbol (k : TokenKind) {c : Char} (cs : List Char)
    (hk : Lexeme.first? c (cs ++ rest) = some (.token k, cs.length))
    (hw : String.ofList (c :: cs) = k.spelling) (hc : (c :: cs).all (· ∉ Screening.special))
    (h : Legible stack rest ws) : Legible stack (c :: cs ++ rest) (k.word :: ws) := by
  constructor
  · have hlex := Lexes.token hk (by rw [List.drop_left]; exact h.lexes)
    rwa [List.take_left, hw] at hlex
  · rw [Screening.passes_plain_append (by simpa using hc), h.passes]

theorem semicolon (h : Legible stack rest ws) :
    Legible stack (';' :: rest) (TokenKind.semicolon.word :: ws) :=
  symbol .semicolon [] rfl rfl (by decide) h

theorem comma (h : Legible stack rest ws) :
    Legible stack (',' :: rest) (TokenKind.comma.word :: ws) :=
  symbol .comma [] rfl rfl (by decide) h

/-- An equals sign in front of a blank. -/
theorem assign (h : Legible stack (' ' :: rest) ws) :
    Legible stack ('=' :: ' ' :: rest) (TokenKind.assign.word :: ws) :=
  symbol .assign [] rfl rfl (by decide) h

/-- A binary operator in front of a blank. -/
theorem binary (op : BinaryOp) (h : Legible stack (' ' :: rest) ws) :
    Legible stack (op.text.toList ++ ' ' :: rest) (op.kind.word :: ws) := by
  cases op with
  | div =>
    refine ⟨.token (n := 0) (k := .divide) rfl h.lexes, ?_⟩
    exact (Screening.passes_slash (by simp)).trans h.passes
  | add => exact symbol .plus [] rfl rfl (by decide) h
  | sub => exact symbol .minus [] rfl rfl (by decide) h
  | mul => exact symbol .times [] rfl rfl (by decide) h
  | lt => exact symbol .less [] rfl rfl (by decide) h
  | gt => exact symbol .greater [] rfl rfl (by decide) h
  | and => exact symbol .and ['&'] rfl rfl (by decide) h
  | or => exact symbol .or ['|'] rfl rfl (by decide) h
  | eq => exact symbol .equal ['='] rfl rfl (by decide) h
  | ne => exact symbol .notEqual ['='] rfl rfl (by decide) h
  | le => exact symbol .lessEqual ['='] rfl rfl (by decide) h
  | ge => exact symbol .greaterEqual ['='] rfl rfl (by decide) h

/-- A prefix operator in front of a character that makes no longer symbol of it. -/
theorem unary (op : UnaryOp) {c : Char} {cs : List Char} (hc : c ≠ '-' ∧ c ≠ '=')
    (h : Legible stack (c :: cs) ws) :
    Legible stack (op.text.toList ++ c :: cs) (op.kind.word :: ws) := by
  cases op with
  | negate => exact symbol .minus [] (Lexeme.first?_minus hc.1) rfl (by decide) h
  | not => exact symbol .not [] (Lexeme.first?_not hc.2) rfl (by decide) h

/-! ### Brackets -/

theorem opening {k : TokenKind} {o c : Char} (ho : Screening.closing? o = some c)
    (hk : Lexeme.first? o rest = some (.token k, 0)) (hw : String.ofList [o] = k.spelling)
    (h : Legible (o :: stack) rest ws) : Legible stack (o :: rest) (k.word :: ws) := by
  constructor
  · have hlex := Lexes.token hk h.lexes
    rwa [List.take_zero, hw] at hlex
  · rw [Screening.passes_open ho, h.passes]

theorem closing {k : TokenKind} {o c : Char} (ho : Screening.closing? o = some c)
    (hk : Lexeme.first? c rest = some (.token k, 0)) (hw : String.ofList [c] = k.spelling)
    (h : Legible stack rest ws) : Legible (o :: stack) (c :: rest) (k.word :: ws) := by
  constructor
  · have hlex := Lexes.token hk h.lexes
    rwa [List.take_zero, hw] at hlex
  · rw [Screening.passes_close ho, h.passes]

theorem lparen (h : Legible ('(' :: stack) rest ws) :
    Legible stack ('(' :: rest) (TokenKind.lparen.word :: ws) :=
  opening (k := .lparen) rfl rfl rfl h

theorem rparen (h : Legible stack rest ws) :
    Legible ('(' :: stack) (')' :: rest) (TokenKind.rparen.word :: ws) :=
  closing (k := .rparen) rfl rfl rfl h

theorem lbrace (h : Legible ('\x7b' :: stack) rest ws) :
    Legible stack ('\x7b' :: rest) (TokenKind.lbrace.word :: ws) :=
  opening (k := .lbrace) rfl rfl rfl h

theorem rbrace (h : Legible stack rest ws) :
    Legible ('\x7b' :: stack) ('\x7d' :: rest) (TokenKind.rbrace.word :: ws) :=
  closing (k := .rbrace) rfl rfl rfl h

end Legible

end Carrot
