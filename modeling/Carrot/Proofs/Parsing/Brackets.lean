import Carrot.Proofs.Grammar.Nesting
import Carrot.Proofs.Layout.Legible
import Carrot.Proofs.Parsing.FirstError

/-! # Screening and the cutting into tokens

Screening goes through a text line by line, and cutting goes through it lexeme by lexeme.
If lines end with line feeds only, or with a carriage return in front of one, both see the
same brackets: what screening does to the open brackets while it goes over a lexeme is what
the lexeme's own bracket does.
-/

namespace Carrot

namespace Text

/-- Each break is a line feed, alone or behind a carriage return. -/
def plainBreaks : List Char → Bool
  | [] => true
  | c :: cs =>
    (!isLineBreak c || c = '\n' || (c = '\r' && cs.head? = some '\n')) && plainBreaks cs

theorem plainBreaks_cons {c : Char} {cs : List Char} : plainBreaks (c :: cs) ↔
    (isLineBreak c → c = '\n' ∨ c = '\r' ∧ cs.head? = some '\n') ∧ plainBreaks cs := by
  rw [plainBreaks]
  cases isLineBreak c <;> simp

theorem plainBreaks_drop {cs : List Char} (h : plainBreaks cs) (n : Nat) :
    plainBreaks (cs.drop n) := by
  induction n generalizing cs with
  | zero => exact h
  | succ n ih =>
    cases cs with
    | nil => exact h
    | cons c cs => exact ih (plainBreaks_cons.1 h).2

end Text

namespace Screening

open Text

variable {stack cs : List Char}

theorem passes_break {c : Char} (hc : isLineBreak c) :
    passes .code stack (c :: cs) = passes .code stack cs := by
  rw [passes_of_isLineBreak hc]
  rfl

theorem passes_blank {c : Char} (hc : Lexeme.isBlank c) :
    passes .code stack (c :: cs) = passes .code stack cs := by
  by_cases hbreak : isLineBreak c
  · exact passes_break hbreak
  · refine passes_plain fun hspecial => hbreak ?_
    have hall : special.all fun d => !Lexeme.isBlank d || isLineBreak d := by decide
    simpa [hc] using List.all_eq_true.1 hall c hspecial

theorem passes_blanks {ds : List Char} (hds : ∀ d ∈ ds, Lexeme.isBlank d) :
    passes .code stack (ds ++ cs) = passes .code stack cs := by
  induction ds with
  | nil => rfl
  | cons d ds ih =>
    obtain ⟨hd, hds⟩ := List.forall_mem_cons.1 hds
    rw [List.cons_append, passes_blank hd, ih hds]

theorem passes_wordChars {ds : List Char} (hds : ∀ d ∈ ds, Lexeme.isWordChar d) :
    passes .code stack (ds ++ cs) = passes .code stack cs :=
  passes_plain_append fun d hd => Lexeme.not_special_of_isWordChar (hds d hd)

/-- A comment reaches up to the line feed: no other break ends it before. -/
theorem passes_comment_eq (h : plainBreaks cs) :
    passes .comment stack cs = passes .code stack (cs.dropWhile (· ≠ '\n')) := by
  induction cs with
  | nil => rfl
  | cons c cs ih =>
    obtain ⟨hc, hcs⟩ := plainBreaks_cons.1 h
    by_cases hnl : c = '\n'
    · rw [hnl, List.dropWhile_cons_of_neg (by simp), passes_newline]
      exact passes_of_isLineBreak (by decide)
    · rw [List.dropWhile_cons_of_pos (by simpa using hnl)]
      by_cases hbreak : isLineBreak c
      · obtain ⟨-, hhead⟩ := (hc hbreak).resolve_left hnl
        obtain ⟨ds, rfl⟩ := List.head?_eq_some_iff.1 hhead
        rw [List.dropWhile_cons_of_neg (by simp)]
        exact passes_of_isLineBreak hbreak
      · rw [passes_comment (Bool.eq_false_iff.2 hbreak), ih hcs]

/-- A bracket in code, which neither breaks a line nor opens a literal or a comment. -/
theorem passes_bracket {k : TokenKind} {b : Char} (hb : k.bracket? = some b) :
    passes .code stack (b :: cs) = (brackets? b stack).any (passes .code · cs) := by
  have hplain : isLineBreak b = false ∧ b ≠ '#' ∧ b ≠ '/' ∧ b ≠ '"' := by
    cases k <;> cases hb <;> decide
  obtain ⟨hbreak, hn, hs, hq⟩ := hplain
  rw [passes_code hbreak]
  simp only [hn, hs, hq, decide_false, Bool.false_or, Bool.false_and, Bool.false_eq_true, if_false]
  cases brackets? b stack <;> rfl

/-- If the characters behind a quote pass, they close it. -/
theorem stringTail?_isSome_of_passes (h : passes .quote stack cs) :
    (Lexeme.stringTail? cs).isSome := by
  fun_induction Lexeme.stringTail? cs with
  | case1 | case2 | case4 => cases h
  | case3 => rfl
  | case5 e cs he ih =>
    rw [passes_quote (by decide), if_pos rfl, passes_escape (isLineBreak_of_isEscape he),
      Bool.and_eq_true] at h
    simpa using ih h.2
  | case6 e cs he =>
    rw [passes_quote (by decide), if_pos rfl, passes.eq_def] at h
    simp [he, Mode.endsLine] at h
  | case7 c cs hnil hq _ hesc ih =>
    have hb : c ≠ '\\' := by
      intro hb
      cases cs with
      | nil => exact hnil hb rfl
      | cons e es => exact hesc e es hb rfl
    by_cases hbreak : isLineBreak c
    · rw [passes_of_isLineBreak hbreak] at h
      cases h
    · rw [passes_quote (Bool.eq_false_iff.2 hbreak), if_neg hb, if_neg hq] at h
      simpa using ih h

end Screening

namespace Lexeme

open Screening Text

def brackets : Lexeme → List Char
  | .token k => k.bracket?.toList
  | .layout => []

theorem brackets_tokens (l : Lexeme) (text : List Char) (p : Position) :
    Token.brackets (l.tokens text p) = l.brackets := by
  cases l with
  | token k => exact (Token.brackets_cons _ _).trans (List.append_nil _)
  | layout => rfl

/-- No break stands in a string literal, since it would need a line feed behind it. -/
theorem StringTail.not_isLineBreak {cs rest : List Char} (h : StringTail cs)
    (hbreaks : plainBreaks (cs ++ rest)) : cs.all (!isLineBreak ·) := by
  induction h with
  | close => rfl
  | @escape e cs he _ ih =>
    have hrest := (plainBreaks_cons.1 (plainBreaks_cons.1 hbreaks).2).2
    have hall := ih hrest
    simp only [List.all_cons, hall, isLineBreak_of_isEscape he]
    rfl
  | @plain c cs _ _ hn htail ih =>
    obtain ⟨hc, hrest⟩ := plainBreaks_cons.1 hbreaks
    have hbreak : isLineBreak c = false := by
      rw [Bool.eq_false_iff]
      intro hbreak
      obtain ⟨-, hhead⟩ := (hc hbreak).resolve_left hn
      cases htail with
      | close | escape => cases hhead
      | plain _ _ hn => exact hn (Option.some.inj hhead)
    simp only [List.all_cons, ih hrest, hbreak]
    rfl

/-- The spelling of a symbol is a bracket, a slash, or nothing that screening looks at. -/
theorem symbol_cases {s : List Char} {k : TokenKind} (h : (s, k) ∈ TokenKind.symbols) :
    (∃ b, s = [b] ∧ k.bracket? = some b) ∨
      k.bracket? = none ∧ (s = ['/'] ∨ s.all (· ∉ special)) := by
  have hall : ∀ s ∈ TokenKind.symbols, s.2.bracket?.map ([·]) = some s.1 ∨
      s.2.bracket? = none ∧ (s.1 = ['/'] ∨ s.1.all (· ∉ special)) := by decide
  rcases hall _ h with hb | hplain
  · obtain ⟨b, hb, hs⟩ := Option.map_eq_some_iff.1 hb
    exact .inl ⟨b, hs.symm, hb⟩
  · exact .inr hplain

theorem bracket?_ofWord (w : String) : (TokenKind.ofWord w).bracket? = none := by
  have hall : ∀ k ∈ TokenKind.ident :: TokenKind.keywords.map (·.2), k.bracket? = none := by decide
  exact hall _ (TokenKind.ofWord_mem w)

/-- Over a lexeme screening does what the lexeme's bracket does. -/
theorem First.passes_eq {c : Char} {cs : List Char} {l : Lexeme} {n : Nat} (h : First c cs l n)
    (hbreaks : plainBreaks (c :: cs)) (stack : List Char) :
    Screening.passes .code stack (c :: cs) =
      (openAfter stack l.brackets).any (Screening.passes .code · (cs.drop n)) := by
  have hcs := (plainBreaks_cons.1 hbreaks).2
  have hsplit : c :: cs = (c :: cs.take n) ++ cs.drop n := by simp
  cases h with
  | string hc h =>
    have htail := exists_stringTail h
    rw [← List.take_append_drop n cs] at hcs
    have hpass := htail.passes stack (cs.drop n)
    rw [htail.not_isLineBreak hcs, List.take_append_drop] at hpass
    rw [hc, passes_code (by decide)]
    exact hpass
  | word hc =>
    rw [brackets, bracket?_ofWord, hsplit]
    refine passes_wordChars (List.forall_mem_cons.2 ⟨isWordChar_of_isLetter hc, ?_⟩)
    exact (span_spec _ cs).1
  | comment h =>
    have hb : isLineBreak c = false := by
      rcases h with rfl | ⟨rfl, -⟩ <;> decide
    rw [passes_code hb, if_pos (by simpa using h), passes_comment_eq hcs, drop_span]
    rfl
  | blank hc =>
    rw [hsplit]
    exact passes_blanks (List.forall_mem_cons.2 ⟨hc, (span_spec _ cs).1⟩)
  | number hc =>
    rw [hsplit]
    refine passes_wordChars (List.forall_mem_cons.2 ⟨isWordChar_of_isDigit hc, ?_⟩)
    exact fun d hd => isWordChar_of_isDigit ((span_spec _ cs).1 d hd)
  | @symbol k n hq hn h =>
    obtain ⟨s, hs, ⟨rest, hrest⟩, rfl⟩ := mem_symbols_of_symbol? h
    rw [brackets]
    -- a slash is a symbol only where no other slash follows it
    rcases symbol_cases hs with ⟨b, rfl, hb⟩ | ⟨hnone, rfl | hplain⟩
    · cases hrest
      rw [hb, passes_bracket hb, Option.toList_some, openAfter_cons]
      cases brackets? c stack <;> rfl
    · cases hrest
      rw [hnone, passes_slash fun hhead => hn (.inr ⟨rfl, hhead⟩)]
      rfl
    · obtain ⟨d, ds, rfl⟩ := List.exists_cons_of_ne_nil (ne_nil_of_mem_symbols hs)
      cases hrest
      rw [hnone]
      change Screening.passes .code stack ((c :: ds) ++ rest) = _
      rw [passes_plain_append (by simpa using hplain)]
      simp

end Lexeme

namespace Screening

open Text

/-- Screening a text that is cut into tokens to its end is going through their brackets. -/
theorem passes_scan {p : Position} {cs : List Char} (hbreaks : plainBreaks cs)
    (hstop : (Tokens.scan p cs).stop = none) (stack : List Char) :
    passes .code stack cs =
      (openAfter stack (Token.brackets (Tokens.scan p cs).tokens)).any List.isEmpty := by
  fun_induction Tokens.scan p cs generalizing stack with
  | case1 => rfl
  | case2 => cases hstop
  | case3 p c cs l n hl text rest ih =>
    have hrest := plainBreaks_drop (plainBreaks_cons.1 hbreaks).2 n
    rw [(Lexeme.first_of_first? hl).passes_eq hbreaks, Token.brackets_append,
      Lexeme.brackets_tokens, openAfter_append]
    cases openAfter stack l.brackets with
    | none => rfl
    | some s => exact ih hrest hstop s

theorem ne_quote_of_passes {p q : Position} {cs : List Char} {c : Char}
    (h : ∃ stack, passes .code stack cs) (hstop : (Tokens.scan p cs).stop = some (c, q)) :
    c ≠ '"' := by
  fun_induction Tokens.scan p cs with
  | case1 => cases hstop
  | case2 p d cs hd =>
    cases hstop
    rintro rfl
    obtain ⟨stack, h⟩ := h
    rw [passes_code (by decide)] at h
    have hsome := stringTail?_isSome_of_passes h
    simp only [Lexeme.first?, if_true, Option.map_eq_none_iff] at hd
    simp [hd] at hsome
  | case3 p d cs l n hl text rest ih =>
    obtain ⟨stack, h⟩ := h
    exact ih (passes_first (Lexeme.first_of_first? hl) h).1 hstop

/-- Screening and cutting agree on every text whose lines end with line feeds, alone or behind a
carriage return. If the text is cut to its end, it passes exactly if its brackets are well nested,
so screening refuses no text that the grammar accepts; and behind screening, cutting never stops at
a quote. -/
theorem agrees_with_tokens (text : List Char) (hbreaks : plainBreaks text) :
    ((Tokens.ofText text).stop = none →
      (check text = .ok () ↔ Nested (Token.brackets (Tokens.ofText text).tokens)) ∧
      (Grammar.IsProgram (Tokens.ofText text).tokens → check text = .ok ())) ∧
    (check text = .ok () → ∀ c p, (Tokens.ofText text).stop = some (c, p) → c ≠ '"') := by
  refine ⟨fun hstop => ?_, fun hcheck c p hstop => ?_⟩
  · have hiff : check text = .ok () ↔ Nested (Token.brackets (Tokens.ofText text).tokens) := by
      rw [check_eq_ok_iff_passes, passes_scan hbreaks hstop,
        nested_iff fun _ => Token.isBracket_of_mem_brackets]
      unfold Tokens.ofText
      cases openAfter [] (Token.brackets (Tokens.scan .start text).tokens) <;> simp
    exact ⟨hiff, fun ⟨ds, hds⟩ => hiff.2 (Grammar.nested_of_derivesProgram hds)⟩
  · exact ne_quote_of_passes ⟨[], (check_eq_ok_iff_passes text).1 hcheck⟩ hstop

/-- Brackets in a literal and behind two slashes, and a line that ends with two characters. -/
def hiddenBrackets : List Char :=
  "void f()\x7b// \x7d\r\ncout << \"(\\\"//\";\n\x7d".toList

theorem agrees_with_tokens_hidden_brackets :
    plainBreaks hiddenBrackets ∧ check hiddenBrackets = .ok () ∧
      Nested (Token.brackets (Tokens.ofText hiddenBrackets).tokens) ∧
      (Tokens.ofText hiddenBrackets).stop = none := by
  have hbreaks : plainBreaks hiddenBrackets := by decide +kernel
  have hcheck : check hiddenBrackets = .ok () := (check_eq_ok_iff_passes _).2 (by decide +kernel)
  have hstop : (Tokens.ofText hiddenBrackets).stop = none := by decide +kernel
  exact ⟨hbreaks, hcheck, ((agrees_with_tokens _ hbreaks).1 hstop).1.1 hcheck, hstop⟩

end Screening

end Carrot
