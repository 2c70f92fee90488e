import Carrot.Proofs.Parsing.Brackets
import Carrot.Proofs.Token.Places

/-! # Fillers between lexemes

Between any two lexemes of a text, blanks may be put, or a comment with the end of its line. The
lexeme before stays as it is, since nothing that starts with a blank makes it longer, and the text
goes on as before behind the filler. The one exception is a comment, which takes in the filler up
to its first line feed.
-/

namespace Carrot

open Lexeme

/-- Characters that are put between lexemes: some blanks, or a blank and a comment that ends with
its line. -/
inductive Filler : List Char → Prop
  | blanks {cs} (hne : cs ≠ []) (h : ∀ c ∈ cs, isBlank c) : Filler cs
  | comment {c body} (hc : c = '#' ∨ c = '/' ∧ body.head? = some '/')
      (hbody : ∀ d ∈ body, Text.isLineBreak d = false) : Filler (' ' :: c :: body ++ ['\n'])

theorem Filler.head? {cs : List Char} (h : Filler cs) : ∃ b ∈ cs.head?, isBlank b := by
  cases h with
  | blanks hne h =>
    obtain ⟨b, bs, rfl⟩ := List.exists_cons_of_ne_nil hne
    exact ⟨b, rfl, h b List.mem_cons_self⟩
  | comment => exact ⟨' ', rfl, by decide⟩

/-- A text is cut in two between lexemes, or before all of them. -/
inductive Cut : List Char → List Char → Prop
  | here {cs} : Cut [] cs
  | next {c w l before after} (h : first? c (w ++ (before ++ after)) = some (l, w.length))
      (hs : Cut before after) : Cut (c :: w ++ before) after

/-! ### The lexeme before a filler -/

/-- The second text starts as the first one does, or with a blank. -/
def Alike (rest rest' : List Char) : Prop :=
  rest'.head? = rest.head? ∨ ∃ b ∈ rest'.head?, isBlank b

theorem Filler.alike {ins before after : List Char} (h : Filler ins) :
    Alike (before ++ after) (before ++ (ins ++ after)) := by
  cases before with
  | nil =>
    obtain ⟨b, hb, hblank⟩ := h.head?
    obtain ⟨bs, rfl⟩ := List.head?_eq_some_iff.1 hb
    exact .inr ⟨b, rfl, hblank⟩
  | cons c cs => exact .inl rfl

section

variable {c : Char} {w rest rest' : List Char}

/-- What cannot go on a run of characters still cannot. -/
theorem Alike.stops {p : Char → Bool} (h : Alike rest rest') (hp : ∀ c, isBlank c → p c = false)
    (hr : ∀ c ∈ rest.head?, p c = false) : ∀ c ∈ rest'.head?, p c = false := by
  rcases h with heq | ⟨b, hb, hblank⟩
  · rwa [heq]
  · intro c hc
    obtain rfl := Option.mem_unique hb hc
    exact hp b hblank

/-- A run of characters ends before `rest` if it has the length of `w`. -/
theorem span_eq_length {p : Char → Bool} (h : w.length = span p (w ++ rest)) :
    (∀ c ∈ w, p c) ∧ ∀ c ∈ rest.head?, p c = false := by
  have hspec := span_spec p (w ++ rest)
  rwa [← h, List.take_left, List.drop_left] at hspec

theorem first?_symbol {s : List Char} {k : TokenKind} (hs : (c :: s, k) ∈ TokenKind.symbols)
    {cs : List Char} (hc : ¬(c = '/' ∧ cs.head? = some '/')) :
    first? c cs = (symbol? (c :: cs)).map fun s => (.token s.1, s.2) := by
  have hall : TokenKind.symbols.all fun s => s.1.head?.all fun c =>
      c ≠ '"' ∧ isLetter c = false ∧ c ≠ '#' ∧ isBlank c = false ∧ isDigit c = false := by decide
  obtain ⟨hq, hl, hn, hb, hd⟩ := of_decide_eq_true (List.all_eq_true.1 hall _ hs)
  simp [first?, commentTail?, hq, hl, hn, hb, hd, hc]

/-- Which symbol a text starts with depends on its first two characters. -/
theorem symbol?_congr {cs cs' : List Char} (h : cs'.head? = cs.head?) :
    symbol? (c :: cs') = symbol? (c :: cs) := by
  cases cs <;> cases cs' <;> cases h <;> rfl

/-- No symbol has a blank as its second character. -/
theorem symbol?_blank {k : TokenKind} {b : Char} (hk : ([c], k) ∈ TokenKind.symbols)
    (hb : isBlank b) : symbol? [c, b] = some (k, 0) := by
  have hall : TokenKind.symbols.all fun s => s.1.length ≠ 1 ∨
      [' ', '\t', '\x0c', '\r', '\n'].all fun b => symbol? (s.1 ++ [b]) = some (s.2, 0) := by decide
  have hsymbol := (of_decide_eq_true (List.all_eq_true.1 hall _ hk)).neg_resolve_left rfl
  exact of_decide_eq_true (List.all_eq_true.1 hsymbol b (by simpa using isBlank_cases hb))

theorem mem_symbols_of_length {k : TokenKind}
    (hs : symbol? (c :: (w ++ rest)) = some (k, w.length)) : (c :: w, k) ∈ TokenKind.symbols := by
  obtain ⟨s, hmem, hprefix, hlen⟩ := mem_symbols_of_symbol? hs
  have hpos := List.length_pos_iff.2 (ne_nil_of_mem_symbols hmem)
  have heq := List.prefix_iff_eq_take.1 hprefix
  rw [show s.length = w.length + 1 by omega, List.take_succ_cons, List.take_left] at heq
  rwa [heq] at hmem

/-- What does not start a comment still does not. -/
theorem Alike.head?_append_ne_slash (h : Alike rest rest')
    (hw : (w ++ rest).head? ≠ some '/') : (w ++ rest').head? ≠ some '/' := by
  cases w with
  | cons d ds => exact hw
  | nil =>
    rcases h with heq | ⟨b, hb, hblank⟩
    · rwa [List.nil_append, heq]
    · rintro hslash
      obtain rfl := Option.some.inj (hb.symm.trans hslash)
      cases hblank

theorem symbol?_alike {k : TokenKind} (hk : (c :: w, k) ∈ TokenKind.symbols)
    (h : Alike rest rest') (hs : symbol? (c :: (w ++ rest)) = some (k, w.length)) :
    symbol? (c :: (w ++ rest')) = some (k, w.length) := by
  cases w with
  | cons d ds => exact (symbol?_congr rfl).trans hs
  | nil =>
    rcases h with heq | ⟨b, hb, hblank⟩
    · exact (symbol?_congr heq).trans hs
    · exact (symbol?_congr hb).trans (symbol?_blank hk hblank)

theorem first?_alike {k : TokenKind} (h : Alike rest rest')
    (hf : first? c (w ++ rest) = some (.token k, w.length)) :
    first? c (w ++ rest') = some (.token k, w.length) := by
  have hfirst := first_of_first? hf
  generalize hn : w.length = n at hfirst
  cases hfirst with
  | string hc hs =>
    have htail := exists_stringTail hs
    rw [← hn, List.take_left] at htail
    rw [first?, if_pos hc, htail.stringTail? rest', hn]
    rfl
  | word hc =>
    obtain ⟨hw, hr⟩ := span_eq_length hn
    have hspan := span_append hw (h.stops (fun _ => isWordChar_of_isBlank) hr)
    rw [first?_letter _ hc, hspan, ← hn, List.take_left, List.take_left]
  | number hc =>
    obtain ⟨hw, hr⟩ := span_eq_length hn
    rw [first?_digit _ hc, span_append hw (h.stops (fun _ => isDigit_of_isBlank) hr), hn]
  | symbol hq hno hs =>
    rw [← hn] at hs ⊢
    have hk := mem_symbols_of_length hs
    have hslash : ¬(c = '/' ∧ (w ++ rest').head? = some '/') :=
      fun hc => h.head?_append_ne_slash (fun hw => hno (.inr ⟨hc.1, hw⟩)) hc.2
    rw [first?_symbol hk hslash, symbol?_alike hk h hs]
    rfl

end

/-! ### Words behind fillers -/

section

variable {c : Char} {w rest : List Char} {ws : List TokenWord}

theorem comment_append (rest : List Char) (hc : c = '#' ∨ c = '/' ∧ w.head? = some '/') :
    c = '#' ∨ c = '/' ∧ (w ++ rest).head? = some '/' :=
  hc.imp_right fun h => ⟨h.1, by rw [List.head?_append, h.2]; rfl⟩

/-- A comment with the blank before it breaks no line. -/
theorem noBreak_of_comment (hc : c = '#' ∨ c = '/' ∧ w.head? = some '/')
    (hw : ∀ d ∈ w, Text.isLineBreak d = false) :
    ∀ d ∈ ' ' :: c :: w, Text.isLineBreak d = false := by
  have hplain : Text.isLineBreak c = false := by
    rcases hc with rfl | ⟨rfl, -⟩ <;> decide
  exact List.forall_mem_cons.2 ⟨by decide, List.forall_mem_cons.2 ⟨hplain, hw⟩⟩

theorem ne_lineFeed_of_comment (hc : c = '#' ∨ c = '/' ∧ w.head? = some '/')
    (hw : ∀ d ∈ w, Text.isLineBreak d = false) : ∀ d ∈ ' ' :: c :: w, d ≠ '\n' := by
  rintro d hd rfl
  cases noBreak_of_comment hc hw _ hd

theorem Lexes.blanks (bs : List Char) (hb : ∀ b ∈ bs, isBlank b) (h : Lexes rest ws) :
    Lexes (bs ++ rest) ws := by
  induction bs with
  | nil => exact h
  | cons b bs ih =>
    obtain ⟨hb, hbs⟩ := List.forall_mem_cons.1 hb
    exact .layout (first?_blank _ hb) (ih hbs).drop_blanks

/-- A comment takes in all characters up to a line feed. -/
theorem Lexes.comment (hc : c = '#' ∨ c = '/' ∧ w.head? = some '/')
    (hw : ∀ d ∈ w, d ≠ '\n') (h : Lexes (rest.dropWhile (· ≠ '\n')) ws) :
    Lexes (c :: w ++ rest) ws := by
  have hstart := comment_append rest hc
  have hfirst : first? c (w ++ rest) = some (.layout, span (· ≠ '\n') (w ++ rest)) := by
    have htail : commentTail? c (w ++ rest) = some (span (· ≠ '\n') (w ++ rest)) :=
      if_pos (by simpa using hstart)
    have hplain : c ≠ '"' ∧ isLetter c = false := by
      rcases hc with rfl | ⟨rfl, -⟩ <;> decide
    simp [first?, hplain, htail]
  rw [List.cons_append]
  refine .layout hfirst ?_
  rwa [drop_span, List.dropWhile_append_of_pos (by simpa using hw)]

/-- The text does not go on a comment. -/
def AtLineEnd (rest : List Char) : Prop := ∀ c ∈ rest.head?, c = '\n'

theorem AtLineEnd.dropWhile_eq (h : AtLineEnd rest) : rest.dropWhile (· ≠ '\n') = rest := by
  cases rest with
  | nil => rfl
  | cons c cs =>
    obtain rfl := h c rfl
    rfl

theorem AtLineEnd.head?_of_append (h : AtLineEnd rest) {d : Char} (hd : d ≠ '\n')
    (hw : (w ++ rest).head? = some d) : w.head? = some d := by
  cases w with
  | nil => exact absurd (h d hw) hd
  | cons e es => exact hw

theorem Filler.lexes {ins : List Char} (hi : Filler ins) (h : Lexes rest ws) :
    Lexes (ins ++ rest) ws := by
  cases hi with
  | blanks _ hb => exact h.blanks _ hb
  | @comment c body hc hbody =>
    have hline : Lexes ('\n' :: rest) ws := h.blanks ['\n'] (List.forall_mem_singleton.2 rfl)
    have hne := ne_lineFeed_of_comment hc hbody
    have hcomment : Lexes (c :: body ++ '\n' :: rest) ws :=
      .comment hc (fun d hd => hne d (by simp [hd])) hline
    simpa using hcomment.blanks [' '] (List.forall_mem_singleton.2 rfl)

/-- A comment in front of a filler takes in part of it. -/
theorem Filler.lexes_dropWhile {ins : List Char} (hi : Filler ins) (hr : AtLineEnd rest)
    (h : Lexes rest ws) : Lexes ((ins ++ rest).dropWhile (· ≠ '\n')) ws := by
  cases hi with
  | blanks hne hb =>
    clear hne
    induction ins with
    | nil => rwa [List.nil_append, hr.dropWhile_eq]
    | cons b bs ih =>
      by_cases hnl : b = '\n'
      · rw [List.cons_append, List.dropWhile_cons_of_neg (by simpa using hnl)]
        exact h.blanks _ hb
      · rw [List.cons_append, List.dropWhile_cons_of_pos (by simpa using hnl)]
        exact ih (List.forall_mem_cons.1 hb).2
  | @comment c body hc hbody =>
    have hne := ne_lineFeed_of_comment hc hbody
    rw [List.append_assoc, List.dropWhile_append_of_pos (by simpa using hne)]
    exact h.blanks ['\n'] (List.forall_mem_singleton.2 rfl)

/-- A filler between two lexemes does not change the words of a text. -/
theorem Cut.lexes {before after ins : List Char} (hcut : Cut before after) (hi : Filler ins)
    (h : Lexes (before ++ after) ws) : Lexes (before ++ (ins ++ after)) ws := by
  induction hcut generalizing ws with
  | here => exact hi.lexes h
  | @next c w l before after hf _ ih =>
    rw [List.append_assoc, List.cons_append] at h ⊢
    have hdrop : (w ++ (before ++ after)).drop w.length = before ++ after := List.drop_left
    cases h with
    | @token _ _ k n ws h hs =>
      cases Option.some.inj (hf.symm.trans h)
      rw [hdrop] at hs
      have hfirst := first?_alike hi.alike hf
      have hlex := Lexes.token hfirst (by rw [List.drop_left]; exact ih hs)
      rw [List.take_left] at hlex ⊢
      exact hlex
    | layout h hs =>
      cases Option.some.inj (hf.symm.trans h)
      rw [hdrop] at hs
      have hfirst := first_of_first? hf
      generalize hn : w.length = n at hfirst
      cases hfirst with
      | blank hc =>
        have hw := (span_eq_length hn).1
        exact (ih hs).blanks _ (List.forall_mem_cons.2 ⟨hc, hw⟩)
      | comment hc =>
        obtain ⟨hw, hr⟩ := span_eq_length hn
        have hend : AtLineEnd (before ++ after) := fun d hd => by simpa using hr d hd
        have hstart : c = '#' ∨ c = '/' ∧ w.head? = some '/' :=
          hc.imp_right fun h => ⟨h.1, hend.head?_of_append (by decide) h.2⟩
        refine Lexes.comment hstart (fun d hd => by simpa using hw d hd) ?_
        cases before with
        | nil => exact hi.lexes_dropWhile hend hs
        | cons d ds =>
          obtain rfl := hend d rfl
          exact ih hs

end

/-! ### Screening behind fillers -/

namespace Screening

variable {c : Char} {w rest rest' stack : List Char} {m : Mode}

/-- Up to a line feed a comment ends like code. -/
theorem passes_of_atLineEnd (h : AtLineEnd rest) :
    passes m stack rest = (m.endsLine && passes .code stack rest) := by
  cases rest with
  | nil => cases m <;> rfl
  | cons c cs =>
    obtain rfl := h c rfl
    rw [passes_of_isLineBreak (by decide), passes_newline]

theorem passes_comment_append (hw : ∀ d ∈ w, Text.isLineBreak d = false) :
    passes .comment stack (w ++ rest) = passes .comment stack rest := by
  induction w with
  | nil => rfl
  | cons d ds ih =>
    obtain ⟨hd, hds⟩ := List.forall_mem_cons.1 hw
    rw [List.cons_append, passes_comment hd, ih hds]

/-- A comment in front of a filler ends in it at the latest. -/
theorem passes_comment_filler {ins : List Char} (hi : Filler ins) (hr : AtLineEnd rest) :
    passes .comment stack (ins ++ rest) = passes .code stack rest := by
  cases hi with
  | blanks hne hb =>
    clear hne
    induction ins with
    | nil => exact passes_of_atLineEnd hr
    | cons b bs ih =>
      obtain ⟨hb, hbs⟩ := List.forall_mem_cons.1 hb
      by_cases hbreak : Text.isLineBreak b
      · rw [List.cons_append, passes_of_isLineBreak hbreak, passes_blanks hbs]
        rfl
      · rw [List.cons_append, passes_comment (Bool.eq_false_iff.2 hbreak), ih hbs]
  | @comment c body hc hbody =>
    rw [List.append_assoc, passes_comment_append (noBreak_of_comment hc hbody)]
    exact passes_of_isLineBreak (by decide)

theorem passes_filler {ins : List Char} (hi : Filler ins) :
    passes .code stack (ins ++ rest) = passes .code stack rest := by
  cases hi with
  | blanks _ hb => exact passes_blanks hb
  | @comment c body hc hbody =>
    have hplain := noBreak_of_comment hc hbody c (List.mem_cons_of_mem _ List.mem_cons_self)
    have hstart := comment_append ('\n' :: rest) hc
    have hsplit : ' ' :: c :: body ++ ['\n'] ++ rest = ' ' :: c :: (body ++ '\n' :: rest) := by
      simp
    rw [hsplit, passes_plain (by decide), passes_code hplain, if_pos (by simpa using hstart),
      passes_comment_append hbody]
    exact passes_of_isLineBreak (by decide)

/-- One character, in front of a text that passes whenever another one does. -/
theorem passes_cons_mono (h : ∀ m stack, passes m stack rest → passes m stack rest')
    (hslash : rest'.head? = some '/' ↔ rest.head? = some '/') (hp : passes m stack (c :: rest)) :
    passes m stack (c :: rest') := by
  by_cases hc : Text.isLineBreak c
  · rw [passes_of_isLineBreak hc, Bool.and_eq_true] at hp ⊢
    exact hp.imp_right (h _ _)
  · have hc := Bool.eq_false_iff.2 hc
    cases m with
    | comment =>
      rw [passes_comment hc] at hp ⊢
      exact h _ _ hp
    | escape =>
      rw [passes_escape hc, Bool.and_eq_true] at hp ⊢
      exact hp.imp_right (h _ _)
    | quote =>
      rw [passes_quote hc] at hp ⊢
      exact h _ _ hp
    | code =>
      rw [passes_code hc] at hp ⊢
      simp only [hslash]
      split
      · next hcomment =>
        rw [if_pos hcomment] at hp
        exact h _ _ hp
      · next hcomment =>
        rw [if_neg hcomment] at hp
        split
        · next hq =>
          rw [if_pos hq] at hp
          exact h _ _ hp
        · next hq =>
          rw [if_neg hq] at hp
          cases hb : brackets? c stack with
          | none => simp [hb] at hp
          | some s =>
            rw [hb] at hp
            exact h _ _ hp

theorem passes_append_mono (h : ∀ m stack, passes m stack rest → passes m stack rest')
    (hr : rest.head? ≠ some '/') (hr' : rest'.head? ≠ some '/') (hp : passes m stack (w ++ rest)) :
    passes m stack (w ++ rest') := by
  induction w generalizing m stack with
  | nil => exact h m stack hp
  | cons d ds ih =>
    refine passes_cons_mono (fun m stack => ih) ?_ hp
    cases ds with
    | nil => exact iff_of_false hr' hr
    | cons e es => rfl

/-- Over a lexeme, in front of a text that passes whenever another one does. -/
theorem passes_lexeme_mono {l : Lexeme} (hf : first? c (w ++ rest) = some (l, w.length))
    (halike : Alike rest rest')
    (hcode : ∀ stack, passes .code stack rest → passes .code stack rest')
    (hcomment : AtLineEnd rest → ∀ stack, passes .code stack rest → passes .comment stack rest')
    (hp : passes .code stack (c :: w ++ rest)) : passes .code stack (c :: w ++ rest') := by
  have hfirst := first_of_first? hf
  generalize hn : w.length = n at hfirst
  cases hfirst with
  | string hc hs =>
    have htail := exists_stringTail hs
    rw [← hn, List.take_left] at htail
    rw [hc, List.cons_append, passes_code (by decide)] at hp ⊢
    have hp := (htail.passes stack rest).symm.trans hp
    rw [Bool.and_eq_true] at hp
    refine (htail.passes stack rest').trans ?_
    rw [hp.1, hcode _ hp.2]
    rfl
  | word hc =>
    have hrun : ∀ d ∈ c :: w, isWordChar d :=
      List.forall_mem_cons.2 ⟨isWordChar_of_isLetter hc, (span_eq_length hn).1⟩
    rw [passes_wordChars hrun] at hp ⊢
    exact hcode _ hp
  | number hc =>
    have hrun : ∀ d ∈ c :: w, isWordChar d := List.forall_mem_cons.2
      ⟨isWordChar_of_isDigit hc, fun d hd => isWordChar_of_isDigit ((span_eq_length hn).1 d hd)⟩
    rw [passes_wordChars hrun] at hp ⊢
    exact hcode _ hp
  | blank hc =>
    have hrun : ∀ d ∈ c :: w, isBlank d := List.forall_mem_cons.2 ⟨hc, (span_eq_length hn).1⟩
    rw [passes_blanks hrun] at hp ⊢
    exact hcode _ hp
  | comment hc =>
    -- What stands behind a comment is at the end of its line, and may be a comment no more.
    have hend : AtLineEnd rest := fun d hd => by simpa using (span_eq_length hn).2 d hd
    have hslash : rest.head? ≠ some '/' := fun h => absurd (hend _ h) (by decide)
    have hslash' : rest'.head? ≠ some '/' := halike.head?_append_ne_slash (w := []) hslash
    refine passes_append_mono (fun m stack h => ?_) hslash hslash' hp
    rw [passes_of_atLineEnd hend, Bool.and_eq_true] at h
    cases m with
    | code => exact hcode _ h.2
    | comment => exact hcomment hend _ h.2
    | quote => cases h.1
    | escape => cases h.1
  | symbol hq hno hs =>
    rw [← hn] at hs
    have hk := mem_symbols_of_length hs
    rcases symbol_cases hk with ⟨b, hb, hbracket⟩ | ⟨-, hslash | hplain⟩
    · rw [hb, List.singleton_append, passes_bracket hbracket, Option.any_eq_true] at hp ⊢
      obtain ⟨s, hs, hp⟩ := hp
      exact ⟨s, hs, hcode _ hp⟩
    · -- A slash opens a comment only in front of another one.
      obtain ⟨rfl, rfl⟩ := List.cons.inj hslash
      have hnext : rest.head? ≠ some '/' := fun h => hno (.inr ⟨rfl, h⟩)
      have hnext' : rest'.head? ≠ some '/' := halike.head?_append_ne_slash (w := []) hnext
      rw [List.singleton_append, passes_slash hnext] at hp
      rw [List.singleton_append, passes_slash hnext']
      exact hcode _ hp
    · rw [passes_plain_append (by simpa using hplain)] at hp ⊢
      exact hcode _ hp

end Screening

/-- A text that passes screening also does with a filler between two lexemes. -/
theorem Cut.passes {before after ins stack : List Char} (hcut : Cut before after)
    (hi : Filler ins) (hp : Screening.passes .code stack (before ++ after)) :
    Screening.passes .code stack (before ++ (ins ++ after)) := by
  induction hcut generalizing stack with
  | here => rwa [List.nil_append, Screening.passes_filler hi]
  | @next c w l before after hf _ ih =>
    rw [List.append_assoc] at hp ⊢
    refine Screening.passes_lexeme_mono hf hi.alike (fun stack => ih) (fun hend stack h => ?_) hp
    cases before with
    | nil => exact (Screening.passes_comment_filler hi hend).trans h
    | cons d ds =>
      have hend' : AtLineEnd (d :: ds ++ (ins ++ after)) := hend
      rw [Screening.passes_of_atLineEnd hend', ih h]
      rfl

/-! ### Where lexemes end -/

theorem Lexeme.First.length_le {c : Char} {cs : List Char} {l : Lexeme} {n : Nat}
    (h : First c cs l n) : n ≤ cs.length := by
  cases h with
  | string _ hs =>
    have htail := (exists_stringTail hs).stringTail? (cs.drop n)
    rw [List.take_append_drop, hs] at htail
    have hlen := List.length_take_le' n cs
    rwa [← Option.some.inj htail] at hlen
  | word | comment | blank | number => exact (List.takeWhile_prefix _).length_le
  | symbol _ _ hs =>
    obtain ⟨s, -, hprefix, rfl⟩ := mem_symbols_of_symbol? hs
    exact Nat.sub_le_of_le_add hprefix.length_le

namespace Position

variable {p : Position} {before after w rest : List Char}

theorem after_eq_self (h : p.after before = p) : before = [] := by
  cases before with
  | nil => rfl
  | cons c cs =>
    have hlt := lt_after_cons p c cs
    rw [h] at hlt
    exact absurd hlt (lt_irrefl _)

/-- Of two beginnings of a text, the one that reaches further starts with the other one. -/
theorem exists_of_after_le (hsplit : before ++ after = w ++ rest)
    (h : p.after w ≤ p.after before) : ∃ b, before = w ++ b ∧ rest = b ++ after := by
  rcases List.append_eq_append_iff.1 hsplit with ⟨a, rfl, rfl⟩ | ⟨b, hb, hrest⟩
  · cases a with
    | nil => exact ⟨[], by simp, rfl⟩
    | cons c cs =>
      rw [after_append] at h
      exact absurd (lt_of_lt_of_le (lt_after_cons _ c cs) h) (lt_irrefl _)
  · exact ⟨b, hb, hrest⟩

end Position

/-- The places at which a token starts and ends lie between lexemes. -/
theorem cut_of_position {p : Position} {cs : List Char} :
    ∀ t ∈ (Tokens.scan p cs).tokens, ∀ {before after : List Char}, before ++ after = cs →
      p.after before = t.position ∨ p.after before = t.position.after t.text.toList →
        Cut before after := by
  fun_induction Tokens.scan p cs with
  | case1 | case2 => simp
  | case3 p c cs l n hl text rest ih =>
    intro t ht before after hcs h
    have hlen := (first_of_first? hl).length_le
    have hsplit : before ++ after = text ++ cs.drop n := by simp [hcs, text]
    have hcut {b : List Char} (hb : cs.drop n = b ++ after) (hs : Cut b after) :
        Cut (text ++ b) after := by
      refine .next (l := l) ?_ hs
      rw [← hb, List.take_append_drop, List.length_take, Nat.min_eq_left hlen]
      exact hl
    rcases List.mem_append.1 ht with ht | ht
    · cases l with
      | layout => cases ht
      | token k =>
        rw [List.mem_singleton.1 ht, String.toList_ofList] at h
        rcases h with h | h
        · rw [Position.after_eq_self h]
          exact .here
        · obtain ⟨b, rfl, hb⟩ := Position.exists_of_after_le hsplit h.ge
          rw [Position.after_append] at h
          cases Position.after_eq_self h
          exact hcut hb .here
    · -- A token of the rest starts behind this lexeme, so the cut is behind it too.
      have hle : p.after text ≤ p.after before := by
        have hpos := Tokens.le_position_of_mem_scan t ht
        rcases h with h | h
        · rwa [h]
        · rw [h]
          exact le_trans hpos (Position.le_after _ _)
      obtain ⟨b, rfl, hb⟩ := Position.exists_of_after_le hsplit hle
      rw [Position.after_append] at h
      exact hcut hb (ih t ht hb.symm h)

end Carrot
