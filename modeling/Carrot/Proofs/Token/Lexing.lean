import Carrot.Proofs.Screening

/-! # Texts and their words

A word is a token without its place. `Lexes` says which words a text is cut into; it
is built from the end of the text, one lexeme at a time. What a text looks like
behind a lexeme matters only as far as it might make the lexeme longer.
-/

namespace Carrot

/-- A token without its place. -/
structure TokenWord where
  kind : TokenKind
  text : String
  deriving DecidableEq, Repr

def Token.word (t : Token) : TokenWord := ⟨t.kind, t.text⟩

/-- The text is cut into these words, up to its end. -/
inductive Lexes : List Char → List TokenWord → Prop
  | nil : Lexes [] []
  | token {c cs k n ws} (h : Lexeme.first? c cs = some (.token k, n)) (hs : Lexes (cs.drop n) ws) :
      Lexes (c :: cs) (⟨k, String.ofList (c :: cs.take n)⟩ :: ws)
  | layout {c cs n ws} (h : Lexeme.first? c cs = some (.layout, n)) (hs : Lexes (cs.drop n) ws) :
      Lexes (c :: cs) ws

theorem Lexes.scan {cs : List Char} {ws : List TokenWord} (h : Lexes cs ws) (p : Position) :
    (Tokens.scan p cs).stop = none ∧ (Tokens.scan p cs).tokens.map Token.word = ws := by
  induction h generalizing p with
  | nil => simp [Tokens.scan]
  | @token c cs k n ws h _ ih =>
    rw [Tokens.scan]
    simp [h, Lexeme.tokens, ih, Token.word]
  | @layout c cs n ws h _ ih =>
    rw [Tokens.scan]
    simp [h, Lexeme.tokens, ih]

theorem lexes_of_scan {cs : List Char} {p : Position} (h : (Tokens.scan p cs).stop = none) :
    Lexes cs ((Tokens.scan p cs).tokens.map Token.word) := by
  fun_induction Tokens.scan p cs with
  | case1 => exact .nil
  | case2 => cases h
  | case3 p c cs l n hl text rest ih =>
    cases l with
    | token k => exact .token hl (ih h)
    | layout => exact .layout hl (ih h)

namespace Lexeme

/-! ### Runs of characters -/

theorem span_append {p : Char → Bool} {cs rest : List Char} (hcs : ∀ c ∈ cs, p c)
    (hr : ∀ c ∈ rest.head?, p c = false) : span p (cs ++ rest) = cs.length := by
  induction cs with
  | nil =>
    cases rest with
    | nil => rfl
    | cons d ds => simp [span, hr d rfl]
  | cons c cs ih =>
    obtain ⟨hc, hcs⟩ := List.forall_mem_cons.1 hcs
    rw [List.cons_append, span, List.takeWhile_cons_of_pos hc, List.length_cons, List.length_cons]
    exact congrArg (· + 1) (ih hcs)

theorem drop_span (p : Char → Bool) (cs : List Char) : cs.drop (span p cs) = cs.dropWhile p := by
  induction cs with
  | nil => rfl
  | cons c cs ih =>
    by_cases hc : p c
    · simpa [span, hc] using ih
    · simp [span, hc]

theorem span_spec (p : Char → Bool) (cs : List Char) :
    (∀ c ∈ cs.take (span p cs), p c) ∧ ∀ c ∈ (cs.drop (span p cs)).head?, p c = false := by
  induction cs with
  | nil => simp [span]
  | cons c cs ih =>
    by_cases hc : p c
    · have hs : span p (c :: cs) = span p cs + 1 := by simp [span, hc]
      rw [hs, List.take_succ_cons, List.drop_succ_cons, List.forall_mem_cons]
      exact ⟨⟨hc, ih.1⟩, ih.2⟩
    · have hs : span p (c :: cs) = 0 := by simp [span, hc]
      simpa [hs] using hc

/-! ### String literals -/

/-- The characters of a string literal behind its opening quote. -/
inductive StringTail : List Char → Prop
  | close : StringTail ['"']
  | escape {e cs} (he : isEscape e) (h : StringTail cs) : StringTail ('\\' :: e :: cs)
  | plain {c cs} (hq : c ≠ '"') (hb : c ≠ '\\') (hn : c ≠ '\n') (h : StringTail cs) :
      StringTail (c :: cs)

theorem StringTail.stringTail? {cs : List Char} (h : StringTail cs) (rest : List Char) :
    stringTail? (cs ++ rest) = some cs.length := by
  induction h with
  | close => rfl
  | escape he _ ih => simp [Lexeme.stringTail?, he, ih]
  | plain hq hb hn _ ih => simp [Lexeme.stringTail?, hb, ih]

theorem exists_stringTail {cs : List Char} {n : Nat} (h : stringTail? cs = some n) :
    StringTail (cs.take n) := by
  fun_induction Lexeme.stringTail? cs generalizing n with
  | case1 | case2 | case4 | case6 => cases h
  | case3 =>
    cases h
    exact .close
  | case5 e cs he ih =>
    obtain ⟨m, hm, rfl⟩ := Option.map_eq_some_iff.1 h
    exact .escape he (ih hm)
  | case7 c cs hnil hq hn hesc ih =>
    obtain ⟨m, hm, rfl⟩ := Option.map_eq_some_iff.1 h
    refine .plain hq ?_ hn (ih hm)
    intro hb
    cases cs with
    | nil => exact hnil hb rfl
    | cons e es => exact hesc e es hb rfl

/-- In a string literal screening only looks for line breaks. -/
theorem StringTail.passes {cs : List Char} (h : StringTail cs) (stack rest : List Char) :
    Screening.passes .quote stack (cs ++ rest) =
      (cs.all (!Text.isLineBreak ·) && Screening.passes .code stack rest) := by
  induction h with
  | close =>
    rw [List.singleton_append, Screening.passes_quote (by decide)]
    rfl
  | @escape e cs he _ ih =>
    have hbreak := Screening.isLineBreak_of_isEscape he
    rw [List.cons_append, List.cons_append, Screening.passes_quote (by decide), if_pos rfl,
      Screening.passes_escape hbreak, ih, he]
    simp [hbreak, show Text.isLineBreak '\\' = false by decide]
  | @plain c cs hq hb _ _ ih =>
    by_cases hc : Text.isLineBreak c
    · rw [List.cons_append, Screening.passes_of_isLineBreak hc]
      simp [hc, Screening.Mode.endsLine]
    · have hc := Bool.eq_false_iff.2 hc
      rw [List.cons_append, Screening.passes_quote hc, if_neg hb, if_neg hq, ih]
      simp [hc]

/-! ### The first lexeme -/

/-- The ways a text may begin, with how many characters follow the first one. -/
inductive First (c : Char) (cs : List Char) : Lexeme → Nat → Prop
  | string {n} (hc : c = '"') (h : stringTail? cs = some n) : First c cs (.token .strLit) n
  | word (hc : isLetter c) :
      First c cs (.token (.ofWord (String.ofList (c :: cs.take (span isWordChar cs)))))
        (span isWordChar cs)
  | comment (h : c = '#' ∨ c = '/' ∧ cs.head? = some '/') :
      First c cs .layout (span (· ≠ '\n') cs)
  | blank (hc : isBlank c) : First c cs .layout (span isBlank cs)
  | number (hc : isDigit c) : First c cs (.token .intLit) (span isDigit cs)
  | symbol {k n} (hq : c ≠ '"') (hn : ¬(c = '#' ∨ c = '/' ∧ cs.head? = some '/'))
      (h : symbol? (c :: cs) = some (k, n)) : First c cs (.token k) n

theorem first_of_first? {c : Char} {cs : List Char} {l : Lexeme} {n : Nat}
    (h : first? c cs = some (l, n)) : First c cs l n := by
  unfold first? at h
  split at h
  · next hc =>
    obtain ⟨m, hm, heq⟩ := Option.map_eq_some_iff.1 h
    cases heq
    exact .string hc hm
  · next hq =>
    split at h
    · next hc =>
      cases h
      exact .word hc
    · next hl =>
      split at h
      · next m hm =>
        cases h
        unfold commentTail? at hm
        split at hm
        · next hc =>
          cases hm
          exact .comment (by simpa using hc)
        · cases hm
      · next hm =>
        split at h
        · next hc =>
          cases h
          exact .blank hc
        · split at h
          · next hc =>
            cases h
            exact .number hc
          · obtain ⟨⟨k, m⟩, hs, heq⟩ := Option.map_eq_some_iff.1 h
            cases heq
            refine .symbol hq ?_ hs
            simpa [commentTail?] using hm

/-- A symbol is one of the listed spellings. -/
theorem mem_symbols_of_symbol? {cs : List Char} {k : TokenKind} {n : Nat}
    (h : symbol? cs = some (k, n)) :
    ∃ s, (s, k) ∈ TokenKind.symbols ∧ s <+: cs ∧ n = s.length - 1 := by
  obtain ⟨s, hs, heq⟩ := Option.map_eq_some_iff.1 h
  cases heq
  have hp := List.find?_some (p := fun s : List Char × TokenKind => s.1.isPrefixOf cs) hs
  exact ⟨s.1, List.mem_of_find?_eq_some hs, List.isPrefixOf_iff_prefix.1 hp, rfl⟩

end Lexeme

/-! ### Names and literals -/

/-- A word that is not a keyword. -/
def IsName (s : String) : Prop :=
  ∃ c cs, s.toList = c :: cs ∧ Lexeme.isLetter c ∧ (∀ d ∈ cs, Lexeme.isWordChar d) ∧
    TokenKind.ofWord s = .ident

/-- A string literal, quotes included, that contains no line break. -/
def IsStringLiteral (s : String) : Prop :=
  ∃ cs, s.toList = '"' :: cs ∧ Lexeme.StringTail cs ∧ ∀ c ∈ cs, Text.isLineBreak c = false

namespace TokenWord

/-- The text of a name or of a string literal has the form of one. -/
structure Formed (w : TokenWord) : Prop where
  name : w.kind = .ident → IsName w.text
  string : w.kind = .strLit → IsStringLiteral w.text

theorem formed_of_ne {k : TokenKind} {s : String} (hi : k ≠ .ident) (hs : k ≠ .strLit) :
    Formed ⟨k, s⟩ :=
  ⟨fun h => absurd h hi, fun h => absurd h hs⟩

end TokenWord

theorem TokenKind.ofWord_mem (w : String) : ofWord w ∈ .ident :: keywords.map (·.2) := by
  unfold ofWord
  cases h : keywords.lookup w with
  | none => simp
  | some k =>
    obtain ⟨l₁, l₂, hl, -⟩ := List.lookup_eq_some_iff.1 h
    rw [hl]
    simp

theorem ofWord_ne_strLit (w : String) : TokenKind.ofWord w ≠ .strLit := by
  intro h
  have hmem := TokenKind.ofWord_mem w
  rw [h] at hmem
  exact absurd hmem (by decide)

theorem snd_ne_of_mem_symbols {s : List Char} {k : TokenKind} (h : (s, k) ∈ TokenKind.symbols) :
    k ≠ .ident ∧ k ≠ .strLit := by
  have hall : ∀ s ∈ TokenKind.symbols, s.2 ≠ .ident ∧ s.2 ≠ .strLit := by decide
  exact hall _ h

/-- The characters of a symbol behind the first neither open a literal nor a comment. -/
theorem tail_of_mem_symbols {c : Char} {s : List Char} {k : TokenKind}
    (h : (c :: s, k) ∈ TokenKind.symbols) : ∀ d ∈ s, d ≠ '"' ∧ d ≠ '#' ∧ d ≠ '/' := by
  have hall : ∀ s ∈ TokenKind.symbols, s.1.tail.all fun d => d ≠ '"' ∧ d ≠ '#' ∧ d ≠ '/' := by
    decide
  simpa using hall _ h

theorem ne_nil_of_mem_symbols {s : List Char} {k : TokenKind} (h : (s, k) ∈ TokenKind.symbols) :
    s ≠ [] := by
  have hall : ∀ s ∈ TokenKind.symbols, s.1 ≠ [] := by decide
  exact hall _ h

/-- Letters, digits and blanks neither open a literal nor a comment. -/
theorem ne_of_run {p : Char → Bool} (hp : ['"', '#', '/'].all (!p ·)) {c : Char} (hc : p c) :
    c ≠ '"' ∧ c ≠ '#' ∧ c ≠ '/' := by
  refine ⟨?_, ?_, ?_⟩ <;>
    · rintro rfl
      simp [hc] at hp

/-- Behind the first lexeme screening goes on as in code; its word is formed. -/
theorem passes_first {c : Char} {cs stack : List Char} {l : Lexeme} {n : Nat}
    (h : Lexeme.First c cs l n) (hp : Screening.passes .code stack (c :: cs)) :
    (∃ stack', Screening.passes .code stack' (cs.drop n)) ∧
      ∀ k, l = .token k → TokenWord.Formed ⟨k, String.ofList (c :: cs.take n)⟩ := by
  -- A run of word characters or blanks leaves the screening in code.
  have hrun {p : Char → Bool} (hpc : ['"', '#', '/'].all (!p ·)) (hc : p c)
      {q : Char → Bool} (hqc : ['"', '#', '/'].all (!q ·)) :
      ∃ stack', Screening.passes .code stack' (cs.drop (Lexeme.span q cs)) := by
    have hsplit : c :: cs =
        (c :: cs.take (Lexeme.span q cs)) ++ cs.drop (Lexeme.span q cs) := by simp
    rw [hsplit] at hp
    refine Screening.passes_code_append hp (List.forall_mem_cons.2 ⟨ne_of_run hpc hc, ?_⟩)
    exact fun d hd => ne_of_run hqc ((Lexeme.span_spec q cs).1 d hd)
  cases h with
  | string hc h =>
    have ht := Lexeme.exists_stringTail h
    rw [hc, Screening.passes_code (by decide), ← List.take_append_drop n cs] at hp
    have hp := (ht.passes stack _).symm.trans hp
    rw [Bool.and_eq_true, List.all_eq_true] at hp
    refine ⟨⟨stack, hp.2⟩, fun k hk => ?_⟩
    cases hk
    refine ⟨nofun, fun _ => ⟨cs.take n, ?_, ht, fun d hd => ?_⟩⟩
    · rw [hc, String.toList_ofList]
    · simpa using hp.1 d hd
  | word hc =>
    refine ⟨hrun (p := Lexeme.isLetter) (by decide) hc (by decide), fun k hk => ?_⟩
    cases hk
    refine ⟨fun h => ?_, fun h => absurd h (ofWord_ne_strLit _)⟩
    exact ⟨c, _, String.toList_ofList, hc, (Lexeme.span_spec _ cs).1, h⟩
  | comment h =>
    refine ⟨?_, by simp⟩
    have hb : Text.isLineBreak c = false := by
      rcases h with rfl | ⟨rfl, -⟩ <;> decide
    rw [Screening.passes_code hb, if_pos (by simpa using h)] at hp
    obtain ⟨stack', h'⟩ := Screening.passes_behind_line hp
    exact ⟨stack', by rw [Lexeme.drop_span]; exact h'⟩
  | blank hc => exact ⟨hrun (p := Lexeme.isBlank) (by decide) hc (by decide), by simp⟩
  | number hc =>
    refine ⟨hrun (p := Lexeme.isDigit) (by decide) hc (by decide), fun k hk => ?_⟩
    cases hk
    exact TokenWord.formed_of_ne (by decide) (by decide)
  | @symbol k n hq hn h =>
    obtain ⟨s, hs, hprefix, rfl⟩ := Lexeme.mem_symbols_of_symbol? h
    obtain ⟨d, ds, rfl⟩ := List.exists_cons_of_ne_nil (ne_nil_of_mem_symbols hs)
    obtain ⟨rest, hrest⟩ := hprefix
    cases hrest
    constructor
    · obtain ⟨stack', h'⟩ := Screening.passes_code_tail hp hq hn
      simpa using Screening.passes_code_append h' (tail_of_mem_symbols hs)
    · intro k' hk
      cases hk
      exact TokenWord.formed_of_ne (snd_ne_of_mem_symbols hs).1 (snd_ne_of_mem_symbols hs).2

/-- The words of a text that passes screening are formed. -/
theorem Lexes.formed {cs stack : List Char} {ws : List TokenWord} (h : Lexes cs ws)
    (hp : Screening.passes .code stack cs) : ∀ w ∈ ws, w.Formed := by
  induction h generalizing stack with
  | nil => simp
  | token h _ ih =>
    obtain ⟨⟨stack', h'⟩, hw⟩ := passes_first (Lexeme.first_of_first? h) hp
    exact List.forall_mem_cons.2 ⟨hw _ rfl, ih h'⟩
  | layout h _ ih =>
    obtain ⟨⟨stack', h'⟩, -⟩ := passes_first (Lexeme.first_of_first? h) hp
    exact ih h'

end Carrot
