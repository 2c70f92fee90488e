import Carrot.Proofs.Layout.Numbers
import Carrot.Proofs.Parsing.Brackets

/-! # Words with blanks between them

Any words that can be written, each with a blank behind it, make a text that is cut into these
words again. It passes screening if the brackets among the words are well nested.
-/

namespace Carrot

inductive TokenWord.Writable : TokenWord → Prop
  | name {s : String} (h : IsName s) : Writable ⟨.ident, s⟩
  | number {n : Nat} (h : n ≤ maxInt) : Writable ⟨.intLit, n.repr⟩
  | string {s : String} (h : IsStringLiteral s) : Writable ⟨.strLit, s⟩
  | fixed {k : TokenKind} (hi : k ≠ .ident) (hn : k ≠ .intLit) (hl : k ≠ .strLit) :
      Writable k.word

theorem TokenWord.Writable.fits {w : TokenWord} (h : w.Writable) : w.Fits := by
  cases h with
  | number h => exact fits_natural h
  | fixed _ hn _ => exact fits_of_ne hn
  | name | string => exact fits_of_ne (by simp)

/-- The words with a blank behind each. -/
def spaced (ws : List TokenWord) : List Char := ws.flatMap fun w => w.text.toList ++ [' ']

namespace Legible

variable {stack rest : List Char} {ws : List TokenWord}

theorem keyword_formed : ∀ s ∈ TokenKind.keywords, s.2.spelling = s.1 ∧
    ∃ c cs, s.1 = String.ofList (c :: cs) ∧ Lexeme.isLetter c ∧ cs.all Lexeme.isWordChar ∧
      TokenKind.ofWord s.1 = s.2 := by
  simp only [TokenKind.keywords, List.forall_mem_cons]
  refine ⟨?_, ?_, ?_, ?_, ?_, ?_, ?_, ?_, ?_, ?_, ?_, ?_, ?_, by simp⟩ <;>
    exact ⟨rfl, _, _, rfl, by decide, by decide, by decide⟩

theorem fixed_keyword {s : String × TokenKind} {stack' : List Char}
    (hs : s ∈ TokenKind.keywords) (hstack : openAfter stack s.2.bracket?.toList = some stack')
    (h : Legible stack' (' ' :: rest) ws) :
    Legible stack (s.2.spelling.toList ++ ' ' :: rest) (s.2.word :: ws) := by
  obtain ⟨hspelling, c, cs, hc, hletter, hword, hkind⟩ := keyword_formed s hs
  rw [← hkind, Lexeme.bracket?_ofWord] at hstack
  cases hstack
  rw [hspelling, hc, String.toList_ofList]
  exact keyword s.2 cs (by rw [hspelling, hc]) ⟨hletter, hword, by rw [hspelling, hkind]⟩
    (stops_cons rfl) h

/-- Each symbol is spelled by its kind, and in front of a blank it is not made longer. -/
theorem symbol_formed : ∀ s ∈ TokenKind.symbols, String.ofList s.1 = s.2.spelling ∧
    ∃ c cs, s.1 = c :: cs ∧
      ∀ rest, Lexeme.first? c (cs ++ ' ' :: rest) = some (.token s.2, cs.length) := by
  simp only [TokenKind.symbols, List.forall_mem_cons]
  refine ⟨?_, ?_, ?_, ?_, ?_, ?_, ?_, ?_, ?_, ?_, ?_, ?_, ?_, ?_, ?_, ?_, ?_, ?_, ?_, ?_, ?_, ?_,
    ?_, ?_, ?_, by simp⟩ <;>
    exact ⟨rfl, _, _, rfl, fun _ => rfl⟩

/-- A symbol in front of a blank, behind the brackets `stack`. -/
theorem fixed_symbol {s : List Char × TokenKind} {stack' : List Char}
    (hs : s ∈ TokenKind.symbols) (hstack : openAfter stack s.2.bracket?.toList = some stack')
    (h : Legible stack' (' ' :: rest) ws) :
    Legible stack (s.2.spelling.toList ++ ' ' :: rest) (s.2.word :: ws) := by
  obtain ⟨hspelling, c, cs, hc, hfirst⟩ := symbol_formed s hs
  rw [← hspelling, String.toList_ofList]
  constructor
  · have hlex := Lexes.token (hfirst rest) (by rw [List.drop_left]; exact h.lexes)
    rw [List.take_left, ← hc, hspelling] at hlex
    rw [hc]
    exact hlex
  · rcases Lexeme.symbol_cases hs with ⟨b, hb, hbracket⟩ | ⟨hbracket, hslash | hplain⟩
    · rw [hbracket, Option.toList_some, openAfter_cons] at hstack
      obtain ⟨_, hbrackets, ⟨⟩⟩ := Option.bind_eq_some_iff.1 hstack
      rw [hb, List.singleton_append, Screening.passes_bracket hbracket, hbrackets]
      exact h.passes
    · rw [hbracket] at hstack
      cases hstack
      rw [hslash, List.singleton_append, Screening.passes_slash (by simp)]
      exact h.passes
    · rw [hbracket] at hstack
      cases hstack
      rw [Screening.passes_plain_append (by simpa using hplain)]
      exact h.passes

/-- A word that can be written, in front of a blank. -/
theorem writable {w : TokenWord} {stack' : List Char} (hw : w.Writable)
    (hstack : openAfter stack w.kind.bracket?.toList = some stack')
    (h : Legible stack' (' ' :: rest) ws) :
    Legible stack (w.text.toList ++ ' ' :: rest) (w :: ws) := by
  cases hw with
  | @name s hs =>
    cases hstack
    exact name (x := ⟨s, .start, none⟩) ⟨hs, rfl⟩ (stops_cons rfl) h
  | @number n hn =>
    cases hstack
    exact natural n (stops_cons rfl) h
  | string hs =>
    cases hstack
    exact string hs h
  | @fixed k hi hn hl =>
    rcases List.mem_append.1 k.mem_all with hmem | hmem
    · rcases List.mem_append.1 hmem with hmem | hmem
      · simp [hi, hn, hl] at hmem
      · obtain ⟨s, hs, rfl⟩ := List.mem_map.1 hmem
        exact fixed_keyword hs hstack h
    · obtain ⟨s, hs, rfl⟩ := List.mem_map.1 hmem
      exact fixed_symbol hs hstack h

theorem spaced (hws : ∀ w ∈ ws, w.Writable)
    (hstack : openAfter stack (ws.filterMap (·.kind.bracket?)) = some []) :
    Legible stack (Carrot.spaced ws) ws := by
  induction ws generalizing stack with
  | nil =>
    cases hstack
    exact .nil
  | cons w ws ih =>
    obtain ⟨hw, hws⟩ := List.forall_mem_cons.1 hws
    have hsplit : (w :: ws).filterMap (·.kind.bracket?) =
        w.kind.bracket?.toList ++ ws.filterMap (·.kind.bracket?) := by
      cases h : w.kind.bracket? <;> simp [h]
    rw [hsplit, openAfter_append] at hstack
    obtain ⟨stack', hw', hrest⟩ := Option.bind_eq_some_iff.1 hstack
    simpa [Carrot.spaced] using writable hw hw' (.blank (.inl rfl) (ih hws hrest))

end Legible

end Carrot
