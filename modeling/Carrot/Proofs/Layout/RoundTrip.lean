import Carrot.Proofs.Layout.Dots
import Carrot.Proofs.Layout.Numbers

/-! # Reading what has been written

The canonical text of a parsed program is read back as the program itself, up to
positions, exactly if it has no dots. A text with dots is refused at its first one
at the latest, and it is never read as another program.
-/

namespace Carrot.Source

/-- What a canonical text is cut into, and that nothing is wrong with it so far. -/
theorem scan_text {p : Program} (hp : p.WellFormed) :
    Screening.check p.text.toList = .ok () ∧ (Tokens.ofText p.text.toList).stop = none ∧
      HaveWords (Tokens.ofText p.text.toList).tokens p.words := by
  have htext := Program.legible_text hp
  exact ⟨(Screening.check_eq_ok_iff_passes _).2 htext.passes, htext.lexes.scan .start⟩

/-- The canonical text of a program without dots is read as the program, up to positions. -/
theorem parse_text_of_wellFormed {p : Program} (hp : p.WellFormed) (hdot : p.hasDot = false)
    (file : String) :
    ∃ ds, parse p.text file = ⟨[], .ok ⟨ds, file⟩⟩ ∧
      ds.map (·.relabel .unplaced) = p.decls.map (·.relabel .unplaced) := by
  obtain ⟨hcheck, hstop, hwords⟩ := scan_text hp
  obtain ⟨ds, hds, heq⟩ := Program.spelled_words hp hdot hwords
  have hnumbers := checkNumbers_of_wordsFit (hwords ▸ Program.wordsFit hp)
  refine ⟨ds, ?_, heq⟩
  rw [parse_of_readTokens hcheck (readTokens_eq_ok_iff.2 ⟨hstop, hds⟩), hnumbers]
  rfl

/-- Without a character that starts no token, tokens that are not read are unexpected. -/
theorem code_of_readTokens_error {ts : Tokens} {e : SyntaxError} (hstop : ts.stop = none)
    (h : readTokens ts = .error e) : e.code = .unexpectedToken := by
  unfold readTokens at h
  split at h
  · cases h
    rfl
  · next p _ =>
    rw [hstop] at h
    cases hc : p.complete? with
    | none =>
      rw [hc] at h
      cases h
      rfl
    | some ds =>
      rw [hc] at h
      cases h

/-- The canonical text of a program with dots is refused. -/
theorem parse_text_of_hasDot {p : Program} (hp : p.WellFormed) (hdot : p.hasDot = true)
    (file : String) : ∃ e, parse p.text file = .error e ∧ e.code = .unexpectedToken := by
  obtain ⟨hcheck, hstop, hwords⟩ := scan_text hp
  cases hread : readTokens (Tokens.ofText p.text.toList) with
  | error e =>
    exact ⟨e, parse_of_readTokens_error hcheck hread, code_of_readTokens_error hstop hread⟩
  | ok ds =>
    obtain ⟨-, hds⟩ := readTokens_eq_ok_iff.1 hread
    obtain ⟨q, hq, -⟩ := PartialProgram.complete?_of_spelled hds
    have hreads := PartialProgram.read_eq_ok_iff.1 hq
    exact absurd hreads (PartialProgram.not_reads_of_dotted hwords (Program.dotted hdot))

/-- Writing a parsed program and reading the text gives the program again, up to positions and
without warnings, if it has no dots; otherwise the text is refused for an unexpected token. -/
theorem parse_text_of_parse {text file : String} {p : Program}
    (h : (parse text file).result = .ok p) :
    (p.hasDot = false →
      ∃ q, parse p.text p.file = ⟨[], .ok q⟩ ∧ q.relabel .unplaced = p.relabel .unplaced) ∧
    (p.hasDot = true → ∃ e, parse p.text p.file = .error e ∧ e.code = .unexpectedToken) := by
  have hp := wellFormed_of_parse h
  constructor
  · intro hdot
    obtain ⟨ds, hparse, heq⟩ := parse_text_of_wellFormed hp hdot p.file
    exact ⟨⟨ds, p.file⟩, hparse, by rw [Program.relabel, Program.relabel, heq]⟩
  · intro hdot
    exact parse_text_of_hasDot hp hdot p.file

def fieldText : String := "void f()\x7bcin >> s.x;\x7d"

def fieldTokens : List Token :=
  [⟨.kwVoid, "void", ⟨1, 1⟩⟩, ⟨.ident, "f", ⟨1, 6⟩⟩, ⟨.lparen, "(", ⟨1, 7⟩⟩, ⟨.rparen, ")", ⟨1, 8⟩⟩,
    ⟨.lbrace, "\x7b", ⟨1, 9⟩⟩, ⟨.kwCin, "cin", ⟨1, 10⟩⟩, ⟨.shiftRight, ">>", ⟨1, 14⟩⟩,
    ⟨.ident, "s", ⟨1, 17⟩⟩, ⟨.dot, ".", ⟨1, 18⟩⟩, ⟨.ident, "x", ⟨1, 19⟩⟩,
    ⟨.semicolon, ";", ⟨1, 20⟩⟩, ⟨.rbrace, "\x7d", ⟨1, 21⟩⟩]

def fieldDecls : List Decl :=
  [.func ⟨.void, ⟨"f", ⟨1, 6⟩, none⟩, [], ⟨[], [.read (.dot (.ident ⟨"s", ⟨1, 17⟩, none⟩)
    ⟨"x", ⟨1, 19⟩, none⟩)]⟩⟩]

theorem parse_fieldText : (parse fieldText).result = .ok ⟨fieldDecls, stdinName⟩ := by
  have htokens : Tokens.ofText fieldText.toList = ⟨fieldTokens, none⟩ := by decide +kernel
  exact parse_of_ofText rfl htokens rfl rfl

theorem parse_text_of_parse_product_field :
    (∃ q, parse (Program.text ⟨productDecls, stdinName⟩) = ⟨[], .ok q⟩ ∧
      q.relabel .unplaced = Program.relabel .unplaced ⟨productDecls, stdinName⟩) ∧
    ∃ e, parse (Program.text ⟨fieldDecls, stdinName⟩) = .error e ∧ e.code = .unexpectedToken := by
  constructor
  · exact (parse_text_of_parse parse_productText).1 (by decide)
  · exact (parse_text_of_parse parse_fieldText).2 (by decide)

end Carrot.Source
