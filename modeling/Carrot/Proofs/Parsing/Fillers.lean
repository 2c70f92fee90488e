import Carrot.Proofs.Parsing.Exact
import Carrot.Proofs.Parsing.Rewording
import Carrot.Proofs.Token.Fillers

/-! # Layout does not change what a text means

A filler put where a token starts or ends leaves all words of a text as they are, and screening
lets the text through as before. The program that is read is the same up to positions, and so are
the warnings about its numbers.
-/

namespace Carrot

/-- A diagnostic without its place. -/
def Diagnostic.unplaced (d : Diagnostic) : Diagnostic := { d with position := .start }

namespace Source

variable {us ts : List Token}

theorem numbersFit_of_sameWords (h : SameWords us ts) (hts : NumbersFit ts) : NumbersFit us := by
  intro u hu hk
  obtain ⟨t, ht, hword⟩ := List.mem_map.1 (h ▸ List.mem_map_of_mem (f := Token.word) hu)
  rw [← Token.text_of_word hword]
  exact hts t ht (Token.kind_of_word hword hk)

theorem checkNumbers_of_sameWords (h : SameWords us ts) :
    (checkNumbers us).1.map Diagnostic.unplaced = (checkNumbers ts).1.map Diagnostic.unplaced := by
  induction ts generalizing us with
  | nil => rw [SameWords.nil_iff.1 h]
  | cons t ts ih =>
    obtain ⟨u, us, rfl, hword, h⟩ := SameWords.cons_iff.1 h
    have ih := ih h
    rw [checkNumbers, checkNumbers, Token.kind_of_word hword rfl, Token.text_of_word hword]
    dsimp only
    split
    · split
      · rfl
      · split
        · rw [List.map_cons, List.map_cons, ih]
          rfl
        · exact ih
    · exact ih

/-- A text that passes screening and has the words of a text that is accepted is accepted too, as
the same program and with the same warnings up to positions. -/
theorem parse_of_lexes {text text' file : String} {p : Program} {warnings : List Diagnostic}
    (h : parse text file = ⟨warnings, .ok p⟩) (hcheck : Screening.check text'.toList = .ok ())
    (hlex : Lexes text'.toList ((Tokens.ofText text.toList).tokens.map Token.word)) :
    ∃ warnings' q, parse text' file = ⟨warnings', .ok q⟩ ∧
      q.relabel .unplaced = p.relabel .unplaced ∧
      warnings'.map Diagnostic.unplaced = warnings.map Diagnostic.unplaced := by
  have hresult : (parse text file).result = .ok p := by rw [h]
  obtain ⟨hcheck₀, hstop₀, hnumbers₀, ds₀, hds₀, rfl⟩ := parse_eq_ok_iff.1 hresult
  rw [parse_of_readTokens hcheck₀ (readTokens_eq_ok_iff.2 ⟨hstop₀, hds₀⟩), Parsed.mk.injEq] at h
  obtain ⟨hstop, hwords⟩ := hlex.scan .start
  obtain ⟨ds, hds, heq⟩ := Sequence.respelled_decls hds₀ hwords
  have hnumbers := checkNumbers_eq_none_iff.2 (numbersFit_of_sameWords hwords hnumbers₀)
  refine ⟨(checkNumbers (Tokens.ofText text'.toList).tokens).1, ⟨ds, file⟩, ?_, ?_, ?_⟩
  · rw [parse_of_readTokens hcheck (readTokens_eq_ok_iff.2 ⟨hstop, hds⟩)]
    exact congrArg (Parsed.mk _) (by rw [Tokens.ofText, hnumbers]; rfl)
  · rw [Program.relabel, Program.relabel, heq]
  · rw [← h.1]
    exact checkNumbers_of_sameWords hwords

/-- A place in a text where a token starts or ends, or the start of the text. -/
def IsGap (text before : List Char) : Prop :=
  before = [] ∨ ∃ t ∈ (Tokens.ofText text).tokens,
    Position.start.after before = t.position ∨
      Position.start.after before = t.position.after t.text.toList

theorem IsGap.cut {before after : List Char} (h : IsGap (before ++ after) before) :
    Cut before after := by
  rcases h with rfl | ⟨t, ht, h⟩
  · exact .here
  · exact cut_of_position t ht rfl h

/-- A filler that is put where a token starts or ends, or at the start, leaves a text that is
accepted, as the same program and with the same warnings up to positions. -/
theorem parse_fill {text file : String} {p : Program} {warnings : List Diagnostic}
    {before after ins : List Char} (h : parse text file = ⟨warnings, .ok p⟩)
    (hsplit : text.toList = before ++ after) (hgap : IsGap text.toList before)
    (hi : Filler ins) :
    ∃ warnings' q, parse (String.ofList (before ++ ins ++ after)) file = ⟨warnings', .ok q⟩ ∧
      q.relabel .unplaced = p.relabel .unplaced ∧
      warnings'.map Diagnostic.unplaced = warnings.map Diagnostic.unplaced := by
  have hresult : (parse text file).result = .ok p := by rw [h]
  obtain ⟨hcheck, hstop, -⟩ := parse_eq_ok_iff.1 hresult
  have hlexes := lexes_of_scan hstop
  have hpasses := (Screening.check_eq_ok_iff_passes _).1 hcheck
  rw [hsplit] at hgap hlexes hpasses
  rw [List.append_assoc]
  apply parse_of_lexes h
  · rw [String.toList_ofList]
    exact (Screening.check_eq_ok_iff_passes _).2 (hgap.cut.passes hi hpasses)
  · rw [String.toList_ofList, hsplit]
    exact hgap.cut.lexes hi hlexes

theorem parse_fill_product :
    Filler " // )\n".toList ∧ ∃ warnings q,
      parse "int f()\x7breturn 2 // )\n*x;\x7d" = ⟨warnings, .ok q⟩ ∧
        q.relabel .unplaced = Program.relabel .unplaced ⟨productDecls, stdinName⟩ ∧
        warnings.map Diagnostic.unplaced = [] := by
  have hfiller : Filler (' ' :: '/' :: "/ )".toList ++ ['\n']) :=
    .comment (.inr ⟨rfl, rfl⟩) (by simp [Text.isLineBreak])
  have hread : readTokens (Tokens.ofText productText.toList) = .ok productDecls := by
    rw [ofText_productText]
    rfl
  have hparse : parse productText = ⟨[], .ok ⟨productDecls, stdinName⟩⟩ := by
    rw [parse_of_readTokens rfl hread, ofText_productText]
    rfl
  have hsplit : productText.toList = "int f()\x7breturn 2".toList ++ "*x;\x7d".toList := by decide
  have hgap : IsGap productText.toList "int f()\x7breturn 2".toList := by
    rw [IsGap, ofText_productText]
    exact .inr ⟨⟨.intLit, "2", ⟨1, 16⟩⟩, by decide, .inr (by decide)⟩
  exact ⟨hfiller, parse_fill hparse hsplit hgap hfiller⟩

end Source

end Carrot
