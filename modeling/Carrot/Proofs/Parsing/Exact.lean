import Carrot.Proofs.Grammar.Equivalence
import Carrot.Proofs.Parsing.Completeness.Program
import Carrot.Proofs.Parsing.Soundness.Program
import Carrot.Source

/-! # Parsing follows the grammar

A text is accepted exactly if it passes screening, is cut into tokens to its end, has
no number that is too long, and its tokens spell declarations. So reading tokens from
left to right finds the derivation of the grammar, and there is at most one value.
-/

namespace Carrot

/-- Tokens spell at most one list of declarations. -/
theorem Sequence.decl_unique {ts : List Token} {ds ds' : List Decl}
    (h : Sequence Decl.Spelled ts ds) (h' : Sequence Decl.Spelled ts ds') : ds = ds' := by
  obtain ⟨p, hp, hds⟩ := PartialProgram.complete?_of_spelled h
  obtain ⟨q, hq, hds'⟩ := PartialProgram.complete?_of_spelled h'
  cases Except.ok.inj (hp.symm.trans hq)
  exact Option.some.inj (hds.symm.trans hds')

namespace Source

theorem readTokens_eq_ok_iff {ts : Tokens} {ds : List Decl} :
    readTokens ts = .ok ds ↔ ts.stop = none ∧ Sequence Decl.Spelled ts.tokens ds := by
  constructor
  · intro h
    unfold readTokens at h
    split at h
    · cases h
    · next p hp =>
      split at h
      · cases h
      · next hstop hds =>
        cases h
        exact ⟨hstop, PartialProgram.spelled_of_complete? hp hds⟩
      · cases h
  · rintro ⟨hstop, h⟩
    obtain ⟨p, hp, hds⟩ := PartialProgram.complete?_of_spelled h
    simp [readTokens, hp, hstop, hds]

/-- All numbers among the tokens are short enough to be converted. -/
def NumbersFit (ts : List Token) : Prop :=
  ∀ t ∈ ts, t.kind = .intLit → t.text.length ≤ maxDigits

theorem checkNumbers_eq_none_iff {ts : List Token} :
    (checkNumbers ts).2 = none ↔ NumbersFit ts := by
  induction ts with
  | nil => simp [checkNumbers, NumbersFit]
  | cons t ts ih =>
    rw [NumbersFit, List.forall_mem_cons, ← NumbersFit, ← ih, checkNumbers]
    by_cases hk : t.kind = .intLit
    · rw [if_pos hk]
      by_cases hl : maxDigits < t.text.length
      · simp [hk, hl, Nat.not_le.2 hl]
      · rw [if_neg hl]
        by_cases hv : maxInt < decimalValue t.text.toList <;> simp [hk, hv, Nat.not_lt.1 hl]
    · simp [hk]

/-- What is left to do when the tokens have been read. -/
theorem parse_of_readTokens {text file : String} {ds : List Decl}
    (hs : Screening.check text.toList = .ok ())
    (hr : readTokens (Tokens.ofText text.toList) = .ok ds) :
    parse text file = ⟨(checkNumbers (Tokens.ofText text.toList).tokens).1,
      (checkNumbers (Tokens.ofText text.toList).tokens).2.elim (.ok ⟨ds, file⟩) .error⟩ := by
  simp only [parse, hs, hr]
  cases (checkNumbers (Tokens.ofText text.toList).tokens).2 <;> rfl

/-- A text whose tokens are known, where nothing is wrong with them. -/
theorem parse_of_ofText {text file : String} {ts : List Token} {ds : List Decl}
    (hs : Screening.check text.toList = .ok ()) (ht : Tokens.ofText text.toList = ⟨ts, none⟩)
    (hr : readTokens ⟨ts, none⟩ = .ok ds) (hn : (checkNumbers ts).2 = none) :
    (parse text file).result = .ok ⟨ds, file⟩ := by
  rw [← ht] at hr
  rw [parse_of_readTokens hs hr, ht, hn]
  rfl

theorem parse_of_readTokens_error {text file : String} {e : SyntaxError}
    (hs : Screening.check text.toList = .ok ())
    (hr : readTokens (Tokens.ofText text.toList) = .error e) :
    parse text file = .error e := by
  simp only [parse, hs, hr]

theorem parse_of_check_error {text file : String} {e : SyntaxError}
    (hs : Screening.check text.toList = .error e) : parse text file = .error e := by
  simp only [parse, hs]

/-- When a text is accepted, and as which program. -/
theorem parse_eq_ok_iff {text file : String} {p : Program} :
    (parse text file).result = .ok p ↔
      Screening.check text.toList = .ok () ∧ (Tokens.ofText text.toList).stop = none ∧
        NumbersFit (Tokens.ofText text.toList).tokens ∧
        ∃ ds, Sequence Decl.Spelled (Tokens.ofText text.toList).tokens ds ∧ p = ⟨ds, file⟩ := by
  constructor
  · intro h
    cases hs : Screening.check text.toList with
    | error e =>
      rw [parse_of_check_error hs] at h
      cases h
    | ok u =>
      cases hr : readTokens (Tokens.ofText text.toList) with
      | error e =>
        rw [parse_of_readTokens_error hs hr] at h
        cases h
      | ok ds =>
        obtain ⟨hstop, hds⟩ := readTokens_eq_ok_iff.1 hr
        rw [parse_of_readTokens hs hr] at h
        cases hc : (checkNumbers (Tokens.ofText text.toList).tokens).2 with
        | some e => simp [hc] at h
        | none =>
          rw [hc] at h
          cases h
          exact ⟨rfl, hstop, checkNumbers_eq_none_iff.1 hc, ds, hds, rfl⟩
  · rintro ⟨hs, hstop, hn, ds, hds, rfl⟩
    rw [parse_of_readTokens hs (readTokens_eq_ok_iff.2 ⟨hstop, hds⟩)]
    simp [checkNumbers_eq_none_iff.2 hn]

open Grammar in
/-- A text that passes screening, is cut into tokens and has no number that is too long is
accepted as a program exactly if the grammar derives its tokens with that value, and no tokens
have derivations with different values. -/
theorem parse_iff_derivesProgram (text file : String)
    (hs : Screening.check text.toList = .ok ()) (ht : (Tokens.ofText text.toList).stop = none)
    (hn : ∀ t ∈ (Tokens.ofText text.toList).tokens, t.kind = .intLit →
      t.text.length ≤ maxDigits) :
    (∀ p, (parse text file).result = .ok p ↔
      ∃ ds, DerivesProgram (Tokens.ofText text.toList).tokens ds ∧ p = ⟨ds, file⟩) ∧
    ∀ ts ds ds', DerivesProgram ts ds → DerivesProgram ts ds' → ds = ds' := by
  constructor
  · intro p
    rw [parse_eq_ok_iff]
    simp only [derivesProgram_iff]
    constructor
    · rintro ⟨-, -, -, h⟩
      exact h
    · exact fun h => ⟨hs, ht, hn, h⟩
  · intro ts ds ds' h h'
    exact (derivesProgram_iff.1 h).decl_unique (derivesProgram_iff.1 h')

/-- A function that returns a product. -/
def productText : String := "int f()\x7breturn 2*x;\x7d"

def productTokens : List Token :=
  [⟨.kwInt, "int", ⟨1, 1⟩⟩, ⟨.ident, "f", ⟨1, 5⟩⟩, ⟨.lparen, "(", ⟨1, 6⟩⟩, ⟨.rparen, ")", ⟨1, 7⟩⟩,
    ⟨.lbrace, "\x7b", ⟨1, 8⟩⟩, ⟨.kwReturn, "return", ⟨1, 9⟩⟩, ⟨.intLit, "2", ⟨1, 16⟩⟩,
    ⟨.times, "*", ⟨1, 17⟩⟩, ⟨.ident, "x", ⟨1, 18⟩⟩, ⟨.semicolon, ";", ⟨1, 19⟩⟩,
    ⟨.rbrace, "\x7d", ⟨1, 20⟩⟩]

def productDecls : List Decl :=
  [.func ⟨.int, ⟨"f", ⟨1, 5⟩, none⟩, [], ⟨[], [.ret (some (.binary .mul (.int 2 ⟨1, 16⟩)
    (.ident ⟨"x", ⟨1, 18⟩, none⟩)))]⟩⟩]

theorem ofText_productText : Tokens.ofText productText.toList = ⟨productTokens, none⟩ := by
  decide +kernel

theorem parse_productText : (parse productText).result = .ok ⟨productDecls, stdinName⟩ :=
  parse_of_ofText rfl ofText_productText rfl rfl

theorem parse_iff_derivesProgram_product :
    (parse productText).result = .ok ⟨productDecls, stdinName⟩ ∧
      Grammar.DerivesProgram (Tokens.ofText productText.toList).tokens productDecls := by
  have htokens := ofText_productText
  have h := parse_iff_derivesProgram productText stdinName rfl (by rw [htokens])
    (by rw [htokens]; decide)
  obtain ⟨ds, hds, hp⟩ := (h.1 _).1 parse_productText
  cases hp
  exact ⟨parse_productText, hds⟩

end Source

end Carrot
