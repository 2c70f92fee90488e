import Carrot.Proofs.Parsing.FirstError
import Carrot.Proofs.Parsing.Walk

/-! # Numbers and what is reported about them

The actions of a derivation are run bottom up and from left to right. The action of a number has
an effect besides its value: it warns if the number is too large, and fails if the number is too
long, so that no later action is run. In what order the warnings arrive does not depend on the
shape of the derivation: it is the order of the tokens.
-/

namespace Carrot

/-- A number of a program: its value and its place. -/
def Leaf.number? : Leaf → Option (Int × Position)
  | .int v p => some (v, p)
  | _ => none

/-- The numbers of a program, in the order of its leaves. -/
def Program.numbers (p : Program) : List (Int × Position) := p.leaves.filterMap Leaf.number?

namespace Grammar

open Source (checkNumbers maxDigits tooLong)

/-! ### Running the actions of a derivation -/

/-- The rule of a number, the only one whose action does more than to make a value. -/
def numberRule : Rule := ⟨.term, [.token .intLit]⟩

theorem number_notMem_of_ne {r : Rule} (hr : r ∈ rules) (hne : r ≠ numberRule) :
    .token .intLit ∉ r.rhs := by
  revert r
  decide

/-- The warnings that a reporter has received, if there is a reporter, and the error that has
ended the run, if one has. -/
structure Reported where
  log : Option (List Diagnostic)
  failure : Option SyntaxError

/-- Goes on unless the run has ended. -/
def Reported.andThen (out : Reported) (f : Option (List Diagnostic) → Reported) : Reported :=
  match out.failure with
  | some _ => out
  | none => f out.log

@[simp] theorem Reported.andThen_pure (out : Reported) :
    (out.andThen fun log => ⟨log, none⟩) = out := by
  obtain ⟨log, failure⟩ := out
  cases failure <;> rfl

theorem Reported.andThen_assoc (out : Reported) (f g : Option (List Diagnostic) → Reported) :
    (out.andThen f).andThen g = out.andThen fun log => (f log).andThen g := by
  obtain ⟨log, failure⟩ := out
  cases failure <;> rfl

/-- The effect of the action of a number. -/
def numberEffect (log : Option (List Diagnostic)) (t : Token) : Reported :=
  if maxDigits < t.text.length then ⟨log, some (tooLong t.text.length)⟩
  else if maxInt < decimalValue t.text.toList then
    ⟨log.map (· ++ [.warning t.position .intLiteralTooLarge]), none⟩
  else ⟨log, none⟩

/-- The effect of the action of a rule, from the values of its symbols. -/
def effect (log : Option (List Diagnostic)) (r : Rule) : List Value → Reported
  | [.token t] => if r = numberRule then numberEffect log t else ⟨log, none⟩
  | _ => ⟨log, none⟩

theorem effect_of_ne {log : Option (List Diagnostic)} {r : Rule} {ws : List Value}
    (hne : r ≠ numberRule) : effect log r ws = ⟨log, none⟩ := by
  unfold effect
  split
  · exact if_neg hne
  · rfl

/-- `Runs log xs ts vs out`: the actions of a derivation of the values `vs` are run, for each part
those of its own parts before its own. The first one that fails ends the run. -/
inductive Runs : Option (List Diagnostic) → List Symbol → List Token → List Value → Reported → Prop
  | nil {log} : Runs log [] [] [] ⟨log, none⟩
  | token {log k xs t ts vs out} (hk : t.kind = k) (h : Runs log xs ts vs out) :
      Runs log (.token k :: xs) (t :: ts) (.token t :: vs) out
  | part {log log₁ log₂ n rhs ts ws v xs us vs out} (hr : ⟨n, rhs⟩ ∈ rules)
      (hn : Runs log rhs ts ws ⟨log₁, none⟩) (hv : action n ws = some v)
      (he : effect log₁ ⟨n, rhs⟩ ws = ⟨log₂, none⟩) (h : Runs log₂ xs us vs out) :
      Runs log (.part n :: xs) (ts ++ us) (v :: vs) out
  | fails {log log₁ log₂ e n rhs ts ws v xs us vs} (hr : ⟨n, rhs⟩ ∈ rules)
      (hn : Runs log rhs ts ws ⟨log₁, none⟩) (hv : action n ws = some v)
      (he : effect log₁ ⟨n, rhs⟩ ws = ⟨log₂, some e⟩) (h : Derives xs us vs) :
      Runs log (.part n :: xs) (ts ++ us) (v :: vs) ⟨log₂, some e⟩
  | failed {log log₁ e n rhs ts ws v xs us vs} (hr : ⟨n, rhs⟩ ∈ rules)
      (hn : Runs log rhs ts ws ⟨log₁, some e⟩) (hv : action n ws = some v)
      (h : Derives xs us vs) : Runs log (.part n :: xs) (ts ++ us) (v :: vs) ⟨log₁, some e⟩

/-- The actions of every derivation can be run, also those that are not reached. -/
theorem Derives.exists_runs {xs : List Symbol} {ts : List Token} {vs : List Value}
    (h : Derives xs ts vs) (log : Option (List Diagnostic)) : ∃ out, Runs log xs ts vs out := by
  induction h generalizing log with
  | nil => exact ⟨_, .nil⟩
  | token hk _ ih =>
    obtain ⟨out, h⟩ := ih log
    exact ⟨out, .token hk h⟩
  | @part n rhs _ ws _ _ _ _ hr _ hv hrest ihn ih =>
    obtain ⟨⟨log₁, failure⟩, hn⟩ := ihn log
    cases failure with
    | some e => exact ⟨_, .failed hr hn hv hrest⟩
    | none =>
      cases he : effect log₁ ⟨n, rhs⟩ ws with
      | mk log₂ failure =>
        cases failure with
        | some e => exact ⟨_, .fails hr hn hv he hrest⟩
        | none =>
          obtain ⟨out, h⟩ := ih log₂
          exact ⟨out, .part hr hn hv he h⟩

theorem Runs.derives {log : Option (List Diagnostic)} {xs : List Symbol} {ts : List Token}
    {vs : List Value} {out : Reported} (h : Runs log xs ts vs out) : Derives xs ts vs := by
  induction h with
  | nil => exact .nil
  | token hk _ ih => exact .token hk ih
  | part hr _ hv _ _ ihn ih => exact .part hr ihn hv ih
  | fails hr _ hv _ h ihn | failed hr _ hv h ihn => exact .part hr ihn hv h

/-! ### The order of the tokens -/

/-- What a reporter that has received `log` receives from the numbers among the tokens, taken one
after the other. -/
def report (log : Option (List Diagnostic)) (ts : List Token) : Reported :=
  ⟨log.map (· ++ (checkNumbers ts).1), (checkNumbers ts).2⟩

section

variable {log : Option (List Diagnostic)} {ts us : List Token} {t : Token}

@[simp] theorem report_nil : report log [] = ⟨log, none⟩ := by
  cases log <;> simp [report, checkNumbers]

theorem report_cons_of_ne (ht : t.kind ≠ .intLit) : report log (t :: ts) = report log ts := by
  rw [report, checkNumbers, if_neg ht, report]

theorem report_cons_number (ht : t.kind = .intLit) :
    report log (t :: ts) = (numberEffect log t).andThen (report · ts) := by
  rw [report, numberEffect, checkNumbers, if_pos ht]
  by_cases hl : maxDigits < t.text.length
  · cases log <;> simp [hl, Reported.andThen]
  · by_cases hv : maxInt < decimalValue t.text.toList <;>
      cases log <;> simp [hl, hv, Reported.andThen, report]

theorem report_append : report log (ts ++ us) = (report log ts).andThen (report · us) := by
  induction ts generalizing log with
  | nil => rw [report_nil, List.nil_append, Reported.andThen]
  | cons t ts ih =>
    rw [List.cons_append]
    by_cases ht : t.kind = .intLit
    · rw [report_cons_number ht, report_cons_number ht, Reported.andThen_assoc]
      simp only [ih]
    · rw [report_cons_of_ne ht, report_cons_of_ne ht, ih]

theorem report_number (ht : t.kind = .intLit) : report log [t] = numberEffect log t := by
  simp only [report_cons_number ht, report_nil, Reported.andThen_pure]

/-- The tokens of a part: either the rule is that of a number, or they are looked at in the parts
of the part, and the action of the rule has no effect. -/
theorem Runs.andThen_effect {n : Nonterminal} {rhs : List Symbol} {ws : List Value} {out : Reported}
    (hr : ⟨n, rhs⟩ ∈ rules) (hn : Runs log rhs ts ws out)
    (ih : .token .intLit ∉ rhs → out = report log ts) :
    (out.andThen fun log₁ => effect log₁ ⟨n, rhs⟩ ws) = report log ts := by
  by_cases hnumber : (⟨n, rhs⟩ : Rule) = numberRule
  · obtain ⟨rfl, rfl⟩ := Rule.mk.inj hnumber
    cases hn with
    | token hk h =>
      cases h
      rw [report_number hk]
      rfl
  · simp only [effect_of_ne hnumber, Reported.andThen_pure]
    exact ih (number_notMem_of_ne hr hnumber)

end

/-- What a run reports is determined by the tokens, if no number stands for itself. -/
theorem Runs.eq_report {log : Option (List Diagnostic)} {xs : List Symbol} {ts : List Token}
    {vs : List Value} {out : Reported} (h : Runs log xs ts vs out) (hxs : .token .intLit ∉ xs) :
    out = report log ts := by
  induction h with
  | nil => exact report_nil.symm
  | token hk _ ih =>
    rw [report_cons_of_ne fun ht => hxs (by rw [← hk, ht]; exact List.mem_cons_self)]
    exact ih (List.not_mem_of_not_mem_cons hxs)
  | part hr hn hv he _ ihn ih =>
    rw [report_append, ← hn.andThen_effect hr ihn, ih (List.not_mem_of_not_mem_cons hxs)]
    simp only [Reported.andThen, he]
  | fails hr hn hv he _ ihn | failed hr hn hv _ ihn =>
    rw [report_append, ← hn.andThen_effect hr ihn]
    simp only [Reported.andThen, *]

end Grammar

namespace Source

open Grammar

/-! ### What is reported, as a list -/

/-- A warning for each of the numbers that is too large. -/
def largeWarnings (ts : List Token) : List Diagnostic :=
  (ts.filter fun t => 2147483647 < decimalValue t.text.toList).map fun t =>
    .warning t.position .intLiteralTooLarge

/-- The numbers among the tokens. -/
def numbers (ts : List Token) : List Token := ts.filter fun t => t.kind = .intLit

theorem kind_of_mem_numbers (ts : List Token) : ∀ t ∈ numbers ts, t.kind = .intLit := by
  simp [numbers]

theorem checkNumbers_numbers (ts : List Token) : checkNumbers (numbers ts) = checkNumbers ts := by
  induction ts with
  | nil => rfl
  | cons t ts ih =>
    rw [numbers] at *
    by_cases hk : t.kind = .intLit
    · rw [List.filter_cons_of_pos (by simpa using hk), checkNumbers, checkNumbers, ih]
    · rw [List.filter_cons_of_neg (by simpa using hk), checkNumbers, if_neg hk, ih]

/-- Numbers that are short enough give their warnings, and those behind them are looked at next. -/
theorem checkNumbers_append {ts : List Token} (hk : ∀ t ∈ ts, t.kind = .intLit)
    (hl : ∀ t ∈ ts, t.text.length ≤ maxDigits) (us : List Token) :
    checkNumbers (ts ++ us) = (largeWarnings ts ++ (checkNumbers us).1, (checkNumbers us).2) := by
  induction ts with
  | nil => rfl
  | cons t ts ih =>
    obtain ⟨hkt, hk⟩ := List.forall_mem_cons.1 hk
    obtain ⟨hlt, hl⟩ := List.forall_mem_cons.1 hl
    rw [List.cons_append, checkNumbers, if_pos hkt, if_neg (Nat.not_lt.2 hlt), ih hk hl]
    by_cases hv : 2147483647 < decimalValue t.text.toList
    · simp [largeWarnings, hv, maxInt]
    · simp [largeWarnings, hv, maxInt]

theorem checkNumbers_cons_of_long {t : Token} {ts : List Token} (hk : t.kind = .intLit)
    (hl : maxDigits < t.text.length) :
    checkNumbers (t :: ts) = ([], some (tooLong t.text.length)) := by
  rw [checkNumbers, if_pos hk, if_pos hl]

section

variable {ts : List Token}

theorem checkNumbers_of_short (hshort : ∀ t ∈ numbers ts, t.text.length ≤ maxDigits) :
    checkNumbers ts = (largeWarnings (numbers ts), none) := by
  have h := checkNumbers_append (kind_of_mem_numbers ts) hshort []
  rwa [List.append_nil, checkNumbers_numbers, checkNumbers, List.append_nil] at h

/-- The first number that is too long is an error, behind the warnings of those before it. -/
theorem checkNumbers_of_long {before behind : List Token} {t : Token}
    (hsplit : numbers ts = before ++ t :: behind)
    (hshort : ∀ u ∈ before, u.text.length ≤ maxDigits) (hlong : maxDigits < t.text.length) :
    checkNumbers ts = (largeWarnings before, some (tooLong t.text.length)) := by
  have hkind := kind_of_mem_numbers ts
  rw [hsplit, List.forall_mem_append, List.forall_mem_cons] at hkind
  rw [← checkNumbers_numbers, hsplit, checkNumbers_append hkind.1 hshort,
    checkNumbers_cons_of_long hkind.2.1 hlong, List.append_nil]

end

/-! ### Reading a text with numbers -/

theorem numbers_leaves (ts : List Token) :
    (Token.leaves ts).filterMap Leaf.number? =
      (numbers ts).map fun t => (↑(min (decimalValue t.text.toList) 2147483647), t.position) := by
  induction ts with
  | nil => rfl
  | cons t ts ih =>
    by_cases hk : t.kind = .intLit
    · rw [numbers, List.filter_cons_of_pos (by simpa using hk), ← numbers, List.map_cons, ← ih]
      simp [Token.leaves, Token.leaf?, hk, Leaf.number?, Token.intValue, maxInt]
    · rw [numbers, List.filter_cons_of_neg (by simpa using hk), ← numbers, ← ih]
      cases hl : t.leaf? with
      | none => rw [Token.leaves, List.filterMap_cons_none hl, ← Token.leaves]
      | some l =>
        have hnone : l.number? = none := by
          have hshows := shows_of_leaf? hl
          cases l with
          | int v p => exact absurd hshows.1 hk
          | _ => rfl
        rw [Token.leaves, List.filterMap_cons_some hl, ← Token.leaves,
          List.filterMap_cons_none hnone]

/-- A text that passes screening, and whose tokens the grammar derives. -/
structure WellWritten (text : String) : Prop where
  screened : Screening.check text.toList = .ok ()
  whole : (Tokens.ofText text.toList).stop = none
  isProgram : IsProgram (Tokens.ofText text.toList).tokens

theorem parse_of_wellWritten {text : String} (h : WellWritten text) (file : String) :
    ∃ ds, DerivesProgram (Tokens.ofText text.toList).tokens ds ∧
      parse text file = ⟨(checkNumbers (Tokens.ofText text.toList).tokens).1,
        (checkNumbers (Tokens.ofText text.toList).tokens).2.elim (.ok ⟨ds, file⟩) .error⟩ := by
  obtain ⟨ds, hds⟩ := h.isProgram
  have hr := readTokens_eq_ok_iff.2 ⟨h.whole, derivesProgram_iff.1 hds⟩
  exact ⟨ds, hds, parse_of_readTokens h.screened hr⟩

theorem parse_of_not_wellWritten {text : String} (h : ¬WellWritten text) (file : String) :
    ∃ e, parse text file = ⟨[], .error e⟩ := by
  cases hs : Screening.check text.toList with
  | error e => exact ⟨e, parse_of_check_error hs⟩
  | ok =>
    cases hr : readTokens (Tokens.ofText text.toList) with
    | error e => exact ⟨e, parse_of_readTokens_error hs hr⟩
    | ok ds =>
      obtain ⟨hstop, hds⟩ := readTokens_eq_ok_iff.1 hr
      exact absurd ⟨hs, hstop, ds, derivesProgram_iff.2 hds⟩ h

/-- The actions of any derivation of a text, run with or without a reporter, report what parsing
reports, and end with what it returns. -/
theorem outcome_of_runs {text : String} (h : WellWritten text) (file : String)
    (log : Option (List Diagnostic)) {ds : List Decl} {out : Reported}
    (hrun : Runs log [.part .root] (Tokens.ofText text.toList).tokens [.decls ds] out) :
    out.log = log.map (· ++ (parse text file).warnings) ∧
      out.failure.elim (.ok ⟨ds, file⟩) .error = (parse text file).result := by
  obtain ⟨ds', hds', hparse⟩ := parse_of_wellWritten h file
  obtain rfl := (derivesProgram_iff.1 hrun.derives).decl_unique (derivesProgram_iff.1 hds')
  rw [hrun.eq_report (by simp), hparse]
  exact ⟨rfl, rfl⟩

/-- What becomes of the numbers of a text that is well written otherwise. If all of them are short
enough, a program is returned whose numbers are those of the text, clamped, and each that was too
large has been reported, in order. Else the first that is too long is an error without a place, and
exactly the large ones before it have been reported. The same holds of the actions of any
derivation, whatever a reporter has received before; without a reporter they make the same
program. For any other text nothing is reported. -/
theorem parse_numbers (text file : String) :
    let ts := (Tokens.ofText text.toList).tokens
    (WellWritten text →
      ((∀ t ∈ numbers ts, t.text.length ≤ 4300) →
        ∃ p, parse text file = ⟨largeWarnings (numbers ts), .ok p⟩ ∧
          p.numbers = (numbers ts).map fun t =>
            (↑(min (decimalValue t.text.toList) 2147483647), t.position)) ∧
      (∀ before t behind, numbers ts = before ++ t :: behind →
        (∀ u ∈ before, u.text.length ≤ 4300) → 4300 < t.text.length →
        ∃ e, parse text file = ⟨largeWarnings before, .error e⟩ ∧ e.code = .parsingError ∧
          e.position? = none) ∧
      ∀ log, (∃ ds out, Runs log [.part .root] ts [.decls ds] out) ∧
        ∀ ds out, Runs log [.part .root] ts [.decls ds] out →
          out.log = log.map (· ++ (parse text file).warnings) ∧
            out.failure.elim (.ok ⟨ds, file⟩) .error = (parse text file).result) ∧
    (¬WellWritten text → ∃ e, parse text file = ⟨[], .error e⟩) := by
  intro ts
  refine ⟨fun h => ⟨fun hshort => ?_, fun before t behind hsplit hshort hlong => ?_,
    fun log => ⟨?_, fun ds out hrun => outcome_of_runs h file log hrun⟩⟩,
    fun h => parse_of_not_wellWritten h file⟩
  · obtain ⟨ds, -, hparse⟩ := parse_of_wellWritten h file
    rw [checkNumbers_of_short hshort] at hparse
    have hleaves := leaves_of_parse (congrArg Parsed.result hparse)
    refine ⟨⟨ds, file⟩, hparse, ?_⟩
    rw [Program.numbers, hleaves, numbers_leaves]
  · obtain ⟨ds, -, hparse⟩ := parse_of_wellWritten h file
    rw [checkNumbers_of_long hsplit hshort hlong] at hparse
    exact ⟨tooLong t.text.length, hparse, rfl, rfl⟩
  · obtain ⟨ds, hds⟩ := h.isProgram
    obtain ⟨out, hrun⟩ := hds.exists_runs log
    exact ⟨ds, out, hrun⟩

/-- A function that returns a product with two numbers that are too large. -/
def largeText : String := "int f()\x7breturn 2147483648*(1+99999999999);\x7d"

def largeTokens : List Token :=
  [⟨.kwInt, "int", ⟨1, 1⟩⟩, ⟨.ident, "f", ⟨1, 5⟩⟩, ⟨.lparen, "(", ⟨1, 6⟩⟩, ⟨.rparen, ")", ⟨1, 7⟩⟩,
    ⟨.lbrace, "\x7b", ⟨1, 8⟩⟩, ⟨.kwReturn, "return", ⟨1, 9⟩⟩, ⟨.intLit, "2147483648", ⟨1, 16⟩⟩,
    ⟨.times, "*", ⟨1, 26⟩⟩, ⟨.lparen, "(", ⟨1, 27⟩⟩, ⟨.intLit, "1", ⟨1, 28⟩⟩,
    ⟨.plus, "+", ⟨1, 29⟩⟩, ⟨.intLit, "99999999999", ⟨1, 30⟩⟩, ⟨.rparen, ")", ⟨1, 41⟩⟩,
    ⟨.semicolon, ";", ⟨1, 42⟩⟩, ⟨.rbrace, "\x7d", ⟨1, 43⟩⟩]

theorem ofText_largeText : Tokens.ofText largeText.toList = ⟨largeTokens, none⟩ := by
  decide +kernel

theorem wellWritten_largeText : WellWritten largeText := by
  refine ⟨rfl, by rw [ofText_largeText], ?_⟩
  rw [ofText_largeText, isProgram_iff]
  exact ⟨_, _, PartialProgram.read_eq_ok_iff.1 rfl, rfl⟩

theorem parse_numbers_large :
    ∃ p, parse largeText = ⟨[.warning ⟨1, 16⟩ .intLiteralTooLarge,
        .warning ⟨1, 30⟩ .intLiteralTooLarge], .ok p⟩ ∧
      p.numbers = [(2147483647, ⟨1, 16⟩), (1, ⟨1, 28⟩), (2147483647, ⟨1, 30⟩)] := by
  have h := ((parse_numbers largeText stdinName).1 wellWritten_largeText).1
  rw [ofText_largeText] at h
  exact h (by decide)

end Source

end Carrot
