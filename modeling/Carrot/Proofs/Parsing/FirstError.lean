import Carrot.Proofs.Parsing.Completion
import Carrot.Proofs.Parsing.Exact

/-! # The first error

Reading refuses a token exactly if no program starts with the tokens up to it. So a
syntax error is reported at the first place where it is certain: at the first token of
that kind, else at the character that starts no token, else at the last token, if the
text ends too early.
-/

namespace Carrot

theorem PartialProgram.read_of_refused {p q : PartialProgram} {ts us : List Token} {t : Token}
    (hq : p.Reads ts q) (ht : q.next? t = none) : p.read (ts ++ t :: us) = .error t := by
  rw [read_append, read_eq_ok_iff.2 hq]
  simp [Except.bind, read, ht]

namespace Grammar

/-- The grammar derives a program from the tokens. -/
def IsProgram (ts : List Token) : Prop := ∃ ds, DerivesProgram ts ds

/-- The tokens, with some others behind them, are those of a program. -/
def StartsProgram (ts : List Token) : Prop := ∃ us, IsProgram (ts ++ us)

theorem isProgram_iff {ts : List Token} :
    IsProgram ts ↔ ∃ q ds, PartialProgram.start.Reads ts q ∧ q.complete? = some ds := by
  constructor
  · rintro ⟨ds, h⟩
    obtain ⟨q, hq, hds⟩ := PartialProgram.complete?_of_spelled (derivesProgram_iff.1 h)
    exact ⟨q, ds, PartialProgram.read_eq_ok_iff.1 hq, hds⟩
  · rintro ⟨q, ds, hq, hds⟩
    have hread := PartialProgram.read_eq_ok_iff.2 hq
    exact ⟨ds, derivesProgram_iff.2 (PartialProgram.spelled_of_complete? hread hds)⟩

/-- Some program starts with the tokens exactly if all of them can be read. -/
theorem startsProgram_iff {ts : List Token} :
    StartsProgram ts ↔ ∃ q, PartialProgram.start.Reads ts q := by
  constructor
  · rintro ⟨us, h⟩
    obtain ⟨r, -, hr, -⟩ := isProgram_iff.1 h
    obtain ⟨q, hq, -⟩ := Reads.append_iff.1 hr
    exact ⟨q, hq⟩
  · rintro ⟨q, hq⟩
    have hopen := PartialProgram.isOpen_of_reads hq
    obtain ⟨us, r, hr, hbetween⟩ := PartialProgram.reaches_isBetween hopen
    exact ⟨us, isProgram_iff.2
      ⟨r, _, hq.append hr, PartialProgram.complete?_of_isBetween hbetween⟩⟩

/-- What is read can be read by evaluation. -/
theorem startsProgram_iff_isOk {ts : List Token} :
    StartsProgram ts ↔ (PartialProgram.start.read ts).isOk = true := by
  rw [startsProgram_iff]
  simp only [← PartialProgram.read_eq_ok_iff]
  cases PartialProgram.start.read ts <;> simp [Except.isOk, Except.toBool]

theorem StartsProgram.take {ts : List Token} (h : StartsProgram ts) (k : Nat) :
    StartsProgram (ts.take k) := by
  obtain ⟨us, h⟩ := h
  exact ⟨ts.drop k ++ us, by rwa [← List.append_assoc, List.take_append_drop]⟩

theorem startsProgram_nil : StartsProgram [] := startsProgram_iff.2 ⟨_, .nil⟩

/-- At the first token behind which no program goes on, reading stops. -/
theorem read_eq_error {ts : List Token} {k : Nat} (hk : ¬StartsProgram (ts.take k))
    (hlt : ∀ j < k, StartsProgram (ts.take j)) :
    ∃ t, ts[k - 1]? = some t ∧ PartialProgram.start.read ts = .error t := by
  obtain ⟨j, rfl⟩ := Nat.exists_eq_succ_of_ne_zero (n := k) (by
    rintro rfl
    exact hk startsProgram_nil)
  have hbefore := hlt j (Nat.lt_succ_self j)
  cases ht : ts[j]? with
  | none =>
    rw [List.take_of_length_le (Nat.le_succ_of_le (List.getElem?_eq_none_iff.1 ht))] at hk
    rw [List.take_of_length_le (List.getElem?_eq_none_iff.1 ht)] at hbefore
    exact absurd hbefore hk
  | some t =>
    refine ⟨t, ht, ?_⟩
    obtain ⟨q, hq⟩ := startsProgram_iff.1 hbefore
    have hrefused : q.next? t = none := by
      cases hr : q.next? t with
      | none => rfl
      | some r =>
        rw [List.take_add_one, ht] at hk
        exact absurd (startsProgram_iff.2 ⟨r, hq.snoc hr⟩) hk
    have hsplit : ts.take j ++ t :: ts.drop (j + 1) = ts := by
      obtain ⟨hj, hget⟩ := List.getElem?_eq_some_iff.1 ht
      rw [← hget, List.getElem_cons_drop, List.take_append_drop]
    rw [← PartialProgram.read_of_refused hq hrefused, hsplit]

end Grammar

namespace Source

open Grammar

variable {ts : Tokens}

theorem readTokens_of_refused {t : Token} (h : PartialProgram.start.read ts.tokens = .error t) :
    readTokens ts = .error (unexpected (some t.position) (.token t) ts.tokens) := by
  rw [readTokens, h]

theorem readTokens_of_stop {q : PartialProgram} {c : Char} {p : Position}
    (h : PartialProgram.start.read ts.tokens = .ok q) (hstop : ts.stop = some (c, p)) :
    readTokens ts = .error (.invalidCharacter p c) := by
  simp [readTokens, h, hstop]

/-- Tokens that are no program although one starts with them: there is a last one, since no tokens
at all are a program. -/
theorem readTokens_of_end {q : PartialProgram} (h : PartialProgram.start.read ts.tokens = .ok q)
    (hstop : ts.stop = none) (hts : ¬IsProgram ts.tokens) :
    ∃ t, ts.tokens.getLast? = some t ∧
      readTokens ts = .error (unexpected (some t.position) .endOfText ts.tokens) := by
  have hcomplete : q.complete? = none := by
    cases hc : q.complete? with
    | none => rfl
    | some ds => exact absurd (isProgram_iff.2 ⟨q, ds, PartialProgram.read_eq_ok_iff.1 h, hc⟩) hts
  cases hlast : ts.tokens.getLast? with
  | none =>
    rw [List.getLast?_eq_none_iff.1 hlast] at hts
    exact absurd (isProgram_iff.2 ⟨_, [], .nil, rfl⟩) hts
  | some t => exact ⟨t, rfl, by simp [readTokens, h, hstop, hcomplete, hlast]⟩

/-- An error of the tokens has a place, also when the text ends too early. -/
theorem position?_of_readTokens {e : SyntaxError} (h : readTokens ts = .error e) :
    e.position?.isSome := by
  cases hread : PartialProgram.start.read ts.tokens with
  | error t =>
    rw [readTokens_of_refused hread] at h
    cases h
    rfl
  | ok q =>
    cases hstop : ts.stop with
    | some s =>
      rw [readTokens_of_stop hread hstop] at h
      cases h
      rfl
    | none =>
      by_cases hts : IsProgram ts.tokens
      · obtain ⟨ds, hds⟩ := hts
        rw [readTokens_eq_ok_iff.2 ⟨hstop, derivesProgram_iff.1 hds⟩] at h
        cases h
      · obtain ⟨t, -, hend⟩ := readTokens_of_end hread hstop hts
        rw [hend] at h
        cases h
        rfl

theorem code_of_checkNumbers {ts : List Token} {e : SyntaxError}
    (h : (checkNumbers ts).2 = some e) : e.code = .parsingError := by
  induction ts with
  | nil => cases h
  | cons t ts ih =>
    rw [checkNumbers] at h
    cases hts : checkNumbers ts with
    | mk ds e' =>
      rw [hts] at h ih
      split at h
      · split at h
        · cases h
          rfl
        · dsimp only at h
          split at h <;> exact ih h
      · exact ih h

/-- A number that is too long is the only offence that is left when the tokens have been read. -/
theorem code_of_readTokens {text file : String} {ds : List Decl} {e : SyntaxError}
    (hs : Screening.check text.toList = .ok ())
    (hr : readTokens (Tokens.ofText text.toList) = .ok ds)
    (he : (parse text file).result = .error e) : e.code = .parsingError := by
  rw [parse_of_readTokens hs hr] at he
  cases hn : (checkNumbers (Tokens.ofText text.toList).tokens).2 with
  | none => simp [hn] at he
  | some e' =>
    rw [hn] at he
    cases he
    exact code_of_checkNumbers hn

/-- A text that passes screening is refused at the first place where an error is certain. If no
program starts with its first `k` tokens, for the least such `k`, the error is the `k`-th token.
If some program starts with all its tokens, it is the character that starts no token; or, if the
text has been cut to its end and its tokens are no program, the end, and it is placed at the last
token. In all other cases there is neither of these errors. Both always have a place. -/
theorem parse_first_error (text file : String) (hs : Screening.check text.toList = .ok ()) :
    let ts := Tokens.ofText text.toList
    (∀ k, ¬StartsProgram (ts.tokens.take k) → (∀ j < k, StartsProgram (ts.tokens.take j)) →
      ∃ t, ts.tokens[k - 1]? = some t ∧
        parse text file = .error (unexpected (some t.position) (.token t) ts.tokens)) ∧
    ((∀ k, StartsProgram (ts.tokens.take k)) →
      (∀ c p, ts.stop = some (c, p) → parse text file = .error (.invalidCharacter p c)) ∧
      (ts.stop = none → ¬IsProgram ts.tokens → ∃ t, ts.tokens.getLast? = some t ∧
        parse text file = .error (unexpected (some t.position) .endOfText ts.tokens)) ∧
      (ts.stop = none → IsProgram ts.tokens → ∀ e, (parse text file).result = .error e →
        e.code ≠ .unexpectedToken ∧ e.code ≠ .invalidCharacter)) ∧
    ∀ e, (parse text file).result = .error e →
      e.code = .unexpectedToken ∨ e.code = .invalidCharacter → e.position?.isSome := by
  intro ts
  have hfirst : ∀ k, ¬StartsProgram (ts.tokens.take k) →
      (∀ j < k, StartsProgram (ts.tokens.take j)) → ∃ t, ts.tokens[k - 1]? = some t ∧
        parse text file = .error (unexpected (some t.position) (.token t) ts.tokens) := by
    intro k hk hlt
    obtain ⟨t, ht, hread⟩ := read_eq_error hk hlt
    exact ⟨t, ht, parse_of_readTokens_error hs (readTokens_of_refused hread)⟩
  have hread : (∀ k, StartsProgram (ts.tokens.take k)) →
      ∃ q, PartialProgram.start.read ts.tokens = .ok q := by
    intro hall
    obtain ⟨q, hq⟩ := startsProgram_iff.1 (List.take_length (l := ts.tokens) ▸ hall _)
    exact ⟨q, PartialProgram.read_eq_ok_iff.2 hq⟩
  have hstop : (∀ k, StartsProgram (ts.tokens.take k)) → ∀ c p, ts.stop = some (c, p) →
      parse text file = .error (.invalidCharacter p c) := by
    intro hall c p hstop
    obtain ⟨q, hq⟩ := hread hall
    exact parse_of_readTokens_error hs (readTokens_of_stop hq hstop)
  have hend : (∀ k, StartsProgram (ts.tokens.take k)) → ts.stop = none → ¬IsProgram ts.tokens →
      ∃ t, ts.tokens.getLast? = some t ∧
        parse text file = .error (unexpected (some t.position) .endOfText ts.tokens) := by
    intro hall hstop hts
    obtain ⟨q, hq⟩ := hread hall
    obtain ⟨t, ht, h⟩ := readTokens_of_end hq hstop hts
    exact ⟨t, ht, parse_of_readTokens_error hs h⟩
  refine ⟨hfirst, fun hall => ⟨hstop hall, hend hall, fun hstop hts e he => ?_⟩,
    fun e he hcode => ?_⟩
  · -- The tokens form a program, so what is left to fail is a number.
    obtain ⟨ds, hds⟩ := hts
    have hr := readTokens_eq_ok_iff.2 ⟨hstop, derivesProgram_iff.1 hds⟩
    rw [code_of_readTokens hs hr he]
    decide
  · cases hr : readTokens ts with
    | error e' =>
      rw [parse_of_readTokens_error hs hr] at he
      cases he
      exact position?_of_readTokens hr
    | ok ds =>
      rw [code_of_readTokens hs hr he] at hcode
      simp at hcode

/-- A variable with a value, which the grammar does not know. -/
def initializerText : String := "int x = 2;"

def initializerTokens : List Token :=
  [⟨.kwInt, "int", ⟨1, 1⟩⟩, ⟨.ident, "x", ⟨1, 5⟩⟩, ⟨.assign, "=", ⟨1, 7⟩⟩,
    ⟨.intLit, "2", ⟨1, 9⟩⟩, ⟨.semicolon, ";", ⟨1, 10⟩⟩]

theorem ofText_initializerText :
    Tokens.ofText initializerText.toList = ⟨initializerTokens, none⟩ := by
  decide +kernel

/-- The assignment sign is the first offence, although no program has the semicolon either; a
text that ends in front of it lacks its semicolon. -/
theorem parse_first_error_initializer :
    Screening.check initializerText.toList = .ok () ∧
      ¬StartsProgram (initializerTokens.take 3) ∧
      (∀ j < 3, StartsProgram (initializerTokens.take j)) ∧
      parse initializerText = .error (unexpected (some ⟨1, 7⟩)
        (.token ⟨.assign, "=", ⟨1, 7⟩⟩) initializerTokens) ∧
      parse "int x" = .error (unexpected (some ⟨1, 5⟩) .endOfText (initializerTokens.take 2)) := by
  have hk : ¬StartsProgram (initializerTokens.take 3) := by
    rw [startsProgram_iff_isOk]
    decide
  have hlt : ∀ j < 3, StartsProgram (initializerTokens.take j) := by
    simp only [startsProgram_iff_isOk]
    decide
  refine ⟨rfl, hk, hlt, ?_, ?_⟩
  · have h := (parse_first_error initializerText stdinName rfl).1 3
    rw [ofText_initializerText] at h
    obtain ⟨t, ht, herror⟩ := h hk hlt
    cases ht
    exact herror
  · have htokens : Tokens.ofText "int x".toList = ⟨initializerTokens.take 2, none⟩ := by
      decide +kernel
    have hend : ¬IsProgram (initializerTokens.take 2) := by
      rintro ⟨ds, hds⟩
      have h : readTokens ⟨initializerTokens.take 2, none⟩ = .ok ds :=
        readTokens_eq_ok_iff.2 ⟨rfl, derivesProgram_iff.1 hds⟩
      cases h
    have h := (parse_first_error "int x" stdinName rfl).2.1
    rw [htokens] at h
    obtain ⟨t, ht, herror⟩ := (h fun k => (hlt 2 (by decide)).take k).2.1 rfl hend
    cases ht
    exact herror

end Source

end Carrot
