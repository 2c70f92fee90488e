import Carrot.Proofs.Automaton.Steps

/-! # What a message expects

The automaton and the reader of programs refuse a text at the same terminal, which is
the first that no program has there. The terminals that a message then lists do not
include it, and they include one that some program does have there.
-/

namespace Carrot

namespace Grammar

variable {ks us vs : List TokenKind} {t : Terminal}

theorem canFollow_endOfText_iff : CanFollow ks .endOfText ↔ IsProgramKinds ks := by
  constructor
  · rintro ⟨ls, hls, h⟩
    cases ls with
    | nil => simpa using h
    | cons => cases hls
  · intro h
    exact ⟨[], rfl, by simpa using h⟩

theorem canFollow_token_iff {k : TokenKind} :
    CanFollow ks (.token k) ↔ ∃ t, CanFollow (ks ++ [k]) t := by
  constructor
  · rintro ⟨ls, hls, h⟩
    cases ls with
    | nil => cases hls
    | cons l ls =>
      cases hls
      exact ⟨_, ls, rfl, by simpa using h⟩
  · rintro ⟨t, ls, -, h⟩
    exact ⟨k :: ls, rfl, by simpa using h⟩

theorem canFollow_of_append {x : TokenKind} {xs : List TokenKind}
    (h : CanFollow (us ++ x :: xs) t) : CanFollow us (.token x) := by
  obtain ⟨ls, -, h⟩ := h
  exact ⟨x :: xs ++ ls, rfl, by simpa using h⟩

/-- A path goes on over exactly the terminals that can follow what it has read. -/
theorem Path.HasRead.isOk_step_iff {p : Path} (h : p.HasRead ks) :
    (p.step t p.maxEnds).isOk = true ↔ CanFollow ks t := by
  cases hq : p.step t p.maxEnds with
  | error r => simpa [Except.isOk, Except.toBool] using (h.refuses hq).cannotFollow
  | ok q =>
    refine ⟨fun _ => ?_, fun _ => rfl⟩
    cases t with
    | endOfText => exact canFollow_endOfText_iff.2 (h.isProgramKinds hq)
    | token k => exact canFollow_token_iff.2 (h.of_step hq).exists_canFollow

theorem Path.exists_hasRead (h : ∃ t, CanFollow ks t) : ∃ p, Path.HasRead p ks := by
  generalize hn : ks.length = n
  induction n generalizing ks with
  | zero =>
    obtain rfl := List.length_eq_zero_iff.1 hn
    exact ⟨_, hasRead_start⟩
  | succ n ih =>
    obtain ⟨ls, k, rfl⟩ : ∃ ls k, ks = ls ++ [k] := by
      rcases List.eq_nil_or_concat ks with rfl | ⟨ls, k, hks⟩
      · cases hn
      · exact ⟨ls, k, by simpa using hks⟩
    have hk := canFollow_token_iff.2 h
    obtain ⟨p, hp⟩ := ih ⟨_, hk⟩ (by simpa using hn)
    cases hq : p.step (.token k) p.maxEnds with
    | ok q => exact ⟨q, hp.of_step hq⟩
    | error r => exact absurd hk (hp.refuses hq).cannotFollow

/-- A text is refused in one place only. -/
theorem eq_of_refused {us' vs' : List TokenKind} (h : us ++ vs = us' ++ vs')
    (hus : ∃ t, CanFollow us t) (hvs : ¬CanFollow us (nextTerminal vs))
    (hus' : ∃ t, CanFollow us' t) (hvs' : ¬CanFollow us' (nextTerminal vs')) :
    us = us' ∧ vs = vs' := by
  rcases List.append_eq_append_iff.1 h with ⟨xs, rfl, rfl⟩ | ⟨xs, rfl, rfl⟩
  · cases xs with
    | nil => simp
    | cons x xs => exact absurd (canFollow_of_append hus'.choose_spec) hvs
  · cases xs with
    | nil => simp
    | cons x xs => exact absurd (canFollow_of_append hus.choose_spec) hvs'

/-- The automaton refuses the first terminal that cannot follow. -/
theorem exists_refusal (hus : ∃ t, CanFollow us t) (hvs : ¬CanFollow us (nextTerminal vs)) :
    ∃ r, Path.refusal [0] ((us ++ vs).map .token ++ [.endOfText]) = some r ∧
      Refuses r us (nextTerminal vs) := by
  rcases Path.hasRead_start.refusal (us ++ vs) with ⟨-, h⟩ | ⟨r, us', vs', hr, h, hrefuses⟩
  · exact absurd ⟨vs, rfl, h⟩ hvs
  · obtain ⟨t, ht, -⟩ := hrefuses.other
    obtain ⟨rfl, rfl⟩ := eq_of_refused h hus hvs ⟨t, ht⟩ hrefuses.cannotFollow
    exact ⟨r, hr, hrefuses⟩

/-- A program is refused nowhere. -/
theorem expected_of_isProgramKinds (h : IsProgramKinds ks) : expected ks = [] := by
  rcases Path.hasRead_start.refusal ks with ⟨hnone, -⟩ | ⟨r, us, vs, -, rfl, hrefuses⟩
  · rw [expected, hnone]
  · exact absurd ⟨vs, rfl, h⟩ hrefuses.cannotFollow

/-- Where a terminal cannot follow, it is not expected, but some terminal that can follow is. -/
theorem expected_of_refused (hus : ∃ t, CanFollow us t) (hvs : ¬CanFollow us (nextTerminal vs)) :
    nextTerminal vs ∉ expected (us ++ vs) ∧ ∃ t ∈ expected (us ++ vs), CanFollow us t := by
  obtain ⟨r, hr, hrefuses⟩ := exists_refusal hus hvs
  obtain ⟨t, ht, hoffers⟩ := hrefuses.other
  rw [expected, hr]
  exact ⟨by simp [hrefuses.offers], t, List.mem_filter.2 ⟨mem_terminals t, hoffers⟩, ht⟩

end Grammar

namespace PartialProgram

open Grammar

variable {q : PartialProgram} {ts : List Token} {t : Token}

theorem exists_canFollow (hq : start.Reads ts q) : ∃ t, CanFollow (ts.map (·.kind)) t := by
  obtain ⟨ks, hks⟩ := startsProgram_iff_kinds.1 (startsProgram_iff.2 ⟨q, hq⟩)
  exact ⟨_, ks, rfl, hks⟩

/-- The next token is read exactly if it can follow those that have been read. -/
theorem isSome_next?_iff (hq : start.Reads ts q) :
    (q.next? t).isSome ↔ CanFollow (ts.map (·.kind)) (.token t.kind) := by
  have hstarts : StartsProgram (ts ++ [t]) ↔ CanFollow (ts.map (·.kind)) (.token t.kind) := by
    rw [startsProgram_iff_kinds, canFollow_token_iff]
    constructor
    · rintro ⟨ks, h⟩
      exact ⟨_, ks, rfl, by simpa using h⟩
    · rintro ⟨_, ks, -, h⟩
      exact ⟨ks, by simpa using h⟩
  rw [← hstarts, startsProgram_iff, Option.isSome_iff_exists]
  constructor
  · rintro ⟨r, hr⟩
    exact ⟨r, hq.snoc hr⟩
  · rintro ⟨r, hr⟩
    obtain ⟨q', hq', hr⟩ := Reads.append_iff.1 hr
    cases hq.symm.trans hq'
    obtain ⟨r', hr', -⟩ := Reads.cons_iff.1 hr
    exact ⟨r', hr'⟩

theorem isSome_complete?_iff (hq : start.Reads ts q) :
    q.complete?.isSome ↔ CanFollow (ts.map (·.kind)) .endOfText := by
  rw [canFollow_endOfText_iff, ← isProgram_iff_isProgramKinds, isProgram_iff,
    Option.isSome_iff_exists]
  constructor
  · rintro ⟨ds, hds⟩
    exact ⟨q, ds, hq, hds⟩
  · rintro ⟨q', ds, hq', hds⟩
    cases hq.symm.trans hq'
    exact ⟨ds, hds⟩

/-- The automaton and the reader of programs go on over the same terminals, and the state that the
automaton has come to offers all of these. -/
theorem exists_path_of_reads (hq : start.Reads ts q) :
    ∃ p : Grammar.Path, p.HasRead (ts.map (·.kind)) ∧
      (∀ t, (p.step (.token t.kind) p.maxEnds).isOk = (q.next? t).isSome) ∧
      (p.step .endOfText p.maxEnds).isOk = q.complete?.isSome ∧
      (∀ t, (q.next? t).isSome → p.row.offers (.token t.kind) = true) ∧
      (q.complete?.isSome → p.row.offers .endOfText = true) := by
  obtain ⟨p, hp⟩ := Grammar.Path.exists_hasRead (exists_canFollow hq)
  refine ⟨p, hp, fun t => ?_, ?_, fun t ht => ?_, fun h => ?_⟩
  · rw [Bool.eq_iff_iff, hp.isOk_step_iff, isSome_next?_iff hq]
  · rw [Bool.eq_iff_iff, hp.isOk_step_iff, isSome_complete?_iff hq]
  · exact hp.offers ((isSome_next?_iff hq).1 ht)
  · exact hp.offers ((isSome_complete?_iff hq).1 h)

theorem exists_of_read_eq_error {p : PartialProgram} (h : p.read ts = .error t) :
    ∃ us vs q, ts = us ++ t :: vs ∧ p.Reads us q ∧ q.next? t = none := by
  induction ts generalizing p with
  | nil => cases h
  | cons u ts ih =>
    rw [read] at h
    split at h
    · next p' hp' =>
      obtain ⟨us, vs, q, rfl, hq, ht⟩ := ih h
      exact ⟨u :: us, vs, q, rfl, .cons hp' hq, ht⟩
    · next hnone =>
      cases h
      exact ⟨[], ts, p, rfl, .nil, hnone⟩

end PartialProgram

theorem Terminal.name_inj {s t : Terminal} (h : s.name = t.name) : s = t := by
  have hall : ∀ s ∈ Grammar.terminals, ∀ t ∈ Grammar.terminals, s.name = t.name → s = t := by
    decide +kernel
  exact hall s (Grammar.mem_terminals s) t (Grammar.mem_terminals t) h

namespace Source

open Grammar PartialProgram

/-- The terminal that stops the reader, and the tokens in front of it. -/
theorem exists_of_readTokens_unexpected {ts : Tokens} {place : Option Position} {found : Found}
    {names : List String} (h : readTokens ts = .error (.unexpected place found names)) :
    names = (expected (ts.tokens.map (·.kind))).map Terminal.name ∧
      ∃ us vs q, ts.tokens = us ++ vs ∧ start.Reads us q ∧
        ((∃ t, vs.head? = some t ∧ found = .token t ∧ q.next? t = none) ∨
          vs = [] ∧ found = .endOfText ∧ q.complete? = none) := by
  unfold readTokens at h
  split at h
  · next t ht =>
    obtain ⟨us, vs, q, hts, hq, hnone⟩ := exists_of_read_eq_error ht
    cases h
    exact ⟨rfl, us, t :: vs, q, hts, hq, .inl ⟨t, rfl, rfl, hnone⟩⟩
  · next q hq =>
    split at h
    · cases h
    · cases h
    · next hcomplete =>
      cases h
      exact ⟨rfl, ts.tokens, [], q, by simp, read_eq_ok_iff.1 hq, .inr ⟨rfl, rfl, hcomplete⟩⟩

/-- The message for a terminal that cannot come next does not list that terminal, and it lists some
terminal that can. -/
theorem readTokens_expects {ts : Tokens} {place : Option Position} {found : Found}
    {names : List String} (h : readTokens ts = .error (.unexpected place found names)) :
    ∃ us vs, ts.tokens = us ++ vs ∧ found = (vs.head?.map Found.token).getD .endOfText ∧
      ¬CanFollow (us.map (·.kind)) (nextTerminal (vs.map (·.kind))) ∧
      (nextTerminal (vs.map (·.kind))).name ∉ names ∧
      ∃ t, CanFollow (us.map (·.kind)) t ∧ t.name ∈ names := by
  obtain ⟨rfl, us, vs, q, hts, hq, hstop⟩ := exists_of_readTokens_unexpected h
  have hrefused : ¬CanFollow (us.map (·.kind)) (nextTerminal (vs.map (·.kind))) ∧
      found = (vs.head?.map Found.token).getD .endOfText := by
    rcases hstop with ⟨t, ht, rfl, hnone⟩ | ⟨rfl, rfl, hnone⟩
    · obtain ⟨vs, rfl⟩ := List.head?_eq_some_iff.1 ht
      refine ⟨fun hfollow => ?_, rfl⟩
      simpa [hnone] using (isSome_next?_iff hq).2 hfollow
    · refine ⟨fun hfollow => ?_, rfl⟩
      simpa [hnone] using (isSome_complete?_iff hq).2 hfollow
  rw [hts, List.map_append]
  obtain ⟨hnot, t, ht, hfollow⟩ := expected_of_refused (exists_canFollow hq) hrefused.1
  refine ⟨us, vs, rfl, hrefused.2, hrefused.1, fun hmem => ?_, t, hfollow, List.mem_map_of_mem ht⟩
  obtain ⟨s, hs, hname⟩ := List.mem_map.1 hmem
  exact hnot (Terminal.name_inj hname ▸ hs)

end Source

end Carrot
