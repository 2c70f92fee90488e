import Carrot.Proofs.Marks
import Carrot.Proofs.Nesting
import Mathlib.Data.List.Induction

/-! # What screening blames

Screening reports the first mark that offends, and only if there is none the last opening bracket
without a partner. Whether a bracket offends is said of the word of brackets in front of it,
without a stack.
-/

namespace Carrot.Screening

def isBracket (c : Char) : Bool := (closing? c).isSome || isClosing c

def Mark.bracket? : Mark → Option (Char × Position)
  | .code p c => if isBracket c then some (c, p) else none
  | _ => none

/-- The brackets outside of strings and comments. -/
def brackets (ms : List Mark) : List (Char × Position) := ms.filterMap Mark.bracket?

def word (ms : List Mark) : List Char := (brackets ms).map (·.1)

/-- The word can be continued to a well nested one. -/
def StartsNested (ws : List Char) : Prop := ∃ vs, Nested (ws ++ vs)

/-- What is to be said about a mark behind others: that a string literal is wrong, or that a
bracket closes what is not open. -/
def Offends (before : List Mark) : Mark → SyntaxError → Prop
  | .badEscape p e, err => err = .badEscape p e
  | .unclosed p, err => err = .unclosedString p
  | .code p c, err => err = .unmatchedBracket p c ∧ isClosing c ∧ StartsNested (word before) ∧
      ¬StartsNested (word before ++ [c])

/-- No mark offends. -/
def Sound (ms : List Mark) : Prop :=
  ∀ before m after, ms = before ++ m :: after → ∀ e, ¬Offends before m e

def FirstOffence (ms : List Mark) (e : SyntaxError) : Prop :=
  ∃ before m after, ms = before ++ m :: after ∧ Sound before ∧ Offends before m e

/-- Among the brackets behind it is one that closes the bracket `o`. -/
def Matched (o : Char) (behind : List Char) : Prop :=
  ∃ us c vs, behind = us ++ c :: vs ∧ closing? o = some c ∧ Nested us

/-- The bracket `o` at `p` is the last opening one that is not matched. -/
def LastUnmatched (bs : List (Char × Position)) (o : Char) (p : Position) : Prop :=
  ∃ before behind, bs = before ++ (o, p) :: behind ∧ (closing? o).isSome ∧
    ¬Matched o (behind.map (·.1)) ∧
    ∀ us o' p' vs, behind = us ++ (o', p') :: vs → (closing? o').isSome →
      Matched o' (vs.map (·.1))

def Letter.Proper : Letter → Prop
  | .plain _ => True
  | .escape e => ∃ c ∈ escapes, e = some c

/-- A string literal is closed and uses only escapes there are. -/
def Piece.Proper : Piece → Prop
  | .string letters closed => closed ∧ ∀ l ∈ letters, l.Proper
  | _ => True

/-- All string literals are proper and the brackets well nested. -/
def Flawless (text : List Char) : Prop :=
  (∀ l ∈ Text.lines text, ∀ x ∈ cut l, x.Proper) ∧ Nested (word (marks text))

/-! ### Words of brackets -/

theorem word_append (ms ms' : List Mark) : word (ms ++ ms') = word ms ++ word ms' := by
  simp [word, brackets]

theorem isBracket_of_mem_word {ms : List Mark} {c : Char} (hc : c ∈ word ms) :
    (closing? c).isSome ∨ isClosing c := by
  obtain ⟨⟨c, p⟩, hmem, rfl⟩ := List.mem_map.1 hc
  obtain ⟨m, -, hm⟩ := List.mem_filterMap.1 hmem
  unfold Mark.bracket? at hm
  split at hm
  · split at hm
    · next h =>
      cases hm
      simpa [isBracket] using h
    · cases hm
  · cases hm

/-- The brackets that close some open ones. -/
theorem exists_openAfter_eq_nil {stack : List Char} (h : ∀ o ∈ stack, (closing? o).isSome) :
    ∃ vs, (∀ c ∈ vs, (closing? c).isSome ∨ isClosing c) ∧ openAfter stack vs = some [] := by
  induction stack with
  | nil => exact ⟨[], by simp, rfl⟩
  | cons o stack ih =>
    obtain ⟨ho, hstack⟩ := List.forall_mem_cons.1 h
    obtain ⟨c, hc⟩ := Option.isSome_iff_exists.1 ho
    obtain ⟨vs, hvs, hopen⟩ := ih hstack
    refine ⟨c :: vs, List.forall_mem_cons.2 ⟨.inr (closing?_of_closing hc).2, hvs⟩, ?_⟩
    rw [openAfter_cons, brackets?_close hc]
    exact hopen

theorem opening_of_openAfter {ws stack : List Char}
    (hws : ∀ c ∈ ws, (closing? c).isSome ∨ isClosing c) (h : openAfter [] ws = some stack) :
    ∀ o ∈ stack, (closing? o).isSome := by
  induction ws using List.reverseRecOn generalizing stack with
  | nil =>
    cases h
    simp
  | append_singleton ws c ih =>
    rw [openAfter_append] at h
    obtain ⟨s, hs, h⟩ := Option.bind_eq_some_iff.1 h
    have ih := ih (fun d hd => hws d (List.mem_append_left _ hd)) hs
    rw [openAfter_cons] at h
    obtain ⟨s', h, ⟨⟩⟩ := Option.bind_eq_some_iff.1 h
    unfold brackets? at h
    split at h
    · next hopen =>
      cases h
      exact List.forall_mem_cons.2 ⟨hopen, ih⟩
    · next hopen =>
      rw [if_pos ((hws c (by simp)).resolve_left hopen)] at h
      split at h
      · split at h
        · cases h
          exact (List.forall_mem_cons.1 ih).2
        · cases h
      · cases h

theorem startsNested_iff {ws : List Char} (hws : ∀ c ∈ ws, (closing? c).isSome ∨ isClosing c) :
    StartsNested ws ↔ (openAfter [] ws).isSome := by
  constructor
  · rintro ⟨vs, h⟩
    have h := h.openAfter_eq []
    rw [openAfter_append] at h
    obtain ⟨s, hs, -⟩ := Option.bind_eq_some_iff.1 h
    simp [hs]
  · intro h
    obtain ⟨stack, hstack⟩ := Option.isSome_iff_exists.1 h
    obtain ⟨vs, hvs, hopen⟩ := exists_openAfter_eq_nil (opening_of_openAfter hws hstack)
    refine ⟨vs, (nested_iff ?_).2 ?_⟩
    · exact List.forall_mem_append.2 ⟨hws, hvs⟩
    · rw [openAfter_append, hstack]
      exact hopen

theorem isBracket_of_nested {ws : List Char} (h : Nested ws) :
    ∀ c ∈ ws, (closing? c).isSome ∨ isClosing c := by
  induction h with
  | nil => simp
  | pair h _ _ ihu ihv =>
    refine List.forall_mem_append.2 ⟨List.forall_mem_cons.2 ⟨.inl (h ▸ rfl), ihu⟩, ?_⟩
    exact List.forall_mem_cons.2 ⟨.inr (closing?_of_closing h).2, ihv⟩

/-- In a well nested word each opening bracket has a partner behind it. -/
theorem matched_of_nested {us vs : List Char} {o : Char} (h : Nested (us ++ o :: vs))
    (ho : (closing? o).isSome) : Matched o vs := by
  have hvs : ∀ c ∈ vs, (closing? c).isSome ∨ isClosing c := fun c hc =>
    isBracket_of_nested h c (by simp [hc])
  obtain ⟨c, hc⟩ := Option.isSome_iff_exists.1 ho
  have hopen := h.openAfter_eq []
  rw [openAfter_append] at hopen
  obtain ⟨s, -, hopen⟩ := Option.bind_eq_some_iff.1 hopen
  rw [openAfter_cons, brackets?_open hc, Option.bind_some] at hopen
  obtain ⟨us', c', vs', rfl, hc', hu, -⟩ := closesAll_of_openAfter hvs hopen
  exact ⟨us', c', vs', rfl, hc', hu⟩

/-- A bracket has no partner in a well nested word behind it. -/
theorem not_matched_of_nested {ws : List Char} (h : Nested ws) (o : Char) : ¬Matched o ws := by
  rintro ⟨us, c, vs, rfl, hc, hu⟩
  have hopen := h.openAfter_eq []
  obtain ⟨hopening, hclosing⟩ := closing?_of_closing hc
  rw [openAfter_append, hu.openAfter_eq, Option.bind_some, openAfter_cons] at hopen
  simp [brackets?, hopening, hclosing] at hopen

/-! ### The brackets that are open -/

/-- The stack holds the brackets without a partner, the last one first. -/
inductive OpenIn : List (Char × Position) → Open → Prop
  | nil {bs} (h : Nested (bs.map (·.1))) : OpenIn bs []
  | cons {before o p behind stack} (ho : (closing? o).isSome) (hbefore : OpenIn before stack)
      (hbehind : Nested (behind.map (·.1))) :
      OpenIn (before ++ (o, p) :: behind) ((o, p) :: stack)

theorem OpenIn.append {bs cs : List (Char × Position)} {stack : Open} (h : OpenIn bs stack)
    (hcs : Nested (cs.map (·.1))) : OpenIn (bs ++ cs) stack := by
  cases h with
  | nil h => exact .nil (by rw [List.map_append]; exact h.append hcs)
  | cons ho hbefore hbehind =>
    rw [List.append_assoc, List.cons_append]
    exact .cons ho hbefore (by rw [List.map_append]; exact hbehind.append hcs)

theorem OpenIn.openAfter_eq {bs : List (Char × Position)} {stack : Open} (h : OpenIn bs stack) :
    openAfter [] (bs.map (·.1)) = some (stack.map (·.1)) := by
  induction h with
  | nil h => exact h.openAfter_eq []
  | cons ho _ hbehind ih =>
    obtain ⟨c, hc⟩ := Option.isSome_iff_exists.1 ho
    rw [List.map_append, openAfter_append, ih, Option.bind_some, List.map_cons, openAfter_cons,
      brackets?_open hc, Option.bind_some, hbehind.openAfter_eq, List.map_cons]

theorem OpenIn.lastUnmatched {bs : List (Char × Position)} {o : Char} {p : Position}
    {stack : Open} (h : OpenIn bs ((o, p) :: stack)) : LastUnmatched bs o p := by
  cases h with
  | @cons before _ _ behind _ ho _ hbehind =>
    refine ⟨before, behind, rfl, ho, not_matched_of_nested hbehind o, fun us o' p' vs heq ho' => ?_⟩
    rw [heq, List.map_append, List.map_cons] at hbehind
    exact matched_of_nested hbehind ho'

theorem OpenIn.not_lastUnmatched {bs : List (Char × Position)} (h : OpenIn bs []) (o : Char)
    (p : Position) : ¬LastUnmatched bs o p := by
  rintro ⟨before, behind, heq, ho, hnot, -⟩
  cases h with
  | nil h =>
    rw [heq, List.map_append, List.map_cons] at h
    exact hnot (matched_of_nested h ho)

/-- There is at most one last bracket that is not matched. -/
theorem LastUnmatched.unique {bs : List (Char × Position)} {o o' : Char} {p p' : Position}
    (h : LastUnmatched bs o p) (h' : LastUnmatched bs o' p') : o = o' ∧ p = p' := by
  obtain ⟨before, behind, heq, ho, hnot, hlast⟩ := h
  obtain ⟨before', behind', heq', ho', hnot', hlast'⟩ := h'
  rw [heq] at heq'
  rcases List.append_eq_append_iff.1 heq' with ⟨as, -, has⟩ | ⟨as, -, has⟩
  · cases as with
    | nil => simp_all
    | cons a as =>
      rw [List.cons_append] at has
      exact absurd (hlast as o' p' behind' (List.cons.inj has).2 ho') hnot'
  · cases as with
    | nil => simp_all
    | cons a as =>
      rw [List.cons_append] at has
      exact absurd (hlast' as o p behind (List.cons.inj has).2 ho) hnot

/-! ### One more mark -/

section Step

variable {before : List Mark} {m : Mark} {stack stack' : Open} {e : SyntaxError} {c : Char}
  {p : Position}

theorem bracket_eq_error (h : bracket p c stack = .error e) :
    isClosing c ∧ e = .unmatchedBracket p c := by
  unfold bracket at h
  split at h
  · cases h
  · split at h
    · next hc =>
      refine ⟨hc, ?_⟩
      split at h
      · split at h
        · cases h
        · exact (Except.error.inj h).symm
      · exact (Except.error.inj h).symm
    · cases h

/-- A mark offends exactly if it is refused. -/
theorem judgeMark_eq_error_iff (h : OpenIn (brackets before) stack) :
    judgeMark stack m = .error e ↔ Offends before m e := by
  cases m with
  | badEscape p c => exact ⟨fun h => (Except.error.inj h).symm, fun h => congrArg _ h.symm⟩
  | unclosed p => exact ⟨fun h => (Except.error.inj h).symm, fun h => congrArg _ h.symm⟩
  | code p c =>
    have hword : openAfter [] (word before) = some (stack.map (·.1)) := h.openAfter_eq
    have hstarts : StartsNested (word before) :=
      (startsNested_iff fun _ => isBracket_of_mem_word).2 (by simp [hword])
    have hclosing : isClosing c → (¬StartsNested (word before ++ [c]) ↔
        brackets? c (stack.map (·.1)) = none) := by
      intro hc
      rw [startsNested_iff, openAfter_append, hword, Option.bind_some, openAfter_cons]
      · cases brackets? c (stack.map (·.1)) <;> simp
      · exact List.forall_mem_append.2 ⟨fun _ => isBracket_of_mem_word, by simp [hc]⟩
    constructor
    · intro herr
      obtain ⟨hc, rfl⟩ := bracket_eq_error herr
      refine ⟨rfl, hc, hstarts, (hclosing hc).2 ?_⟩
      rw [brackets?_map p, show bracket p c stack = _ from herr]
    · rintro ⟨rfl, hc, -, hnot⟩
      have hnone := (hclosing hc).1 hnot
      rw [brackets?_map p] at hnone
      cases herr : bracket p c stack with
      | ok s => simp [herr] at hnone
      | error e =>
        obtain ⟨-, rfl⟩ := bracket_eq_error herr
        exact herr

/-- The stack keeps to the brackets that are open. -/
theorem openIn_append (h : OpenIn (brackets before) stack) (hm : judgeMark stack m = .ok stack') :
    OpenIn (brackets (before ++ [m])) stack' := by
  cases m with
  | badEscape p c => cases hm
  | unclosed p => cases hm
  | code p c =>
    have hm : bracket p c stack = .ok stack' := hm
    rw [brackets, List.filterMap_append]
    change OpenIn (brackets before ++ _) _
    unfold bracket at hm
    split at hm
    · next hopen =>
      cases hm
      have : [Mark.code p c].filterMap Mark.bracket? = [(c, p)] := by
        simp [Mark.bracket?, isBracket, hopen]
      rw [this]
      exact .cons hopen h .nil
    · next hopen =>
      split at hm
      · next hclosing =>
        have : [Mark.code p c].filterMap Mark.bracket? = [(c, p)] := by
          simp [Mark.bracket?, isBracket, hclosing]
        rw [this]
        split at hm
        · split at hm
          · next o q rest ho =>
            -- The innermost bracket is closed, and what stands between is nested.
            cases hm
            generalize brackets before = bs at h
            cases h with
            | cons _ hbefore hbehind =>
              rw [List.append_assoc]
              refine hbefore.append ?_
              have := Nested.pair ho hbehind .nil
              simpa using this
          · cases hm
        · cases hm
      · next hclosing =>
        cases hm
        have : [Mark.code p c].filterMap Mark.bracket? = [] := by
          simp [Mark.bracket?, isBracket, hopen, hclosing]
        rw [this, List.append_nil]
        exact h

end Step

theorem openIn_of_judge {ms : List Mark} {stack : Open} (h : judge [] ms = .ok stack) :
    OpenIn (brackets ms) stack := by
  induction ms using List.reverseRecOn generalizing stack with
  | nil =>
    cases h
    exact .nil .nil
  | append_singleton ms m ih =>
    rw [judge_append] at h
    cases hms : judge [] ms with
    | error e => simp [hms, Except.bind] at h
    | ok s =>
      rw [hms] at h
      refine openIn_append (ih hms) ?_
      rw [Except.bind, judge_cons] at h
      cases hm : judgeMark s m with
      | error e => simp [hm, Except.bind] at h
      | ok s' =>
        rw [hm] at h
        exact h

theorem forall_split_append {ms : List Mark} {m : Mark}
    {P : List Mark → Mark → Prop} :
    (∀ before m' after, ms ++ [m] = before ++ m' :: after → P before m') ↔
      (∀ before m' after, ms = before ++ m' :: after → P before m') ∧ P ms m := by
  constructor
  · intro h
    exact ⟨fun before m' after heq => h before m' (after ++ [m]) (by simp [heq]), h ms m [] rfl⟩
  · rintro ⟨h, hm⟩ before m' after heq
    rcases List.eq_nil_or_concat after with rfl | ⟨after, a, rfl⟩
    · obtain ⟨rfl, h'⟩ := List.append_inj' heq rfl
      cases h'
      exact hm
    · rw [List.concat_eq_append, ← List.cons_append, ← List.append_assoc] at heq
      exact h before m' after (List.append_inj' heq rfl).1

theorem sound_append {ms : List Mark} {m : Mark} :
    Sound (ms ++ [m]) ↔ Sound ms ∧ ∀ e, ¬Offends ms m e := forall_split_append

theorem firstOffence_append {ms : List Mark} {m : Mark} {e : SyntaxError} :
    FirstOffence (ms ++ [m]) e ↔ FirstOffence ms e ∨ Sound ms ∧ Offends ms m e := by
  have := @forall_split_append ms m fun before m' => ¬(Sound before ∧ Offends before m' e)
  unfold FirstOffence
  rw [← not_iff_not]
  simpa only [not_or, not_exists, not_and] using this

/-- Screening ends well exactly if no mark offends, and else with the first offence. -/
theorem judge_iff (ms : List Mark) : ((∃ stack, judge [] ms = .ok stack) ↔ Sound ms) ∧
    ∀ e, judge [] ms = .error e ↔ FirstOffence ms e := by
  induction ms using List.reverseRecOn with
  | nil =>
    refine ⟨iff_of_true ⟨[], rfl⟩ fun _ _ _ h => ?_, fun e => iff_of_false (fun h => ?_) ?_⟩
    · simp at h
    · cases h
    · rintro ⟨_, _, _, h, -⟩
      simp at h
  | append_singleton ms m ih =>
    obtain ⟨hsound, hfirst⟩ := ih
    simp only [sound_append, firstOffence_append, ← hsound, ← hfirst]
    rw [judge_append]
    cases hms : judge [] ms with
    | error e => simp [Except.bind]
    | ok s =>
      have hstep : judge s [m] = judgeMark s m := by
        rw [judge_cons]
        cases judgeMark s m <;> rfl
      have hoff := fun e => judgeMark_eq_error_iff (m := m) (e := e) (openIn_of_judge hms)
      simp only [Except.bind, hstep, ← hoff]
      cases judgeMark s m <;> simp

/-! ### The verdict -/

def Mark.IsCode (m : Mark) : Prop := ∃ p c, m = .code p c

theorem forall_along {α : Type} {chars : α → List Char} {marks : Position → α → List Mark}
    {P : Mark → Prop} {Q : α → Prop} (h : ∀ p x, (∀ m ∈ marks p x, P m) ↔ Q x) (p : Position)
    (xs : List α) : (∀ m ∈ along chars marks p xs, P m) ↔ ∀ x ∈ xs, Q x := by
  induction xs generalizing p with
  | nil => simp [along]
  | cons x xs ih => rw [along, List.forall_mem_append, h, ih, List.forall_mem_cons]

theorem isCode_letter (p : Position) (l : Letter) :
    (∀ m ∈ l.marks p, m.IsCode) ↔ l.Proper := by
  cases l with
  | plain c => simp [Letter.marks, Letter.Proper]
  | escape e =>
    cases e with
    | none => simp [Letter.marks, Letter.Proper, Mark.IsCode]
    | some c =>
      by_cases hc : c ∈ escapes <;> simp [Letter.marks, Letter.Proper, Mark.IsCode, hc]

theorem isCode_piece (p : Position) (x : Piece) :
    (∀ m ∈ x.marks p, m.IsCode) ↔ x.Proper := by
  cases x with
  | code c => simp [Piece.marks, Piece.Proper, Mark.IsCode]
  | comment cs => simp [Piece.marks, Piece.Proper]
  | string letters closed =>
    rw [Piece.marks, List.forall_mem_append, forall_along isCode_letter, Piece.Proper, and_comm]
    cases closed <;> simp [Mark.IsCode]

/-- Nothing is wrong with string literals exactly if only code is marked. -/
theorem isCode_marks (text : List Char) :
    (∀ m ∈ marks text, m.IsCode) ↔ ∀ l ∈ Text.lines text, ∀ x ∈ cut l, x.Proper := by
  have hline : ∀ row l, (∀ m ∈ lineMarks row l, m.IsCode) ↔ ∀ x ∈ cut l, x.Proper :=
    fun _ _ => forall_along isCode_piece _ _
  conv_rhs => rw [← List.zipIdx_map_fst 0 (Text.lines text)]
  simp only [marks, List.forall_mem_flatMap, hline, List.forall_mem_map]

/-- If the brackets are well nested, only string literals can offend. -/
theorem sound_iff {ms : List Mark} (h : Nested (word ms)) : Sound ms ↔ ∀ m ∈ ms, m.IsCode := by
  constructor
  · intro hsound m hm
    obtain ⟨before, after, rfl⟩ := List.append_of_mem hm
    have := hsound before m after rfl
    cases m with
    | code p c => exact ⟨p, c, rfl⟩
    | badEscape p e => exact absurd rfl (this _)
    | unclosed p => exact absurd rfl (this _)
  · rintro hcode before m after rfl e hoff
    obtain ⟨p, c, rfl⟩ := hcode m (by simp)
    obtain ⟨-, hc, -, hnot⟩ := hoff
    have hword : word (.code p c :: after) = c :: word after := by
      simp [word, brackets, Mark.bracket?, isBracket, hc]
    rw [word_append, hword] at h
    exact hnot ⟨word after, by simpa using h⟩

theorem judge_eq_nil_iff (ms : List Mark) :
    judge [] ms = .ok [] ↔ (∀ m ∈ ms, m.IsCode) ∧ Nested (word ms) := by
  constructor
  · intro h
    have hnested : Nested (word ms) := by
      generalize hbs : brackets ms = bs
      have := openIn_of_judge h
      rw [hbs] at this
      rw [word, hbs]
      cases this with
      | nil h => exact h
    exact ⟨(sound_iff hnested).1 ((judge_iff ms).1.1 ⟨[], h⟩), hnested⟩
  · rintro ⟨hcode, hnested⟩
    obtain ⟨stack, hstack⟩ := (judge_iff ms).1.2 ((sound_iff hnested).2 hcode)
    have hopen := (openIn_of_judge hstack).openAfter_eq
    rw [show openAfter [] ((brackets ms).map (·.1)) = some [] from hnested.openAfter_eq []] at hopen
    rw [hstack, List.map_eq_nil_iff.1 (Option.some.inj hopen).symm]

/-- A text passes screening exactly if it is flawless. Else the first offence is reported, and
only if no mark offends the last opening bracket that is not matched. -/
theorem check_blames (text : List Char) : (check text = .ok () ↔ Flawless text) ∧
    ∀ e, check text = .error e ↔ FirstOffence (marks text) e ∨ Sound (marks text) ∧
      ∃ o p, LastUnmatched (brackets (marks text)) o p ∧ e = .unmatchedBracket p o := by
  obtain ⟨hsound, hfirst⟩ := judge_iff (marks text)
  rw [Flawless, ← isCode_marks, ← judge_eq_nil_iff, check_eq]
  simp only [← hsound, ← hfirst]
  cases hj : judge [] (marks text) with
  | error e => simp
  | ok stack =>
    have hopen := openIn_of_judge hj
    cases stack with
    | nil =>
      refine ⟨by simp, fun e => ?_⟩
      simp [hopen.not_lastUnmatched]
    | cons x stack =>
      obtain ⟨o, p⟩ := x
      refine ⟨by simp, fun e => ?_⟩
      have hlast := hopen.lastUnmatched
      constructor
      · rintro ⟨⟩
        exact .inr ⟨⟨_, rfl⟩, o, p, hlast, rfl⟩
      · rintro (h | ⟨-, o', p', h, rfl⟩)
        · cases h
        · obtain ⟨rfl, rfl⟩ := hlast.unique h
          rfl

example : check "f(\"a\\".toList = .error (.badEscape ⟨1, 5⟩ none) := by decide

end Carrot.Screening
