import Carrot.Proofs.Screening

/-! # Well nested brackets

A word of brackets is well nested if it is taken apart into pairs with well nested words
inside. Going through it with a stack of open brackets ends with an empty stack exactly
then.
-/

namespace Carrot

open Screening

/-- Words of brackets in which each bracket has its partner. -/
inductive Nested : List Char → Prop
  | nil : Nested []
  | pair {o c us vs} (h : closing? o = some c) (hu : Nested us) (hv : Nested vs) :
      Nested (o :: us ++ c :: vs)

theorem Nested.append {us vs : List Char} (hu : Nested us) (hv : Nested vs) :
    Nested (us ++ vs) := by
  induction hu with
  | nil => exact hv
  | @pair o c us us' h hin _ _ ih =>
    rw [List.append_assoc, List.cons_append]
    exact .pair h hin ih

theorem Nested.single {o c : Char} (h : closing? o = some c) : Nested [o, c] :=
  .pair h .nil .nil

/-- The open brackets behind a word of brackets, if each one fits. -/
def openAfter (stack ws : List Char) : Option (List Char) :=
  ws.foldlM (fun stack c => brackets? c stack) stack

@[simp] theorem openAfter_nil (stack : List Char) : openAfter stack [] = some stack := rfl

@[simp] theorem openAfter_cons (stack : List Char) (c : Char) (ws : List Char) :
    openAfter stack (c :: ws) = (brackets? c stack).bind (openAfter · ws) := rfl

theorem openAfter_append (stack us vs : List Char) :
    openAfter stack (us ++ vs) = (openAfter stack us).bind (openAfter · vs) := by
  induction us generalizing stack with
  | nil => rfl
  | cons c us ih =>
    rw [List.cons_append, openAfter_cons, openAfter_cons]
    cases brackets? c stack with
    | none => rfl
    | some s => exact ih s

theorem brackets?_open {o c : Char} (h : closing? o = some c) (stack : List Char) :
    brackets? o stack = some (o :: stack) := by
  simp [brackets?, h]

/-- No bracket both opens and closes. -/
theorem closing?_of_closing {o c : Char} (h : closing? o = some c) :
    closing? c = none ∧ isClosing c := by
  unfold closing? at h
  split at h
  · cases h
    decide
  · split at h
    · cases h
      decide
    · cases h

theorem brackets?_close {o c : Char} (h : closing? o = some c) (stack : List Char) :
    brackets? c (o :: stack) = some stack := by
  obtain ⟨hc, hclosing⟩ := closing?_of_closing h
  simp [brackets?, hc, hclosing, h]

/-- Well nested brackets leave the open ones as they are. -/
theorem Nested.openAfter_eq {ws : List Char} (h : Nested ws) (stack : List Char) :
    openAfter stack ws = some stack := by
  induction h generalizing stack with
  | nil => rfl
  | pair h _ _ ihu ihv =>
    rw [openAfter_append, openAfter_cons, brackets?_open h, Option.bind_some, ihu,
      Option.bind_some, openAfter_cons, brackets?_close h]
    exact ihv stack

/-- The word closes all brackets that are open, the innermost first, and is well nested between
those that close them. -/
def ClosesAll : List Char → List Char → Prop
  | [], ws => Nested ws
  | o :: stack, ws => ∃ us c vs, ws = us ++ c :: vs ∧ closing? o = some c ∧ Nested us ∧
      ClosesAll stack vs

theorem ClosesAll.behind {stack us ws : List Char} (h : ClosesAll stack ws) (hu : Nested us) :
    ClosesAll stack (us ++ ws) := by
  cases stack with
  | nil => exact hu.append h
  | cons o stack =>
    obtain ⟨us', c, vs, rfl, hc, hu', hvs⟩ := h
    exact ⟨us ++ us', c, vs, (List.append_assoc ..).symm, hc, hu.append hu', hvs⟩

theorem closesAll_of_openAfter {stack ws : List Char}
    (hws : ∀ c ∈ ws, (closing? c).isSome ∨ isClosing c) (h : openAfter stack ws = some []) :
    ClosesAll stack ws := by
  induction ws generalizing stack with
  | nil =>
    cases h
    exact .nil
  | cons c ws ih =>
    obtain ⟨hbracket, hws⟩ := List.forall_mem_cons.1 hws
    rw [openAfter_cons] at h
    obtain ⟨stack', hc, h⟩ := Option.bind_eq_some_iff.1 h
    have hrest := ih hws h
    unfold brackets? at hc
    split at hc
    · next hopen =>
      cases hc
      -- The rest closes this bracket first, behind a nested word.
      obtain ⟨us, d, vs, rfl, hd, hu, hvs⟩ := hrest
      have hpair := hvs.behind (Nested.pair hd hu .nil)
      rwa [List.append_assoc, List.singleton_append, List.cons_append] at hpair
    · next hopen =>
      rw [if_pos (hbracket.resolve_left hopen)] at hc
      split at hc
      · split at hc
        · next ho =>
          cases hc
          exact ⟨[], c, ws, rfl, ho, .nil, hrest⟩
        · cases hc
      · cases hc

/-- A word of brackets is well nested exactly if it leaves no bracket open and closes none that is
not. -/
theorem nested_iff {ws : List Char} (hws : ∀ c ∈ ws, (closing? c).isSome ∨ isClosing c) :
    Nested ws ↔ openAfter [] ws = some [] :=
  ⟨fun h => h.openAfter_eq [], closesAll_of_openAfter hws⟩

end Carrot
