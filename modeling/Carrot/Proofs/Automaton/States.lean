import Carrot.Proofs.Automaton.Starts

/-! # The states of the automaton

What the states ask of each other and of their items is checked on the states as they
were found, in one evaluation: no proof here follows the search that finds them. The
lemmas say what the check has seen, for a state by its number.
-/

namespace Carrot.Grammar

/-! ### Openings -/

/-- A part of `n` may start with one of the other nonterminal. -/
inductive Opens (n : Nonterminal) : Nonterminal → Prop
  | refl : Opens n n
  | step {l m xs} (h : Opens n l) (hr : ⟨l, .part m :: xs⟩ ∈ rules) : Opens n m

namespace TerminalMap

variable {P : Nonterminal → Prop} {n : Nonterminal} {a : TerminalSet} {s : TerminalMap}

/-- All nonterminals of a map have `P`. -/
def All (P : Nonterminal → Prop) (s : TerminalMap) : Prop := ∀ n a, (n, a) ∈ s → P n

theorem all_cons : All P ((n, a) :: s) ↔ P n ∧ All P s := by
  constructor
  · intro h
    exact ⟨h n a List.mem_cons_self, fun m b hm => h m b (List.mem_cons_of_mem _ hm)⟩
  · rintro ⟨hn, hs⟩ m b hm
    rcases List.mem_cons.1 hm with hm | hm
    · cases hm
      exact hn
    · exact hs m b hm

theorem All.add (hs : All P s) (hn : P n) : All P (TerminalMap.add n a s) := by
  induction s with
  | nil => exact all_cons.2 ⟨hn, hs⟩
  | cons q s ih =>
    obtain ⟨hq, hs⟩ := all_cons.1 hs
    rw [TerminalMap.add]
    split
    · exact all_cons.2 ⟨hq, hs⟩
    · exact all_cons.2 ⟨hq, ih hs⟩

end TerminalMap

theorem mem_rulesOf {n : Nonterminal} {r : Rule} {i : Nat} (h : (r, i) ∈ rulesOf n) :
    r ∈ rules ∧ r.lhs = n := by
  simp only [rulesOf, List.mem_filter, decide_eq_true_eq] at h
  exact ⟨List.fst_mem_of_mem_zipIdx h.1, h.2⟩

theorem exists_mem_rulesOf {r : Rule} (h : r ∈ rules) : ∃ i, (r, i) ∈ rulesOf r.lhs := by
  obtain ⟨i, hi⟩ := List.mem_iff_getElem?.1 h
  exact ⟨i, by simp [rulesOf, List.mk_mem_zipIdx_iff_getElem?, hi]⟩

namespace Openings

variable {n : Nonterminal} {o : Openings}

theorem opens_addRules {m : Nonterminal} (hm : Opens n m) (ho : TerminalMap.All (Opens n) o) :
    TerminalMap.All (Opens n) (o.addRules m) := by
  refine List.foldlRecOn (motive := TerminalMap.All (Opens n)) _ _ ho fun o ho (r, i) hr => ?_
  obtain ⟨hrule, rfl⟩ := mem_rulesOf hr
  dsimp only
  split
  · next hrhs => exact ho.add (hm.step (by rwa [← hrhs]))
  · exact ho

theorem opens_addAll (ho : TerminalMap.All (Opens n) o) : TerminalMap.All (Opens n) o.addAll := by
  refine List.foldlRecOn (motive := TerminalMap.All (Opens n)) _ _ ho fun _ hp q hq => ?_
  obtain ⟨m, a⟩ := q
  exact opens_addRules (ho m a hq) hp

theorem opens_close {fuel : Nat} (ho : TerminalMap.All (Opens n) o) :
    TerminalMap.All (Opens n) (o.close fuel) := by
  induction fuel generalizing o with
  | zero => exact ho
  | succ fuel ih =>
    rw [close]
    split
    · exact ho
    · exact ih (opens_addAll ho)

theorem opens_ofPart : TerminalMap.All (Opens n) (ofPart n) :=
  opens_close (by simpa [TerminalMap.All] using Opens.refl)

end Openings

/-- A part of `n` may start at the point of an item. -/
def Item.Opens (i : Item) (n : Nonterminal) : Prop :=
  ∃ m xs, i.rest = .part m :: xs ∧ Grammar.Opens m n

namespace Kernel

variable {k : Kernel} {i : Item}

theorem opens_openings : TerminalMap.All (fun n => ∃ i ∈ k, i.Opens n) (openings k) := by
  induction k with
  | nil => exact fun _ _ h => nomatch h
  | cons i k ih =>
    have hrest : TerminalMap.All (fun n => ∃ j ∈ i :: k, j.Opens n) (openings k) := fun n a h =>
      (ih n a h).imp fun _ hj => ⟨List.mem_cons_of_mem _ hj.1, hj.2⟩
    rw [openings]
    split
    · next m xs hi =>
      refine List.foldlRecOn (motive := TerminalMap.All _) _ _ hrest fun o ho (n, a) hn => ?_
      exact ho.add ⟨i, List.mem_cons_self, m, xs, hi, Openings.opens_ofPart n a hn⟩
    · exact hrest

/-- An item that is not of the kernel is at the start of a rule that the kernel opens. -/
theorem opens_of_mem_items (h : i ∈ items k) :
    i ∈ k ∨ i.rule ∈ rules ∧ i.point = 0 ∧ ∃ j ∈ k, j.Opens i.rule.lhs := by
  rcases List.mem_append.1 h with h | h
  · exact .inl h
  · obtain ⟨⟨n, f⟩, hn, hi⟩ := List.mem_flatMap.1 h
    obtain ⟨⟨r, number⟩, hr, rfl⟩ := List.mem_map.1 hi
    obtain ⟨hrule, rfl⟩ := mem_rulesOf hr
    exact .inr ⟨hrule, rfl, opens_openings _ _ hn⟩

theorem exists_mem_items {r : Rule} {f : TerminalSet} (hr : r ∈ rules)
    (hf : (openings k).lookup r.lhs = some f) :
    ∃ i ∈ items k, i.rule = r ∧ i.point = 0 ∧ i.follow = f := by
  obtain ⟨number, hnumber⟩ := exists_mem_rulesOf hr
  obtain ⟨o, p, ho, -⟩ := List.lookup_eq_some_iff.1 hf
  refine ⟨⟨r, number, 0, f⟩, List.mem_append_right _ ?_, rfl, rfl, rfl⟩
  exact List.mem_flatMap.2 ⟨(r.lhs, f), by simp [ho], List.mem_map.2 ⟨_, hnumber, rfl⟩⟩

end Kernel

/-! ### The check -/

namespace State

/-- Over `x`, the item goes on in the state that `x` leads to. -/
def carries (s : State) (i : Item) (x : Symbol) : Bool :=
  ((s.row.move? x).bind fun m => states[m]?).any fun t => t.kernel.any fun j =>
    j.rule == i.rule && j.point == i.point + 1 && i.follow.isSubset j.follow

/-- What is behind the point of an item goes on, starts or ends here, and nothing else happens
before the same terminal. -/
def serves (s : State) (i : Item) : Bool :=
  match i.rest with
  | [] => terminals.all fun t => !i.follow.contains t || s.row.ending? t == some i.rule
  | .token k :: _ => s.carries i (.token k) && s.row.ending? (.token k) == none
  | .part n :: xs => s.carries i (.part n) &&
      ((Kernel.openings s.kernel).lookup n).any ((firsts starts xs).andThen i.follow).isSubset

/-- Only the end of the text is behind a whole text. -/
def endsLast (i : Item) : Bool := i.rule.lhs != .root || i.follow == .single .endOfText

/-- The states that symbols lead to have items, and each of these comes from here. -/
def justifies (s : State) : Bool :=
  s.moves.all fun (x, m) => states[m]?.any fun t => !t.kernel.isEmpty && t.kernel.all fun j =>
    (Kernel.items s.kernel).any fun i =>
      i.rule == j.rule && i.point + 1 == j.point && i.rest.head? == some x

def isSound (s : State) : Bool :=
  ((Kernel.items s.kernel).all fun i => s.serves i && endsLast i) && s.justifies

end State

/-- The check of all states; a text starts in the first. -/
def areSound : Bool :=
  states[0]?.any (fun s => s.kernel == firstKernel) && states.all State.isSound

theorem areSound_eq : areSound = true := by
  decide +kernel

/-! ### Items of a state -/

/-- State `n` has the item. -/
def HasItem (n : Nat) (i : Item) : Prop :=
  ∃ s, states[n]? = some s ∧ i ∈ Kernel.items s.kernel

theorem kernel_zero : ∃ s, states[0]? = some s ∧ s.kernel = firstKernel := by
  have h := areSound_eq
  rw [areSound, Bool.and_eq_true, Option.any_eq_true] at h
  simpa using h.1

theorem isSound_of_getElem? {n : Nat} {s : State} (h : states[n]? = some s) : s.isSound = true := by
  have hall := areSound_eq
  rw [areSound, Bool.and_eq_true, List.all_eq_true] at hall
  exact hall.2 s (List.mem_of_getElem? h)

theorem mem_terminals (t : Terminal) : t ∈ terminals := by
  cases t with
  | endOfText => exact List.mem_cons_self
  | token k => exact List.mem_cons_of_mem _ (List.mem_map_of_mem (TokenKind.mem_all k))

theorem Path.row_cons {n : Nat} {s : State} {p : Path} (h : states[n]? = some s) :
    Path.row (n :: p) = s.row := by
  rw [Path.row, List.head?_cons, Option.bind_some, automaton, List.getElem?_map, h,
    Option.map_some, Option.getD_some]

namespace HasItem

variable {n : Nat} {i : Item} {p : Path} {x : Symbol} {xs : List Symbol} {t : Terminal}

theorem serves (h : HasItem n i) :
    ∃ s, states[n]? = some s ∧ s.serves i = true ∧ State.endsLast i = true := by
  obtain ⟨s, hs, hi⟩ := h
  have hsound := isSound_of_getElem? hs
  rw [State.isSound, Bool.and_eq_true, List.all_eq_true] at hsound
  have hboth := hsound.1 i hi
  rw [Bool.and_eq_true] at hboth
  exact ⟨s, hs, hboth⟩

/-- Whatever is behind the point leads to a state where the rule goes on. -/
theorem carried (h : HasItem n i) (hi : i.rest = x :: xs) :
    ∃ m, (Path.row (n :: p)).move? x = some m ∧ ∃ j, HasItem m j ∧ j.rule = i.rule ∧
      j.point = i.point + 1 ∧ ∀ t ∈ i.follow, t ∈ j.follow := by
  obtain ⟨s, hs, hserves, -⟩ := h.serves
  have hcarries : s.carries i x = true := by
    rw [State.serves, hi] at hserves
    cases x <;> exact (Bool.and_eq_true_iff.1 hserves).1
  simp only [State.carries, Option.any_eq_true, Option.bind_eq_some_iff, List.any_eq_true,
    Bool.and_eq_true, beq_iff_eq] at hcarries
  obtain ⟨s', ⟨m, hm, hs'⟩, j, hj, ⟨hrule, hpoint⟩, hfollow⟩ := hcarries
  rw [Path.row_cons hs]
  exact ⟨m, hm, j, ⟨s', hs', List.mem_append_left _ hj⟩, hrule, hpoint, fun t =>
    TerminalSet.mem_of_isSubset hfollow⟩

theorem ending (h : HasItem n i) (hi : i.rest = []) (ht : t ∈ i.follow) :
    (Path.row (n :: p)).ending? t = some i.rule := by
  obtain ⟨s, hs, hserves, -⟩ := h.serves
  rw [State.serves, hi, List.all_eq_true] at hserves
  have hending := hserves t (mem_terminals t)
  rw [Path.row_cons hs]
  have hcontains : i.follow.contains t = true := ht
  simpa [hcontains] using hending

/-- No rule ends where a token can be read. -/
theorem ending_eq_none {k : TokenKind} (h : HasItem n i) (hi : i.rest = .token k :: xs) :
    (Path.row (n :: p)).ending? (.token k) = none := by
  obtain ⟨s, hs, hserves, -⟩ := h.serves
  rw [State.serves, hi, Bool.and_eq_true, beq_iff_eq] at hserves
  rw [Path.row_cons hs]
  exact hserves.2

theorem opened {m : Nonterminal} {rhs : List Symbol} (h : HasItem n i)
    (hi : i.rest = .part m :: xs) (hr : ⟨m, rhs⟩ ∈ rules) :
    ∃ j, HasItem n j ∧ j.rule = ⟨m, rhs⟩ ∧ j.point = 0 ∧
      ∀ t ∈ (firsts starts xs).andThen i.follow, t ∈ j.follow := by
  obtain ⟨s, hs, hserves, -⟩ := h.serves
  rw [State.serves, hi, Bool.and_eq_true, Option.any_eq_true] at hserves
  obtain ⟨f, hf, hsubset⟩ := hserves.2
  obtain ⟨j, hj, hrule, hpoint, rfl⟩ := Kernel.exists_mem_items hr hf
  exact ⟨j, ⟨s, hs, hj⟩, hrule, hpoint, fun t => TerminalSet.mem_of_isSubset hsubset⟩

theorem eq_endOfText (h : HasItem n i) (hi : i.rule.lhs = .root) (ht : t ∈ i.follow) :
    t = .endOfText := by
  obtain ⟨s, hs, -, hlast⟩ := h.serves
  have hfollow : i.follow = .single .endOfText := by simpa [State.endsLast, hi] using hlast
  rw [hfollow] at ht
  exact TerminalSet.mem_single.1 ht

end HasItem

/-- A rule that ends before a terminal has its end in the state. -/
theorem exists_of_ending? {n : Nat} {p : Path} {s : State} {t : Terminal} {r : Rule}
    (hs : states[n]? = some s) (h : (Path.row (n :: p)).ending? t = some r) :
    ∃ i, HasItem n i ∧ i.rest = [] ∧ i.rule = r ∧ t ∈ i.follow := by
  rw [Path.row_cons hs] at h
  obtain ⟨⟨r', f⟩, hfind, rfl⟩ := Option.map_eq_some_iff.1 h
  obtain ⟨i, hi, hend⟩ := List.mem_filterMap.1 (List.mem_of_find?_eq_some hfind)
  have hcontains := List.find?_some hfind
  split at hend
  · next hrest =>
    cases hend
    exact ⟨i, ⟨s, hs, hi⟩, List.isEmpty_iff.1 hrest, rfl, hcontains⟩
  · cases hend

/-- A symbol leads to a state whose items come from the one before. -/
theorem justified_of_move? {n m : Nat} {p : Path} {s : State} {x : Symbol}
    (hs : states[n]? = some s) (h : (Path.row (n :: p)).move? x = some m) :
    ∃ s', states[m]? = some s' ∧ s'.kernel ≠ [] ∧ ∀ j ∈ s'.kernel, ∃ i, HasItem n i ∧
      i.rule = j.rule ∧ i.point + 1 = j.point ∧ i.rest.head? = some x := by
  rw [Path.row_cons hs] at h
  obtain ⟨o, q, hmoves, -⟩ := List.lookup_eq_some_iff.1 h
  have hsound := isSound_of_getElem? hs
  rw [State.isSound, Bool.and_eq_true, State.justifies, List.all_eq_true (l := s.moves)] at hsound
  have hjustifies := hsound.2 (x, m) (by
    rw [show s.moves = _ from hmoves]
    simp)
  simp only [Option.any_eq_true, Bool.and_eq_true, List.all_eq_true, List.any_eq_true,
    beq_iff_eq, Bool.not_eq_true', List.isEmpty_eq_false_iff] at hjustifies
  obtain ⟨s', hs', hne, hall⟩ := hjustifies
  refine ⟨s', hs', hne, fun j hj => ?_⟩
  obtain ⟨i, hi, ⟨hrule, hpoint⟩, hrest⟩ := hall j hj
  exact ⟨i, ⟨s, hs, hi⟩, hrule, hpoint, hrest⟩

end Carrot.Grammar
