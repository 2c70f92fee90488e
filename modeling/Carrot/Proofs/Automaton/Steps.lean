import Carrot.Proofs.Automaton.Walk

/-! # Steps of the automaton

Before a terminal is read, rules end. Each end keeps what the path spells and what the
terminal can complete, and it makes the path smaller, so the steps that are granted
are enough.
-/

namespace Carrot.Grammar

/-! ### One rule ends -/

theorem not_mem_root : ∀ r ∈ rules, .part .root ∉ r.rhs := by
  decide

/-- Behind the part that a rule makes, the rule that asked for the part goes on, unless the part is
the whole text. -/
theorem Remains.move {n : Nat} {p : Path} {ys : List Symbol} {m : Nonterminal}
    {ws : List TokenKind} (h : Remains ys m ws) (hw : Walk (n :: p) ys) :
    (m = .root ∧ ys = [] ∧ ws = []) ∨
      m ≠ .root ∧ Continues (.part m :: ys) ws ∧
        ∃ l, (Path.row (n :: p)).move? (.part m) = some l := by
  cases h with
  | root => exact .inl ⟨rfl, rfl, rfl⟩
  | @part ys l xs m rest us ws h hr hu =>
    obtain ⟨i, hi, -, hrest, -⟩ := h.exists_item hr hw
    obtain ⟨l', hl, -⟩ := hi.carried (p := p) hrest
    refine .inr ⟨?_, h.continues_snoc hr hu, l', hl⟩
    rintro rfl
    exact not_mem_root _ hr (by simp)

/-- The symbols `zs'` of a path come from `zs` by rules that end before `t`. -/
structure Folds (t : Terminal) (zs zs' : List Symbol) : Prop where
  yields : ∀ ks, Yields zs.reverse ks → Yields zs'.reverse ks
  continues : ∀ ks, nextTerminal ks = t → Continues zs ks → Continues zs' ks

theorem Folds.refl (t : Terminal) (zs : List Symbol) : Folds t zs zs :=
  ⟨fun _ => id, fun _ _ => id⟩

theorem Folds.trans {t : Terminal} {xs ys zs : List Symbol} (h : Folds t xs ys)
    (h' : Folds t ys zs) : Folds t xs zs :=
  ⟨fun ks hks => h'.yields ks (h.yields ks hks),
    fun ks ht hks => h'.continues ks ht (h.continues ks ht hks)⟩

theorem Continues.cases_row {n : Nat} {p : Path} {zs : List Symbol} {ks : List TokenKind}
    (h : Continues zs ks) (hw : Walk (n :: p) zs) :
    (∃ r ys, r ∈ rules ∧ zs = r.rhs.reverse ++ ys ∧ Remains ys r.lhs ks ∧
      (Path.row (n :: p)).ending? (nextTerminal ks) = some r) ∨
    ∃ k ls m, ks = k :: ls ∧ Continues (.token k :: zs) ls ∧
      (Path.row (n :: p)).ending? (.token k) = none ∧
      (Path.row (n :: p)).move? (.token k) = some m := by
  cases h with
  | @done ys m rhs ws h hr =>
    have hend : ⟨m, rhs ++ []⟩ ∈ rules := by simpa using hr
    obtain ⟨i, hi, hrule, hrest, ht⟩ := h.exists_item hend hw
    refine .inl ⟨⟨m, rhs⟩, ys, hr, rfl, h, ?_⟩
    rw [hi.ending hrest ht, hrule, List.append_nil]
  | @token ys m xs k rest us ws h hr hu =>
    obtain ⟨i, hi, -, hrest, -⟩ := h.exists_item hr hw
    obtain ⟨l, hl, -⟩ := hi.carried (p := p) hrest
    exact .inr ⟨k, _, l, rfl, h.continues_snoc hr hu, hi.ending_eq_none hrest, hl⟩

/-- The last state of a path has something to do for whatever can come next. -/
theorem Continues.offers {n : Nat} {p : Path} {zs : List Symbol} {ks : List TokenKind}
    (h : Continues zs ks) (hw : Walk (n :: p) zs) :
    (Path.row (n :: p)).offers (nextTerminal ks) = true := by
  rcases h.cases_row hw with ⟨r, -, -, -, -, hr⟩ | ⟨k, ls, m, rfl, -, -, hm⟩
  · simp [Row.offers, hr]
  · simp [Row.offers, nextTerminal, hm]

/-- A rule that ends before a terminal has been read, in front of some rest of a text. -/
theorem Walk.exists_of_ending? {n : Nat} {p : Path} {zs : List Symbol} {t : Terminal} {r : Rule}
    (h : Walk (n :: p) zs) (hr : (Path.row (n :: p)).ending? t = some r) :
    r ∈ rules ∧ (r.lhs = .root → t = .endOfText) ∧
      ∃ ys ws, zs = r.rhs.reverse ++ ys ∧ Remains ys r.lhs ws := by
  obtain ⟨s, hs, -⟩ := h.exists_state
  obtain ⟨i, hi, hrest, rfl, ht⟩ := Grammar.exists_of_ending? hs hr
  obtain ⟨hrules, ys, ws, rfl, hys⟩ := h.underWay hi
  have hall : i.rule.rhs.take i.point = i.rule.rhs :=
    List.take_of_length_le (List.drop_eq_nil_iff.1 hrest)
  exact ⟨hrules, fun hroot => hi.eq_endOfText hroot ht, ys, ws, by rw [hall], hys⟩

/-- A rule that ends leaves a path over its nonterminal, or the whole text has been read. -/
theorem Walk.fold {n : Nat} {p : Path} {zs : List Symbol} {t : Terminal} {r : Rule}
    (h : Walk (n :: p) zs) (hr : (Path.row (n :: p)).ending? t = some r) :
    ∃ ys ws, zs = r.rhs.reverse ++ ys ∧ r ∈ rules ∧ Remains ys r.lhs ws ∧
      ∃ l q, (n :: p).drop r.rhs.length = l :: q ∧ Walk (l :: q) ys ∧
        ((r.lhs = .root ∧ ys = [] ∧ t = .endOfText) ∨ Folds t zs (.part r.lhs :: ys) ∧
          ∃ m, (Path.row (l :: q)).move? (.part r.lhs) = some m) := by
  obtain ⟨hrules, hroot, ys, ws, rfl, hys⟩ := h.exists_of_ending? hr
  obtain ⟨l, q, hdrop, hw⟩ := h.drop
  rw [List.length_reverse] at hdrop
  refine ⟨ys, ws, rfl, hrules, hys, l, q, hdrop, hw, ?_⟩
  rcases hys.move hw with ⟨hlhs, hnil, -⟩ | ⟨hne, -, hm⟩
  · exact .inl ⟨hlhs, hnil, hroot hlhs⟩
  refine .inr ⟨⟨fun ks hks => ?_, fun ks ht hks => ?_⟩, hm⟩
  · rw [List.reverse_append, List.reverse_reverse] at hks
    obtain ⟨as, bs, rfl, has, hbs⟩ := Yields.append_iff.1 hks
    rw [List.reverse_cons]
    exact has.append (.rule hrules hbs)
  · -- What continues the text through `t` goes on behind the same rule.
    subst ht
    rcases hks.cases_row h with ⟨r', ys', -, heq, hys', hr'⟩ | ⟨k, ls, m, rfl, -, hnone, -⟩
    · cases hr.symm.trans hr'
      cases List.append_cancel_left heq
      rcases hys'.move hw with ⟨hlhs, -, -⟩ | ⟨-, hcontinues, -⟩
      · exact absurd hlhs hne
      · exact hcontinues
    · cases hnone.symm.trans hr

/-- No state goes on with a whole text. -/
theorem Walk.move?_root {n : Nat} {p : Path} {zs : List Symbol} (h : Walk (n :: p) zs) :
    (Path.row (n :: p)).move? (.part .root) = none := by
  rw [Option.eq_none_iff_forall_ne_some]
  intro m hm
  obtain ⟨s, hs, -⟩ := h.exists_state
  obtain ⟨s', hs', hne, hall⟩ := justified_of_move? hs hm
  obtain ⟨j, hj⟩ := List.exists_mem_of_ne_nil _ hne
  obtain ⟨i, hi, -, -, hroot⟩ := hall j hj
  have hmem : .part .root ∈ i.rest := List.mem_of_head? hroot
  exact not_mem_root _ (h.underWay hi).1 (List.mem_of_mem_drop hmem)

/-! ### Rules end finitely often -/

/-- A part weighs less than what it is made of; a token weighs most. -/
def Symbol.weight : Symbol → Nat
  | .token _ => 12
  | .part n =>
    match n with
    | .root => 0
    | .formals | .moreFormals | .actuals | .moreActuals | .declList | .stmtList | .fnBody | .block
    | .type => 1
    | .program | .formal | .stmts | .expr => 2
    | .decls | .stmt | .assignExpr | .orExpr => 3
    | .decl | .varDecls | .andExpr => 4
    | .varDecl | .structDecl | .fnDecl | .relExpr => 5
    | .addExpr => 6
    | .mulExpr => 7
    | .unaryExpr => 8
    | .term => 9
    | .place | .call => 10
    | .name => 11

/-- What is left for parts without tokens behind the last symbol. -/
def slack : Option Symbol → Nat
  | none => 3
  | some (.token .lparen) | some (.part .declList) => 2
  | some (.token .lbrace) => 4
  | some _ => 0

def weights : List Symbol → Nat
  | [] => 0
  | x :: xs => x.weight + weights xs

/-- What rules that end can use up, for the symbols of a path, latest first. -/
def potential (zs : List Symbol) : Nat := weights zs + slack zs.head?

theorem Symbol.weight_le (x : Symbol) : x.weight ≤ 12 := by
  cases x with
  | token k => exact Nat.le_refl _
  | part n => cases n <;> decide

theorem slack_le (x : Option Symbol) : slack x ≤ 4 := by
  unfold slack
  split <;> decide

theorem weights_le (zs : List Symbol) : weights zs ≤ 12 * zs.length := by
  induction zs with
  | nil => exact Nat.le_refl _
  | cons x zs ih =>
    have hx := x.weight_le
    rw [weights, List.length_cons]
    omega

theorem weights_append (xs ys : List Symbol) : weights (xs ++ ys) = weights xs + weights ys := by
  induction xs with
  | nil => simp [weights]
  | cons x xs ih => simp [weights, ih, Nat.add_assoc]

theorem weights_reverse (xs : List Symbol) : weights xs.reverse = weights xs := by
  induction xs with
  | nil => rfl
  | cons x xs ih => simp [weights_append, weights, ih, Nat.add_comm]

/-- The steps that are granted for a path are enough. -/
theorem Walk.potential_lt {p : Path} {zs : List Symbol} (h : Walk p zs) :
    potential zs < p.maxEnds := by
  have hweights := weights_le zs
  have hslack := slack_le zs.head?
  rw [Path.maxEnds, h.length_eq, potential]
  omega

theorem weight_lt : ∀ r ∈ rules, r.rhs ≠ [] →
    (Symbol.part r.lhs).weight + slack (some (.part r.lhs)) <
      weights r.rhs + slack r.rhs.getLast? := by
  decide

/-- A rule without symbols is used behind a symbol that has slack for its part. -/
theorem weight_lt_slack : ∀ r ∈ rules, ∀ e ∈ rules, e.rhs = [] →
    (∀ x ∈ r.rhs.zip r.rhs.tail, x.2 = .part e.lhs →
      x.2.weight + slack (some x.2) < slack (some x.1)) ∧
    (r.rhs.head? = some (.part e.lhs) →
      r.lhs = .root ∧ (Symbol.part e.lhs).weight + slack (some (.part e.lhs)) < slack none) := by
  decide +kernel

theorem mem_zip_tail {α : Type} (xs ys : List α) (a b : α) :
    (a, b) ∈ (xs ++ a :: b :: ys).zip (xs ++ a :: b :: ys).tail := by
  induction xs with
  | nil => simp
  | cons x xs ih =>
    cases xs with
    | nil => simp
    | cons y xs => simpa using .inr ih

/-- Only nothing is in front of a whole text. -/
theorem Remains.eq_nil {ys : List Symbol} {ws : List TokenKind} (h : Remains ys .root ws) :
    ys = [] := by
  generalize hn : Nonterminal.root = n at h
  cases h with
  | root => rfl
  | part h hr hu =>
    subst hn
    exact absurd (by simp) (not_mem_root _ hr)

/-- A part without tokens fits into the slack of the symbol in front of it. -/
theorem Remains.weight_lt_slack {ys : List Symbol} {n : Nonterminal} {ws : List TokenKind}
    (h : Remains ys n ws) (hn : ⟨n, []⟩ ∈ rules) :
    (Symbol.part n).weight + slack (some (.part n)) < slack ys.head? := by
  cases h with
  | root => exact absurd hn (by decide)
  | @part ys l xs m rest us ws h hr hu =>
    have hslack := Grammar.weight_lt_slack _ hr _ hn rfl
    rcases List.eq_nil_or_concat xs with rfl | ⟨xs, x, rfl⟩
    · obtain ⟨hroot, hlt⟩ := hslack.2 rfl
      subst hroot
      rw [h.eq_nil]
      exact hlt
    · have hmem := mem_zip_tail xs rest x (.part n)
      simpa using hslack.1 (x, .part n) (by simpa using hmem) rfl

theorem Remains.potential_lt {r : Rule} {ys : List Symbol} {ws : List TokenKind}
    (h : Remains ys r.lhs ws) (hr : r ∈ rules) :
    potential (.part r.lhs :: ys) < potential (r.rhs.reverse ++ ys) := by
  cases hrhs : r.rhs with
  | nil =>
    have hlt := h.weight_lt_slack (hrhs ▸ hr)
    simp only [potential, weights, List.reverse_nil, List.nil_append, List.head?_cons]
    omega
  | cons x xs =>
    have hne : r.rhs ≠ [] := by simp [hrhs]
    have hlt := weight_lt r hr hne
    rw [← hrhs]
    have hhead : (r.rhs.reverse ++ ys).head? = r.rhs.getLast? := by
      rw [List.head?_append, List.head?_reverse, List.getLast?_eq_some_getLast hne, Option.some_or]
    simp only [potential, hhead, weights, weights_append, weights_reverse, List.head?_cons]
    omega

/-! ### One terminal -/

namespace Path

variable {t : Terminal} {p : Path} {fuel : Nat}

theorem step_of_ending {r : Rule} {m : Nat} (hr : p.row.ending? t = some r)
    (hm : (Path.row (p.drop r.rhs.length)).move? (.part r.lhs) = some m) :
    p.step t (fuel + 1) = Path.step t (m :: p.drop r.rhs.length) fuel := by
  cases t <;> simp [step, hr, hm]

theorem step_of_root {r : Rule} (hr : p.row.ending? t = some r)
    (hm : (Path.row (p.drop r.rhs.length)).move? (.part r.lhs) = none) :
    p.step t (fuel + 1) = .ok p := by
  cases t <;> simp [step, hr, hm]

theorem step_token {k : TokenKind} {m : Nat} (hr : p.row.ending? (.token k) = none)
    (hm : p.row.move? (.token k) = some m) : p.step (.token k) (fuel + 1) = .ok (m :: p) := by
  simp [step, hr, hm]

theorem step_of_offers (h : p.row.offers t = false) : p.step t (fuel + 1) = .error p.row := by
  cases t <;> simp_all [step, Row.offers]

end Path

/-- What a step over `t` may give behind a path over `zs`: it moves over a token, accepts a whole
text, or is refused by a state that the path comes to. -/
inductive StepResult (t : Terminal) (zs : List Symbol) : Except Row Path → Prop
  | moved {k n m p zs'} (ht : t = .token k) (hf : Folds t zs zs') (hp : Walk (n :: p) zs')
      (hend : (Path.row (n :: p)).ending? (.token k) = none)
      (hm : (Path.row (n :: p)).move? (.token k) = some m) : StepResult t zs (.ok (m :: n :: p))
  | accepted {q} (ht : t = .endOfText) (h : ∀ ks, Yields zs.reverse ks → IsProgramKinds ks) :
      StepResult t zs (.ok q)
  | refused {n p zs' r} (hf : Folds t zs zs') (hp : Walk (n :: p) zs')
      (hr : Path.row (n :: p) = r) (h : r.offers t = false) : StepResult t zs (.error r)

theorem StepResult.of_folds {t : Terminal} {xs zs : List Symbol} {r : Except Row Path}
    (h : Folds t xs zs) (hr : StepResult t zs r) : StepResult t xs r := by
  cases hr with
  | moved ht hf hp hend hm => exact .moved ht (h.trans hf) hp hend hm
  | accepted ht hall => exact .accepted ht fun ks hks => hall ks (h.yields ks hks)
  | refused hf hp hr hoffers => exact .refused (h.trans hf) hp hr hoffers

theorem Walk.step {p : Path} {zs : List Symbol} {fuel : Nat} (t : Terminal) (h : Walk p zs)
    (hfuel : potential zs < fuel) : StepResult t zs (p.step t fuel) := by
  induction fuel generalizing p zs with
  | zero => exact absurd hfuel (Nat.not_lt_zero _)
  | succ fuel ih =>
    obtain ⟨n, p, rfl⟩ := h.exists_cons
    cases hend : (Path.row (n :: p)).ending? t with
    | some r =>
      obtain ⟨ys, ws, rfl, hr, hys, l, q, hdrop, hw, hnext⟩ := h.fold hend
      rcases hnext with ⟨hroot, rfl, ht⟩ | ⟨hf, m, hm⟩
      · rw [Path.step_of_root hend (by rw [hdrop, hroot, hw.move?_root])]
        refine .accepted ht fun ks hks => ?_
        rw [List.append_nil, List.reverse_reverse] at hks
        rw [IsProgramKinds, ← hroot]
        exact .rule hr hks
      · have hlt := hys.potential_lt hr
        rw [Path.step_of_ending hend (by rw [hdrop, hm]), hdrop]
        exact .of_folds hf (ih (hw.move hm) (by omega))
    | none =>
      cases hoffers : (Path.row (n :: p)).offers t with
      | false =>
        rw [Path.step_of_offers hoffers]
        exact .refused (.refl _ _) h rfl hoffers
      | true =>
        cases t with
        | endOfText => simp [Row.offers, hend] at hoffers
        | token k =>
          obtain ⟨m, hm⟩ := Option.isSome_iff_exists.1 (by simpa [Row.offers, hend] using hoffers)
          rw [Path.step_token hend hm]
          exact .moved rfl (.refl _ _) h hend hm

/-! ### All terminals -/

/-- The kinds of some program start with `ks`, and `t` comes next. -/
def CanFollow (ks : List TokenKind) (t : Terminal) : Prop :=
  ∃ ls, nextTerminal ls = t ∧ IsProgramKinds (ks ++ ls)

/-- A state refuses `t` behind the kinds `ks`. It offers something that can follow them, and a
token that leads on from it can follow them. -/
structure Refuses (r : Row) (ks : List TokenKind) (t : Terminal) : Prop where
  offers : r.offers t = false
  cannotFollow : ¬CanFollow ks t
  other : ∃ t', CanFollow ks t' ∧ r.offers t' = true
  moves : ∀ k m, r.move? (.token k) = some m → CanFollow ks (.token k)

namespace Path

/-- The path has read the kinds `ks`, and all that can follow them goes on behind it. -/
def HasRead (p : Path) (ks : List TokenKind) : Prop :=
  ∃ zs, Walk p zs ∧ Yields zs.reverse ks ∧ ∀ ls, IsProgramKinds (ks ++ ls) → Continues zs ls

theorem hasRead_start : HasRead [0] [] := by
  refine ⟨[], .start, .nil, fun ls h => ?_⟩
  cases h with
  | part hr hn h =>
    cases h
    simpa using Remains.root.continues_start hr hn

namespace HasRead

variable {p q : Path} {ks : List TokenKind} {k : TokenKind} {t : Terminal} {r : Row}

/-- The state that a path has come to offers all that can follow. -/
theorem offers (h : p.HasRead ks) (ht : CanFollow ks t) : p.row.offers t = true := by
  obtain ⟨zs, hw, -, hall⟩ := h
  obtain ⟨ls, rfl, hls⟩ := ht
  obtain ⟨n, p, rfl⟩ := hw.exists_cons
  exact (hall ls hls).offers hw

theorem exists_canFollow (h : p.HasRead ks) : ∃ t, CanFollow ks t := by
  obtain ⟨zs, hw, hy, -⟩ := h
  obtain ⟨n, p, rfl⟩ := hw.exists_cons
  obtain ⟨ls, hls⟩ := hw.exists_continues
  exact ⟨_, ls, rfl, hls.isProgramKinds hy⟩

theorem of_step (h : p.HasRead ks) (hq : p.step (.token k) p.maxEnds = .ok q) :
    q.HasRead (ks ++ [k]) := by
  obtain ⟨zs, hw, hy, hall⟩ := h
  have hresult := hw.step (.token k) hw.potential_lt
  rw [hq] at hresult
  cases hresult with
  | @moved k' n m p zs' ht hf hp hend hm =>
    cases ht
    refine ⟨_, hp.move hm, ?_, fun ls hls => ?_⟩
    · rw [List.reverse_cons]
      exact (hf.yields ks hy).append (.token .nil)
    · have hcontinues := hf.continues (k :: ls) rfl (hall _ (by simpa using hls))
      rcases hcontinues.cases_row hp with ⟨r, -, -, -, -, hr⟩ | ⟨_, _, _, heq, hnext, -, -⟩
      · cases hend.symm.trans hr
      · cases heq
        exact hnext
  | accepted ht _ => cases ht

theorem isProgramKinds (h : p.HasRead ks) (hq : p.step .endOfText p.maxEnds = .ok q) :
    IsProgramKinds ks := by
  obtain ⟨zs, hw, hy, -⟩ := h
  have hresult := hw.step .endOfText hw.potential_lt
  rw [hq] at hresult
  cases hresult with
  | moved ht _ _ _ _ => cases ht
  | accepted _ hall => exact hall ks hy

theorem refuses (h : p.HasRead ks) (hr : p.step t p.maxEnds = .error r) :
    Refuses r ks t := by
  obtain ⟨zs, hw, hy, hall⟩ := h
  have hresult := hw.step t hw.potential_lt
  rw [hr] at hresult
  cases hresult with
  | @refused n p zs' _ hf hp hrow hoffers =>
    subst hrow
    have hyields := hf.yields ks hy
    refine ⟨hoffers, ?_, ?_, fun k m hm => ?_⟩
    · rintro ⟨ls, rfl, hls⟩
      have hcontinues := hf.continues ls rfl (hall ls hls)
      rw [hcontinues.offers hp] at hoffers
      cases hoffers
    · obtain ⟨ls, hls⟩ := hp.exists_continues
      exact ⟨_, ⟨ls, rfl, hls.isProgramKinds hyields⟩, hls.offers hp⟩
    · obtain ⟨ls, hls⟩ := (hp.move hm).exists_continues
      refine ⟨k :: ls, rfl, ?_⟩
      have hread : Yields (Symbol.token k :: zs').reverse (ks ++ [k]) := by
        rw [List.reverse_cons]
        exact hyields.append (.token .nil)
      simpa using hls.isProgramKinds hread

end HasRead

/-- The first terminal that cannot follow is refused, the end included. -/
theorem HasRead.refusal {p : Path} {ks : List TokenKind} (h : p.HasRead ks) (ls : List TokenKind) :
    (p.refusal (ls.map .token ++ [.endOfText]) = none ∧ IsProgramKinds (ks ++ ls)) ∨
      ∃ r us vs, p.refusal (ls.map .token ++ [.endOfText]) = some r ∧ ls = us ++ vs ∧
        Refuses r (ks ++ us) (nextTerminal vs) := by
  induction ls generalizing p ks with
  | nil =>
    simp only [List.map_nil, List.nil_append, Path.refusal]
    cases hq : p.step .endOfText p.maxEnds with
    | ok q => exact .inl ⟨rfl, by simpa using h.isProgramKinds hq⟩
    | error r => exact .inr ⟨r, [], [], rfl, rfl, by simpa [nextTerminal] using h.refuses hq⟩
  | cons k ls ih =>
    simp only [List.map_cons, List.cons_append, Path.refusal]
    cases hq : p.step (.token k) p.maxEnds with
    | ok q =>
      rcases ih (h.of_step hq) with ⟨hnone, hls⟩ | ⟨r, us, vs, hr, rfl, hrefuses⟩
      · exact .inl ⟨hnone, by simpa using hls⟩
      · exact .inr ⟨r, k :: us, vs, hr, rfl, by simpa using hrefuses⟩
    | error r => exact .inr ⟨r, [], k :: ls, rfl, rfl, by simpa [nextTerminal] using h.refuses hq⟩

end Path

end Carrot.Grammar
