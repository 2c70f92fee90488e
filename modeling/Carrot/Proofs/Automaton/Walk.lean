import Carrot.Proofs.Automaton.States

/-! # Paths of the automaton

A path spells symbols. The items of its last state are the rules that are under way
behind these symbols: each of them can be continued to a whole text, and each way to
continue to a whole text is one of them.
-/

namespace Carrot.Grammar

/-! ### What is left of a text -/

/-- Behind the symbols, latest first, a part `n` and tokens of the kinds complete a text. -/
inductive Remains : List Symbol → Nonterminal → List TokenKind → Prop
  | root : Remains [] .root []
  | part {ys n xs m rest us ws} (h : Remains ys n ws) (hr : ⟨n, xs ++ .part m :: rest⟩ ∈ rules)
      (hu : Yields rest us) : Remains (xs.reverse ++ ys) m (us ++ ws)

/-- Behind the symbols, latest first, tokens of the kinds complete a text: a rule ends here, or it
goes on with a token. -/
inductive Continues : List Symbol → List TokenKind → Prop
  | done {ys n rhs ws} (h : Remains ys n ws) (hr : ⟨n, rhs⟩ ∈ rules) :
      Continues (rhs.reverse ++ ys) ws
  | token {ys n xs k rest us ws} (h : Remains ys n ws)
      (hr : ⟨n, xs ++ .token k :: rest⟩ ∈ rules) (hu : Yields rest us) :
      Continues (xs.reverse ++ ys) (k :: (us ++ ws))

/-- A rule that is under way goes on with the first token of what is behind its point. -/
theorem Remains.continues {ys xs rest : List Symbol} {n : Nonterminal} {us ws : List TokenKind}
    (h : Remains ys n ws) (hr : ⟨n, xs ++ rest⟩ ∈ rules) (hu : Yields rest us) :
    Continues (xs.reverse ++ ys) (us ++ ws) := by
  induction hu generalizing ys n xs ws with
  | nil =>
    rw [List.append_nil] at hr
    exact .done h hr
  | token hu => exact .token h hr hu
  | @part m rhs rest ks ls hm _ hu ihm =>
    have hpart : Continues ([].reverse ++ (xs.reverse ++ ys)) (ks ++ (ls ++ ws)) :=
      ihm (h.part hr hu) hm
    simpa using hpart

theorem Remains.continues_start {ys rhs : List Symbol} {n : Nonterminal} {us ws : List TokenKind}
    (h : Remains ys n ws) (hr : ⟨n, rhs⟩ ∈ rules) (hu : Yields rhs us) :
    Continues ys (us ++ ws) := by
  have hstart : Continues ([].reverse ++ ys) (us ++ ws) := h.continues hr hu
  simpa using hstart

theorem Remains.continues_snoc {ys xs rest : List Symbol} {x : Symbol} {n : Nonterminal}
    {us ws : List TokenKind} (h : Remains ys n ws) (hr : ⟨n, xs ++ x :: rest⟩ ∈ rules)
    (hu : Yields rest us) : Continues (x :: (xs.reverse ++ ys)) (us ++ ws) := by
  have hnext : Continues ((xs ++ [x]).reverse ++ ys) (us ++ ws) :=
    h.continues (by simpa using hr) hu
  simpa using hnext

theorem Remains.isProgramKinds {ys : List Symbol} {n : Nonterminal} {ks ws : List TokenKind}
    (h : Remains ys n ws) (hy : Yields (ys.reverse ++ [.part n]) ks) :
    IsProgramKinds (ks ++ ws) := by
  induction h generalizing ks with
  | root => simpa [IsProgramKinds] using hy
  | @part ys n xs m rest us ws _ hr hu ih =>
    rw [List.reverse_append, List.reverse_reverse, List.append_assoc] at hy
    obtain ⟨as, bs, rfl, has, hbs⟩ := Yields.append_iff.1 hy
    have hn : Yields [.part n] (bs ++ us) := .rule hr (by simpa using hbs.append hu)
    simpa using ih (has.append hn)

theorem Continues.isProgramKinds {zs : List Symbol} {ks ls : List TokenKind}
    (h : Continues zs ks) (hz : Yields zs.reverse ls) : IsProgramKinds (ls ++ ks) := by
  cases h with
  | done h hr =>
    rw [List.reverse_append, List.reverse_reverse] at hz
    obtain ⟨as, bs, rfl, has, hbs⟩ := Yields.append_iff.1 hz
    exact h.isProgramKinds (has.append (.rule hr hbs))
  | @token ys n xs k rest us ws h hr hu =>
    rw [List.reverse_append, List.reverse_reverse] at hz
    obtain ⟨as, bs, rfl, has, hbs⟩ := Yields.append_iff.1 hz
    have hn : Yields [.part n] (bs ++ k :: us) := .rule hr (hbs.append (.token hu))
    simpa using h.isProgramKinds (has.append hn)

/-! ### Parts can be filled -/

/-- The nonterminals for which `known` and the rules give some tokens, the last rule first. -/
def fillable (known : List Nonterminal) : List Nonterminal :=
  rules.foldr (fun r ns => if r.rhs.all fun
      | .token _ => true
      | .part n => ns.contains n
    then r.lhs :: ns else ns) known

theorem exists_yields_of_forall {xs : List Symbol}
    (h : ∀ n, .part n ∈ xs → ∃ ks, Yields [.part n] ks) : ∃ ks, Yields xs ks := by
  induction xs with
  | nil => exact ⟨[], .nil⟩
  | cons x xs ih =>
    obtain ⟨ks, hks⟩ := ih fun n hn => h n (List.mem_cons_of_mem _ hn)
    cases x with
    | token k => exact ⟨k :: ks, .token hks⟩
    | part n =>
      obtain ⟨ls, hls⟩ := h n List.mem_cons_self
      exact ⟨ls ++ ks, hls.append hks⟩

theorem exists_yields_of_fillable {known : List Nonterminal}
    (h : ∀ n ∈ known, ∃ ks, Yields [.part n] ks) :
    ∀ n ∈ fillable known, ∃ ks, Yields [.part n] ks := by
  refine List.foldrRecOn (motive := fun ns => ∀ n ∈ ns, ∃ ks, Yields [.part n] ks) _ _ h ?_
  intro ns hns r hr
  split
  · next hall =>
    refine List.forall_mem_cons.2 ⟨?_, hns⟩
    have hrhs : ∃ ks, Yields r.rhs ks := exists_yields_of_forall fun n hn =>
      hns n (by simpa using List.all_eq_true.1 hall _ hn)
    exact hrhs.imp fun ks hks => .rule hr hks
  · exact hns

/-- Every sequence of symbols can be filled with tokens. -/
theorem exists_yields (xs : List Symbol) : ∃ ks, Yields xs ks := by
  refine exists_yields_of_forall fun n _ => ?_
  obtain ⟨r, hr, rfl⟩ : ∃ r ∈ rules, r.lhs = n := by cases n <;> decide
  -- Names have a rule in front of those that need them, so one round is not enough.
  have hall : ∀ r ∈ rules, r.lhs ∈ fillable (fillable []) := by decide +kernel
  exact exists_yields_of_fillable (exists_yields_of_fillable (by simp)) _ (hall r hr)

/-! ### Paths -/

/-- The path leads from the first state over the symbols, latest first. -/
inductive Walk : Path → List Symbol → Prop
  | start : Walk [0] []
  | move {n p zs x m} (h : Walk (n :: p) zs) (hm : (Path.row (n :: p)).move? x = some m) :
      Walk (m :: n :: p) (x :: zs)

namespace Walk

variable {n : Nat} {p : Path} {zs : List Symbol}

theorem exists_cons (h : Walk p zs) : ∃ n q, p = n :: q := by
  cases h with
  | start => exact ⟨0, [], rfl⟩
  | move _ _ => exact ⟨_, _, rfl⟩

theorem drop {xs ys : List Symbol} (h : Walk p (xs ++ ys)) :
    ∃ n q, p.drop xs.length = n :: q ∧ Walk (n :: q) ys := by
  induction xs generalizing p with
  | nil =>
    obtain ⟨n, q, rfl⟩ := h.exists_cons
    exact ⟨n, q, rfl, h⟩
  | cons x xs ih =>
    cases h with
    | move h _ => simpa using ih h

theorem length_eq (h : Walk p zs) : p.length = zs.length + 1 := by
  induction h with
  | start => rfl
  | move _ _ ih => simp [ih]

theorem exists_state (h : Walk (n :: p) zs) : ∃ s, states[n]? = some s ∧ s.kernel ≠ [] := by
  generalize hq : n :: p = q at h
  induction h generalizing n p with
  | start =>
    cases hq
    obtain ⟨s, hs, hk⟩ := kernel_zero
    exact ⟨s, hs, by simp [hk, firstKernel]⟩
  | move _ hm ih =>
    cases hq
    obtain ⟨s, hs, -⟩ := ih rfl
    obtain ⟨s', hs', hne, -⟩ := justified_of_move? hs hm
    exact ⟨s', hs', hne⟩

end Walk

/-! ### From items to texts -/

theorem Remains.opens {ys : List Symbol} {n m : Nonterminal} {ws : List TokenKind}
    (h : Remains ys n ws) (hm : Opens n m) : ∃ us, Remains ys m us := by
  induction hm with
  | refl => exact ⟨ws, h⟩
  | @step l m xs _ hr ih =>
    obtain ⟨us, hus⟩ := ih
    obtain ⟨vs, hvs⟩ := exists_yields xs
    have hpart : Remains ([].reverse ++ ys) m (vs ++ us) := hus.part hr hvs
    exact ⟨_, hpart⟩

/-- The rule of an item is under way behind the symbols, with some text left. -/
def Item.UnderWay (i : Item) (zs : List Symbol) : Prop :=
  i.rule ∈ rules ∧ ∃ ys ws, zs = (i.rule.rhs.take i.point).reverse ++ ys ∧
    Remains ys i.rule.lhs ws

theorem Item.UnderWay.move {i j : Item} {zs : List Symbol} {x : Symbol} (h : i.UnderWay zs)
    (hrule : i.rule = j.rule) (hpoint : i.point + 1 = j.point) (hx : i.rest.head? = some x) :
    j.UnderWay (x :: zs) := by
  obtain ⟨hr, ys, ws, rfl, hys⟩ := h
  rw [Item.rest, List.head?_drop] at hx
  refine ⟨hrule ▸ hr, ys, ws, ?_, hrule ▸ hys⟩
  simp [← hrule, ← hpoint, List.take_add_one, hx]

/-- What a kernel opens is under way where the kernel is. -/
theorem underWay_of_mem_items {k : Kernel} {i : Item} {zs : List Symbol}
    (hk : ∀ j ∈ k, j.UnderWay zs) (hi : i ∈ Kernel.items k) : i.UnderWay zs := by
  rcases Kernel.opens_of_mem_items hi with hi | ⟨hr, hpoint, j, hj, m, xs, hrest, hopens⟩
  · exact hk i hi
  · obtain ⟨hjr, ys, ws, rfl, hys⟩ := hk j hj
    obtain ⟨us, hus⟩ := exists_yields xs
    have hsplit : j.rule = ⟨j.rule.lhs, j.rule.rhs.take j.point ++ .part m :: xs⟩ := by
      rw [← hrest, Item.rest, List.take_append_drop]
    obtain ⟨vs, hvs⟩ := (hys.part (hsplit ▸ hjr) hus).opens hopens
    exact ⟨hr, _, vs, by simp [hpoint], hvs⟩

theorem Walk.underWay {n : Nat} {p : Path} {zs : List Symbol} {i : Item}
    (h : Walk (n :: p) zs) (hi : HasItem n i) : i.UnderWay zs := by
  generalize hq : n :: p = q at h
  induction h generalizing n p i with
  | start =>
    cases hq
    obtain ⟨s, hs, hi⟩ := hi
    obtain ⟨s', hs', hk⟩ := kernel_zero
    cases hs.symm.trans hs'
    refine underWay_of_mem_items (fun j hj => ?_) hi
    rw [hk, firstKernel, List.mem_singleton] at hj
    subst hj
    exact ⟨by decide, [], [], rfl, .root⟩
  | move h hm ih =>
    cases hq
    obtain ⟨s, hs, -⟩ := h.exists_state
    obtain ⟨s', hs', -, hall⟩ := justified_of_move? hs hm
    obtain ⟨t, ht, hi⟩ := hi
    cases ht.symm.trans hs'
    refine underWay_of_mem_items (fun j hj => ?_) hi
    obtain ⟨i', hi', hrule, hpoint, hx⟩ := hall j hj
    exact (ih hi' rfl).move hrule hpoint hx

/-- Behind every path some text can be completed. -/
theorem Walk.exists_continues {n : Nat} {p : Path} {zs : List Symbol} (h : Walk (n :: p) zs) :
    ∃ ks, Continues zs ks := by
  obtain ⟨s, hs, hne⟩ := h.exists_state
  obtain ⟨i, hi⟩ := List.exists_mem_of_ne_nil _ hne
  obtain ⟨hr, ys, ws, rfl, hys⟩ := h.underWay ⟨s, hs, List.mem_append_left _ hi⟩
  obtain ⟨us, hus⟩ := exists_yields i.rest
  have hsplit : ⟨i.rule.lhs, i.rule.rhs.take i.point ++ i.rest⟩ ∈ rules := by
    rwa [Item.rest, List.take_append_drop]
  exact ⟨us ++ ws, hys.continues hsplit hus⟩

/-! ### From texts to items -/

/-- State `n` has an item for the point of a rule, and `t` may follow the whole. -/
def Awaits (n : Nat) (r : Rule) (point : Nat) (t : Terminal) : Prop :=
  ∃ i, HasItem n i ∧ i.rule = r ∧ i.point = point ∧ t ∈ i.follow

theorem Walk.awaits {n point : Nat} {p : Path} {xs ys rest : List Symbol} {r : Rule} {t : Terminal}
    (h : Walk (n :: p) (xs.reverse ++ ys)) (hr : r.rhs.drop point = xs ++ rest)
    (hys : ∀ m q, Walk (m :: q) ys → Awaits m r point t) : Awaits n r (point + xs.length) t := by
  induction xs generalizing point ys with
  | nil => exact hys n p h
  | cons x xs ih =>
    have hdrop : r.rhs.drop (point + 1) = xs ++ rest := by
      rw [← List.drop_drop, hr, List.cons_append, List.drop_one, List.tail_cons]
    have hnext : ∀ m q, Walk (m :: q) (x :: ys) → Awaits m r (point + 1) t := by
      intro m q hq
      cases hq with
      | move hq hm =>
        obtain ⟨i, hi, rfl, hpoint, ht⟩ := hys _ _ hq
        have hrest : i.rest = x :: (xs ++ rest) := by rw [Item.rest, hpoint, hr, List.cons_append]
        obtain ⟨m', hm', j, hj, hrule, hj', hfollow⟩ := hi.carried hrest
        cases hm.symm.trans hm'
        exact ⟨j, hj, hrule, by rw [hj', hpoint], hfollow t ht⟩
    have hrev : (x :: xs).reverse ++ ys = xs.reverse ++ x :: ys := by simp
    rw [List.length_cons, Nat.add_comm xs.length, ← Nat.add_assoc]
    exact ih (hrev ▸ h) hdrop hnext

/-- The last state of a path has an item for each rule that may start behind it. -/
theorem Remains.awaits_start {n : Nat} {p : Path} {ys rhs : List Symbol} {m : Nonterminal}
    {ws : List TokenKind} (h : Remains ys m ws) (hr : ⟨m, rhs⟩ ∈ rules) (hw : Walk (n :: p) ys) :
    Awaits n ⟨m, rhs⟩ 0 (nextTerminal ws) := by
  induction h generalizing n p rhs with
  | root =>
    cases hw
    have hroot : ∀ r ∈ rules, r.lhs = .root → r = ⟨.root, [.part .program]⟩ := by decide
    cases hroot _ hr rfl
    obtain ⟨s, hs, hk⟩ := kernel_zero
    have hi : ⟨⟨.root, [.part .program]⟩, 0, 0, .single .endOfText⟩ ∈ s.kernel := by
      rw [hk, firstKernel, List.mem_singleton]
    exact ⟨_, ⟨s, hs, List.mem_append_left _ hi⟩, rfl, rfl, TerminalSet.mem_single.2 rfl⟩
  | @part ys l xs m rest us ws _ hl hu ih =>
    have hawaits : Awaits n ⟨l, xs ++ .part m :: rest⟩ (0 + xs.length) (nextTerminal ws) :=
      hw.awaits rfl fun _ _ hys => ih hl hys
    obtain ⟨i, hi, hrule, hpoint, ht⟩ := hawaits
    have hrest : i.rest = .part m :: rest := by simp [Item.rest, hrule, hpoint]
    obtain ⟨j, hj, hjr, hjp, hfollow⟩ := hi.opened hrest hr
    exact ⟨j, hj, hjr, hjp, hfollow _ (nextTerminal_mem_andThen hu.nextTerminal_mem ht)⟩

/-- The last state of a path has an item for each rule that is under way behind it. -/
theorem Remains.exists_item {n : Nat} {p : Path} {xs ys rest : List Symbol} {m : Nonterminal}
    {ws : List TokenKind} (h : Remains ys m ws) (hr : ⟨m, xs ++ rest⟩ ∈ rules)
    (hw : Walk (n :: p) (xs.reverse ++ ys)) :
    ∃ i, HasItem n i ∧ i.rule = ⟨m, xs ++ rest⟩ ∧ i.rest = rest ∧ nextTerminal ws ∈ i.follow := by
  have hawaits : Awaits n ⟨m, xs ++ rest⟩ (0 + xs.length) (nextTerminal ws) :=
    hw.awaits rfl fun _ _ hys => h.awaits_start hr hys
  obtain ⟨i, hi, hrule, hpoint, ht⟩ := hawaits
  exact ⟨i, hi, hrule, by simp [Item.rest, hrule, hpoint], ht⟩

end Carrot.Grammar
