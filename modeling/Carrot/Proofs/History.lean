import Carrot.SymbolTable
import Mathlib.Data.List.Basic
import Mathlib.Data.List.Induction

/-! # The history of a symbol table

What is in a table can be told from the operations that were asked of it, by their times
alone: at which times a name was added, and whether the number of scopes has been smaller
since. The table keeps the scopes that are open instead, and agrees with its history after
any operations, refused ones included.
-/

namespace Carrot.SymbolTable

variable {β : Type}

/-- What can be asked of a table. -/
inductive Operation (β : Type) where
  | push
  | pop
  | add (name : Option String) (b : Option β)
  | mark
  | lookupLocal (name : String)
  | lookupGlobal (name : String)

namespace Operation

/-- The table behind an operation, or why it is refused. -/
def run (t : SymbolTable β) : Operation β → Except TableError (SymbolTable β)
  | .push => .ok t.push
  | .pop => t.pop
  | .add name b => t.add name b
  | .mark => .ok t.mark
  | .lookupLocal _ | .lookupGlobal _ => .ok t

/-- The table that is gone on with: if the operation is refused, the table as it was. -/
def step (t : SymbolTable β) (o : Operation β) : SymbolTable β :=
  match o.run t with
  | .ok t => t
  | .error _ => t

def isPush : Operation β → Bool
  | .push => true
  | _ => false

def isPop : Operation β → Bool
  | .pop => true
  | _ => false

end Operation

open Operation

/-- The table behind some operations on a new one. -/
def after (os : List (Operation β)) : SymbolTable β := os.foldl step new

theorem after_append (os : List (Operation β)) (o : Operation β) :
    after (os ++ [o]) = step (after os) o := by
  simp [after, List.foldl_append]

/-! ### Times

The time `i` is the one at which `i` operations have been done. -/

namespace History

/-- The number of scopes that are open behind some operations. -/
def depth (os : List (Operation β)) : Nat :=
  os.foldl (fun d o => match o with
    | .push => d + 1
    | .pop => d - 1
    | _ => d) 1

/-- How many of the operations close a scope. -/
def closings (os : List (Operation β)) : Nat :=
  (List.range os.length).countP fun i =>
    os[i]?.any isPop && (after (os.take i)).pop.isOk

/-- The name and the binding that the operation at time `i` adds, if it adds any. -/
def added? (os : List (Operation β)) (i : Nat) : Option (String × β) :=
  match os[i]? with
  | some (.add (some name) (some b)) =>
    if ((after (os.take i)).add (some name) (some b)).isOk then some (name, b) else none
  | _ => none

/-- The scope in front at time `i` has not been closed since. -/
def Kept (os : List (Operation β)) (i : Nat) : Prop :=
  ∀ j ≤ os.length, i ≤ j → depth (os.take i) ≤ depth (os.take j)

instance (os : List (Operation β)) (i : Nat) : Decidable (Kept os i) :=
  inferInstanceAs (Decidable (∀ j ≤ os.length, _))

/-- What has been added to the scope at some depth, as long as it is open, in order. -/
def entries (os : List (Operation β)) (d : Nat) : Scope β :=
  (List.range os.length).filterMap fun i =>
    if depth (os.take i) = d ∧ Kept os i then added? os i else none

/-- The open scopes, the innermost first. -/
def liveScopes (os : List (Operation β)) : List (Scope β) :=
  (List.range (depth os)).reverse.map fun d => entries os (d + 1)

/-- Of the times that satisfy `P`, the latest one at which the name was added bound it to `b`. -/
def LatestAdd (os : List (Operation β)) (P : Nat → Prop) (name : String) (b : β) : Prop :=
  ∃ i, added? os i = some (name, b) ∧ P i ∧
    ∀ j c, i < j → added? os j = some (name, c) → ¬P j

variable {os : List (Operation β)} {o : Operation β} {i j d : Nat}

theorem take_append_of_le (h : i ≤ os.length) : (os ++ [o]).take i = os.take i :=
  List.take_append_of_le_length h

theorem take_length_append : (os ++ [o]).take (os.length + 1) = os ++ [o] :=
  List.take_of_length_le (by simp)

theorem depth_append : depth (os ++ [o]) = match o with
    | .push => depth os + 1
    | .pop => depth os - 1
    | _ => depth os := by
  simp only [depth, List.foldl_append, List.foldl_cons, List.foldl_nil]

/-- What was added at a time does not depend on what is done later. -/
theorem added?_take (h : i < j) : added? (os.take j) i = added? os i := by
  unfold added?
  rw [List.getElem?_take_of_lt h, List.take_take, Nat.min_eq_left (Nat.le_of_lt h)]

theorem added?_append (h : i < os.length) : added? (os ++ [o]) i = added? os i := by
  rw [← added?_take h, List.take_left]

theorem lt_length_of_added? {e : String × β} (h : added? os i = some e) : i < os.length := by
  by_contra hi
  rw [added?, List.getElem?_eq_none (Nat.le_of_not_lt hi)] at h
  cases h

theorem Kept.take (h : Kept os i) (j : Nat) (hij : i ≤ j) : Kept (os.take j) i := by
  intro k hk hik
  have hkj : k ≤ j := Nat.le_trans hk (List.length_take_le _ _)
  have hkl : k ≤ os.length := Nat.le_trans hk (List.length_take_le' _ _)
  rw [List.take_take, List.take_take, Nat.min_eq_left hij, Nat.min_eq_left hkj]
  exact h k hkl hik

theorem kept_append (h : i ≤ os.length) :
    Kept (os ++ [o]) i ↔ Kept os i ∧ depth (os.take i) ≤ depth (os ++ [o]) := by
  constructor
  · intro hk
    constructor
    · intro j hj hij
      have := hk j (by simp; omega) hij
      rwa [take_append_of_le h, take_append_of_le hj] at this
    · have := hk (os.length + 1) (by simp) (by omega)
      rwa [take_append_of_le h, take_length_append] at this
  · rintro ⟨hk, hlast⟩ j hj hij
    rw [take_append_of_le h]
    rcases Nat.lt_or_ge os.length j with hjl | hjl
    · obtain rfl : j = os.length + 1 := by simp at hj; omega
      rwa [take_length_append]
    · rw [take_append_of_le hjl]
      exact hk j hjl hij

/-- A scope that has not been closed is at most as deep as the one in front. -/
theorem Kept.le_depth (h : Kept os i) (hi : i ≤ os.length) : depth (os.take i) ≤ depth os := by
  simpa using h os.length (Nat.le_refl _) hi

/-- What the last operation adds goes to the scope in front. -/
theorem entries_append (hd : d ≤ depth (os ++ [o])) : entries (os ++ [o]) d =
    entries os d ++ if depth os = d then (added? (os ++ [o]) os.length).toList else [] := by
  have hlast : Kept (os ++ [o]) os.length ↔ depth os ≤ depth (os ++ [o]) := by
    rw [kept_append (Nat.le_refl _), List.take_length]
    refine and_iff_right fun j hj hlj => ?_
    obtain rfl : j = os.length := Nat.le_antisymm hj hlj
    exact Nat.le_refl _
  unfold entries
  rw [List.length_append, List.length_singleton, List.range_succ, List.filterMap_append]
  congr 1
  · refine List.filterMap_congr fun i hi => ?_
    have hi := List.mem_range.1 hi
    rw [take_append_of_le (Nat.le_of_lt hi), added?_append hi]
    refine if_congr (and_congr_right fun hid => ?_) rfl rfl
    rw [kept_append (Nat.le_of_lt hi)]
    exact and_iff_left (hid ▸ hd)
  · rw [List.filterMap_cons, List.filterMap_nil, take_append_of_le (Nat.le_refl _),
      List.take_length]
    by_cases hod : depth os = d
    · rw [if_pos ⟨hod, hlast.2 (hod ▸ hd)⟩, if_pos hod]
      cases added? (os ++ [o]) os.length <;> rfl
    · rw [if_neg fun h => hod h.1, if_neg hod]

/-- No scope that is open is deeper than the one in front. -/
theorem entries_eq_nil (hd : depth os < d) : entries os d = [] := by
  refine List.filterMap_eq_nil_iff.2 fun i hi => if_neg ?_
  rintro ⟨rfl, hk⟩
  exact Nat.not_le.2 hd (hk.le_depth (Nat.le_of_lt (List.mem_range.1 hi)))

theorem mem_entries {e : String × β} :
    e ∈ entries os d ↔ ∃ i, added? os i = some e ∧ Kept os i ∧ depth (os.take i) = d := by
  simp only [entries, List.mem_filterMap, List.mem_range]
  constructor
  · rintro ⟨i, -, hi⟩
    split at hi
    · next h => exact ⟨i, hi, h.2, h.1⟩
    · cases hi
  · rintro ⟨i, hadd, hk, hd⟩
    exact ⟨i, lt_length_of_added? hadd, (if_pos ⟨hd, hk⟩).trans hadd⟩

theorem added?_last : added? (os ++ [o]) os.length = match o with
    | .add (some name) (some b) =>
      if ((after os).add (some name) (some b)).isOk then some (name, b) else none
    | _ => none := by
  unfold added?
  rw [List.getElem?_concat_length, take_append_of_le (Nat.le_refl _), List.take_length]
  cases o with
  | add name b => cases name <;> cases b <;> rfl
  | _ => rfl

theorem map_reverse_range_succ {α : Type} (f : Nat → α) (n : Nat) :
    (List.range (n + 1)).reverse.map f = f n :: (List.range n).reverse.map f := by
  simp [List.range_succ]

/-- If nothing is added, the scopes that stay open hold what they held. -/
theorem liveScopes_append_of_not_added (h : added? (os ++ [o]) os.length = none) :
    liveScopes (os ++ [o]) =
      (List.range (depth (os ++ [o]))).reverse.map fun d => entries os (d + 1) := by
  refine List.map_congr_left fun d hd => ?_
  rw [entries_append (List.mem_range.1 (List.mem_reverse.1 hd)), h]
  simp

end History

/-! ### Refusals -/

/-- A name that is not empty and a binding are given. -/
def Given (name : Option String) (b : Option β) : Prop := (∃ n ∈ name, n ≠ "") ∧ b.isSome

/-- Something that has to be given is missing. -/
def IsWrongArgument (e : TableError) : Prop := e = .nothingGiven ∨ e = .noName ∨ e = .noBinding

section Refusals

variable {t : SymbolTable β} {o : Operation β}

/-- What is missing, or what stands in the way, or what is added. -/
theorem add_cases (t : SymbolTable β) (name : Option String) (b : Option β) :
    (¬Given name b ∧ ∃ e, t.add name b = .error e ∧ IsWrongArgument e) ∨
    ∃ n c, name = some n ∧ n ≠ "" ∧ b = some c ∧
      (t.scopes = [] ∧ t.add name b = .error .noScopes ∨
      ∃ s rest, t.scopes = s :: rest ∧
        ((s.lookup n).isSome ∧ t.add name b = .error (.duplicate n) ∨
        s.lookup n = none ∧ t.add name b = .ok ⟨(s ++ [(n, c)]) :: rest, t.marked⟩)) := by
  by_cases hn : ∃ n ∈ name, n ≠ ""
  · obtain ⟨n, rfl, hn⟩ := hn
    have hfilter : (some n).filter (· ≠ "") = some n := Option.filter_some_pos (by simpa using hn)
    cases b with
    | none => exact .inl ⟨fun h => (Bool.false_ne_true h.2).elim,
        .noBinding, by simp only [add, hfilter], .inr (.inr rfl)⟩
    | some c =>
      refine .inr ⟨n, c, rfl, hn, rfl, ?_⟩
      cases hs : t.scopes with
      | nil => exact .inl ⟨rfl, by simp only [add, hfilter, hs]⟩
      | cons s rest =>
        refine .inr ⟨s, rest, rfl, ?_⟩
        cases hl : s.lookup n with
        | none => exact .inr ⟨rfl, by simp only [add, hfilter, hs, hl, Option.isSome_none,
          Bool.false_eq_true, if_false]⟩
        | some d =>
          exact .inl ⟨rfl, by simp only [add, hfilter, hs, hl, Option.isSome_some, if_true]⟩
  · have hfilter : name.filter (· ≠ "") = none := by
      rw [Option.filter_eq_none_iff]
      intro n hmem hne
      exact hn ⟨n, hmem, by simpa using hne⟩
    refine .inl ⟨fun h => hn h.1, ?_⟩
    cases b with
    | none => exact ⟨.nothingGiven, by simp only [add, hfilter], .inl rfl⟩
    | some c => exact ⟨.noName, by simp only [add, hfilter], .inr (.inl rfl)⟩

theorem step_of_error {e : TableError} (h : o.run t = .error e) : step t o = t := by
  rw [step, h]

end Refusals

open History

/-! ### The table agrees with its history -/

variable {os : List (Operation β)} {o : Operation β} {t : SymbolTable β}

/-- What is added goes to the scope in front, and is refused if there is none. -/
theorem scopes_add (os : List (Operation β)) (name : Option String) (b : Option β)
    (ih : (after os).scopes = liveScopes os) :
    (step (after os) (.add name b)).scopes = liveScopes (os ++ [.add name b]) := by
  have refused : ∀ e, (after os).add name b = .error e →
      (step (after os) (.add name b)).scopes = liveScopes (os ++ [.add name b]) := by
    intro e he
    rw [step_of_error (o := .add name b) he, ih, liveScopes_append_of_not_added, depth_append]
    · rfl
    · rw [added?_last]
      split <;> simp_all [Except.isOk, Except.toBool]
  obtain ⟨-, e, he, -⟩ | ⟨n, c, rfl, -, rfl, ⟨-, he⟩ | ⟨s, rest, hs, ⟨-, he⟩ | ⟨-, hadd⟩⟩⟩ :=
    add_cases (after os) name b
  · exact refused _ he
  · exact refused _ he
  · exact refused _ he
  · -- What is accepted goes behind the entries of the scope in front; the others stay.
    have hdepth : depth (os ++ [.add (some n) (some c)]) = depth os := depth_append
    have hadded : added? (os ++ [.add (some n) (some c)]) os.length = some (n, c) := by
      rw [added?_last]
      simp [hadd, Except.isOk, Except.toBool]
    rw [step, run, hadd]
    show (s ++ [(n, c)]) :: rest = _
    rw [ih] at hs
    unfold liveScopes at hs ⊢
    cases hd : depth os with
    | zero => simp [hd] at hs
    | succ k =>
      rw [hdepth, hd, map_reverse_range_succ]
      rw [hd, map_reverse_range_succ] at hs
      obtain ⟨rfl, rfl⟩ := List.cons.inj hs
      congr 1
      · rw [entries_append (by omega), hadded, if_pos hd]
        rfl
      · refine List.map_congr_left fun d hmem => ?_
        have := List.mem_range.1 (List.mem_reverse.1 hmem)
        rw [entries_append (by omega), if_neg (by omega), List.append_nil]

/-- The open scopes of a table are those of its history. -/
theorem scopes_after (os : List (Operation β)) : (after os).scopes = liveScopes os := by
  induction os using List.reverseRecOn with
  | nil => rfl
  | append_singleton os o ih =>
    rw [after_append]
    cases o with
    | push =>
      rw [liveScopes_append_of_not_added added?_last, depth_append]
      simp only [map_reverse_range_succ, entries_eq_nil (Nat.lt_succ_self _)]
      exact congrArg _ ih
    | pop =>
      rw [liveScopes_append_of_not_added added?_last, depth_append]
      unfold liveScopes at ih
      simp only [step, run, pop]
      cases hd : depth os with
      | zero =>
        rw [hd] at ih
        rw [ih]
        exact ih
      | succ d =>
        rw [hd, map_reverse_range_succ] at ih
        rw [ih]
        rfl
    | add name b => exact scopes_add os name b ih
    | mark | lookupLocal | lookupGlobal =>
      rw [liveScopes_append_of_not_added added?_last, depth_append]
      exact ih

theorem size_after (os : List (Operation β)) : (after os).size = depth os := by
  simp [size, scopes_after, liveScopes]

theorem liveScopes_of_depth_pos (h : 0 < depth os) :
    ∃ rest, liveScopes os = entries os (depth os) :: rest := by
  unfold liveScopes
  cases hd : depth os with
  | zero => omega
  | succ d => exact ⟨_, map_reverse_range_succ _ d⟩

/-- A name is only added to a scope that does not have it. -/
theorem free_of_added? {n : String} {b : β} (h : added? os i = some (n, b)) :
    0 < depth (os.take i) ∧ (entries (os.take i) (depth (os.take i))).lookup n = none := by
  unfold added? at h
  split at h
  · next name c _ =>
    split at h
    · next hok =>
      obtain ⟨rfl, rfl⟩ := Prod.mk.inj (Option.some.inj h)
      obtain ⟨-, e, he, -⟩ | ⟨n, c, hn, -, -, ⟨-, he⟩ | ⟨s, rest, hs, ⟨-, he⟩ | ⟨hfree, -⟩⟩⟩ :=
        add_cases (after (os.take i)) (some name) (some c)
      all_goals try { rw [he] at hok; cases hok }
      obtain rfl := Option.some.inj hn
      have hpos : 0 < depth (os.take i) := by
        rw [← size_after, size, hs]
        exact Nat.succ_pos _
      obtain ⟨rest', hlive⟩ := liveScopes_of_depth_pos hpos
      rw [scopes_after, hlive] at hs
      obtain ⟨rfl, -⟩ := List.cons.inj hs
      exact ⟨hpos, hfree⟩
    · cases h
  · cases h

/-- A scope is not given the same name twice. -/
theorem depth_ne_of_added? {n : String} {b c : β} (hi : added? os i = some (n, b))
    (hj : added? os j = some (n, c)) (hij : i < j) (hk : Kept os i) :
    depth (os.take i) ≠ depth (os.take j) := by
  intro hd
  have hmem : (n, b) ∈ entries (os.take j) (depth (os.take j)) := by
    refine mem_entries.2 ⟨i, (added?_take hij).trans hi, hk.take j (Nat.le_of_lt hij), ?_⟩
    rwa [List.take_take, Nat.min_eq_left (Nat.le_of_lt hij)]
  have := List.lookup_eq_none_iff.1 (free_of_added? hj).2 _ hmem
  simp at this

/-- Of two times at which a name was added, the later one has the deeper scope. -/
theorem depth_lt_of_added? {n : String} {b c : β} (hi : added? os i = some (n, b))
    (hj : added? os j = some (n, c)) (hij : i < j) (hk : Kept os i) :
    depth (os.take i) < depth (os.take j) :=
  Nat.lt_of_le_of_ne (hk j (Nat.le_of_lt (lt_length_of_added? hj)) (Nat.le_of_lt hij))
    (depth_ne_of_added? hi hj hij hk)

theorem nodup_entries (os : List (Operation β)) (d : Nat) :
    ((entries os d).map Prod.fst).Nodup := by
  unfold entries
  rw [List.Nodup, List.pairwise_map, List.pairwise_filterMap]
  refine List.pairwise_lt_range.imp fun hij e he e' he' heq => ?_
  split at he
  · next hi =>
    split at he'
    · next hj =>
      obtain ⟨n, b⟩ := e
      obtain ⟨n', c⟩ := e'
      obtain rfl : n = n' := heq
      exact depth_ne_of_added? he he' hij hi.2 (hi.1.trans hj.1.symm)
    · cases he'
  · cases he

theorem lookup_entries {n : String} {b : β} : (entries os d).lookup n = some b ↔
    ∃ i, added? os i = some (n, b) ∧ Kept os i ∧ depth (os.take i) = d := by
  constructor
  · intro h
    obtain ⟨l, r, heq, -⟩ := List.lookup_eq_some_iff.1 h
    exact mem_entries.1 (heq ▸ by simp)
  · intro h
    obtain ⟨l, r, heq⟩ := List.append_of_mem (mem_entries.2 h)
    refine List.lookup_eq_some_iff.2 ⟨l, r, heq, fun p hp => ?_⟩
    have hnodup := nodup_entries os d
    rw [heq, List.map_append, List.map_cons, List.nodup_append] at hnodup
    have := hnodup.2.2 p.1 (List.mem_map_of_mem hp) n (List.mem_cons_self ..)
    simpa using Ne.symm this

/-! ### What is seen -/

theorem lookupLocal_after (os : List (Operation β)) (n : String) :
    (after os).lookupLocal n = (entries os (depth os)).lookup n := by
  rw [lookupLocal, scopes_after]
  rcases Nat.eq_zero_or_pos (depth os) with hd | hd
  · have hempty : (entries os (depth os)).lookup n = none := by
      refine Option.eq_none_iff_forall_ne_some.2 fun b hb => ?_
      obtain ⟨i, hadd, -, hi⟩ := lookup_entries.1 hb
      exact absurd (free_of_added? hadd).1 (by omega)
    rw [hempty, liveScopes, hd]
    rfl
  · obtain ⟨rest, hlive⟩ := liveScopes_of_depth_pos hd
    rw [hlive]
    rfl

theorem lookupLocal_after_eq_some {n : String} {b : β} : (after os).lookupLocal n = some b ↔
    LatestAdd os (fun i => Kept os i ∧ depth (os.take i) = depth os) n b := by
  rw [lookupLocal_after, lookup_entries]
  constructor
  · rintro ⟨i, hadd, hk, hd⟩
    refine ⟨i, hadd, ⟨hk, hd⟩, fun j c hij hj hP => ?_⟩
    exact depth_ne_of_added? hadd hj hij hk (hd.trans hP.2.symm)
  · rintro ⟨i, hadd, ⟨hk, hd⟩, -⟩
    exact ⟨i, hadd, hk, hd⟩

theorem lookupLocal_after_eq_none {n : String} : (after os).lookupLocal n = none ↔
    ∀ i b, added? os i = some (n, b) → ¬(Kept os i ∧ depth (os.take i) = depth os) := by
  rw [lookupLocal_after, Option.eq_none_iff_forall_ne_some]
  simp only [ne_eq, lookup_entries, not_exists, not_and]
  exact forall_comm

theorem lookupGlobal_after_eq_none {n : String} : (after os).lookupGlobal n = none ↔
    ∀ i b, added? os i = some (n, b) → ¬Kept os i := by
  rw [lookupGlobal, scopes_after, List.findSome?_eq_none_iff]
  constructor
  · intro h i b hadd hk
    have hpos := (free_of_added? hadd).1
    have hle := hk.le_depth (Nat.le_of_lt (lt_length_of_added? hadd))
    have hnone := h (entries os (depth (os.take i))) (List.mem_map.2
      ⟨depth (os.take i) - 1, by simp; omega, by rw [Nat.sub_add_cancel hpos]⟩)
    rw [lookup_entries.2 ⟨i, hadd, hk, rfl⟩] at hnone
    cases hnone
  · intro h s hs
    obtain ⟨d, -, rfl⟩ := List.mem_map.1 hs
    refine Option.eq_none_iff_forall_ne_some.2 fun b hb => ?_
    obtain ⟨i, hadd, hk, -⟩ := lookup_entries.1 hb
    exact h i b hadd hk

/-- What is found is found in the innermost scope that has it. -/
theorem exists_of_lookupGlobal {n : String} {b : β} (h : (after os).lookupGlobal n = some b) :
    ∃ d, (entries os d).lookup n = some b ∧
      ∀ e, d < e → e ≤ depth os → (entries os e).lookup n = none := by
  rw [lookupGlobal, scopes_after, liveScopes] at h
  generalize depth os = k at h ⊢
  induction k with
  | zero => simp at h
  | succ k ih =>
    rw [map_reverse_range_succ, List.findSome?_cons] at h
    cases hk : (entries os (k + 1)).lookup n with
    | some c =>
      rw [hk] at h
      exact ⟨k + 1, hk.trans h, fun e hlt hle => absurd hle (by omega)⟩
    | none =>
      rw [hk] at h
      obtain ⟨d, hd, hnone⟩ := ih h
      refine ⟨d, hd, fun e hlt hle => ?_⟩
      rcases Nat.lt_or_eq_of_le hle with hle | rfl
      · exact hnone e hlt (by omega)
      · exact hk

theorem LatestAdd.unique {P : Nat → Prop} {n : String} {b c : β} (hb : LatestAdd os P n b)
    (hc : LatestAdd os P n c) : b = c := by
  obtain ⟨i, hi, hPi, hlatei⟩ := hb
  obtain ⟨j, hj, hPj, hlatej⟩ := hc
  rcases Nat.lt_trichotomy i j with hij | rfl | hji
  · exact absurd hPj (hlatei j c hij hj)
  · exact congrArg Prod.snd (Option.some.inj (hi.symm.trans hj))
  · exact absurd hPi (hlatej i b hji hi)

theorem latestAdd_of_lookupGlobal {n : String} {b : β}
    (h : (after os).lookupGlobal n = some b) : LatestAdd os (Kept os) n b := by
  obtain ⟨d, hd, hnone⟩ := exists_of_lookupGlobal h
  obtain ⟨i, hadd, hk, rfl⟩ := lookup_entries.1 hd
  refine ⟨i, hadd, hk, fun j c hij hj hkj => ?_⟩
  have hle := hkj.le_depth (Nat.le_of_lt (lt_length_of_added? hj))
  have := hnone _ (depth_lt_of_added? hadd hj hij hk) hle
  rw [lookup_entries.2 ⟨j, hj, hkj, rfl⟩] at this
  cases this

theorem lookupGlobal_after_eq_some {n : String} {b : β} :
    (after os).lookupGlobal n = some b ↔ LatestAdd os (Kept os) n b := by
  refine ⟨latestAdd_of_lookupGlobal, fun h => ?_⟩
  cases hl : (after os).lookupGlobal n with
  | some c => rw [LatestAdd.unique (latestAdd_of_lookupGlobal hl) h]
  | none =>
    obtain ⟨i, hadd, hk, -⟩ := h
    exact absurd hk (lookupGlobal_after_eq_none.1 hl i b hadd)

example : (after [.add (some "x") (some 1), .push, .add (some "x") (some 2), .pop, .push,
    .add none (some 3)]).lookupGlobal "x" = some 1 := by decide

/-! ### What is counted -/

theorem closings_append : closings (os ++ [o]) =
    closings os + if o.isPop && (after os).pop.isOk then 1 else 0 := by
  unfold closings
  rw [List.length_append, List.length_singleton, List.range_succ, List.countP_append,
    List.countP_singleton, List.getElem?_concat_length, take_append_of_le (Nat.le_refl _),
    List.take_length]
  congr 1
  refine List.countP_congr fun i hi => ?_
  have hi := List.mem_range.1 hi
  rw [List.getElem?_append_left hi, take_append_of_le (Nat.le_of_lt hi)]

theorem pop_isOk (t : SymbolTable β) : t.pop.isOk = decide (0 < t.size) := by
  unfold pop size
  cases t.scopes <;> simp [Except.isOk, Except.toBool]

theorem size_add_closings (os : List (Operation β)) :
    (after os).size + closings os = 1 + os.countP isPush := by
  rw [size_after]
  induction os using List.reverseRecOn with
  | nil => rfl
  | append_singleton os o ih =>
    rw [closings_append, depth_append, List.countP_append, List.countP_singleton, pop_isOk,
      size_after]
    cases o with
    | pop =>
      cases hd : depth os <;> simp [isPop, isPush] <;> omega
    | _ => simp [isPop, isPush]; omega

theorem marked_step (t : SymbolTable β) (o : Operation β) :
    (step t o).marked = true ↔ t.marked = true ∨ o = .mark := by
  cases o with
  | pop =>
    unfold step run pop
    cases t.scopes <;> simp
  | add name b =>
    obtain ⟨-, e, he, -⟩ | ⟨n, c, rfl, -, rfl, ⟨-, he⟩ | ⟨s, rest, -, ⟨-, he⟩ | ⟨-, he⟩⟩⟩ :=
      add_cases t name b
    all_goals simp [step, run, he]
  | _ => simp [step, run, push, mark]

theorem marked_after (os : List (Operation β)) : (after os).marked = true ↔ .mark ∈ os := by
  induction os using List.reverseRecOn with
  | nil => simp [after, new]
  | append_singleton os o ih =>
    rw [after_append, marked_step, ih, List.mem_append, List.mem_singleton]
    exact or_congr_right eq_comm

/-! ### The agreement -/

theorem lookupLocal_of_size_eq_zero (h : t.size = 0) (n : String) : t.lookupLocal n = none := by
  rw [lookupLocal, List.eq_nil_of_length_eq_zero h]
  rfl

theorem pop_eq_error {e : TableError} : t.pop = .error e ↔ t.size = 0 ∧ e = .noScopes := by
  unfold pop size
  cases t.scopes <;> simp [eq_comm]

section Add

variable {name : Option String} {b : Option β} {n : String}

theorem add_wrongArgument :
    (∃ e, t.add name b = .error e ∧ IsWrongArgument e) ↔ ¬Given name b := by
  obtain ⟨hnot, h⟩ | ⟨n, c, rfl, hn, rfl, ⟨-, he⟩ | ⟨s, rest, -, ⟨-, he⟩ | ⟨-, he⟩⟩⟩ :=
    add_cases t name b
  · exact iff_of_true h hnot
  all_goals
    refine iff_of_false ?_ (not_not.2 ⟨⟨n, rfl, hn⟩, rfl⟩)
    simp [he, IsWrongArgument]

theorem add_noScopes : t.add name b = .error .noScopes ↔ Given name b ∧ t.size = 0 := by
  obtain ⟨hnot, e, he, hw⟩ | ⟨n, c, rfl, hn, rfl, ⟨hs, he⟩ | ⟨s, rest, hs, ⟨-, he⟩ | ⟨-, he⟩⟩⟩ :=
    add_cases t name b
  · refine iff_of_false ?_ fun h => hnot h.1
    rcases hw with rfl | rfl | rfl <;> simp [he]
  · exact iff_of_true he ⟨⟨⟨n, rfl, hn⟩, rfl⟩, by rw [size, hs]; rfl⟩
  all_goals
    refine iff_of_false ?_ fun h => ?_
    · simp [he]
    · simp [size, hs] at h

theorem add_duplicate : t.add name b = .error (.duplicate n) ↔
    Given name b ∧ t.size ≠ 0 ∧ name = some n ∧ (t.lookupLocal n).isSome := by
  obtain ⟨hnot, e, he, hw⟩ |
    ⟨m, c, rfl, hm, rfl, ⟨hs, he⟩ | ⟨s, rest, hs, ⟨hl, he⟩ | ⟨hl, he⟩⟩⟩ := add_cases t name b
  · refine iff_of_false ?_ fun h => hnot h.1
    rcases hw with rfl | rfl | rfl <;> simp [he]
  · refine iff_of_false ?_ fun h => ?_
    · simp [he]
    · exact h.2.1 (by rw [size, hs]; rfl)
  · have hgiven : Given (some m) (some c) := ⟨⟨m, rfl, hm⟩, rfl⟩
    have hlocal : t.lookupLocal m = s.lookup m := by rw [lookupLocal, hs]; rfl
    rw [he]
    constructor
    · rintro ⟨⟩
      exact ⟨hgiven, by simp [size, hs], rfl, hlocal ▸ hl⟩
    · rintro ⟨-, -, ⟨⟩, -⟩
      rfl
  · have hlocal : t.lookupLocal m = none := by rw [lookupLocal, hs]; exact hl
    refine iff_of_false ?_ ?_
    · simp [he]
    · rintro ⟨-, -, ⟨⟩, h⟩
      simp [hlocal] at h

end Add

/-- What a table shows and refuses, in terms of the operations it comes from. -/
structure Agrees (os : List (Operation β)) (t : SymbolTable β) : Prop where
  size : t.size + closings os = 1 + os.countP isPush
  lookupGlobal : ∀ n b, t.lookupGlobal n = some b ↔ LatestAdd os (Kept os) n b
  lookupGlobal_none : ∀ n, t.lookupGlobal n = none ↔
    ∀ i b, added? os i = some (n, b) → ¬Kept os i
  /-- Of the times at which the scope in front was in front already. -/
  lookupLocal : ∀ n b, t.lookupLocal n = some b ↔
    LatestAdd os (fun i => Kept os i ∧ depth (os.take i) = depth os) n b
  lookupLocal_none : ∀ n, t.lookupLocal n = none ↔
    ∀ i b, added? os i = some (n, b) → ¬(Kept os i ∧ depth (os.take i) = depth os)
  lookupLocal_of_empty : t.size = 0 → ∀ n, t.lookupLocal n = none
  snapshot : ∀ label, t.snapshot label =
    (liveScopes os).map fun s => s.map fun e => (e.1, label e.2)
  nodup : ∀ s ∈ liveScopes os, (s.map Prod.fst).Nodup
  marked : t.marked = true ↔ .mark ∈ os
  pop : ∀ e, t.pop = .error e ↔ t.size = 0 ∧ e = .noScopes
  wrongArgument : ∀ name b,
    (∃ e, t.add name b = .error e ∧ IsWrongArgument e) ↔ ¬Given name b
  noScopes : ∀ name b, t.add name b = .error .noScopes ↔ Given name b ∧ t.size = 0
  duplicate : ∀ name b n, t.add name b = .error (.duplicate n) ↔
    Given name b ∧ t.size ≠ 0 ∧ name = some n ∧ (t.lookupLocal n).isSome
  refused : ∀ o e, o.run t = .error e → after (os ++ [o]) = t

/-- A table agrees with its history, whatever was asked of it and whatever it refused. -/
theorem agrees_with_history (os : List (Operation β)) : Agrees os (after os) where
  size := size_add_closings os
  lookupGlobal _ _ := lookupGlobal_after_eq_some
  lookupGlobal_none _ := lookupGlobal_after_eq_none
  lookupLocal _ _ := lookupLocal_after_eq_some
  lookupLocal_none _ := lookupLocal_after_eq_none
  lookupLocal_of_empty h n := lookupLocal_of_size_eq_zero h n
  snapshot _ := by rw [SymbolTable.snapshot, scopes_after]
  nodup s hs := by
    obtain ⟨d, -, rfl⟩ := List.mem_map.1 hs
    exact nodup_entries os (d + 1)
  marked := marked_after os
  pop _ := pop_eq_error
  wrongArgument _ _ := add_wrongArgument
  noScopes _ _ := add_noScopes
  duplicate _ _ _ := add_duplicate
  refused o e h := by rw [after_append, step_of_error h]

end Carrot.SymbolTable
