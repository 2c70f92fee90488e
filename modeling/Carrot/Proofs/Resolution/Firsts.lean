import Carrot.Proofs.Scoping

/-! # The first of each name

Names are bound first come, first served: of all parts with one name the first is listed, where it
first occurs. Signatures, formals and fields are lists of this kind.
-/

namespace Carrot

section

variable {α β κ : Type} [DecidableEq κ] {key : α → κ}

/-- The elements of a list that are the first with their key. -/
def firsts (key : α → κ) : List α → List α
  | [] => []
  | x :: xs => x :: (firsts key xs).filter (key · ≠ key x)

theorem mem_map_firsts {xs : List α} {k : κ} : k ∈ (firsts key xs).map key ↔ k ∈ xs.map key := by
  induction xs with
  | nil => rfl
  | cons x xs ih =>
    by_cases hk : k = key x
    · simp [firsts, hk]
    · simp only [List.mem_map] at ih
      simp only [firsts, List.map_cons, List.mem_cons, hk, false_or, List.mem_map, ← ih,
        List.mem_filter, decide_eq_true_eq]
      refine exists_congr fun y => ?_
      constructor
      · rintro ⟨⟨hy, -⟩, hkey⟩
        exact ⟨hy, hkey⟩
      · rintro ⟨hy, rfl⟩
        exact ⟨⟨hy, hk⟩, rfl⟩

theorem firsts_append_singleton (xs : List α) (x : α) :
    firsts key (xs ++ [x]) =
      if key x ∈ xs.map key then firsts key xs else firsts key xs ++ [x] := by
  induction xs with
  | nil => rfl
  | cons y xs ih =>
    rw [List.cons_append, firsts, ih, firsts]
    by_cases hmem : key x ∈ xs.map key
    · rw [if_pos hmem, if_pos (by simp [hmem])]
    · rw [if_neg hmem, List.map_cons, List.filter_append]
      by_cases hxy : key x = key y
      · simp [hxy]
      · rw [if_neg (by simpa [hxy] using hmem)]
        simp [hxy]

/-- An element is listed if none before it has its key. -/
theorem mem_firsts {before : List α} {x : α} (after : List α) (h : ∀ y ∈ before, key y ≠ key x) :
    x ∈ firsts key (before ++ x :: after) := by
  induction before with
  | nil => exact List.mem_cons_self
  | cons y before ih =>
    obtain ⟨hy, h⟩ := List.forall_mem_cons.1 h
    exact List.mem_cons_of_mem _ (List.mem_filter.2 ⟨ih h, by simpa using Ne.symm hy⟩)

theorem mem_of_mem_firsts {xs : List α} {x : α} (h : x ∈ firsts key xs) : x ∈ xs := by
  induction xs with
  | nil => exact h
  | cons y ys ih =>
    rw [firsts, List.mem_cons] at h
    rcases h with rfl | h
    · exact List.mem_cons_self
    · exact List.mem_cons_of_mem _ (ih (List.mem_filter.1 h).1)

/-- No two listed elements have one key. -/
theorem nodup_firsts (key : α → κ) (xs : List α) : ((firsts key xs).map key).Nodup := by
  induction xs using List.reverseRecOn with
  | nil => exact List.nodup_nil
  | append_singleton xs x ih =>
    rw [firsts_append_singleton]
    split
    · exact ih
    · next hmem =>
      rw [List.map_append, List.nodup_append]
      refine ⟨ih, by simp, fun k hk l hl hkl => hmem ?_⟩
      rw [← mem_map_firsts]
      rw [List.map_singleton, List.mem_singleton] at hl
      rwa [← hl, ← hkl]

/-- A list without repeated keys is listed as a whole. -/
theorem firsts_eq_self {xs : List α} (h : (xs.map key).Nodup) : firsts key xs = xs := by
  induction xs using List.reverseRecOn with
  | nil => rfl
  | append_singleton xs x ih =>
    rw [List.map_append, List.nodup_append] at h
    rw [firsts_append_singleton, ih h.1, if_neg]
    exact fun hmem => h.2.2 _ hmem _ (by simp) rfl

theorem firsts_map (f : β → α) (ys : List β) :
    firsts key (ys.map f) = (firsts (fun y => key (f y)) ys).map f := by
  induction ys with
  | nil => rfl
  | cons y ys ih =>
    rw [List.map_cons, firsts, ih, firsts, List.map_cons, List.filter_map]
    rfl

end

/-! ### Scopes and signatures -/

namespace Scope

variable {α : Type} (name : α → String) (f : α → Binding)

/-- The scope that binds the names of a list, each to what the first of the name gives. -/
def ofFirsts (xs : List α) : Scope Binding := (firsts name xs).map fun x => (name x, f x)

theorem map_fst_ofFirsts (xs : List α) :
    (ofFirsts name f xs).map (·.1) = (firsts name xs).map name := by
  rw [ofFirsts, List.map_map]
  rfl

theorem nodup_ofFirsts (xs : List α) : ((ofFirsts name f xs).map (·.1)).Nodup := by
  rw [map_fst_ofFirsts]
  exact nodup_firsts _ _

theorem isSome_lookup_ofFirsts {xs : List α} {n : String} :
    ((ofFirsts name f xs).lookup n).isSome ↔ n ∈ xs.map name := by
  rw [← mem_map_firsts, ← map_fst_ofFirsts name f, List.lookup_isSome_iff, List.mem_map]
  simp only [beq_iff_eq, eq_comm (a := n)]

theorem ofFirsts_append_singleton (xs : List α) (x : α) :
    ofFirsts name f (xs ++ [x]) = (ofFirsts name f xs).insertNew (name x) (f x) := by
  rw [ofFirsts, firsts_append_singleton, insertNew]
  by_cases hmem : name x ∈ xs.map name
  · rw [if_pos hmem, if_pos ((isSome_lookup_ofFirsts name f).2 hmem), ofFirsts]
  · rw [if_neg hmem, if_neg fun h => hmem ((isSome_lookup_ofFirsts name f).1 h), ofFirsts,
      List.map_append, List.map_singleton]

/-- What a name is bound to is given by the first of the name. -/
theorem lookup_ofFirsts (xs : List α) (n : String) :
    (ofFirsts name f xs).lookup n = (xs.find? (name · = n)).map f := by
  induction xs using List.reverseRecOn with
  | nil => rfl
  | append_singleton xs x ih =>
    rw [ofFirsts_append_singleton, Scoping.lookup_insertNew, ih, List.find?_append,
      Option.map_or]
    by_cases hx : name x = n <;> simp [hx]

end Scope

/-- A signature has the first parameter of each name. -/
theorem Param.signature_eq_firsts (ps : List Param) : Param.signature ps = firsts (·.name) ps := by
  induction ps using List.reverseRecOn with
  | nil => rfl
  | append_singleton ps p ih =>
    have hmem : (firsts (·.name) ps).any (·.name == p.name) = true ↔
        p.name ∈ ps.map (·.name) := by
      rw [← mem_map_firsts]
      simp
    rw [signature, List.foldl_append, ← signature, ih, List.foldl_cons, List.foldl_nil, add,
      firsts_append_singleton]
    simp only [hmem]

end Carrot
