import Carrot.Json
import Mathlib.Data.List.Forall2

/-! # JSON values up to order

As a value, an object is what it has under each name; in which order it lists its
members does not matter. Of members with one name the first counts.
-/

namespace Carrot.Json

/-- The values are the same but for the order of members. -/
inductive Same : Json → Json → Prop where
  | null : Same .null .null
  | bool (b : Bool) : Same (.bool b) (.bool b)
  | int (i : Int) : Same (.int i) (.int i)
  | str (s : String) : Same (.str s) (.str s)
  | arr {vs ws : List Json} (h : List.Forall₂ Same vs ws) : Same (.arr vs) (.arr ws)
  | obj {ms ns : List (String × Json)}
      (hnames : ∀ k, (ms.lookup k).isSome = (ns.lookup k).isSome)
      (h : ∀ k v w, ms.lookup k = some v → ns.lookup k = some w → Same v w) :
      Same (.obj ms) (.obj ns)

/-- The names of the members of an object. -/
def names : Json → List String
  | obj ms => ms.map (·.1)
  | _ => []

mutual

theorem Same.refl : ∀ v : Json, Same v v
  | .null => .null
  | .bool b => .bool b
  | .int i => .int i
  | .str s => .str s
  | .arr vs => .arr (Same.refl_items vs)
  | .obj ms => .obj (fun _ => rfl) fun k v w hv hw => by
    cases hv.symm.trans hw
    exact Same.refl_members ms k v hv

theorem Same.refl_items : ∀ vs : List Json, List.Forall₂ Same vs vs
  | [] => .nil
  | v :: vs => .cons (Same.refl v) (Same.refl_items vs)

theorem Same.refl_members : ∀ (ms : List (String × Json)) (k : String) (v : Json),
    ms.lookup k = some v → Same v v
  | (l, w) :: ms, k, v, h => by
    rw [List.lookup_cons] at h
    split at h
    · cases h
      exact Same.refl w
    · exact Same.refl_members ms k v h

end

section

variable {v w : Json} {vs ws : List Json} {ms ns : List (String × Json)} {k : String}

@[simp] theorem same_int {i j : Int} : Same (.int i) (.int j) ↔ i = j :=
  ⟨fun h => by cases h; rfl, fun h => h ▸ .int i⟩

@[simp] theorem same_str {s t : String} : Same (.str s) (.str t) ↔ s = t :=
  ⟨fun h => by cases h; rfl, fun h => h ▸ .str s⟩

@[simp] theorem same_arr : Same (.arr vs) (.arr ws) ↔ List.Forall₂ Same vs ws :=
  ⟨fun h => by cases h; assumption, .arr⟩

@[simp] theorem not_same_int_str {i : Int} {s : String} : ¬Same (.int i) (.str s) := nofun

@[simp] theorem not_same_str_int {i : Int} {s : String} : ¬Same (.str s) (.int i) := nofun

@[simp] theorem not_same_null_obj : ¬Same .null (.obj ms) := nofun

@[simp] theorem not_same_obj_null : ¬Same (.obj ms) .null := nofun

theorem lookup_cons_of_ne {l : String} (h : l ≠ k) :
    ((k, v) :: ms).lookup l = ms.lookup l := by
  rw [List.lookup_cons, beq_false_of_ne h]

/-- Objects that start with a member of the same name. -/
theorem same_cons (hm : ms.lookup k = none) (hn : ns.lookup k = none) :
    Same (.obj ((k, v) :: ms)) (.obj ((k, w) :: ns)) ↔ Same v w ∧ Same (.obj ms) (.obj ns) := by
  constructor
  · intro hsame
    cases hsame with
    | obj hnames h =>
      refine ⟨h k v w List.lookup_cons_self List.lookup_cons_self, .obj (fun l => ?_) ?_⟩
      · by_cases hl : l = k
        · rw [hl, hm, hn]
        · have hl' := hnames l
          rwa [lookup_cons_of_ne hl, lookup_cons_of_ne hl] at hl'
      · intro l v' w' hv hw
        have hl : l ≠ k := by
          rintro rfl
          cases hm.symm.trans hv
        exact h l v' w' (by rwa [lookup_cons_of_ne hl]) (by rwa [lookup_cons_of_ne hl])
  · rintro ⟨hvw, hrest⟩
    cases hrest with
    | obj hnames h =>
      refine .obj (fun l => ?_) fun l v' w' hv hw => ?_
      · by_cases hl : l = k
        · rw [hl, List.lookup_cons_self, List.lookup_cons_self]
          rfl
        · rw [lookup_cons_of_ne hl, lookup_cons_of_ne hl]
          exact hnames l
      · by_cases hl : l = k
        · rw [hl, List.lookup_cons_self] at hv hw
          cases hv
          cases hw
          exact hvw
        · rw [lookup_cons_of_ne hl] at hv hw
          exact h l v' w' hv hw

@[simp] theorem same_singleton : Same (.obj [(k, v)]) (.obj [(k, w)]) ↔ Same v w := by
  rw [same_cons List.lookup_nil List.lookup_nil]
  exact and_iff_left (.refl _)

theorem same_pair {k l : String} {v v' w w' : Json} (hkl : k ≠ l) :
    Same (.obj [(k, v), (l, v')]) (.obj [(k, w), (l, w')]) ↔ Same v w ∧ Same v' w' := by
  have hnone (u : Json) : [(l, u)].lookup k = none := by
    rw [lookup_cons_of_ne hkl, List.lookup_nil]
  rw [same_cons (hnone v') (hnone w'), same_singleton]

theorem same_triple {k l m : String} {v v' v'' w w' w'' : Json} (hkl : k ≠ l) (hkm : k ≠ m)
    (hlm : l ≠ m) :
    Same (.obj [(k, v), (l, v'), (m, v'')]) (.obj [(k, w), (l, w'), (m, w'')]) ↔
      Same v w ∧ Same v' w' ∧ Same v'' w'' := by
  have hnone (u u' : Json) : [(l, u), (m, u')].lookup k = none := by
    rw [lookup_cons_of_ne hkl, lookup_cons_of_ne hkm, List.lookup_nil]
  rw [same_cons (hnone v' v'') (hnone w' w''), same_pair hlm]

/-- The same values have members of the same names. -/
theorem Same.mem_names (h : Same v w) : k ∈ v.names ↔ k ∈ w.names := by
  have hlookup (ms : List (String × Json)) : k ∈ ms.map (·.1) ↔ (ms.lookup k).isSome := by
    rw [List.lookup_isSome_iff, List.mem_map]
    simp only [beq_iff_eq, eq_comm (a := k)]
  cases h with
  | obj hnames => rw [names, names, hlookup, hlookup, hnames]
  | null | bool | int | str | arr => exact Iff.rfl

/-- Among lists of names that differ by more than order, the same values have the same one. -/
theorem Same.names_eq (h : Same v w) (all : List (List String))
    (hall : ∀ ks ∈ all, ∀ ls ∈ all, ks ⊆ ls → ls ⊆ ks → ks = ls) (hv : v.names ∈ all)
    (hw : w.names ∈ all) : v.names = w.names :=
  hall _ hv _ hw (fun _ => h.mem_names.1) fun _ => h.mem_names.2

/-- Two lists that are written with the same values agree in all that a value tells. -/
theorem map_eq_of_same {α β : Type} {f g : α → Json} {tell : α → β}
    (hf : ∀ {a b}, (f a).Same (g b) → tell a = tell b) {as bs : List α}
    (h : List.Forall₂ Same (as.map f) (bs.map g)) : as.map tell = bs.map tell := by
  induction as generalizing bs with
  | nil =>
    cases bs with
    | nil => rfl
    | cons b bs => cases h
  | cons a as ih =>
    cases bs with
    | nil => cases h
    | cons b bs =>
      rw [List.map_cons, List.map_cons, List.forall₂_cons] at h
      rw [List.map_cons, List.map_cons, hf h.1, ih h.2]

end

end Carrot.Json
