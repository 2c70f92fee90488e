import Carrot.Proofs.Resolution.Resolved
import Carrot.Resolution.Expr
import Mathlib.Data.List.Induction

/-! # Chains of dots

A chain is a name with fields behind dots. It is resolved from left to right: each name
is looked up in the struct of the one before, up to the first that fails. The names behind
that one are left alone, and at most one thing is found.
-/

namespace Carrot

/-- The name `x` and the fields `fs`, each behind a dot. -/
def Expr.chain (x : Ident) (fs : List Ident) : Expr := fs.foldl .dot (.ident x)

theorem Expr.chain_append (x : Ident) (fs : List Ident) (f : Ident) :
    chain x (fs ++ [f]) = .dot (chain x fs) f := List.foldl_append

/-- The name with the binding noted on it. -/
def Ident.bound (e : Ident × Binding) : Ident := { e.1 with binding := some e.2 }

namespace Names

/-- Each name stands for the binding beside it: the first one among the scopes, and any other in
the struct of the one before. -/
inductive StandFor (n : Names) : List (Ident × Binding) → Prop where
  | nil : n.StandFor []
  | name {x : Ident} {b : Binding} (h : n.table.lookupGlobal x.name = some b) :
      n.StandFor [(x, b)]
  | field {front : List (Ident × Binding)} {y f : Ident} {b g : Binding} {decl : Option StructRef}
      {id : Nat} (h : n.StandFor (front ++ [(y, b)])) (hrole : b.role = .instanceOf decl)
      (hstruct : n.structOf? b.label decl = some id) (hfield : n.fields.lookup id f.name = some g) :
      n.StandFor (front ++ [(y, b)] ++ [(f, g)])

/-- How a chain ends whose first names are bound as `ps` lists them and whose other names are
`rest`: the hint that it gives, and what is found. It can end without a word only at the field of a
struct, if `Known` holds of the field and its binding. -/
inductive ChainEnds (n : Names) (Known : Ident → Binding → Prop) :
    List (Ident × Binding) → List Ident → Hint → List Diagnostic → Prop where
  | instanceOf {front : List (Ident × Binding)} {y : Ident} {b : Binding} {decl : Option StructRef}
      (hrole : b.role = .instanceOf decl) :
      n.ChainEnds Known (front ++ [(y, b)]) [] (.struct b decl) []
  | value {front : List (Ident × Binding)} {y : Ident} {b : Binding} (hrole : ¬b.IsInstance) :
      n.ChainEnds Known (front ++ [(y, b)]) [] (.plain y.position) []
  | undeclared {x : Ident} {rest : List Ident} (h : n.table.lookupGlobal x.name = none) :
      n.ChainEnds Known [] (x :: rest) .nothing [.error x.position .undeclared]
  | invalidField {front : List (Ident × Binding)} {y f : Ident} {b : Binding}
      {decl : Option StructRef} {id : Nat} {rest : List Ident} (hrole : b.role = .instanceOf decl)
      (hstruct : n.structOf? b.label decl = some id) (hfield : n.fields.lookup id f.name = none) :
      n.ChainEnds Known (front ++ [(y, b)]) (f :: rest) .nothing
        [.error f.position .invalidStructField]
  | nonStruct {front : List (Ident × Binding)} {y f : Ident} {b : Binding} {rest : List Ident}
      (hrole : ¬b.IsInstance) :
      n.ChainEnds Known (front ++ [(y, b)]) (f :: rest) .nothing
        [.error y.position .dotAccessNonStruct]
  | unknown {front : List (Ident × Binding)} {y f : Ident} {b : Binding} {rest : List Ident}
      (hfront : front ≠ []) (hdeclared : b.role = .instanceOf none)
      (hnow : (n.table.lookupGlobal b.label).bind (·.structRef?) = none) (hknown : Known y b) :
      n.ChainEnds Known (front ++ [(y, b)]) (f :: rest) .nothing []

variable {n : Names} {Known : Ident → Binding → Prop} {ps : List (Ident × Binding)} {x : Ident}
  {rest : List Ident} {hint : Hint} {found : List Diagnostic}

/-- What a name of a chain stands for was found among the scopes or in the struct of the name in
front of it. -/
theorem StandFor.last {front : List (Ident × Binding)} {y : Ident} {b : Binding}
    (h : n.StandFor (front ++ [(y, b)])) :
    (front = [] ∧ n.table.lookupGlobal y.name = some b) ∨
      ∃ before z d decl id, front = before ++ [(z, d)] ∧ n.StandFor front ∧
        d.role = .instanceOf decl ∧ n.structOf? d.label decl = some id ∧
        n.fields.lookup id y.name = some b := by
  generalize hps : front ++ [(y, b)] = ps at h
  cases h with
  | nil => simp at hps
  | name h =>
    obtain ⟨rfl, heq⟩ := List.append_inj' (hps.trans (List.nil_append _).symm) rfl
    cases heq
    exact .inl ⟨rfl, h⟩
  | @field before z _ d _ decl id h hrole hstruct hfield =>
    obtain ⟨rfl, heq⟩ := List.append_inj' hps rfl
    cases heq
    exact .inr ⟨before, z, d, decl, id, rfl, h, hrole, hstruct, hfield⟩

theorem ChainEnds.mono {Q : Ident → Binding → Prop} (h : n.ChainEnds Known ps rest hint found)
    (hQ : ∀ {y b}, Known y b → Q y b) : n.ChainEnds Q ps rest hint found := by
  cases h with
  | instanceOf hrole => exact .instanceOf hrole
  | value hrole => exact .value hrole
  | undeclared h => exact .undeclared h
  | invalidField hrole hstruct hfield => exact .invalidField hrole hstruct hfield
  | nonStruct hrole => exact .nonStruct hrole
  | unknown hfront hdeclared hnow hknown => exact .unknown hfront hdeclared hnow (hQ hknown)

theorem ChainEnds.length_found_le (h : n.ChainEnds Known ps rest hint found) :
    found.length ≤ 1 := by
  cases h <;> simp

/-- A chain that has failed gives no hint, and more fields behind it make no difference. -/
theorem ChainEnds.append (h : n.ChainEnds Known ps (x :: rest) hint found) (fs : List Ident) :
    hint = .nothing ∧ n.ChainEnds Known ps (x :: (rest ++ fs)) .nothing found := by
  cases h with
  | undeclared h => exact ⟨rfl, .undeclared h⟩
  | invalidField hrole hstruct hfield => exact ⟨rfl, .invalidField hrole hstruct hfield⟩
  | nonStruct hrole => exact ⟨rfl, .nonStruct hrole⟩
  | unknown hfront hdeclared hnow hknown => exact ⟨rfl, .unknown hfront hdeclared hnow hknown⟩

/-! ### One field -/

section Field

variable {b g : Binding} {decl : Option StructRef} {id : Nat} {f : Ident}

/-- An instance without a struct is one that was checked against none, and whose type names none
here. -/
theorem structOf?_eq_none {label : String} (h : n.structOf? label decl = none) :
    decl = none ∧ (n.table.lookupGlobal label).bind (·.structRef?) = none := by
  unfold structOf? at h
  split at h
  · cases h
  · next hnow => exact ⟨Option.map_eq_none_iff.1 h, hnow⟩

theorem field_of_unknown (hstruct : n.structOf? b.label decl = none) :
    n.field (.struct b decl) f = .silent f := by
  simp only [Names.field, hstruct]

theorem field_of_invalid (hstruct : n.structOf? b.label decl = some id)
    (hfield : n.fields.lookup id f.name = none) :
    n.field (.struct b decl) f = ⟨f, .nothing, [.error f.position .invalidStructField]⟩ := by
  simp only [Names.field, hstruct, hfield]

theorem field_of_some (hstruct : n.structOf? b.label decl = some id)
    (hfield : n.fields.lookup id f.name = some g) :
    n.field (.struct b decl) f = ⟨.bound (f, g), .ofBinding g f.position, []⟩ := by
  simp only [Names.field, hstruct, hfield, Ident.bound]

end Field

theorem chainEnds_ofBinding (front : List (Ident × Binding)) (y : Ident) (b : Binding) :
    n.ChainEnds Known (front ++ [(y, b)]) [] (.ofBinding b y.position) [] := by
  unfold Hint.ofBinding
  split
  · next decl hrole => exact .instanceOf hrole
  · next hrole => exact .value fun ⟨decl, h⟩ => hrole decl h

/-! ### Chains -/

/-- One more field goes on with a chain that is resolved to its end, and adds nothing to one that
has failed. -/
theorem ChainEnds.field (hstand : n.StandFor ps) (h : n.ChainEnds Known ps rest hint found)
    (hknown : ∀ {front y b}, n.StandFor (front ++ [(y, b)]) → b.role = .instanceOf none →
      (n.table.lookupGlobal b.label).bind (·.structRef?) = none → front ≠ [] ∧ Known y b)
    (f : Ident) :
    ∃ qs rest', ps.map (·.1) ++ rest ++ [f] = qs.map (·.1) ++ rest' ∧
      ps.map .bound ++ rest ++ [(n.field hint f).node] = qs.map .bound ++ rest' ∧
      n.StandFor qs ∧
      n.ChainEnds Known qs rest' (n.field hint f).hint (found ++ (n.field hint f).found) := by
  -- Whether the chain has failed shows in the names that are left.
  cases rest with
  | cons x rest =>
    obtain ⟨rfl, hends⟩ := h.append [f]
    exact ⟨ps, x :: (rest ++ [f]), by simp, by simp [Names.field, Resolved.silent], hstand,
      by simpa [Names.field, Resolved.silent] using hends⟩
  | nil =>
    cases h with
    | value hrole => exact ⟨_, [f], by simp, by simp [Names.field], hstand, .nonStruct hrole⟩
    | @instanceOf front y b decl hrole =>
      cases hstruct : n.structOf? b.label decl with
      | none =>
        obtain ⟨rfl, hnow⟩ := structOf?_eq_none hstruct
        obtain ⟨hfront, hyb⟩ := hknown hstand hrole hnow
        rw [field_of_unknown hstruct]
        exact ⟨_, [f], by simp, by simp [Resolved.silent], hstand, .unknown hfront hrole hnow hyb⟩
      | some id =>
        cases hfield : n.fields.lookup id f.name with
        | none =>
          rw [field_of_invalid hstruct hfield]
          exact ⟨_, [f], by simp, by simp, hstand, .invalidField hrole hstruct hfield⟩
        | some g =>
          rw [field_of_some hstruct hfield]
          exact ⟨_, [], by simp, by simp, .field hstand hrole hstruct hfield,
            chainEnds_ofBinding (front ++ [(y, b)]) f g⟩

/-- The first names of a chain are bound to what they stand for, and the others are left alone. -/
theorem exists_chainEnds
    (hknown : ∀ {front y b}, n.StandFor (front ++ [(y, b)]) → b.role = .instanceOf none →
      (n.table.lookupGlobal b.label).bind (·.structRef?) = none → front ≠ [] ∧ Known y b)
    (x : Ident) (fs : List Ident) :
    ∃ ps rest x' fs', x :: fs = ps.map (·.1) ++ rest ∧ x' :: fs' = ps.map .bound ++ rest ∧
      (n.expr (.chain x fs)).node = .chain x' fs' ∧ n.StandFor ps ∧
      n.ChainEnds Known ps rest (n.expr (.chain x fs)).hint (n.expr (.chain x fs)).found := by
  induction fs using List.reverseRecOn with
  | nil =>
    rw [Expr.chain, List.foldl_nil, expr, ident]
    cases hb : n.table.lookupGlobal x.name with
    | none => exact ⟨[], [x], x, [], rfl, rfl, rfl, .nil, .undeclared hb⟩
    | some b =>
      exact ⟨[(x, b)], [], .bound (x, b), [], rfl, rfl, rfl, .name hb, chainEnds_ofBinding [] x b⟩
  | append_singleton fs f ih =>
    obtain ⟨ps, rest, x', fs', hnames, hnodes, hnode, hstand, hends⟩ := ih
    obtain ⟨qs, rest', hnames', hnodes', hstand', hends'⟩ := hends.field hstand hknown f
    rw [Expr.chain_append, expr]
    refine ⟨qs, rest', x', fs' ++ [(n.field (n.expr (.chain x fs)).hint f).node], ?_, ?_, ?_,
      hstand', hends'⟩
    · rw [← hnames', ← hnames, List.cons_append]
    · rw [← hnodes', ← hnodes, List.cons_append]
    · rw [hnode, Expr.chain_append]

end Names

end Carrot
