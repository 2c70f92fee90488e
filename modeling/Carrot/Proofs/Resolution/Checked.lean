import Carrot.Proofs.Resolution.Erasure
import Carrot.Proofs.Resolution.Resolved

/-! # Statements in which nothing is found

A dot says nothing about a receiver that offers no struct, so that nothing is found
does not show by itself that its field is bound. This rests on an invariant: as long
as nothing has been found, every struct instance in scope or among the fields of a
struct knows the declaration that it was checked against.
-/

namespace Carrot

/-! ### What is in scope -/

namespace Binding

/-- A struct instance knows the declaration that it was checked against. -/
def Checked (b : Binding) : Prop := b.role ≠ .instanceOf none

/-- A variable, whose struct is known if it is an instance. -/
def IsVariable (b : Binding) : Prop := b.role = .var ∨ ∃ ref, b.role = .instanceOf (some ref)

theorem IsVariable.checked {b : Binding} (h : b.IsVariable) : b.Checked := by
  rcases h with h | ⟨ref, h⟩ <;> simp [Checked, h]

theorem IsVariable.not_isFormal {b : Binding} (h : b.IsVariable) : b.isFormal = false := by
  rcases h with h | ⟨ref, h⟩ <;> simp [isFormal, h]

theorem IsVariable.structRef?_eq_none {b : Binding} (h : b.IsVariable) : b.structRef? = none := by
  rcases h with h | ⟨ref, h⟩ <;> simp [structRef?, h]

theorem isStruct_of_structRef? {b : Binding} {ref : StructRef} (h : b.structRef? = some ref) :
    b.IsStruct := by
  unfold structRef? at h
  split at h
  · next name id hrole => exact ⟨name, id, hrole⟩
  · cases h

end Binding

/-- All bindings of a scope satisfy `P`. -/
def Scope.Forall (P : Binding → Prop) (s : Scope Binding) : Prop := ∀ e ∈ s, P e.2

theorem Scope.Forall.nil {P : Binding → Prop} : Scope.Forall P [] :=
  fun _ he => absurd he List.not_mem_nil

theorem mem_of_lookup {s : Scope Binding} {name : String} {b : Binding}
    (h : s.lookup name = some b) : (name, b) ∈ s := by
  obtain ⟨l, r, rfl, -⟩ := List.lookup_eq_some_iff.1 h
  simp

theorem Scope.Forall.append {P : Binding → Prop} {s : Scope Binding} {name : String} {b : Binding}
    (h : s.Forall P) (hb : P b) : Scope.Forall P (s ++ [(name, b)]) := by
  intro e he
  rcases List.mem_append.1 he with he | he
  · exact h e he
  · rw [List.mem_singleton] at he
    rw [he]
    exact hb

theorem Scope.Forall.findSome? {P : Binding → Prop} {ss : List (Scope Binding)} {name : String}
    {b : Binding} (hs : ∀ s ∈ ss, Scope.Forall P s)
    (h : ss.findSome? (·.lookup name) = some b) : P b := by
  obtain ⟨s, hmem, hlookup⟩ := List.exists_of_findSome?_eq_some h
  exact hs s hmem _ (mem_of_lookup hlookup)

theorem mem_drop_of_getElem? {α : Type} {l : List α} {n i : Nat} {a : α} (h : l[i]? = some a)
    (hn : n ≤ i) : a ∈ l.drop n := by
  refine List.mem_of_getElem? (i := i - n) ?_
  rw [List.getElem?_drop, Nat.add_sub_cancel' hn, h]

/-- A field that is found is in one of the tables. -/
theorem StructFields.exists_of_lookup {f : StructFields} {id base : Nat} {name : String}
    {b : Binding} (h : f.lookup id name = some b) (hid : base ≤ id) :
    ∃ t ∈ f.tables.drop base, ∃ s ∈ t.scopes, (name, b) ∈ s := by
  unfold StructFields.lookup StructFields.table at h
  cases ht : f.tables[id]? with
  | none => simp [ht, SymbolTable.new, SymbolTable.lookupGlobal] at h
  | some t =>
    rw [ht] at h
    obtain ⟨s, hs, hlookup⟩ := List.exists_of_findSome?_eq_some h
    exact ⟨t, mem_drop_of_getElem? ht hid, s, hs, mem_of_lookup hlookup⟩

/-- What holds of the fields of all structs still does with another struct whose fields have it. -/
theorem StructFields.forall_register {P : Binding → Prop} {f : StructFields} {s : Scope Binding}
    (h : ∀ t ∈ f.tables, ∀ r ∈ t.scopes, Scope.Forall P r) (hs : s.Forall P) :
    ∀ t ∈ (f.register s).tables, ∀ r ∈ t.scopes, Scope.Forall P r :=
  List.forall_mem_append.2 ⟨h, List.forall_mem_singleton.2 (List.forall_mem_singleton.2 hs)⟩

namespace Context

section

variable {c : Context} {P : Binding → Prop}

theorem forall_enter (h : ∀ s ∈ c.scopes, s.Forall P) : ∀ s ∈ c.enter.scopes, s.Forall P :=
  List.forall_mem_cons.2 ⟨.nil, h⟩

theorem forall_bind (h : ∀ s ∈ c.scopes, s.Forall P) {name : String} {b : Binding} (hb : P b) :
    ∀ s ∈ (c.bind name b).scopes, s.Forall P := by
  obtain ⟨hfront, houter⟩ := List.forall_mem_cons.1 h
  exact List.forall_mem_cons.2 ⟨hfront.append hb, houter⟩

/-- What holds of all that the declarations of a struct are bound to holds of its fields. -/
theorem forall_addFields {ds : List VarDecl} {s : Scope Binding} (hs : s.Forall P)
    (hds : ∀ d ∈ ds, ∀ b, c.fieldBinding? d = some b → P b) :
    Scope.Forall P (ds.foldl c.addField s) := by
  induction ds generalizing s with
  | nil => exact hs
  | cons d ds ih =>
    obtain ⟨hd, hds⟩ := List.forall_mem_cons.1 hds
    refine ih ?_ hds
    unfold addField
    split
    · exact hs
    · next b hb =>
      unfold Scope.insertNew
      split
      · exact hs
      · exact hs.append (hd b hb)

end

/-- All struct instances in scope and among the fields know their declarations. -/
structure Sound (c : Context) : Prop where
  scopes : ∀ s ∈ c.scopes, s.Forall Binding.Checked
  fields : ∀ t ∈ c.fields.tables, ∀ s ∈ t.scopes, Scope.Forall Binding.Checked s

variable {c : Context}

theorem Sound.find (h : c.Sound) {name : String} {b : Binding} (hb : c.find name = some b) :
    b.Checked :=
  Scope.Forall.findSome? h.scopes hb

theorem Sound.field (h : c.Sound) {id : Nat} {name : String} {b : Binding}
    (hb : c.fields.lookup id name = some b) : b.Checked := by
  obtain ⟨t, ht, s, hs, he⟩ := StructFields.exists_of_lookup hb (Nat.zero_le id)
  exact h.fields t ht s hs _ he

theorem Sound.enter (h : c.Sound) : c.enter.Sound := ⟨forall_enter h.scopes, h.fields⟩

theorem Sound.bind (h : c.Sound) {name : String} {b : Binding} (hb : b.Checked) :
    (c.bind name b).Sound := ⟨forall_bind h.scopes hb, h.fields⟩

/-! ### Expressions -/

/-- A name that is not reported is bound to what it stands for. -/
theorem ident_of_found_eq_nil {x : Ident} (hx : (c.names.ident x).found = []) :
    ∃ b, c.find x.name = some b ∧
      c.names.ident x = ⟨{ x with binding := some b }, .ofBinding b x.position, []⟩ := by
  have hfind : c.names.table.lookupGlobal x.name = c.find x.name := rfl
  unfold Names.ident at hx ⊢
  rw [hfind] at hx ⊢
  cases hb : c.find x.name with
  | none => simp [hb] at hx
  | some b => exact ⟨b, rfl, rfl⟩

theorem isSet_ident {x : Ident} (hx : (c.names.ident x).found = []) :
    (c.names.ident x).node.IsSet := by
  obtain ⟨b, -, heq⟩ := ident_of_found_eq_nil hx
  rw [heq]
  exact rfl

/-- An instance that knows its declaration offers a table of fields. -/
theorem structOf?_some (label : String) (ref : StructRef) :
    ∃ id, c.names.structOf? label (some ref) = some id := by
  unfold Names.structOf?
  split
  · next r _ => exact ⟨r.id, rfl⟩
  · exact ⟨ref.id, rfl⟩

/-- A field that is not reported is bound, and its receiver is a struct instance. -/
theorem Sound.field_of_found_eq_nil (h : c.Sound) {b : Binding} (hb : b.Checked) {pos : Position}
    {x : Ident} (hx : (c.names.field (.ofBinding b pos) x).found = []) :
    b.IsInstance ∧ ∃ g, g.Checked ∧ c.names.field (.ofBinding b pos) x =
      ⟨{ x with binding := some g }, .ofBinding g x.position, []⟩ := by
  unfold Hint.ofBinding at hx ⊢
  split at hx
  · next decl hrole =>
    cases decl with
    | none => exact absurd hrole hb
    | some ref =>
      refine ⟨⟨_, hrole⟩, ?_⟩
      obtain ⟨id, hid⟩ := c.structOf?_some b.label ref
      simp only [Names.field, hid] at hx ⊢
      have hfields : c.names.fields.lookup id x.name = c.fields.lookup id x.name := rfl
      rw [hfields] at hx ⊢
      cases hg : c.fields.lookup id x.name with
      | none => simp [hg] at hx
      | some g => exact ⟨g, h.field hg, rfl⟩
  · simp [Names.field] at hx

/-- A place in which nothing is found offers the binding of its last identifier. -/
theorem place_of_found_eq_nil (h : c.Sound) : ∀ {e : Expr}, e.IsPlace →
    (c.names.expr e).found = [] →
      (c.names.expr e).node.IsResolved ∧ ∃ x b, (c.names.expr e).node.lastName? = some x ∧
        x.binding = some b ∧ b.Checked ∧ (c.names.expr e).hint = .ofBinding b x.position
  | .ident x, _, hx => by
    simp only [Names.expr] at hx ⊢
    obtain ⟨b, hb, heq⟩ := ident_of_found_eq_nil hx
    rw [heq]
    exact ⟨rfl, _, b, rfl, rfl, h.find hb, rfl⟩
  | .dot e x, he, hx => by
    simp only [Names.expr, List.append_eq_nil_iff] at hx ⊢
    obtain ⟨hres, y, b, hlast, hy, hb, hhint⟩ := place_of_found_eq_nil h he.1 hx.1
    rw [hhint] at hx ⊢
    obtain ⟨hinstance, g, hg, heq⟩ := h.field_of_found_eq_nil hb hx.2
    rw [heq]
    exact ⟨⟨hres, ⟨y, b, hlast, hy, hinstance⟩, rfl⟩, _, g, rfl, rfl, hg, rfl⟩

mutual

theorem expr_isResolved (h : c.Sound) : ∀ {e : Expr}, e.WellFormed →
    (c.names.expr e).found = [] → (c.names.expr e).node.IsResolved
  | .int _ _, _, _ | .str _ _, _, _ | .bool _ _, _, _ => by
    rw [Names.expr]
    exact trivial
  | .ident x, he, hx => (place_of_found_eq_nil h (e := .ident x) he hx).1
  | .dot e x, he, hx => (place_of_found_eq_nil h (e := .dot e x) he hx).1
  | .assign t v, he, hx => by
    simp only [Names.expr, Resolved.both, List.append_eq_nil_iff] at hx ⊢
    exact ⟨expr_isResolved h he.1.wellFormed hx.1, expr_isResolved h he.2 hx.2⟩
  | .call f args, he, hx => by
    simp only [Names.expr, Resolved.both, List.append_eq_nil_iff] at hx ⊢
    exact ⟨isSet_ident hx.1, exprs_isResolved h he.2 hx.2⟩
  | .unary op e, he, hx => by
    rw [Expr.WellFormed] at he
    simp only [Names.expr, Resolved.wrap] at hx ⊢
    exact expr_isResolved h he hx
  | .binary op l r, he, hx => by
    simp only [Names.expr, Resolved.both, List.append_eq_nil_iff] at hx ⊢
    exact ⟨expr_isResolved h he.1 hx.1, expr_isResolved h he.2 hx.2⟩

theorem exprs_isResolved (h : c.Sound) : ∀ {es : List Expr}, Expr.ListWellFormed es →
    (c.names.exprs es).found = [] → Expr.ListResolved (c.names.exprs es).node
  | [], _, _ => by
    rw [Names.exprs]
    exact trivial
  | e :: es, he, hx => by
    simp only [Names.exprs, Resolved.both, List.append_eq_nil_iff] at hx ⊢
    exact ⟨expr_isResolved h he.1 hx.1, exprs_isResolved h he.2 hx.2⟩

end

/-! ### Formals and variables -/

/-- The formals in the innermost scope are those with the names `names`. -/
def Covers (c : Context) (names : List String) : Prop :=
  ∀ name, name ∈ names ↔ ∃ b, c.front.lookup name = some b ∧ b.isFormal

theorem lookup_bind (c : Context) (name x : String) (b : Binding) :
    (c.bind name b).front.lookup x =
      (c.front.lookup x).or (if x = name then some b else none) := by
  by_cases hx : x = name
  · simp [bind, List.lookup_append, hx]
  · have hne : (x == name) = false := by simpa using hx
    simp [bind, List.lookup_append, List.lookup_cons, hx, hne]

theorem covers_enter (c : Context) : c.enter.Covers [] := by
  simp [Covers, enter]

theorem Covers.bind {names : List String} (h : c.Covers names) {name : String} {b : Binding}
    (hfree : c.front.lookup name = none) (hb : b.isFormal = false) :
    (c.bind name b).Covers names := by
  intro x
  rw [h x, lookup_bind]
  by_cases hx : x = name
  · simp [hx, hfree, hb]
  · simp [hx]

theorem Covers.bind_formal {names : List String} (h : c.Covers names) {name : String} {b : Binding}
    (hfree : c.front.lookup name = none) (hb : b.isFormal = true) :
    (c.bind name b).Covers (names ++ [name]) := by
  intro x
  rw [List.mem_append, h x, lookup_bind, List.mem_singleton]
  by_cases hx : x = name
  · simp [hx, hfree, hb]
  · simp [hx]

theorem formal_of_found_eq_nil {f : Formal} (hf : (c.formal f).found = []) :
    c.front.lookup f.name.name = none ∧ ∃ b, b.isFormal = true ∧ b.Checked ∧
      c.formal f = ⟨⟨f.type, { f.name with binding := some b }⟩, c.bind f.name.name b, []⟩ := by
  fun_cases formal c f with
  | case1 hv => simp [formal, hv] at hf
  | case2 hv hl => simp [formal, hv, hl] at hf
  | case3 hv hl own =>
    refine ⟨Option.not_isSome_iff_eq_none.1 hl, own, rfl, ?_, rfl⟩
    simp [Binding.Checked, own]

theorem formals_of_found_eq_nil {names : List String} {fs : List Formal} (hs : c.Sound)
    (hc : c.Covers names) (hfs : ∀ f ∈ fs, f.WellFormed) (hx : (c.formals fs).found = []) :
    (∀ f ∈ (c.formals fs).node, f.name.IsSet ∧ f.type.IsUnset) ∧
      (c.formals fs).context.Sound ∧ (c.formals fs).context.Covers (names ++ Formal.names fs) := by
  induction fs generalizing c names with
  | nil => exact ⟨by simp [formals, all], hs, by simpa [formals, all, Formal.names] using hc⟩
  | cons f fs ih =>
    obtain ⟨hf, hfs⟩ := List.forall_mem_cons.1 hfs
    rw [formals, all] at hx ⊢
    obtain ⟨hx, hxs⟩ := List.append_eq_nil_iff.1 hx
    obtain ⟨hfree, b, hb, hchecked, heq⟩ := formal_of_found_eq_nil hx
    rw [heq] at hxs ⊢
    obtain ⟨hnodes, hs', hc'⟩ := ih (hs.bind hchecked) (hc.bind_formal hfree hb) hfs hxs
    refine ⟨List.forall_mem_cons.2 ⟨⟨rfl, hf.type.isUnset⟩, hnodes⟩, hs', ?_⟩
    simpa [formals, Formal.names] using hc'

/-- A type that is not reported fits, and the variable is bound. -/
theorem declareVar_of_found_eq_nil {d : VarDecl} (hd : (c.declareVar d).found = []) :
    (c.declareVar d).node.IsResolved ∧ ∃ own : Binding, own.IsVariable ∧
      (c.declareVar d).context = c.bind d.name.name own ∧
      ∀ tag, d.type = .struct tag →
        ∃ b ref, c.find tag.name = some b ∧ b.structRef? = some ref := by
  unfold declareVar at hd ⊢
  cases ht : d.type with
  | struct tag =>
    simp only [ht] at hd ⊢
    cases hb : c.find tag.name with
    | none => simp [hb] at hd
    | some b =>
      simp only [hb] at hd ⊢
      cases href : b.structRef? with
      | none => simp [href] at hd
      | some ref =>
        refine ⟨⟨rfl, ?_⟩, _, .inr ⟨ref, rfl⟩, rfl, ?_⟩
        · intro tag' htag
          cases htag
          exact ⟨b, rfl, Binding.isStruct_of_structRef? href⟩
        · intro tag' htag
          cases htag
          exact ⟨b, ref, hb, href⟩
  | int | bool | void =>
    refine ⟨⟨rfl, ?_⟩, _, .inl rfl, rfl, ?_⟩
    · intro tag htag
      simp at htag
    · intro tag htag
      simp at htag

/-- A declaration that is not reported is bound, unless it repeats a formal. -/
theorem varDecl_of_found_eq_nil {d : VarDecl} (hd : (c.varDecl d).found = []) :
    (∃ b, c.front.lookup d.name.name = some b ∧ b.isFormal ∧ c.varDecl d = ⟨d, c, []⟩) ∨
      (c.front.lookup d.name.name = none ∧ c.varDecl d = c.declareVar d) := by
  fun_cases varDecl c d with
  | case1 hv => simp [varDecl, hv] at hd
  | case2 hv b hb =>
    left
    cases hformal : b.isFormal with
    | false => simp [varDecl, hv, hb, hformal] at hd
    | true => exact ⟨b, hb, hformal, rfl⟩
  | case3 hv hl => exact .inr ⟨hl, rfl⟩

theorem name_varDecl (c : Context) (d : VarDecl) :
    (c.varDecl d).node.name.name = d.name.name :=
  congrArg (·.name.name) (varDecl_unbound c d)

/-- Declarations in which nothing is found are bound, apart from those that repeat a formal. -/
theorem varDecls_of_found_eq_nil {names : List String} {ds : List VarDecl} (hs : c.Sound)
    (hc : c.Covers names) (hds : ∀ d ∈ ds, d.WellFormed) (hx : (c.varDecls ds).found = []) :
    (∀ v ∈ (c.varDecls ds).node, (v.name.name ∈ names → v.IsUnset) ∧
      (v.name.name ∉ names → v.IsResolved)) ∧
      (c.varDecls ds).context.Sound ∧ (c.varDecls ds).context.Covers names := by
  induction ds generalizing c with
  | nil => exact ⟨by simp [varDecls, all], hs, hc⟩
  | cons d ds ih =>
    obtain ⟨hd, hds⟩ := List.forall_mem_cons.1 hds
    rw [varDecls, all] at hx ⊢
    obtain ⟨hx, hxs⟩ := List.append_eq_nil_iff.1 hx
    rcases varDecl_of_found_eq_nil hx with ⟨b, hb, hformal, heq⟩ | ⟨hfree, heq⟩
    · rw [heq] at hxs ⊢
      obtain ⟨hnodes, hs', hc'⟩ := ih hs hc hds hxs
      refine ⟨List.forall_mem_cons.2 ⟨⟨fun _ => hd.isUnset, ?_⟩, hnodes⟩,
        hs', hc'⟩
      exact fun hname => absurd ((hc _).2 ⟨b, hb, hformal⟩) hname
    · have hname := name_varDecl c d
      rw [heq] at hx hxs hname ⊢
      obtain ⟨hres, own, hown, hctx, -⟩ := declareVar_of_found_eq_nil hx
      rw [hctx] at hxs ⊢
      obtain ⟨hnodes, hs', hc'⟩ :=
        ih (hs.bind hown.checked) (hc.bind hfree hown.not_isFormal) hds hxs
      refine ⟨List.forall_mem_cons.2 ⟨⟨fun hmem => ?_, fun _ => hres⟩, hnodes⟩, hs', hc'⟩
      rw [hname] at hmem
      obtain ⟨b, hb, -⟩ := (hc _).1 hmem
      rw [hfree] at hb
      cases hb

/-- The declarations of a block have no formals to repeat. -/
theorem block_of_found_eq_nil {ds : List VarDecl} (hs : c.Sound)
    (hds : ∀ d ∈ ds, d.WellFormed) (hx : (c.enter.varDecls ds).found = []) :
    (∀ v ∈ (c.enter.varDecls ds).node, v.IsResolved) ∧ (c.enter.varDecls ds).context.Sound := by
  obtain ⟨hnodes, hs', -⟩ := varDecls_of_found_eq_nil hs.enter c.covers_enter hds hx
  exact ⟨fun v hv => (hnodes v hv).2 List.not_mem_nil, hs'⟩

/-! ### Statements -/

mutual

theorem stmt_isResolved {c : Context} (h : c.Sound) : ∀ {s : Stmt}, s.WellFormed →
    (c.stmt s).found = [] → (c.stmt s).node.IsResolved
  | .assign t v, hs, hx => by
    simp only [stmt, Resolved.both, List.append_eq_nil_iff] at hx ⊢
    exact ⟨expr_isResolved h hs.1.wellFormed hx.1, expr_isResolved h hs.2 hx.2⟩
  | .increment p, hs, hx | .decrement p, hs, hx | .read p, hs, hx => by
    rw [Stmt.WellFormed] at hs
    simp only [stmt, Resolved.wrap] at hx ⊢
    exact expr_isResolved h hs.wellFormed hx
  | .write v, hs, hx => by
    rw [Stmt.WellFormed] at hs
    simp only [stmt, Resolved.wrap] at hx ⊢
    exact expr_isResolved h hs hx
  | .ifThen e ds ss, hs, hx | .whileLoop e ds ss, hs, hx | .repeatLoop e ds ss, hs, hx => by
    simp only [stmt, Resolved.both, Outcome.body, List.append_eq_nil_iff] at hx ⊢
    obtain ⟨hds, hsound⟩ := block_of_found_eq_nil h hs.2.1 hx.2.1
    exact ⟨expr_isResolved h hs.1 hx.1, hds, stmts_isResolved hsound hs.2.2 hx.2.2⟩
  | .ifElse e ds ss eds ess, hs, hx => by
    simp only [stmt, Resolved.both, Outcome.body, List.append_eq_nil_iff] at hx ⊢
    obtain ⟨he, hwds, hwss, hweds, hwess⟩ := hs
    obtain ⟨hds, hsound⟩ := block_of_found_eq_nil h hwds hx.1.2.1
    obtain ⟨heds, hsound'⟩ := block_of_found_eq_nil h hweds hx.2.1
    exact ⟨⟨expr_isResolved h he hx.1.1, hds, stmts_isResolved hsound hwss hx.1.2.2⟩,
      heds, stmts_isResolved hsound' hwess hx.2.2⟩
  | .call f args, hs, hx => by
    simp only [stmt, Resolved.both, List.append_eq_nil_iff] at hx ⊢
    exact ⟨isSet_ident hx.1, exprs_isResolved h hs.2 hx.2⟩
  | .ret none, _, _ => by
    rw [stmt]
    exact trivial
  | .ret (some v), hs, hx => by
    rw [Stmt.WellFormed] at hs
    simp only [stmt, Resolved.wrap] at hx ⊢
    exact expr_isResolved h hs hx

theorem stmts_isResolved {c : Context} (h : c.Sound) : ∀ {ss : List Stmt}, Stmt.ListWellFormed ss →
    (c.stmts ss).found = [] → Stmt.ListResolved (c.stmts ss).node
  | [], _, _ => by
    rw [stmts]
    exact trivial
  | s :: ss, hs, hx => by
    simp only [stmts, Resolved.both, List.append_eq_nil_iff] at hx ⊢
    exact ⟨stmt_isResolved h hs.1 hx.1, stmts_isResolved h hs.2 hx.2⟩

end

end Context

end Carrot
