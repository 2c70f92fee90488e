import Carrot.Proofs.Parsing.WellFormed
import Carrot.Proofs.Resolution.Signatures
import Carrot.Proofs.Resolution.States

/-! # What is bound where

Each scope holds bindings of certain kinds only: functions and structs stand at the top level,
formals in the scope of their function, variables in any scope. The fields of a struct make one
scope of variables. Every step of a run keeps this, whatever part of the program it is at. An
instance among the fields that knows no struct was reported, unless the struct is still being
visited.
-/

namespace Carrot

/-! ### Kinds of bindings -/

/-- A variable, be it an instance or not, that is not void. -/
structure Binding.IsField (b : Binding) : Prop where
  role : b.role = .var ∨ ∃ decl, b.role = .instanceOf decl
  label_ne : b.label ≠ voidLabel

/-- A binding under a name that may stand in a scope with `depth` scopes around it, if `fs` are the
formals of the function that is visited. -/
inductive Scope.Admits (fs : List Formal) (depth : Nat) : String × Binding → Prop where
  | var {x : String} {b : Binding} (hb : b.IsVariable) (hlabel : b.label ≠ Binding.voidLabel) :
      Admits fs depth (x, b)
  | formal {f : Formal} (hf : f ∈ fs) (htype : f.type ≠ .void) (hdepth : depth = 1) :
      Admits fs depth (f.name.name, f.binding)
  | func (d : FnDecl) (hdepth : depth = 0) : Admits fs depth (d.name.name, Session.fnBinding d)
  | struct (x : String) (p : Option Position) (id : Nat) (hdepth : depth = 0) :
      Admits fs depth (x, .ofStruct x p id)

/-- Each scope holds what it may, given how many scopes are around it. -/
def Scope.Layered (fs : List Formal) : List (Scope Binding) → Prop
  | [] => True
  | s :: outer => (∀ e ∈ s, Scope.Admits fs outer.length e) ∧ Scope.Layered fs outer

/-- One scope of variables that are not void. -/
def SymbolTable.ListsFields (t : SymbolTable Binding) : Prop :=
  ∃ s, t.scopes = [s] ∧ Scope.Forall Binding.IsField s

/-- Some instance in the table knows no struct. -/
def SymbolTable.HasUnknown (t : SymbolTable Binding) : Prop :=
  ∃ s ∈ t.scopes, ∃ e ∈ s, e.2.role = .instanceOf none

theorem Scope.Admits.mono {fs gs : List Formal} {depth : Nat} {e : String × Binding}
    (h : Admits fs depth e) (hsub : fs ⊆ gs) : Admits gs depth e := by
  cases h with
  | var hb hlabel => exact .var hb hlabel
  | formal hf htype hdepth => exact .formal (hsub hf) htype hdepth
  | func d hdepth => exact .func d hdepth
  | struct x p id hdepth => exact .struct x p id hdepth

theorem Scope.Layered.mono {fs gs : List Formal} {ss : List (Scope Binding)} (h : Layered fs ss)
    (hsub : fs ⊆ gs) : Layered gs ss := by
  induction ss with
  | nil => exact trivial
  | cons s outer ih => exact ⟨fun e he => (h.1 e he).mono hsub, ih h.2⟩

theorem Scope.Layered.admits {fs : List Formal} {inner outer : List (Scope Binding)}
    {s : Scope Binding} (h : Layered fs (inner ++ s :: outer)) :
    ∀ e ∈ s, Admits fs outer.length e := by
  induction inner with
  | nil => exact h.1
  | cons r inner ih => exact ih h.2

/-! ### Labels -/

theorem TypeExpr.label_ne_void {t : TypeExpr} (h : t ≠ .void) : t.label ≠ Binding.voidLabel := by
  cases t with
  | void => exact absurd rfl h
  | int | bool | struct => simp [label, Binding.voidLabel, Binding.structLabel]

/-- A keyword is not the name of a struct. -/
theorem VarDecl.WellFormed.label_ne_void {d : VarDecl} (hd : d.WellFormed) (h : d.type ≠ .void) :
    d.label ≠ Binding.voidLabel := by
  have htype := hd.type
  unfold VarDecl.label
  cases ht : d.type with
  | struct tag =>
    rw [ht] at htype
    obtain ⟨-, -, -, -, -, hword⟩ := htype.isName
    intro hvoid
    rw [show tag.name = Binding.voidLabel from hvoid] at hword
    exact absurd hword (by decide)
  | int | bool | void => exact TypeExpr.label_ne_void (ht ▸ h)

theorem Context.isField_fieldBinding? {c : Context} {d : VarDecl} (hd : d.WellFormed) {b : Binding}
    (hb : c.fieldBinding? d = some b) : b.IsField := by
  have hlabel := hd.label_ne_void
  unfold VarDecl.label at hlabel
  unfold fieldBinding? at hb
  split at hb
  · next tag ht =>
    cases hb
    rw [ht] at hlabel
    exact ⟨.inr ⟨_, rfl⟩, hlabel (by simp)⟩
  · cases hb
  · next htype =>
    cases hb
    exact ⟨.inl rfl, TypeExpr.label_ne_void htype⟩

/-! ### Fields -/

theorem StructFields.tables_register {f : StructFields} {s : Scope Binding} {id : Nat}
    {t : SymbolTable Binding} (h : (f.register s).tables[id]? = some t) :
    f.tables[id]? = some t ∨ id = f.nextId ∧ t = ⟨[s], false⟩ := by
  rw [register, List.getElem?_append] at h
  split at h
  · exact .inl h
  · next hlt =>
    obtain ⟨hid, ht⟩ := List.getElem?_eq_some_iff.1 h
    rw [List.length_singleton] at hid
    refine .inr ⟨?_, by simpa using ht.symm⟩
    rw [nextId]
    omega

/-! ### What every step keeps -/

namespace Context

/-- In this context, all bindings are of a kind that may stand where they stand, and fit the structs
of the top level. The structs of the run are numbered from `base` on. -/
structure WellBound (base : Nat) (focus : Focus) (log : List Diagnostic) (c : Context) : Prop where
  coherent : c.Coherent base
  layered : Scope.Layered focus.formals c.scopes
  fields : ∀ id t, base ≤ id → c.fields.tables[id]? = some t → t.ListsFields
  unknown : ∀ id t, base ≤ id → c.fields.tables[id]? = some t → t.HasUnknown →
    log ≠ [] ∨ focus = .struct id

/-- What each part of a list preserves, the list preserves. -/
theorem all_preserves_of_mem {α : Type} {f : Context → α → Outcome α} {I : Context → Prop}
    {xs : List α} (hf : ∀ {c}, I c → ∀ x ∈ xs, I (f c x).context) {c : Context} (h : I c) :
    I (all f c xs).context := by
  induction xs generalizing c with
  | nil => exact h
  | cons x xs ih =>
    exact ih (fun hc y hy => hf hc y (List.mem_cons_of_mem _ hy)) (hf h x List.mem_cons_self)

namespace WellBound

variable {base : Nat} {focus : Focus} {log : List Diagnostic} {c : Context}

theorem initial (fields : StructFields) :
    (initial fields).WellBound fields.nextId .top [] := by
  have hnone (id : Nat) (hid : fields.nextId ≤ id) : fields.tables[id]? = none :=
    List.getElem?_eq_none hid
  refine ⟨.initial fields, ⟨fun _ he => absurd he List.not_mem_nil, trivial⟩,
    fun id t hid ht => ?_, fun id t hid ht => ?_⟩
  · cases (hnone id hid).symm.trans ht
  · cases (hnone id hid).symm.trans ht

theorem append (h : c.WellBound base focus log) (ds : List Diagnostic) :
    c.WellBound base focus (log ++ ds) :=
  { h with unknown := fun id t hid ht hunknown =>
      (h.unknown id t hid ht hunknown).imp_left (List.append_ne_nil_of_left_ne_nil · ds) }

/-- At the top level, any declaration can be entered. -/
theorem within (h : c.WellBound base .top log) (focus : Focus) : c.WellBound base focus log where
  coherent := h.coherent
  layered := h.layered.mono (List.nil_subset _)
  fields := h.fields
  unknown id t hid ht hunknown := .inl ((h.unknown id t hid ht hunknown).resolve_right (by simp))

theorem enter (h : c.WellBound base focus log) : c.enter.WellBound base focus log :=
  ⟨h.coherent.enter, ⟨fun _ he => absurd he List.not_mem_nil, h.layered⟩, h.fields, h.unknown⟩

theorem bind (h : c.WellBound base focus log) {x : String} {b : Binding}
    (hcoherent : (c.bind x b).Coherent base)
    (hb : Scope.Admits focus.formals c.outer.length (x, b)) :
    (c.bind x b).WellBound base focus log := by
  refine ⟨hcoherent, ⟨fun e he => ?_, h.layered.2⟩, h.fields, h.unknown⟩
  rcases List.mem_append.1 he with he | he
  · exact h.layered.1 e he
  · obtain rfl := List.mem_singleton.1 he
    exact hb

/-! ### Variables and formals -/

theorem varDecl (h : c.WellBound base focus log) {d : VarDecl} (hd : d.WellFormed) :
    (c.varDecl d).context.WellBound base focus log := by
  have hcoherent := h.coherent.varDecl d
  rcases c.context_varDecl d with heq | ⟨htype, b, hvar, hlabel, heq⟩
  · rw [heq]
    exact h
  · rw [heq] at hcoherent ⊢
    exact h.bind hcoherent (.var hvar (hlabel ▸ hd.label_ne_void htype))

theorem varDecls (h : c.WellBound base focus log) {ds : List VarDecl}
    (hds : ∀ d ∈ ds, d.WellFormed) : (c.varDecls ds).context.WellBound base focus log :=
  all_preserves_of_mem (I := WellBound base focus log) (fun hc d hd => hc.varDecl (hds d hd)) h

/-- A formal is bound in the scope of its function. -/
theorem formal (h : c.WellBound base focus log) (hdepth : c.outer.length = 1) {f : Formal}
    (hf : f ∈ focus.formals) : (c.formal f).context.WellBound base focus log := by
  have hcoherent := h.coherent.formal f
  revert hcoherent
  fun_cases Context.formal c f with
  | case1 => exact fun _ => h
  | case2 => exact fun _ => h
  | case3 htype => exact fun hcoherent => h.bind hcoherent (.formal hf htype hdepth)

theorem formals (h : c.WellBound base focus log) (hdepth : c.outer.length = 1) {fs : List Formal}
    (hfs : fs ⊆ focus.formals) : (c.formals fs).context.WellBound base focus log ∧
      (c.formals fs).context.outer.length = 1 :=
  all_preserves_of_mem (I := fun c => c.WellBound base focus log ∧ c.outer.length = 1)
    (fun {c} hc f hf => ⟨hc.1.formal hc.2 (hfs hf), by rw [(c.formal_extends f).outer, hc.2]⟩)
    ⟨h, hdepth⟩

/-! ### Functions and structs -/

theorem fnName (h : c.WellBound base focus log) (ho : c.outer = []) (d : FnDecl) :
    (c.fnName d).context.WellBound base focus log := by
  have hcoherent := h.coherent.fnName d
  revert hcoherent
  fun_cases Context.fnName c d with
  | case1 => exact fun _ => h
  | case2 => exact fun hcoherent => h.bind hcoherent (.func d (by rw [ho, List.length_nil]))

/-- What is in scope behind some formals of a function that is visited. -/
theorem fnFormals {d : FnDecl} (h : c.WellBound base (.function d) log) (ho : c.outer = [])
    {fs : List Formal} (hfs : fs ⊆ d.formals) :
    ((c.fnName d).context.enter.formals fs).context.WellBound base (.function d) log ∧
      ((c.fnName d).context.enter.formals fs).context.outer.length = 1 := by
  have houter : (c.fnName d).context.outer = [] := (gains_fnName d).outer.trans ho
  exact (h.fnName ho d).enter.formals (by simp [Context.enter, scopes, houter]) hfs

/-- A struct is registered when it is about to be visited. -/
theorem register (h : c.WellBound base (.struct c.fields.nextId) log) {s : Scope Binding}
    (hfits : s.Forall (·.Fits c.global)) (hs : s.Forall Binding.IsField) :
    WellBound base (.struct c.fields.nextId) log { c with fields := c.fields.register s } := by
  refine ⟨h.coherent.register hfits, h.layered, fun id t hid ht => ?_, fun id t hid ht hun => ?_⟩
  · rcases StructFields.tables_register ht with ht | ⟨-, rfl⟩
    · exact h.fields id t hid ht
    · exact ⟨s, rfl, hs⟩
  · rcases StructFields.tables_register ht with ht | ⟨rfl, -⟩
    · exact h.unknown id t hid ht hun
    · exact .inr rfl

/-- Behind the name of a struct, some or all of its fields are listed. -/
theorem withStruct (h : c.WellBound base (.struct c.fields.nextId) log) (ho : c.outer = [])
    {d : StructDecl} (hd : ∀ v ∈ d.fields, v.WellFormed) :
    (c.withStruct d).WellBound base (.struct c.fields.nextId) log := by
  have hnamed : (c.bind d.name.name (c.structBinding d)).WellBound base _ log :=
    h.bind (h.coherent.bind_struct ho d) (.struct _ _ _ (by rw [ho, List.length_nil]))
  exact hnamed.register (hnamed.coherent.addFields .nil d.fields)
    (forall_addFields .nil fun v hv _ hb => isField_fieldBinding? (hd v hv) hb)

/-- Behind a struct, its unknown fields are reported. -/
theorem structDecl (h : c.WellBound base .top log) (ho : c.outer = []) {d : StructDecl}
    (hd : ∀ v ∈ d.fields, v.WellFormed) :
    (c.structDecl d).context.WellBound base .top (log ++ (c.structDecl d).found) := by
  fun_cases Context.structDecl c d with
  | case1 => exact h.append _
  | case2 hfree fs =>
    have hopen := (h.within (.struct c.fields.nextId)).withStruct ho hd
    refine { hopen with unknown := fun id t hid ht hunknown => .inl ?_ }
    rcases StructFields.tables_register ht with ht | ⟨-, rfl⟩
    · have hlog := (h.unknown id t hid ht hunknown).resolve_right (by simp)
      exact List.append_ne_nil_of_left_ne_nil hlog _
    · obtain ⟨s, hs, e, he, hrole⟩ := hunknown
      obtain rfl := List.mem_singleton.1 hs
      obtain ⟨v, -, tag, -, hahead | hreported⟩ :=
        unknown_of_mem_addFields (List.append_nil d.fields).symm he (not_not.2 hrole)
      · cases hahead
      · refine List.append_ne_nil_of_right_ne_nil log ?_
        rcases hreported with hmem | hmem <;> exact List.ne_nil_of_mem hmem

theorem decl (h : c.WellBound base .top log) (ho : c.outer = []) {d : Decl} (hd : d.WellFormed) :
    (c.decl d).context.WellBound base .top (log ++ (c.decl d).found) := by
  cases d with
  | var d => exact (h.varDecl hd).append _
  | func d => exact (h.fnName ho d).append _
  | struct d => exact h.structDecl ho hd.fields

theorem decls (h : c.WellBound base .top log) (ho : c.outer = []) {ds : List Decl}
    (hds : ∀ d ∈ ds, d.WellFormed) :
    (c.decls ds).context.WellBound base .top (log ++ (c.decls ds).found) ∧
      (c.decls ds).context.outer = [] := by
  induction ds generalizing c log with
  | nil => exact ⟨h.append _, ho⟩
  | cons d ds ih =>
    obtain ⟨hd, hds⟩ := List.forall_mem_cons.1 hds
    have hrest := ih (h.decl ho hd) ((c.gains_decl d).outer.trans ho) hds
    rwa [List.append_assoc] at hrest

end WellBound

end Context

end Carrot
