import Carrot.Proofs.Resolution.Checked
import Mathlib.Data.List.Induction

/-! # Fields of unknown types

The fields of a struct are listed before they are declared. A field whose type names no
struct is listed all the same, as an instance that knows no declaration. Its declaration
reports the type: the names of the fields in front of it are variables, so the type names
no struct among them either. Instances in scope know their structs at any time.
-/

namespace Carrot

/-- The type is reported as none, or as none of a struct. -/
def Ident.IsReported (tag : Ident) (ds : List Diagnostic) : Prop :=
  .error tag.position .undeclared ∈ ds ∨ .error tag.position .invalidStructType ∈ ds

/-- The declaration lists a field named `x`, and `b` is its binding if its type `tag` names no
struct. -/
def VarDecl.ListsUnknown (d : VarDecl) (x : String) (b : Binding) (tag : Ident) : Prop :=
  d.name.name = x ∧ d.type = .struct tag ∧ b = ⟨tag.name, some d.name.position, .instanceOf none⟩

/-- The log reports the type of a field of the program that is named `x` and bound to `b`. -/
def Program.Reports (p : Program) (log : List Diagnostic) (x : String) (b : Binding) : Prop :=
  ∃ s d tag, .struct s ∈ p.decls ∧ d ∈ s.fields ∧ d.ListsUnknown x b tag ∧ tag.IsReported log

/-- The label of what a declaration binds: the name of its struct, or else the label of its type. -/
def VarDecl.label (d : VarDecl) : String :=
  match d.type with
  | .struct tag => tag.name
  | type => type.label

theorem Ident.IsReported.mono {tag : Ident} {ds es : List Diagnostic} (h : tag.IsReported ds)
    (hsub : ds ⊆ es) : tag.IsReported es :=
  h.imp (fun h => hsub h) fun h => hsub h

theorem Program.Reports.append {p : Program} {log : List Diagnostic} {x : String} {b : Binding}
    (h : p.Reports log x b) (ds : List Diagnostic) : p.Reports (log ++ ds) x b := by
  obtain ⟨s, d, tag, hs, hd, hlists, hreported⟩ := h
  exact ⟨s, d, tag, hs, hd, hlists, hreported.mono (List.subset_append_left _ _)⟩

namespace Context

variable {c : Context}

/-! ### The scope of the fields -/

/-- A declaration binds a variable, unless it is reported or passed over. -/
theorem context_varDecl (c : Context) (d : VarDecl) :
    (c.varDecl d).context = c ∨
      d.type ≠ .void ∧ ∃ b : Binding, b.IsVariable ∧ b.label = d.label ∧
        (c.varDecl d).context = c.bind d.name.name b := by
  fun_cases varDecl c d with
  | case1 => exact .inl rfl
  | case2 => exact .inl rfl
  | case3 htype =>
    fun_cases declareVar c d with
    | case1 => exact .inl rfl
    | case2 => exact .inl rfl
    | case3 tag ht _ _ ref _ own =>
      exact .inr ⟨htype, own, .inr ⟨ref, rfl⟩, by rw [VarDecl.label, ht], rfl⟩
    | case4 _ own => exact .inr ⟨htype, own, .inl rfl, by simp [VarDecl.label, own], rfl⟩

theorem mem_front_varDecls {ds : List VarDecl} {e : String × Binding}
    (he : e ∈ (c.varDecls ds).context.front) :
    e ∈ c.front ∨ e.2.IsVariable ∧ ∃ d ∈ ds, d.name.name = e.1 ∧ d.type ≠ .void := by
  induction ds generalizing c with
  | nil => exact .inl he
  | cons d ds ih =>
    rcases ih he with he | ⟨hvar, v, hv, hname, htype⟩
    · rcases c.context_varDecl d with heq | ⟨htype, b, hvar, -, heq⟩
      · rw [heq] at he
        exact .inl he
      · rw [heq] at he
        rcases List.mem_append.1 he with he | he
        · exact .inl he
        · obtain rfl := List.mem_singleton.1 he
          exact .inr ⟨hvar, d, List.mem_cons_self, rfl, htype⟩
    · exact .inr ⟨hvar, v, List.mem_cons_of_mem _ hv, hname, htype⟩

/-- A name that stands for no struct stands for none behind the fields of a struct. -/
theorem find_fields {name : String} (h : (c.find name).bind (·.structRef?) = none)
    (ds : List VarDecl) :
    ((c.enter.varDecls ds).context.find name).bind (·.structRef?) = none := by
  rw [find, scopes, List.findSome?_cons, (c.enter.varDecls_extends ds).outer]
  cases hl : (c.enter.varDecls ds).context.front.lookup name with
  | none => exact h
  | some b =>
    rcases mem_front_varDecls (mem_of_lookup hl) with he | ⟨hvar, -⟩
    · cases he
    · exact hvar.structRef?_eq_none

/-- A declaration with a free name and a type that names no struct is reported. -/
theorem isReported_varDecl {d : VarDecl} {tag : Ident}
    (hfree : c.front.lookup d.name.name = none) (htype : d.type = .struct tag)
    (hunknown : (c.find tag.name).bind (·.structRef?) = none) :
    tag.IsReported (c.varDecl d).found := by
  simp only [varDecl, htype, hfree, declareVar, reduceCtorEq, if_false]
  cases hb : c.find tag.name with
  | none => exact .inl (List.mem_singleton_self _)
  | some b =>
    rw [hb, Option.bind_some] at hunknown
    simp only [hunknown]
    exact .inr (List.mem_singleton_self _)

theorem all_append {α : Type} (f : Context → α → Outcome α) (c : Context) (xs ys : List α) :
    (all f c (xs ++ ys)).found =
      (all f c xs).found ++ (all f (all f c xs).context ys).found := by
  induction xs generalizing c with
  | nil => rfl
  | cons x xs ih => simp only [List.cons_append, all, ih, List.append_assoc]

/-! ### The list of the fields -/

theorem isSome_fieldBinding? {d : VarDecl} (h : d.type ≠ .void) : (c.fieldBinding? d).isSome := by
  unfold fieldBinding?
  split
  · rfl
  · next hvoid => exact absurd hvoid h
  · rfl

/-- A field with a binding that knows no declaration has a type which names no struct. -/
theorem unknown_of_fieldBinding? {d : VarDecl} {b : Binding} (hb : c.fieldBinding? d = some b)
    (hunknown : ¬b.Checked) : ∃ tag, d.ListsUnknown d.name.name b tag ∧
      (c.find tag.name).bind (·.structRef?) = none := by
  have hrole : b.role = .instanceOf none := not_not.1 hunknown
  unfold fieldBinding? at hb
  split at hb
  · next tag htype =>
    cases hb
    have hnone := Role.instanceOf.inj hrole
    exact ⟨tag, ⟨rfl, htype, by rw [hnone]⟩, hnone⟩
  · cases hb
  · cases hb
    cases hrole

theorem isSome_lookup_insertNew {s : Scope Binding} {name x : String} {b : Binding}
    (h : (s.lookup x).isSome ∨ name = x) : ((s.insertNew name b).lookup x).isSome := by
  unfold Scope.insertNew
  split
  · next htaken => exact h.elim id fun heq => heq ▸ htaken
  · rw [List.lookup_append, Option.isSome_or, Bool.or_eq_true]
    exact h.imp id fun heq => by simp [heq]

/-- Each field is listed, unless its type is void. -/
theorem isSome_lookup_addFields {ds : List VarDecl} {d : VarDecl} (hd : d ∈ ds)
    (htype : d.type ≠ .void) : ((ds.foldl c.addField []).lookup d.name.name).isSome := by
  induction ds using List.reverseRecOn with
  | nil => cases hd
  | append_singleton ds v ih =>
    rw [List.foldl_append, List.foldl_cons, List.foldl_nil]
    rcases List.mem_append.1 hd with hd | hd
    · unfold addField
      split
      · exact ih hd
      · exact isSome_lookup_insertNew (.inl (ih hd))
    · obtain rfl := List.mem_singleton.1 hd
      obtain ⟨b, hb⟩ := Option.isSome_iff_exists.1 (isSome_fieldBinding? (c := c) htype)
      simp only [addField, hb]
      exact isSome_lookup_insertNew (.inr rfl)

/-- What is listed under a name is the first field of this name whose type is not void. -/
theorem mem_addFields {ds : List VarDecl} {e : String × Binding}
    (he : e ∈ ds.foldl c.addField []) :
    ∃ before d after, ds = before ++ d :: after ∧ d.name.name = e.1 ∧
      c.fieldBinding? d = some e.2 ∧ ∀ v ∈ before, v.name.name = e.1 → v.type = .void := by
  induction ds using List.reverseRecOn with
  | nil => cases he
  | append_singleton ds d ih =>
    rw [List.foldl_append, List.foldl_cons, List.foldl_nil] at he
    have hlater : e ∈ ds.foldl c.addField [] → ∃ before d' after,
        ds ++ [d] = before ++ d' :: after ∧ d'.name.name = e.1 ∧
          c.fieldBinding? d' = some e.2 ∧ ∀ v ∈ before, v.name.name = e.1 → v.type = .void := by
      intro he
      obtain ⟨before, d', after, rfl, hrest⟩ := ih he
      exact ⟨before, d', after ++ [d], by simp, hrest⟩
    unfold addField at he
    split at he
    · exact hlater he
    · next b hb =>
      unfold Scope.insertNew at he
      split at he
      · exact hlater he
      · next hfree =>
        rcases List.mem_append.1 he with he | he
        · exact hlater he
        · obtain rfl := List.mem_singleton.1 he
          refine ⟨ds, d, [], rfl, rfl, hb, fun v hv hname => ?_⟩
          by_contra htype
          have htaken := isSome_lookup_addFields (c := c) hv htype
          rw [hname] at htaken
          exact hfree htaken

/-- A field that is listed without a declaration is reported when it is declared: if the fields `ds`
of the struct are declared and the fields `es` are not, it is reported or among `es`. -/
theorem unknown_of_mem_addFields {d : StructDecl} {ds es : List VarDecl}
    (hsplit : d.fields = ds ++ es) {e : String × Binding}
    (he : e ∈ d.fields.foldl (c.bind d.name.name (c.structBinding d)).addField [])
    (hunknown : ¬e.2.Checked) :
    ∃ v ∈ d.fields, ∃ tag, v.ListsUnknown e.1 e.2 tag ∧
      (v ∈ es ∨ tag.IsReported ((c.withStruct d).enter.varDecls ds).found) := by
  obtain ⟨before, v, after, hfields, hname, hb, hfirst⟩ := mem_addFields he
  obtain ⟨tag, hlists, hnone⟩ := unknown_of_fieldBinding? hb hunknown
  refine ⟨v, by simp [hfields], tag, hname ▸ hlists, ?_⟩
  rw [hsplit] at hfields
  rcases List.append_eq_append_iff.1 hfields with ⟨front, -, rfl⟩ | ⟨front, rfl, hes⟩
  · exact .inl (by simp)
  · cases front with
    | nil =>
      rw [List.nil_append] at hes
      exact .inl (hes ▸ List.mem_cons_self)
    | cons w front =>
      obtain ⟨rfl, -⟩ := List.cons_eq_cons.1 hes
      right
      rw [varDecls, all_append, all]
      -- In front of the declaration the name is free, since a field of this name would be listed.
      have hfree : ((c.withStruct d).enter.varDecls before).context.front.lookup
          v.name.name = none := by
        by_contra htaken
        obtain ⟨b, hl⟩ := Option.ne_none_iff_exists'.1 htaken
        rcases mem_front_varDecls (mem_of_lookup hl) with hx | ⟨-, w, hw, hwname, htype⟩
        · cases hx
        · exact htype (hfirst w hw (hwname.trans hname))
      have hfind : ((c.withStruct d).find tag.name).bind (·.structRef?) = none := hnone
      refine (isReported_varDecl hfree hlists.2.1 (find_fields hfind before)).mono ?_
      exact fun x hx => List.mem_append_right _ (List.mem_append_left _ hx)

/-! ### Everything in scope -/

/-- Every instance in scope knows its struct, and so does every instance among the fields of the
structs that are numbered from `base` on, unless `P` holds of the field. -/
structure Explained (base : Nat) (P : String → Binding → Prop) (c : Context) : Prop where
  scopes : ∀ s ∈ c.scopes, s.Forall Binding.Checked
  fields : ∀ t ∈ c.fields.tables.drop base, ∀ s ∈ t.scopes, ∀ e ∈ s, ¬e.2.Checked → P e.1 e.2

namespace Explained

variable {base : Nat} {P Q : String → Binding → Prop}

theorem initial (fields : StructFields) :
    (Context.initial fields).Explained fields.nextId P where
  scopes := by simp [Context.initial, Context.scopes, Scope.Forall]
  fields := by simp [Context.initial, StructFields.nextId]

theorem mono (h : c.Explained base P) (hPQ : ∀ {x b}, P x b → Q x b) : c.Explained base Q :=
  ⟨h.scopes, fun t ht s hs e he hb => hPQ (h.fields t ht s hs e he hb)⟩

theorem find (h : c.Explained base P) {name : String} {b : Binding}
    (hb : c.find name = some b) : b.Checked :=
  Scope.Forall.findSome? h.scopes hb

theorem field (h : c.Explained base P) {id : Nat} (hid : base ≤ id) {name : String} {b : Binding}
    (hb : c.fields.lookup id name = some b) (hunknown : ¬b.Checked) : P name b := by
  obtain ⟨t, ht, s, hs, he⟩ := StructFields.exists_of_lookup hb hid
  exact h.fields t ht s hs _ he hunknown

theorem enter (h : c.Explained base P) : c.enter.Explained base P :=
  ⟨forall_enter h.scopes, h.fields⟩

theorem bind (h : c.Explained base P) {name : String} {b : Binding} (hb : b.Checked) :
    (c.bind name b).Explained base P := ⟨forall_bind h.scopes hb, h.fields⟩

theorem varDecl (h : c.Explained base P) (d : VarDecl) :
    (c.varDecl d).context.Explained base P := by
  rcases c.context_varDecl d with heq | ⟨-, b, hvar, -, heq⟩
  · rw [heq]
    exact h
  · rw [heq]
    exact h.bind hvar.checked

theorem formal (h : c.Explained base P) (f : Formal) :
    (c.formal f).context.Explained base P := by
  fun_cases Context.formal c f with
  | case1 => exact h
  | case2 => exact h
  | case3 => exact h.bind (by simp [Binding.Checked])

theorem fnName (h : c.Explained base P) (d : FnDecl) :
    (c.fnName d).context.Explained base P := by
  fun_cases Context.fnName c d with
  | case1 => exact h
  | case2 => exact h.bind (by simp [Binding.Checked, Session.fnBinding])

theorem varDecls (h : c.Explained base P) (ds : List VarDecl) :
    (c.varDecls ds).context.Explained base P := all_preserves varDecl h ds

theorem formals (h : c.Explained base P) (fs : List Formal) :
    (c.formals fs).context.Explained base P := all_preserves formal h fs

/-- A new table of fields is explained if its fields are. -/
theorem register (h : c.Explained base P) {s : Scope Binding}
    (hs : ∀ e ∈ s, ¬e.2.Checked → P e.1 e.2) :
    Explained base P { c with fields := c.fields.register s } := by
  refine ⟨h.scopes, fun t ht r hr => ?_⟩
  simp only [StructFields.register, List.drop_append] at ht
  rcases List.mem_append.1 ht with ht | ht
  · exact h.fields t ht r hr
  · obtain rfl := List.mem_singleton.1 (List.mem_of_mem_drop ht)
    obtain rfl := List.mem_singleton.1 hr
    exact hs

theorem bind_struct (h : c.Explained base P) (d : StructDecl) :
    (c.bind d.name.name (c.structBinding d)).Explained base P :=
  h.bind (by simp [Binding.Checked, structBinding, Binding.ofStruct])

/-- Behind the name of a struct, what is not yet explained is one of its fields. -/
theorem listed (h : c.Explained base P) (d : StructDecl) :
    (c.withStruct d).Explained base fun x b =>
      P x b ∨ ∃ v ∈ d.fields, ∃ tag, v.ListsUnknown x b tag := by
  refine ((h.bind_struct d).mono .inl).register fun e he hb => .inr ?_
  obtain ⟨before, v, after, hfields, hname, hbinding, -⟩ := mem_addFields he
  obtain ⟨tag, hlists, -⟩ := unknown_of_fieldBinding? hbinding hb
  exact ⟨v, by simp [hfields], tag, hname ▸ hlists⟩

/-- Among the fields of a struct, what is not yet explained is declared behind. -/
theorem withStruct {p : Program} {log : List Diagnostic} {d : StructDecl} {ds es : List VarDecl}
    (h : c.Explained base (p.Reports log)) (hd : .struct d ∈ p.decls)
    (hsplit : d.fields = ds ++ es) :
    (c.withStruct d).Explained base fun x b =>
      p.Reports (log ++ ((c.withStruct d).enter.varDecls ds).found) x b ∨
        ∃ v ∈ es, ∃ tag, v.ListsUnknown x b tag := by
  refine ((h.bind_struct d).mono fun hx => .inl (hx.append _)).register fun e he hb => ?_
  obtain ⟨v, hv, tag, hlists, hahead | hreported⟩ := unknown_of_mem_addFields hsplit he hb
  · exact .inr ⟨v, hahead, tag, hlists⟩
  · exact .inl ⟨d, v, tag, hd, hv, hlists, hreported.mono (List.subset_append_right _ _)⟩

/-- Behind a declaration, everything is explained by the log. -/
theorem decl {p : Program} {log : List Diagnostic} {d : Decl}
    (h : c.Explained base (p.Reports log)) (hd : ∀ s, d = .struct s → .struct s ∈ p.decls) :
    (c.decl d).context.Explained base (p.Reports (log ++ (c.decl d).found)) := by
  cases d with
  | var d => exact (h.varDecl d).mono (·.append _)
  | func d => exact (h.fnName d).mono (·.append _)
  | struct d =>
    simp only [Context.decl]
    fun_cases Context.structDecl c d with
    | case1 => exact h.mono (·.append _)
    | case2 =>
      have hfields := h.withStruct (hd d rfl) (List.append_nil _).symm
      refine hfields.mono fun hx => hx.resolve_right ?_
      rintro ⟨v, hv, -⟩
      cases hv

theorem decls {p : Program} {log : List Diagnostic} {ds : List Decl}
    (h : c.Explained base (p.Reports log)) (hds : ∀ d ∈ ds, d ∈ p.decls) :
    (c.decls ds).context.Explained base (p.Reports (log ++ (c.decls ds).found)) := by
  induction ds generalizing c log with
  | nil => exact h.mono (·.append _)
  | cons d ds ih =>
    obtain ⟨hd, hds⟩ := List.forall_mem_cons.1 hds
    have hrest := ih (h.decl fun s hs => hs ▸ hd) hds
    rwa [List.append_assoc] at hrest

end Explained

end Context

end Carrot
