import Carrot.Proofs.Resolution.Blame
import Carrot.Proofs.Resolution.Frame
import Carrot.Proofs.Resolution.Visits

/-! # The structs of instances

A dot finds the struct of an instance by the name of the instance's type, or else by the
declaration that the instance was checked against. At every visit of a run both are the
same: structs are declared at the top level only, where each name is bound once and for
all, so a name that reaches a struct at all reaches the one that the top level has.
-/

namespace Carrot

/-- If `b` is an instance that knows its struct, then this struct is what the scope `g` binds the
name of the instance's type to. -/
def Binding.Fits (g : Scope Binding) (b : Binding) : Prop :=
  ∀ ref, b.role = .instanceOf (some ref) → (g.lookup b.label).bind (·.structRef?) = some ref

theorem Binding.Fits.mono {g k : Scope Binding} {b : Binding} (h : b.Fits g) (hk : g <+: k) :
    b.Fits k := by
  intro ref hrole
  obtain ⟨rest, rfl⟩ := hk
  obtain ⟨d, hd, href⟩ := Option.bind_eq_some_iff.1 (h ref hrole)
  rw [List.lookup_append, hd]
  exact href

theorem Binding.fits_of_not_instance {g : Scope Binding} {b : Binding}
    (h : ∀ decl, b.role ≠ .instanceOf decl) : b.Fits g :=
  fun ref hrole => absurd hrole (h (some ref))

theorem Scope.Forall.mono {P Q : Binding → Prop} {s : Scope Binding} (h : s.Forall P)
    (hPQ : ∀ b, P b → Q b) : s.Forall Q := fun e he => hPQ e.2 (h e he)

namespace Context

/-- The scope of the top level. -/
def global (c : Context) : Scope Binding := c.scopes.getLast (List.cons_ne_nil _ _)

/-- Structs are bound at the top level only and numbered from `base` on, and every instance in scope
or among their fields fits them. -/
structure Coherent (base : Nat) (c : Context) : Prop where
  inner : ∀ s ∈ c.scopes.dropLast, s.Forall (·.structRef? = none)
  scopes : ∀ s ∈ c.scopes, s.Forall (·.Fits c.global)
  fields : ∀ t ∈ c.fields.tables.drop base, ∀ s ∈ t.scopes, Scope.Forall (·.Fits c.global) s
  refs : c.global.Forall fun b => ∀ ref, b.structRef? = some ref → base ≤ ref.id
  base_le : base ≤ c.fields.nextId

variable {base : Nat} {c : Context}

theorem scopes_eq_append (c : Context) : c.scopes = c.scopes.dropLast ++ [c.global] :=
  (List.dropLast_concat_getLast _).symm

theorem global_prefix_bind (c : Context) (name : String) (b : Binding) :
    c.global <+: (c.bind name b).global := by
  obtain ⟨front, outer, fields⟩ := c
  cases outer with
  | nil => exact List.prefix_append _ _
  | cons s outer => exact List.prefix_rfl

namespace Coherent

theorem initial (fields : StructFields) : (initial fields).Coherent fields.nextId where
  inner := by simp [Context.initial, Context.scopes]
  scopes := by simp [Context.initial, Context.scopes, Scope.Forall]
  fields := by simp [Context.initial, StructFields.nextId]
  refs := by simp [Context.initial, global, Context.scopes, Scope.Forall]
  base_le := Nat.le_refl _

/-- A struct that a name stands for is the one that the top level has under the name. -/
theorem find_struct (h : c.Coherent base) {name : String} {b : Binding} {ref : StructRef}
    (hb : c.find name = some b) (href : b.structRef? = some ref) :
    c.global.lookup name = some b := by
  rw [find, scopes_eq_append, List.findSome?_append] at hb
  cases hinner : c.scopes.dropLast.findSome? (·.lookup name) with
  | some d =>
    rw [hinner, Option.some_or] at hb
    cases hb
    rw [Scope.Forall.findSome? h.inner hinner] at href
    cases href
  | none =>
    rw [hinner, Option.none_or] at hb
    simpa using hb

theorem le_of_find (h : c.Coherent base) {name : String} {b : Binding} {ref : StructRef}
    (hb : c.find name = some b) (href : b.structRef? = some ref) : base ≤ ref.id :=
  h.refs _ (mem_of_lookup (h.find_struct hb href)) ref href

theorem enter (h : c.Coherent base) : c.enter.Coherent base := by
  have hglobal : c.enter.global = c.global := rfl
  refine ⟨fun s hs => ?_, forall_enter h.scopes, h.fields, h.refs, h.base_le⟩
  rcases List.mem_cons.1 hs with rfl | hs
  · exact .nil
  · exact h.inner s hs

/-- A binding that fits can be added, a struct only at the top level and numbered from `base` on. -/
theorem bind_of (h : c.Coherent base) {name : String} {b : Binding}
    (hplace : c.outer = [] ∨ b.structRef? = none)
    (hid : ∀ ref, b.structRef? = some ref → base ≤ ref.id) (hfits : b.Fits c.global) :
    (c.bind name b).Coherent base := by
  -- The top level can only grow, so what fits it fits it still.
  have hprefix := c.global_prefix_bind name b
  refine ⟨fun s hs => ?_, fun s hs => ?_, fun t ht s hs => ?_, ?_, h.base_le⟩
  · obtain ⟨front, outer, fields⟩ := c
    cases outer with
    | nil => cases hs
    | cons t outer =>
      have hnone : b.structRef? = none := hplace.resolve_left (List.cons_ne_nil _ _)
      rcases List.mem_cons.1 hs with rfl | hs
      · exact (h.inner front List.mem_cons_self).append hnone
      · exact h.inner s (List.mem_cons_of_mem _ hs)
  · rcases List.mem_cons.1 hs with rfl | hs
    · exact ((h.scopes _ List.mem_cons_self).mono fun _ hd => hd.mono hprefix).append
        (hfits.mono hprefix)
    · exact (h.scopes s (List.mem_cons_of_mem _ hs)).mono fun _ hd => hd.mono hprefix
  · exact (h.fields t ht s hs).mono fun _ hd => hd.mono hprefix
  · obtain ⟨front, outer, fields⟩ := c
    cases outer with
    | nil => exact h.refs.append hid
    | cons t outer => exact h.refs

/-- Anything but a struct can be bound anywhere. -/
theorem bind (h : c.Coherent base) {name : String} {b : Binding} (hnone : b.structRef? = none)
    (hfits : b.Fits c.global) : (c.bind name b).Coherent base :=
  h.bind_of (.inr hnone) (by simp [hnone]) hfits

/-! ### Expressions -/

/-- The fields of a struct of this run fit. -/
theorem field (h : c.Coherent base) {id : Nat} (hid : base ≤ id) {name : String} {b : Binding}
    (hb : c.fields.lookup id name = some b) : b.Fits c.global := by
  obtain ⟨t, ht, s, hs, he⟩ := StructFields.exists_of_lookup hb hid
  exact h.fields t ht s hs _ he

/-- The struct in which a dot behind an instance looks is one of this run. -/
theorem le_of_structOf? (h : c.Coherent base) {b : Binding} {decl : Option StructRef}
    (hb : b.Fits c.global) (hrole : b.role = .instanceOf decl) {id : Nat}
    (hid : c.names.structOf? b.label decl = some id) : base ≤ id := by
  have hfind : c.names.table.lookupGlobal b.label = c.find b.label := rfl
  unfold Names.structOf? at hid
  rw [hfind] at hid
  split at hid
  · next r hr =>
    cases hid
    obtain ⟨d, hd, href⟩ := Option.bind_eq_some_iff.1 hr
    exact h.le_of_find hd href
  · obtain ⟨ref, rfl, rfl⟩ := Option.map_eq_some_iff.1 hid
    obtain ⟨d, hd, href⟩ := Option.bind_eq_some_iff.1 (hb ref hrole)
    exact h.refs _ (mem_of_lookup hd) ref href

theorem ofBinding_eq_struct {b d : Binding} {p : Position} {decl : Option StructRef}
    (h : Hint.ofBinding b p = .struct d decl) : b = d ∧ d.role = .instanceOf decl := by
  unfold Hint.ofBinding at h
  split at h
  · next hrole =>
    cases h
    exact ⟨rfl, hrole⟩
  · cases h

/-- An instance that an expression offers fits, be it a variable or a field. -/
theorem hint (h : c.Coherent base) {b : Binding} {decl : Option StructRef} :
    ∀ {e : Expr}, (c.names.expr e).hint = .struct b decl →
      b.role = .instanceOf decl ∧ b.Fits c.global
  | .ident x, hx => by
    have hfind : c.names.table.lookupGlobal x.name = c.find x.name := rfl
    rw [Names.expr, Names.ident, hfind] at hx
    cases hb : c.find x.name with
    | none => simp [hb] at hx
    | some d =>
      rw [hb] at hx
      obtain ⟨rfl, hrole⟩ := ofBinding_eq_struct hx
      exact ⟨hrole, Scope.Forall.findSome? h.scopes hb⟩
  | .dot e x, hx => by
    rw [Names.expr] at hx
    cases he : (c.names.expr e).hint with
    | nothing => simp [he, Names.field, Resolved.silent] at hx
    | plain p => simp [he, Names.field] at hx
    | struct d own =>
      -- The receiver is an instance of this run by induction, so its fields are of this run too.
      obtain ⟨hrole, hfits⟩ := h.hint he
      simp only [he, Names.field] at hx
      cases hid : c.names.structOf? d.label own with
      | none => simp [hid, Resolved.silent] at hx
      | some id =>
        have hfields : c.names.fields.lookup id x.name = c.fields.lookup id x.name := rfl
        simp only [hid, hfields] at hx
        cases hg : c.fields.lookup id x.name with
        | none => simp [hg] at hx
        | some g =>
          rw [hg] at hx
          obtain ⟨rfl, hrole'⟩ := ofBinding_eq_struct hx
          exact ⟨hrole', h.field (h.le_of_structOf? hfits hrole hid) hg⟩
  | .int _ _, hx | .str _ _, hx | .bool _ _, hx | .assign _ _, hx | .call _ _, hx | .unary _ _, hx
  | .binary _ _ _, hx => by
    rw [Names.expr] at hx
    cases hx

/-! ### Declarations -/

theorem declareVar (h : c.Coherent base) (d : VarDecl) :
    (c.declareVar d).context.Coherent base := by
  fun_cases Context.declareVar c d with
  | case1 => exact h
  | case2 => exact h
  | case3 tag ht b hb ref href =>
    refine h.bind rfl fun ref' hrole => ?_
    cases hrole
    rw [h.find_struct hb href]
    exact href
  | case4 => exact h.bind rfl (Binding.fits_of_not_instance (by simp))

theorem varDecl (h : c.Coherent base) (d : VarDecl) : (c.varDecl d).context.Coherent base := by
  fun_cases Context.varDecl c d with
  | case1 => exact h
  | case2 => exact h
  | case3 => exact h.declareVar d

theorem formal (h : c.Coherent base) (f : Formal) : (c.formal f).context.Coherent base := by
  fun_cases Context.formal c f with
  | case1 => exact h
  | case2 => exact h
  | case3 => exact h.bind rfl (Binding.fits_of_not_instance (by simp))

theorem fnName (h : c.Coherent base) (d : FnDecl) : (c.fnName d).context.Coherent base := by
  fun_cases Context.fnName c d with
  | case1 => exact h
  | case2 => exact h.bind rfl (Binding.fits_of_not_instance (by simp [Session.fnBinding]))

theorem varDecls (h : c.Coherent base) (ds : List VarDecl) :
    (c.varDecls ds).context.Coherent base := all_preserves varDecl h ds

theorem formals (h : c.Coherent base) (fs : List Formal) :
    (c.formals fs).context.Coherent base := all_preserves formal h fs

theorem fieldBinding? (h : c.Coherent base) {d : VarDecl} {b : Binding}
    (hb : c.fieldBinding? d = some b) : b.Fits c.global := by
  unfold Context.fieldBinding? at hb
  split at hb
  · next tag ht =>
    cases hb
    intro ref hrole
    obtain ⟨e, he, href⟩ := Option.bind_eq_some_iff.1 (Role.instanceOf.inj hrole)
    rw [h.find_struct he href]
    exact href
  · cases hb
  · cases hb
    exact Binding.fits_of_not_instance (by simp)

theorem addFields (h : c.Coherent base) {s : Scope Binding} (hs : s.Forall (·.Fits c.global))
    (ds : List VarDecl) : Scope.Forall (·.Fits c.global) (ds.foldl c.addField s) :=
  forall_addFields hs fun _ _ _ hb => h.fieldBinding? hb

/-- A struct that is declared at the top level gets the next identity. -/
theorem bind_struct (h : c.Coherent base) (ho : c.outer = []) (d : StructDecl) :
    (c.bind d.name.name (c.structBinding d)).Coherent base := by
  refine h.bind_of (.inl ho) (fun ref href => ?_)
    (Binding.fits_of_not_instance (by simp [structBinding, Binding.ofStruct]))
  cases href
  exact h.base_le

/-- A struct whose fields fit can be registered. -/
theorem register (h : c.Coherent base) {s : Scope Binding} (hs : s.Forall (·.Fits c.global)) :
    Context.Coherent base { c with fields := c.fields.register s } := by
  refine ⟨h.inner, h.scopes, fun t ht r hr => ?_, h.refs, ?_⟩
  · simp only [StructFields.register, List.drop_append_of_le_length h.base_le] at ht
    rcases List.mem_append.1 ht with ht | ht
    · exact h.fields t ht r hr
    · obtain rfl := List.mem_singleton.1 ht
      obtain rfl := List.mem_singleton.1 hr
      exact hs
  · simp only [StructFields.nextId_register]
    exact Nat.le_succ_of_le h.base_le

theorem withStruct (h : c.Coherent base) (ho : c.outer = []) (d : StructDecl) :
    (c.withStruct d).Coherent base := by
  have hnamed := h.bind_struct ho d
  exact hnamed.register (hnamed.addFields .nil d.fields)

theorem decl (h : c.Coherent base) (ho : c.outer = []) (d : Decl) :
    (c.decl d).context.Coherent base := by
  cases d with
  | var d => exact h.varDecl d
  | func d => exact h.fnName d
  | struct d =>
    simp only [Context.decl]
    fun_cases Context.structDecl c d with
    | case1 => exact h
    | case2 => exact h.withStruct ho d

theorem decls (h : c.Coherent base) (ho : c.outer = []) (ds : List Decl) :
    (c.decls ds).context.Coherent base ∧ (c.decls ds).context.outer = [] := by
  induction ds generalizing c with
  | nil => exact ⟨h, ho⟩
  | cons d ds ih => exact ih (h.decl ho d) ((c.gains_decl d).outer.trans ho)

end Coherent

end Context

/-! ### Visits -/

/-- The nodes that are only visited at the top level. -/
def Node.IsTop : Node → Prop
  | .program _ | .decl (.func _) | .decl (.struct _) => True
  | _ => False

namespace Session

/-- The session is without a fault, and what is in scope when it comes to the node is coherent. -/
def Coherent (base : Nat) (s : Session) (n : Node) : Prop :=
  ∃ c m log, s = ofContext c m log ∧ c.Coherent base ∧ (n.IsTop → c.outer = [])

/-- Calls hand on that what is in scope is coherent. -/
theorem Coherent.call {base : Nat} {s t : Session} {n k : Node} (h : s.Coherent base n)
    (hcall : s.Calls n t k) (ht : t.fault = none) : t.Coherent base k := by
  obtain ⟨c, m, log, rfl, hc, htop⟩ := h
  obtain ⟨d, ds, rfl, hcalls⟩ := hcall.context ht
  refine ⟨d, _, _, rfl, ?_⟩
  cases hcalls with
  | topDecl =>
    obtain ⟨hcoherent, houter⟩ := hc.decls (htop trivial) _
    exact ⟨hcoherent, fun _ => houter⟩
  | formal | fnBody => exact ⟨(hc.fnName _).enter.formals _, False.elim⟩
  | field => exact ⟨(hc.withStruct (htop trivial) _).enter.varDecls _, False.elim⟩
  | localDecl | stmt => exact ⟨hc.varDecls _, False.elim⟩
  | head | part => exact ⟨hc, False.elim⟩
  | block => exact ⟨hc.enter, False.elim⟩

/-- At every visit of a run, what is in scope is coherent. -/
theorem Visits.coherent {p : Program} {fields : StructFields} {t : Session} {k : Node}
    (h : (new fields).Visits (.program p) t k) : t.Coherent fields.nextId k :=
  h.invariant ⟨.initial fields, false, [], rfl, .initial fields, fun _ => rfl⟩ Coherent.call

end Session

/-! ### Dots behind instances -/

namespace Context.Coherent

variable {base : Nat} {c : Context} {b : Binding} {ref : StructRef}

/-- Where the name of an instance's type reaches a struct, it is the struct of the instance. -/
theorem eq_of_find (h : c.Coherent base) (hb : b.Fits c.global)
    (hrole : b.role = .instanceOf (some ref)) {d : Binding} {r : StructRef}
    (hd : c.find b.label = some d) (hr : d.structRef? = some r) : r = ref := by
  have hlabel := hb ref hrole
  rw [h.find_struct hd hr, Option.bind_some, hr] at hlabel
  exact Option.some.inj hlabel

/-- A dot looks in the struct of the instance, whether the name of its type reaches it or not. -/
theorem structOf?_eq (h : c.Coherent base) (hb : b.Fits c.global)
    (hrole : b.role = .instanceOf (some ref)) :
    c.names.structOf? b.label (some ref) = some ref.id := by
  have hfind : c.names.table.lookupGlobal b.label = c.find b.label := rfl
  unfold Names.structOf?
  rw [hfind]
  split
  · next r hr =>
    obtain ⟨d, hd, href⟩ := Option.bind_eq_some_iff.1 hr
    rw [h.eq_of_find hb hrole hd href]
  · rfl

end Context.Coherent

namespace Resolution

/-- At every dot that a run visits behind an instance which knows its struct: this struct is the
declaration that the top level binds under the name of the instance's type; wherever that name
reaches a struct, it reaches this one, and otherwise the instance gives it; and the field is
looked up in its table. -/
theorem struct_of_dot {p : Program} {fields : StructFields} {t : Session} {e : Expr} {x : Ident}
    {b : Binding} {ref : StructRef}
    (hvisit : (Session.new fields).Visits (.program p) t (.expr (.dot e x)))
    (hb : (t.names.expr e).hint = .struct b (some ref)) :
    b.role = .instanceOf (some ref) ∧
      (∃ top d, t.table.scopes.getLast? = some top ∧ top.lookup b.label = some d ∧
        d.structRef? = some ref) ∧
      (∀ d r, t.table.lookupGlobal b.label = some d → d.structRef? = some r → r = ref) ∧
      t.names.structOf? b.label (some ref) = some ref.id ∧
      (t.expr (.dot e x)).1 =
        .dot (t.expr e).1 { x with binding := (t.fields.lookup ref.id x.name).or x.binding } ∧
      (t.expr (.dot e x)).2.log = t.log ++
        if (t.fields.lookup ref.id x.name).isSome then []
        else [.error x.position .invalidStructField] := by
  obtain ⟨c, m, log, rfl, hc, -⟩ := hvisit.coherent
  have hnames (e : Expr) : (Session.ofContext c m log).names.expr e = c.names.expr e :=
    Names.expr_congr (n := (Session.ofContext c m log).names) (k := c.names) rfl rfl e
  rw [hnames] at hb
  obtain ⟨hrole, hfits⟩ := hc.hint hb
  obtain ⟨d, hd, href⟩ := Option.bind_eq_some_iff.1 (hfits ref hrole)
  have hstruct := hc.structOf?_eq hfits hrole
  have hfound : (c.names.expr e).found = [] := Names.found_of_hint (by simp [hb])
  have hfields : (Session.ofContext c m log).fields.lookup ref.id x.name =
      c.names.fields.lookup ref.id x.name := rfl
  refine ⟨hrole, ⟨c.global, d, List.getLast?_eq_some_getLast _, hd, href⟩,
    fun _ _ => hc.eq_of_find hfits hrole, hstruct, ?_⟩
  rw [hfields, Session.expr_ofContext, Session.expr_ofContext]
  simp only [Resolved.session, Names.expr, hb, hfound, Names.field, hstruct, List.nil_append]
  cases c.names.fields.lookup ref.id x.name with
  | none => exact ⟨rfl, rfl⟩
  | some f => exact ⟨rfl, rfl⟩

/-- The receiver of a dot: a field of a field of the variable `v`. -/
def chain : Expr :=
  .dot (.dot (.ident ⟨"v", ⟨6, 1⟩, none⟩) ⟨"next", ⟨6, 3⟩, none⟩) ⟨"next", ⟨6, 8⟩, none⟩

def chainAssign : Stmt := .assign (.dot chain ⟨"n", ⟨6, 13⟩, none⟩) (.int 1 ⟨6, 17⟩)

def chainBranch : Stmt := .ifThen (.bool true ⟨5, 5⟩) [] [chainAssign]

/-- A function in which a formal has the name of the struct. -/
def hidingFn : FnDecl :=
  ⟨.void, ⟨"f", ⟨4, 6⟩, none⟩, [⟨.int, ⟨"S", ⟨4, 12⟩, none⟩⟩], ⟨[], [chainBranch]⟩⟩

/-- A struct with a field of its own type, a variable of it, and a function that hides it. -/
def hidingDecls : List Decl :=
  [.struct ⟨⟨"S", ⟨1, 8⟩, none⟩, [⟨.struct ⟨"S", ⟨1, 19⟩, none⟩, ⟨"next", ⟨1, 21⟩, none⟩, 0⟩,
      ⟨.int, ⟨"n", ⟨2, 5⟩, none⟩, VarDecl.notStruct⟩]⟩,
    .var ⟨.struct ⟨"S", ⟨3, 8⟩, none⟩, ⟨"v", ⟨3, 10⟩, none⟩, 0⟩]

def hidingStructProgram : Program := ⟨hidingDecls ++ [.func hidingFn], stdinName⟩

theorem struct_of_dot_hidden : ∃ t b ref,
    (Session.new .empty).Visits (.program hidingStructProgram) t
        (.expr (.dot chain ⟨"n", ⟨6, 13⟩, none⟩)) ∧
      (t.names.expr chain).hint = .struct b (some ref) ∧
      (t.table.lookupGlobal b.label).map (·.structRef?) = some none ∧
      ref.declaredAt = some ⟨1, 8⟩ ∧ t.names.structOf? b.label (some ref) = some ref.id := by
  have hstart : (Session.new .empty).Visits (.program hidingStructProgram) (.new .empty)
      (.program hidingStructProgram) := .here rfl
  have hfn := hstart.call
    (.topDecl (show hidingStructProgram.decls = hidingDecls ++ .func hidingFn :: [] from rfl)) rfl
  have hbody := hfn.call .fnBody rfl
  have hbranch := hbody.call
    (.stmt (show hidingFn.body.stmts = [] ++ chainBranch :: [] from rfl)) rfl
  have hblock := hbranch.call
    (.block rfl (show chainBranch.blocks = [] ++ ⟨[], [chainAssign]⟩ :: [] from rfl)) rfl
  have hassign := hblock.call
    (.stmt (show [chainAssign] = [] ++ chainAssign :: [] from rfl)) rfl
  have htarget := (hassign.call (.head rfl) rfl).call
    (.part (show Expr.parts (.assign (.dot chain ⟨"n", ⟨6, 13⟩, none⟩) (.int 1 ⟨6, 17⟩)) =
      [] ++ .dot chain ⟨"n", ⟨6, 13⟩, none⟩ :: [.int 1 ⟨6, 17⟩] from rfl)) rfl
  exact ⟨_, _, _, htarget, rfl, rfl, rfl, (struct_of_dot htarget rfl).2.2.2.1⟩

end Resolution

end Carrot
