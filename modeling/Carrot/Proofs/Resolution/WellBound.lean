import Carrot.Proofs.Resolution.Bindings

/-! # Well-formed bindings

In all sessions that a run passes through, the bindings in scope and among the fields of structs are
well-formed, and the run passes from one to the next by single operations.
-/

namespace Carrot

namespace Session

/-! ### Well-formed bindings -/

/-- The fields of the struct `id`, which is one of those that are numbered from `base` on. -/
def HasFields (base : Nat) (s : Session) (id : Nat) (t : SymbolTable Binding) : Prop :=
  base ≤ id ∧ s.fields.tables[id]? = some t

/-- A binding stands in a scope, or among the fields of a struct. -/
def Holds (base : Nat) (s : Session) (b : Binding) : Prop :=
  ∃ scope, (scope ∈ s.table.scopes ∨ ∃ id t, s.HasFields base id t ∧ scope ∈ t.scopes) ∧
    ∃ x, (x, b) ∈ scope

/-- All bindings of a session are well-formed, if the structs of the run are numbered from `base`
on. -/
structure WellBound (base : Nat) (focus : Focus) (s : Session) : Prop where
  /-- Only functions are void. -/
  void : ∀ b, s.Holds base b → b.label = Binding.voidLabel → ∃ ps, b.role = .func ps
  /-- Fields are variables in one scope. -/
  fields : ∀ id t, s.HasFields base id t → ∃ scope, t.scopes = [scope] ∧
    ∀ e ∈ scope, e.2.role = .var ∨ ∃ decl, e.2.role = .instanceOf decl
  /-- Formals are those of the function that is visited, and stand in its outermost scope. -/
  formals : ∀ inner scope outer, s.table.scopes = inner ++ scope :: outer → ∀ x b, (x, b) ∈ scope →
    b.role = .formal → outer.length = 1 ∧
      ∃ d f, focus = .function d ∧ f ∈ d.formals ∧ x = f.name.name ∧ b = f.binding
  /-- Functions and structs stand at the top level. -/
  top : ∀ inner scope outer, s.table.scopes = inner ++ scope :: outer → ∀ x b, (x, b) ∈ scope →
    ((∃ ps, b.role = .func ps) ∨ ∃ name id, b.role = .structDecl name id) → outer = []
  /-- In scope, instances know their structs. -/
  known : ∀ scope ∈ s.table.scopes, ∀ x b, (x, b) ∈ scope → b.role ≠ .instanceOf none
  /-- The struct of an instance is what the top level has under the name of the instance's type. -/
  declared : ∀ b ref, s.Holds base b → b.role = .instanceOf (some ref) →
    ∃ global d, s.table.scopes.getLast? = some global ∧ global.lookup b.label = some d ∧
      d.structRef? = some ref
  /-- A signature repeats no name, and has a type for each. -/
  signatures : ∀ b ps, s.Holds base b → b.role = .func ps →
    (ps.map (·.name)).Nodup ∧ (ps.map (·.name)).length = (ps.map (·.type)).length
  /-- If a field knows no struct, there was an error, unless its struct is still being visited. -/
  unknown : ∀ id t, s.HasFields base id t → t.HasUnknown → s.table.marked ∨ focus = .struct id

end Session

/-! ### From contexts to sessions -/

namespace Scope.Admits

variable {fs : List Formal} {depth : Nat} {x : String} {b : Binding}

theorem func_of_void (h : Admits fs depth (x, b)) (hlabel : b.label = Binding.voidLabel) :
    ∃ ps, b.role = .func ps := by
  cases h with
  | var _ hne => exact absurd hlabel hne
  | formal _ htype => exact absurd hlabel (TypeExpr.label_ne_void htype)
  | func d => exact ⟨_, rfl⟩
  | struct =>
    exact absurd hlabel (by simp [Binding.ofStruct, Binding.structLabel, Binding.voidLabel])

theorem formal_of_role (h : Admits fs depth (x, b)) (hrole : b.role = .formal) :
    depth = 1 ∧ ∃ f ∈ fs, x = f.name.name ∧ b = f.binding := by
  cases h with
  | var hb => rcases hb with hb | ⟨ref, hb⟩ <;> cases hb.symm.trans hrole
  | formal hf _ hdepth => exact ⟨hdepth, _, hf, rfl, rfl⟩
  | func | struct => cases hrole

theorem depth_of_role (h : Admits fs depth (x, b))
    (hrole : (∃ ps, b.role = .func ps) ∨ ∃ name id, b.role = .structDecl name id) : depth = 0 := by
  cases h with
  | var hb => rcases hb with hb | ⟨ref, hb⟩ <;> simp [hb] at hrole
  | formal => simp [Formal.binding] at hrole
  | func _ hdepth => exact hdepth
  | struct _ _ _ hdepth => exact hdepth

theorem checked (h : Admits fs depth (x, b)) : b.Checked := by
  cases h with
  | var hb => exact hb.checked
  | formal | func | struct => simp [Binding.Checked, Formal.binding, Session.fnBinding,
      Binding.ofStruct]

theorem nodup_params (h : Admits fs depth (x, b)) {ps : List Param} (hrole : b.role = .func ps) :
    (ps.map (·.name)).Nodup := by
  cases h with
  | var hb => rcases hb with hb | ⟨ref, hb⟩ <;> cases hb.symm.trans hrole
  | formal | struct => cases hrole
  | func d =>
    rw [Session.fnBinding_eq] at hrole
    cases hrole
    rw [Formal.params, List.map_map]
    exact nodup_firsts _ _

end Scope.Admits

namespace Session

/-- The session without a fault that has `c` in scope, and a mark if something was found. -/
def noted (c : Context) (log : List Diagnostic) : Session := ofContext c (!log.isEmpty) log

theorem noted_append (c : Context) (log ds : List Diagnostic) :
    ofContext c (!log.isEmpty || !ds.isEmpty) (log ++ ds) = noted c (log ++ ds) := by
  cases log <;> cases ds <;> rfl

/-- A struct whose name is free is bound, and its fields are listed. -/
theorem withStruct_noted {c : Context} {d : StructDecl} (log : List Diagnostic)
    (hname : d.name.name ≠ "") (hd : ∀ v ∈ d.fields, v.WellFormed)
    (hfree : c.front.lookup d.name.name = none) :
    ((noted c log).withStruct d).2 = noted (c.withStruct d) log :=
  (withStruct_ofContext _ log (named_cons.2 ⟨hname, named_varDecls hd⟩) hfree).2

end Session

namespace Context.WellBound

open Session (noted)

variable {base : Nat} {focus : Focus} {log : List Diagnostic} {c : Context} {b : Binding}

theorem fits (h : c.WellBound base focus log) (hb : (noted c log).Holds base b) :
    b.Fits c.global := by
  obtain ⟨scope, hscope | ⟨id, t, ⟨hid, ht⟩, hscope⟩, x, hx⟩ := hb
  · exact h.coherent.scopes scope hscope _ hx
  · exact h.coherent.fields t (mem_drop_of_getElem? ht hid) scope hscope _ hx

theorem admits (h : c.WellBound base focus log) {inner outer : List (Scope Binding)}
    {scope : Scope Binding} (hsplit : (noted c log).table.scopes = inner ++ scope :: outer)
    {x : String} (hx : (x, b) ∈ scope) : Scope.Admits focus.formals outer.length (x, b) := by
  have hlayered : Scope.Layered focus.formals (inner ++ scope :: outer) := hsplit ▸ h.layered
  exact hlayered.admits _ hx

/-- A binding stands where a scope admits it, or is a field. -/
theorem admits_or_isField (h : c.WellBound base focus log) (hb : (noted c log).Holds base b) :
    (∃ depth x, Scope.Admits focus.formals depth (x, b)) ∨ b.IsField := by
  obtain ⟨scope, hscope | ⟨id, t, ⟨hid, ht⟩, hscope⟩, x, hx⟩ := hb
  · obtain ⟨inner, outer, hsplit⟩ := List.append_of_mem hscope
    exact .inl ⟨_, x, h.admits hsplit hx⟩
  · obtain ⟨s, hs, hfields⟩ := h.fields id t hid ht
    rw [hs, List.mem_singleton] at hscope
    exact .inr (hfields _ (hscope ▸ hx))

theorem session (h : c.WellBound base focus log) : (noted c log).WellBound base focus where
  void b hb hlabel := by
    rcases h.admits_or_isField hb with ⟨depth, x, hadmits⟩ | hfield
    · exact hadmits.func_of_void hlabel
    · exact absurd hlabel hfield.label_ne
  fields id t ht := by
    obtain ⟨scope, hscope, hfields⟩ := h.fields id t ht.1 ht.2
    exact ⟨scope, hscope, fun e he => (hfields e he).role⟩
  formals inner scope outer hsplit x b hx hrole := by
    obtain ⟨hdepth, f, hf, hname, hb⟩ := (h.admits hsplit hx).formal_of_role hrole
    cases focus with
    | function d => exact ⟨hdepth, d, f, rfl, hf, hname, hb⟩
    | top | struct => cases hf
  top inner scope outer hsplit x b hx hrole :=
    List.length_eq_zero_iff.1 ((h.admits hsplit hx).depth_of_role hrole)
  known scope hscope x b hx := by
    obtain ⟨inner, outer, hsplit⟩ := List.append_of_mem hscope
    exact (h.admits hsplit hx).checked
  declared b ref hb hrole := by
    obtain ⟨d, hd, href⟩ := Option.bind_eq_some_iff.1 (h.fits hb ref hrole)
    exact ⟨c.global, d, List.getLast?_eq_some_getLast _, hd, href⟩
  signatures b ps hb hrole := by
    refine ⟨?_, by rw [List.length_map, List.length_map]⟩
    rcases h.admits_or_isField hb with ⟨depth, x, hadmits⟩ | hfield
    · exact hadmits.nodup_params hrole
    · rcases hfield.role with hvar | ⟨decl, hinstance⟩
      · cases hvar.symm.trans hrole
      · cases hinstance.symm.trans hrole
  unknown id t ht hunknown := by
    refine (h.unknown id t ht.1 ht.2 hunknown).imp_left fun hlog => ?_
    simpa [noted, Session.ofContext] using hlog

end Context.WellBound

/-! ### Steps of a run -/

def Node.WellFormed : Node → Prop
  | .program p => p.WellFormed
  | .decl d => d.WellFormed
  | .formal f => f.WellFormed
  | .body b => b.WellFormed
  | .stmt t => t.WellFormed
  | .expr _ | .type _ | .position _ => True

/-- What is in scope when a node is visited with this focus: functions and structs are visited at
the top level, and formals in the scope of their function. -/
def Focus.Admits (focus : Focus) (c : Context) : Node → Prop
  | .program _ => False
  | .decl (.func d) => focus = .function d ∧ c.outer = []
  | .decl (.struct _) => focus = .struct c.fields.nextId ∧ c.outer = []
  | .formal f => f ∈ focus.formals ∧ c.outer.length = 1
  | _ => True

theorem Stmt.WellFormed.blocks {t : Stmt} (h : t.WellFormed) : ∀ b ∈ t.blocks, b.WellFormed := by
  cases t with
  | ifThen | whileLoop | repeatLoop => exact List.forall_mem_singleton.2 ⟨h.2.1, h.2.2⟩
  | ifElse =>
    obtain ⟨-, hds, hss, heds, hess⟩ := h
    exact List.forall_mem_cons.2 ⟨⟨hds, hss⟩, List.forall_mem_singleton.2 ⟨heds, hess⟩⟩
  | assign | increment | decrement | read | write | call | ret =>
    exact fun b hb => absurd hb List.not_mem_nil

namespace Session

variable {base : Nat} {focus : Focus} {s t : Session} {n k : Node}

/-- The session is given by what is in scope, and there the node can be visited. -/
def Bound (base : Nat) (focus : Focus) (s : Session) (n : Node) : Prop :=
  ∃ c log, s = noted c log ∧ c.WellBound base focus log ∧ n.WellFormed ∧ focus.Admits c n

/-- Calls hand on that what is in scope is well-bound. -/
theorem Bound.call (h : s.Bound base focus n) (hcall : s.Calls n t k) (ht : t.fault = none) :
    t.Bound base focus k := by
  obtain ⟨c, log, rfl, hc, hn, hplace⟩ := h
  obtain ⟨d, found, rfl, hcalls⟩ := hcall.context ht
  refine ⟨d, _, noted_append _ _ _, ?_⟩
  cases hcalls with
  | topDecl => exact hplace.elim
  | @formal d fs gs f hsplit =>
    obtain ⟨rfl, ho⟩ := hplace
    obtain ⟨hcontext, hdepth⟩ := hc.fnFormals ho (show fs ⊆ d.formals by simp [hsplit])
    have hf : f ∈ d.formals := by simp [hsplit]
    exact ⟨hcontext.append _, hn.formals f hf, hf, hdepth⟩
  | @fnBody d =>
    obtain ⟨rfl, ho⟩ := hplace
    exact ⟨(hc.fnFormals ho (List.Subset.refl d.formals)).1.append _, hn.body, trivial⟩
  | @field d ds es v hfree hsplit =>
    obtain ⟨rfl, ho⟩ := hplace
    obtain ⟨hds, hv⟩ := List.forall_mem_append.1 (hsplit ▸ hn.fields)
    have hcontext := (hc.withStruct ho hn.fields).enter.varDecls hds
    exact ⟨hcontext.append _, hv v List.mem_cons_self, trivial⟩
  | @localDecl b ds es v hsplit =>
    obtain ⟨hds, hv⟩ := List.forall_mem_append.1 (hsplit ▸ hn.decls)
    exact ⟨(hc.varDecls hds).append _, hv v List.mem_cons_self, trivial⟩
  | stmt hsplit =>
    have hstmts := hn.stmts
    rw [hsplit, Stmt.listWellFormed_append] at hstmts
    exact ⟨(hc.varDecls hn.decls).append _, hstmts.2.1, trivial⟩
  | head | part => exact ⟨hc.append _, trivial, trivial⟩
  | block he hsplit => exact ⟨hc.enter.append _, hn.blocks _ (by simp [hsplit]), trivial⟩

/-- The session is given by what is in scope, and this is well-bound. -/
def Settled (base : Nat) (focus : Focus) (s : Session) : Prop :=
  ∃ c log, s = noted c log ∧ c.WellBound base focus log

theorem Settled.of_bound (h : s.Bound base focus n) : s.Settled base focus := by
  obtain ⟨c, log, hs, hc, -⟩ := h
  exact ⟨c, log, hs, hc⟩

theorem Bound.behind (h : s.Bound base focus n) (hs : (s.node n).2.2.fault = none) :
    (s.node n).2.2.Settled base focus := by
  obtain ⟨c, log, rfl, hc, hn, hplace⟩ := h
  refine ⟨(c.behindNode n).1, _, (node_of_fault hs).trans (noted_append _ _ _), ?_⟩
  have hbehind : (c.behindNode n).1.WellBound base focus log := by
    cases n with
    | program p => exact hplace.elim
    | decl d =>
      cases d with
      | var d => exact hc.varDecl hn
      | func d => exact hc.fnName hplace.2 d
      | struct d =>
        obtain ⟨rfl, ho⟩ := hplace
        simp only [Context.behindNode, Context.decl]
        fun_cases Context.structDecl c d with
        | case1 => exact hc
        | case2 => exact hc.withStruct ho hn.fields
    | formal f => exact hc.formal hplace.2 hplace.1
    | body b => exact hc.varDecls hn.decls
    | stmt | expr | type | position => exact hc
  exact hbehind.append _

theorem Bound.during (h : s.Bound base focus n) (hs : (s.node n).2.2.fault = none)
    (ht : s.During n t) : t.Settled base focus := by
  have hvisited {t : Session} {k : Node} (hd : s.Descends n t k) :
      t.Bound base focus k ∧ (t.node k).2.2.fault = none :=
    ⟨(hd.visits hs).invariant h Bound.call, hd.fault_of_node hs⟩
  cases ht with
  | before hd => exact .of_bound (hvisited hd).1
  | behind hd =>
    obtain ⟨hbound, hfault⟩ := hvisited hd
    exact hbound.behind hfault
  | @blocks t x e bs cs hd he hsplit =>
    obtain ⟨⟨c, log, rfl, hc, -⟩, hfault⟩ := hvisited hd
    have hall : (all block ((noted c log).expr e).2 x.blocks).2.fault = none :=
      stmt_eq_head c _ log he ▸ hfault
    rw [hsplit, all_append] at hall
    have hblocks := fault_of_all (f := Session.block) fault_of_block hall
    rw [noted, expr_ofContext] at hblocks ⊢
    simp only [Resolved.session] at hblocks ⊢
    refine ⟨c, log ++ ((c.names.expr e).found ++ bs.flatMap fun b => (c.enter.body b).found), ?_,
      hc.append _⟩
    rw [blocks_of_fault hblocks, ← noted_append, ← marked_append, ← List.append_assoc]
  | @signature t d fs gs hd hsplit =>
    -- The signature so far is that of the function with the first of its formals.
    obtain ⟨⟨c, log, rfl, hc, hn, hplace⟩, -⟩ := hvisited hd
    rw [noted, fnName_ofContext c { d with formals := fs } _ log hn.name.name_ne]
    exact ⟨_, _, noted_append _ _ _, (hc.fnName hplace.2 _).append _⟩
  | @numbered t d hd hfree =>
    obtain ⟨⟨c, log, rfl, hc, hn, rfl, -⟩, -⟩ := hvisited hd
    exact ⟨_, log, rfl, hc.register .nil .nil⟩
  | @listed t d ds es hd hfree hsplit =>
    obtain ⟨⟨c, log, rfl, hc, hn, rfl, ho⟩, -⟩ := hvisited hd
    obtain ⟨hds, -⟩ := List.forall_mem_append.1 (hsplit ▸ hn.fields)
    have hstruct := withStruct_noted (d := { d with fields := ds }) log hn.name.name_ne hds hfree
    exact ⟨_, log, hstruct, hc.withStruct (d := { d with fields := ds }) ho hds⟩
  | @declared t d ds es hd hfree hsplit =>
    obtain ⟨⟨c, log, rfl, hc, hn, rfl, ho⟩, -⟩ := hvisited hd
    obtain ⟨hds, -⟩ := List.forall_mem_append.1 (hsplit ▸ hn.fields)
    rw [withStruct_noted log hn.name.name_ne hn.fields hfree, noted, push_ofContext,
      varDecls_ofContext _ _ _ _ (named_varDecls hds)]
    exact ⟨_, _, noted_append _ _ _, ((hc.withStruct ho hn.fields).enter.varDecls hds).append _⟩

/-! ### Runs -/

/-- Between declarations of the top level, what is in scope is well-bound. -/
theorem settled_decls {p : Program} (fields : StructFields) (hp : p.WellFormed) {ds es : List Decl}
    (hsplit : p.decls = ds ++ es) :
    ∃ c log, (all decl (new fields) ds).2 = noted c log ∧
      c.WellBound fields.nextId .top log ∧ c.outer = [] := by
  have hds (d : Decl) (hd : d ∈ ds) : d ∈ p.decls := by simp [hsplit, hd]
  have hnamed : Named (ds.flatMap Decl.declared) := by
    intro x hx
    obtain ⟨d, hd, hx⟩ := List.mem_flatMap.1 hx
    exact hp.named x (List.mem_flatMap.2 ⟨d, hds d hd, hx⟩)
  have hdecls := decls_ofContext (.initial fields) ds false [] hnamed
  obtain ⟨hcontext, ho⟩ := (Context.WellBound.initial fields).decls rfl fun d hd => hp d (hds d hd)
  exact ⟨_, _, congrArg Prod.snd hdecls, hcontext, ho⟩

/-- All sessions of a run are well-bound. -/
theorem RunsThrough.settled {p : Program} {fields : StructFields} (hp : p.WellFormed)
    (h : (new fields).RunsThrough p focus t) : t.Settled fields.nextId focus := by
  cases h with
  | top hsplit =>
    obtain ⟨c, log, hs, hc, -⟩ := settled_decls fields hp hsplit
    exact ⟨c, log, hs, hc⟩
  | @inside ds es d t hsplit ht =>
    obtain ⟨c, log, hs, hc, ho⟩ := settled_decls fields hp hsplit
    rw [hs] at ht ⊢
    have hd : d ∈ p.decls := by simp [hsplit]
    have hnamed : Named d.declared := fun x hx => hp.named x (List.mem_flatMap.2 ⟨d, hd, hx⟩)
    have hfault : ((noted c log).decl d).2.fault = none := by
      rw [noted, decl_ofContext c d _ log hnamed]
      rfl
    have hplace : (Focus.of (noted c log) d).Admits c (.decl d) := by
      cases d with
      | var => exact trivial
      | func => exact ⟨rfl, ho⟩
      | struct => exact ⟨rfl, ho⟩
    have hbound : (noted c log).Bound fields.nextId (.of (noted c log) d) (.decl d) :=
      ⟨c, log, rfl, hc.within _, hp d hd, hplace⟩
    exact hbound.during hfault ht

end Session

namespace Resolution

/-- In every session that a run over a parsed program passes through in a new table, there is no
fault and all bindings are well-formed. These are all sessions of the run: single operations lead
from each to the next, from the new table to the end. -/
theorem wellBound_of_runsThrough {text file : String} {p : Program} (fields : StructFields)
    (hp : (Source.parse text file).result = .ok p) :
    (∀ focus t, (Session.new fields).RunsThrough p focus t →
      t.fault = none ∧ t.WellBound fields.nextId focus) ∧
    Relation.ReflTransGen
      (fun s t => s.Moves t ∧ ∃ focus, (Session.new fields).RunsThrough p focus t)
      (.new fields) (ofProgram p fields).session := by
  have hruns (focus : Focus) (t : Session) (ht : (Session.new fields).RunsThrough p focus t) :
      t.fault = none ∧ t.WellBound fields.nextId focus := by
    obtain ⟨c, log, rfl, hc⟩ := ht.settled (Source.wellFormed_of_parse hp)
    exact ⟨rfl, hc.session⟩
  have hend : (ofProgram p fields).session.fault = none :=
    (hruns .top _ (.top (List.append_nil p.decls).symm)).1
  exact ⟨hruns, @Session.leads_program (.initial fields) false [] p hend⟩

/-- In front of the statement in the function: the formal and the variable are in the scope of the
function, which is void itself. -/
theorem wellBound_of_runsThrough_setter : ∃ d t,
    (Source.parse setterText stdinName).result = .ok ⟨setterDecls, stdinName⟩ ∧
      (Session.new .empty).RunsThrough ⟨setterDecls, stdinName⟩ (.function d) t ∧
      t.table.snapshot (·.label) =
        [[("n", "int"), ("t", "s")], [("s", "struct"), ("f", "void")]] ∧
      t.fault = none ∧ t.WellBound 0 (.function d) := by
  have hruns := @Session.RunsThrough.inside (.new .empty) ⟨setterDecls, stdinName⟩
    (setterDecls.take 1) [] _ _ rfl
    (.before ((Session.Descends.here.call .fnBody).call (@Session.Calls.stmt _ _ [] _ _ rfl)))
  exact ⟨_, _, parse_setterText, hruns, by decide,
    (wellBound_of_runsThrough .empty parse_setterText).1 _ _ hruns⟩

end Resolution

end Carrot
