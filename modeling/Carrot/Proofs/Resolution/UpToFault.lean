import Carrot.Proofs.Resolution.Faultless

/-! # Sessions up to a fault

Where a declared name is empty, a session may meet a fault; nothing is visited behind it.
A session that has none at the end of a visit had none at any time before, and then the
visit gave what the scopes and struct fields alone determine, whatever the names are.
-/

namespace Carrot.Session

/-! ### Faults last -/

section Lasting

variable {s : Session}

/-- A guarded operation leaves a session with a fault as it is. -/
theorem fault_of_guard {t : Session} (h : (if s.fault.isSome then s else t).fault = none) :
    s.fault = none := by
  split at h
  · exact h
  · next hnone => exact Option.not_isSome_iff_eq_none.1 hnone

theorem fault_of_run {α : Type} {x : α} {f : α → Session → α × Session}
    (h : (s.run x f).2.fault = none) : s.fault = none := by
  rw [run, apply_ite Prod.snd] at h
  exact fault_of_guard h

theorem fault_of_push (h : s.push.fault = none) : s.fault = none := fault_of_guard h

theorem fault_of_pop (h : s.pop.fault = none) : s.fault = none := fault_of_guard h

theorem fault_of_all {α : Type} {f : Session → α → α × Session}
    (hf : ∀ {s x}, (f s x).2.fault = none → s.fault = none) {xs : List α}
    (h : (all f s xs).2.fault = none) : s.fault = none := by
  induction xs generalizing s with
  | nil => exact h
  | cons x xs ih => exact hf (ih h)

theorem fault_of_varDecl {d : VarDecl} (h : (s.varDecl d).2.fault = none) : s.fault = none :=
  fault_of_run h

theorem fault_of_formal {f : Formal} (h : (s.formal f).2.fault = none) : s.fault = none :=
  fault_of_run h

theorem fault_of_fnDecl {d : FnDecl} (h : (s.fnDecl d).2.fault = none) : s.fault = none :=
  fault_of_run h

theorem fault_of_structDecl {d : StructDecl} (h : (s.structDecl d).2.fault = none) :
    s.fault = none :=
  fault_of_run h

theorem fault_of_varDecls {ds : List VarDecl} (h : (all varDecl s ds).2.fault = none) :
    s.fault = none := fault_of_all fault_of_varDecl h

theorem fault_of_formals {fs : List Formal} (h : (all formal s fs).2.fault = none) :
    s.fault = none := fault_of_all fault_of_formal h

mutual

/-- Nothing is visited behind a fault: a statement without one at its end had none at its start. -/
theorem fault_of_stmt {s : Session} : ∀ {t : Stmt}, (s.stmt t).2.fault = none → s.fault = none
  | .assign _ _, h => by
    rw [stmt] at h
    exact fault_of_run (fault_of_run h)
  | .increment _, h | .decrement _, h | .read _, h | .write _, h | .ret (some _), h => by
    rw [stmt] at h
    exact fault_of_run h
  | .ret none, h => by
    rw [stmt] at h
    exact h
  | .ifThen _ _ _, h | .whileLoop _ _ _, h | .repeatLoop _ _ _, h => by
    rw [stmt] at h
    exact fault_of_run (fault_of_push (fault_of_varDecls (fault_of_stmts (fault_of_pop h))))
  | .ifElse _ _ _ _ _, h => by
    rw [stmt] at h
    have hthen := fault_of_push (fault_of_varDecls (fault_of_stmts (fault_of_pop h)))
    exact fault_of_run (fault_of_push (fault_of_varDecls (fault_of_stmts (fault_of_pop hthen))))
  | .call _ _, h => by
    rw [stmt] at h
    exact fault_of_run (fault_of_run h)

theorem fault_of_stmts {s : Session} : ∀ {ts : List Stmt}, (s.stmts ts).2.fault = none →
    s.fault = none
  | [], h => by
    rw [stmts] at h
    exact h
  | _ :: _, h => by
    rw [stmts] at h
    exact fault_of_stmt (fault_of_stmts h)

end

theorem fault_of_body {b : FnBody} (h : (s.body b).2.fault = none) : s.fault = none :=
  fault_of_varDecls (fault_of_stmts h)

theorem fault_of_addField {id : Nat} {d : VarDecl} (h : (addField id s d).fault = none) :
    s.fault = none := fault_of_guard h

theorem fault_of_addFields {id : Nat} {ds : List VarDecl}
    (h : (ds.foldl (addField id) s).fault = none) : s.fault = none := by
  induction ds generalizing s with
  | nil => exact h
  | cons d ds ih => exact fault_of_addField (ih h)

/-- A name that cannot be declared is a fault itself. -/
theorem fault_of_declare {x : Ident} {b : Binding} (h : (s.declare x b).2.fault = none) :
    s.fault = none := by
  unfold declare at h
  split at h
  · exact h
  · cases h

theorem fault_of_decl {d : Decl} (h : (s.decl d).2.fault = none) : s.fault = none := by
  cases d with
  | var d => exact fault_of_varDecl (d := d) h
  | func d => exact fault_of_fnDecl (d := d) h
  | struct d => exact fault_of_structDecl (d := d) h

end Lasting

/-! ### Declarations without a fault -/

variable {c : Context} {m : Bool} {log : List Diagnostic}

/-- A name is declared without a fault only if it is not empty and free in the innermost scope. -/
theorem declare_of_fault {x : Ident} {b : Binding}
    (h : ((ofContext c m log).declare x b).2.fault = none) :
    (ofContext c m log).declare x b =
      ({ x with binding := some b }, ofContext (c.bind x.name b) m log) := by
  by_cases hx : x.name = ""
  · simp [declare, SymbolTable.add, Option.filter, hx, stop] at h
  · cases hfree : c.front.lookup x.name with
    | none => exact declare_ofContext m log b hx hfree
    | some e =>
      simp [declare, ofContext, SymbolTable.add, Context.scopes, Option.filter, hx, hfree,
        stop] at h

theorem declareVar_of_fault {d : VarDecl} (h : ((ofContext c m log).declareVar d).2.fault = none) :
    (ofContext c m log).declareVar d = (c.declareVar d).session m log := by
  cases ht : d.type with
  | struct tag =>
    simp only [declareVar, Context.declareVar, ht, lookupGlobal_ofContext] at h ⊢
    cases hb : c.find tag.name with
    | none => simp [Outcome.session, error_ofContext]
    | some b =>
      cases hr : b.structRef? with
      | none => simp [Outcome.session, error_ofContext, hr]
      | some ref =>
        simp only [hb, hr] at h
        simp [Outcome.session, declare_of_fault h, hr]
  | int | bool | void =>
    simp only [declareVar, ht] at h
    simp [declareVar, Context.declareVar, ht, declare_of_fault h, Outcome.session]

theorem varDecl_of_fault {d : VarDecl} (h : ((ofContext c m log).varDecl d).2.fault = none) :
    (ofContext c m log).varDecl d = (c.varDecl d).session m log := by
  simp only [varDecl, run_ofContext, Context.varDecl, lookupLocal_ofContext] at h ⊢
  by_cases hv : d.type = .void
  · simp [hv, error_ofContext, Outcome.session]
  · simp only [hv, if_false] at h ⊢
    cases hl : c.front.lookup d.name.name with
    | none =>
      rw [hl] at h
      exact declareVar_of_fault h
    | some b => cases hb : b.isFormal <;> simp [hb, error_ofContext, Outcome.session]

theorem formal_of_fault {f : Formal} (h : ((ofContext c m log).formal f).2.fault = none) :
    (ofContext c m log).formal f = (c.formal f).session m log := by
  simp only [formal, run_ofContext, Context.formal, lookupLocal_ofContext] at h ⊢
  by_cases hv : f.type = .void
  · simp [hv, error_ofContext, Outcome.session]
  · by_cases hl : (c.front.lookup f.name.name).isSome
    · simp [hv, hl, error_ofContext, Outcome.session]
    · simp only [hv, hl, Bool.false_eq_true, if_false] at h ⊢
      simp [declare_of_fault h, Outcome.session]

/-- A list is visited as what is in scope says if each of its parts is; a fault at one part would
last to the end. -/
theorem all_of_fault {α : Type} {f : Session → α → α × Session} {g : Context → α → Outcome α}
    (hlast : ∀ {s x}, (f s x).2.fault = none → s.fault = none)
    (hf : ∀ {c m log x}, (f (ofContext c m log) x).2.fault = none →
      f (ofContext c m log) x = (g c x).session m log) {xs : List α}
    (h : (all f (ofContext c m log) xs).2.fault = none) :
    all f (ofContext c m log) xs = (Context.all g c xs).session m log := by
  induction xs generalizing c m log with
  | nil => simp [all, Context.all, Outcome.session]
  | cons x xs ih =>
    have hx := hf (fault_of_all hlast h)
    simp only [all, Context.all, hx, Outcome.session] at h ⊢
    rw [ih h]
    simp only [Outcome.session, marked_append, List.append_assoc]

theorem varDecls_of_fault {ds : List VarDecl}
    (h : (all varDecl (ofContext c m log) ds).2.fault = none) :
    all varDecl (ofContext c m log) ds = (c.varDecls ds).session m log :=
  all_of_fault fault_of_varDecl varDecl_of_fault h

theorem formals_of_fault {fs : List Formal}
    (h : (all formal (ofContext c m log) fs).2.fault = none) :
    all formal (ofContext c m log) fs = (c.formals fs).session m log :=
  all_of_fault fault_of_formal formal_of_fault h

/-! ### Statements without a fault -/

mutual

/-- The blocks of a statement are peeled off from its end, where there is no fault. -/
theorem stmt_of_fault {c : Context} {m : Bool} {log : List Diagnostic} :
    ∀ {t : Stmt}, ((ofContext c m log).stmt t).2.fault = none →
      (ofContext c m log).stmt t = (c.stmt t).session c m log
  | .assign _ _, _ | .increment _, _ | .decrement _, _ | .read _, _ | .write _, _ | .call _ _, _
  | .ret none, _ | .ret (some _), _ => stmt_ofContext c m log _ (by simp [Stmt.declared])
  | .ifThen e ds ss, h | .whileLoop e ds ss, h | .repeatLoop e ds ss, h => by
    simp only [stmt, expr_ofContext, push_ofContext, Resolved.session] at h ⊢
    have hss := fault_of_pop h
    have hds := varDecls_of_fault (fault_of_stmts hss)
    rw [hds] at hss ⊢
    simp only [Outcome.session] at hss ⊢
    rw [stmts_of_fault hss]
    simp only [Context.stmt, Resolved.session, pop_varDecls, Resolved.both, Outcome.body,
      marked_append, List.append_assoc]
  | .ifElse e ds ss eds ess, h => by
    simp only [stmt, expr_ofContext, push_ofContext, Resolved.session] at h ⊢
    have hess := fault_of_pop h
    have hss := fault_of_pop (fault_of_push (fault_of_varDecls (fault_of_stmts hess)))
    have hds := varDecls_of_fault (fault_of_stmts hss)
    rw [hds] at hss hess ⊢
    simp only [Outcome.session] at hss hess ⊢
    rw [stmts_of_fault hss] at hess ⊢
    simp only [Resolved.session, pop_varDecls, push_ofContext] at hess ⊢
    have heds := varDecls_of_fault (fault_of_stmts hess)
    rw [heds] at hess ⊢
    simp only [Outcome.session] at hess ⊢
    rw [stmts_of_fault hess]
    simp only [Context.stmt, Resolved.session, pop_varDecls, Resolved.both, Outcome.body,
      marked_append, List.append_assoc]

theorem stmts_of_fault {c : Context} {m : Bool} {log : List Diagnostic} :
    ∀ {ts : List Stmt}, ((ofContext c m log).stmts ts).2.fault = none →
      (ofContext c m log).stmts ts = (c.stmts ts).session c m log
  | [], _ => by simp [stmts, Context.stmts, Resolved.session, Resolved.silent]
  | t :: ts, h => by
    rw [stmts] at h ⊢
    have ht := stmt_of_fault (fault_of_stmts h)
    rw [ht] at h ⊢
    simp only [Resolved.session] at h ⊢
    rw [stmts_of_fault h]
    simp only [Context.stmts, Resolved.session, Resolved.both, marked_append, List.append_assoc]

end

theorem body_of_fault {b : FnBody} (h : ((ofContext c m log).body b).2.fault = none) :
    (ofContext c m log).body b = ((c.body b).node, ofContext (c.varDecls b.decls).context
      (m || !(c.body b).found.isEmpty) (log ++ (c.body b).found)) := by
  simp only [body] at h ⊢
  have hds := varDecls_of_fault (fault_of_stmts h)
  rw [hds] at h ⊢
  simp only [Outcome.session] at h ⊢
  rw [stmts_of_fault h]
  simp only [Context.body, Resolved.session, Outcome.body, marked_append, List.append_assoc]

/-! ### Functions and structs without a fault -/

/-- Binds the name of a struct and lists its fields. -/
def withStruct (s : Session) (d : StructDecl) : Ident × Session :=
  let id := s.fields.nextId
  let (x, t) := { s with fields := s.fields.declare }.declare d.name
    (.ofStruct d.name.name (some d.name.position) id)
  (x, d.fields.foldl (addField id) t)

theorem fault_of_withStruct {s : Session} {d : StructDecl} (h : (s.withStruct d).2.fault = none) :
    s.fault = none := by
  have hnamed : ({ s with fields := s.fields.declare }.declare d.name
      (.ofStruct d.name.name (some d.name.position) s.fields.nextId)).2.fault = none :=
    fault_of_addFields h
  have hnumbered : { s with fields := s.fields.declare }.fault = none := fault_of_declare hnamed
  exact hnumbered

theorem structDecl_eq (s : Session) (d : StructDecl) :
    s.structDecl d = s.run d fun d s =>
      if (s.table.lookupLocal d.name.name).isSome then
        (d, s.error d.name.position .multiplyDeclared)
      else
        let (x, s) := s.withStruct d
        let (fs, s) := all varDecl s.push d.fields
        (⟨x, fs⟩, s.pop) := rfl

theorem fnName_of_fault {d : FnDecl} (h : ((ofContext c m log).fnName d).2.fault = none) :
    (ofContext c m log).fnName d = (c.fnName d).session m log := by
  simp only [fnName, lookupLocal_ofContext, Context.fnName] at h ⊢
  by_cases hl : (c.front.lookup d.name.name).isSome
  · simp [hl, error_ofContext, Outcome.session]
  · simp only [hl, Bool.false_eq_true, if_false] at h ⊢
    simp [declare_of_fault h, Outcome.session]

/-- What is in scope behind some formals of a function. -/
theorem fnFormals_of_fault {d : FnDecl} {fs : List Formal}
    (h : (all formal ((ofContext c m log).fnName d).2.push fs).2.fault = none) :
    (ofContext c m log).fnName d = (c.fnName d).session m log ∧
      all formal ((ofContext c m log).fnName d).2.push fs =
        ((c.fnName d).context.enter.formals fs).session (m || !(c.fnName d).found.isEmpty)
          (log ++ (c.fnName d).found) := by
  have hname := fnName_of_fault (fault_of_push (fault_of_formals h))
  refine ⟨hname, ?_⟩
  simp only [hname, Outcome.session, push_ofContext] at h ⊢
  exact formals_of_fault h

theorem fnDecl_of_fault {d : FnDecl} (h : ((ofContext c m log).fnDecl d).2.fault = none) :
    (ofContext c m log).fnDecl d = (c.fnDecl d).session m log := by
  rw [fnDecl_eq, run_ofContext] at h ⊢
  have hb := fault_of_pop h
  obtain ⟨hname, hfs⟩ := fnFormals_of_fault (fault_of_body hb)
  have hscope := ((c.fnName d).context.enter.formals d.formals).context.varDecls_extends
    d.body.decls |>.trans ((c.fnName d).context.enter.formals_extends d.formals)
  simp only [hfs, Outcome.session] at hb ⊢
  rw [body_of_fault hb, hname]
  simp only [Outcome.session, pop_ofContext _ _ hscope.outer hscope.fields, Context.fnDecl,
    marked_append, List.append_assoc]

theorem addField_of_fault {f : StructFields} {s : Scope Binding} {d : VarDecl}
    (h : (addField f.nextId (ofContext { c with fields := f.register s } m log) d).fault = none) :
    addField f.nextId (ofContext { c with fields := f.register s } m log) d =
      ofContext { c with fields := f.register (c.addField s d) } m log := by
  by_cases hd : d.name.name = ""
  · -- An empty name is a fault, unless the field is void or an empty name was listed before.
    have hb : (ofContext { c with fields := f.register s } m log).fieldBinding? d =
        c.fieldBinding? d := rfl
    unfold addField Context.addField at *
    rw [hb] at h ⊢
    cases hfield : c.fieldBinding? d with
    | none => rfl
    | some b =>
      simp only [hfield, ofContext, Option.isSome_none, Bool.false_eq_true, if_false,
        StructFields.table_register, SymbolTable.addNew, SymbolTable.lookupLocal, List.head?_cons,
        Option.bind_some, Scope.insertNew] at h ⊢
      by_cases hl : (s.lookup d.name.name).isSome
      · simp only [hl, if_true, StructFields.set_register]
      · simp only [hl, Bool.false_eq_true, if_false] at h
        simp [SymbolTable.add, Option.filter, hd, stop] at h
  · exact addField_ofContext c f s d m log hd

theorem addFields_of_fault {f : StructFields} {s : Scope Binding} {ds : List VarDecl}
    (h : (ds.foldl (addField f.nextId)
      (ofContext { c with fields := f.register s } m log)).fault = none) :
    ds.foldl (addField f.nextId) (ofContext { c with fields := f.register s } m log) =
      ofContext { c with fields := f.register (ds.foldl c.addField s) } m log := by
  induction ds generalizing s with
  | nil => rfl
  | cons d ds ih =>
    rw [List.foldl_cons] at h ⊢
    have hd := addField_of_fault (fault_of_addFields h)
    rw [hd] at h ⊢
    rw [ih h, List.foldl_cons]

theorem withStruct_of_fault {d : StructDecl}
    (h : ((ofContext c m log).withStruct d).2.fault = none) :
    (ofContext c m log).withStruct d =
      ({ d.name with binding := some (c.structBinding d) }, ofContext (c.withStruct d) m log) := by
  let registered : Context := { c with fields := c.fields.register [] }
  have heq : (ofContext c m log).withStruct d =
      (((ofContext registered m log).declare d.name (c.structBinding d)).1,
        d.fields.foldl (addField c.fields.nextId)
          ((ofContext registered m log).declare d.name (c.structBinding d)).2) := rfl
  rw [heq] at h ⊢
  have hdecl := declare_of_fault (fault_of_addFields h)
  rw [hdecl] at h ⊢
  exact congrArg (Prod.mk _) (addFields_of_fault (c := c.bind d.name.name (c.structBinding d)) h)

theorem structDecl_of_fault {d : StructDecl}
    (h : ((ofContext c m log).structDecl d).2.fault = none) :
    (ofContext c m log).structDecl d = (c.structDecl d).session m log := by
  rw [structDecl_eq, run_ofContext] at h ⊢
  simp only [lookupLocal_ofContext, Context.structDecl] at h ⊢
  by_cases hl : (c.front.lookup d.name.name).isSome
  · simp [hl, error_ofContext, Outcome.session]
  · simp only [hl, Bool.false_eq_true, if_false] at h ⊢
    have hfs := fault_of_pop h
    have hx := withStruct_of_fault (fault_of_push (fault_of_varDecls hfs))
    simp only [hx, push_ofContext] at hfs ⊢
    simp only [varDecls_of_fault hfs, Outcome.session, pop_varDecls]

theorem decl_of_fault {d : Decl} (h : ((ofContext c m log).decl d).2.fault = none) :
    (ofContext c m log).decl d = (c.decl d).session m log := by
  cases d with
  | var d => simp only [decl, Context.decl, Outcome.session, varDecl_of_fault h]
  | func d => simp only [decl, Context.decl, Outcome.session, fnDecl_of_fault h]
  | struct d => simp only [decl, Context.decl, Outcome.session, structDecl_of_fault h]

theorem decls_of_fault {ds : List Decl} (h : (all decl (ofContext c m log) ds).2.fault = none) :
    all decl (ofContext c m log) ds = (c.decls ds).session m log :=
  all_of_fault fault_of_decl decl_of_fault h

end Carrot.Session
