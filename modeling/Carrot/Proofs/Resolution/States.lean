import Carrot.Proofs.Resolution.Visits
import Mathlib.Data.List.Induction

/-! # The states of a run

A run passes through more sessions than those in front of and behind nodes: it binds a function
before it knows its parameters, and a struct before its fields are listed, and it opens and closes
scopes for blocks. No operation on the table is left out: from each of these sessions to the next,
a run makes a single one.
-/

namespace Carrot

namespace Session

/-! ### On the way through a node -/

/-- On the way through the node `n` in the session `s`, calls lead to this node in this session. -/
inductive Descends (s : Session) (n : Node) : Session → Node → Prop where
  | here : Descends s n s n
  | call {t u : Session} {k m : Node} (h : Descends s n t k) (hcall : t.Calls k u m) :
      Descends s n u m

/-- The sessions on the way through the node `n` in the session `s`. -/
inductive During (s : Session) (n : Node) : Session → Prop where
  /-- A node is about to be visited. -/
  | before {t : Session} {k : Node} (h : s.Descends n t k) : During s n t
  /-- A node has been visited. -/
  | behind {t : Session} {k : Node} (h : s.Descends n t k) : During s n (t.node k).2.2
  /-- The expression of a statement and the first of its blocks have been visited. -/
  | blocks {t : Session} {x : Stmt} {e : Expr} {bs cs : List FnBody}
      (h : s.Descends n t (.stmt x)) (he : x.head? = some e) (hsplit : x.blocks = bs ++ cs) :
      During s n (all block (t.expr e).2 bs).2
  /-- A function is bound, and its signature has the first of its formals. -/
  | signature {t : Session} {d : FnDecl} {fs gs : List Formal}
      (h : s.Descends n t (.decl (.func d))) (hsplit : d.formals = fs ++ gs) :
      During s n (t.fnName { d with formals := fs }).2
  /-- A struct has a table for its fields, but is not bound. -/
  | numbered {t : Session} {d : StructDecl} (h : s.Descends n t (.decl (.struct d)))
      (hfree : t.table.lookupLocal d.name.name = none) :
      During s n { t with fields := t.fields.declare }
  /-- A struct is bound, and the first of its fields are listed. -/
  | listed {t : Session} {d : StructDecl} {ds es : List VarDecl}
      (h : s.Descends n t (.decl (.struct d))) (hfree : t.table.lookupLocal d.name.name = none)
      (hsplit : d.fields = ds ++ es) : During s n (t.withStruct { d with fields := ds }).2
  /-- The first fields of a struct are declared in a scope of their own. -/
  | declared {t : Session} {d : StructDecl} {ds es : List VarDecl}
      (h : s.Descends n t (.decl (.struct d))) (hfree : t.table.lookupLocal d.name.name = none)
      (hsplit : d.fields = ds ++ es) : During s n (all varDecl (t.withStruct d).2.push ds).2

variable {s t u : Session} {n k m : Node}

theorem Descends.trans (h : s.Descends n t k) (hrest : t.Descends k u m) : s.Descends n u m := by
  induction hrest with
  | here => exact h
  | call _ hcall ih => exact ih.call hcall

theorem Descends.fault_of_node (h : s.Descends n t k) (hs : (s.node n).2.2.fault = none) :
    (t.node k).2.2.fault = none := by
  induction h with
  | here => exact hs
  | call _ hcall ih => exact hcall.fault_of_node ih

/-- A node that calls lead to in a session without a fault is visited. -/
theorem Descends.visits_of_fault (h : s.Descends n t k) (ht : t.fault = none) :
    s.Visits n t k := by
  induction h with
  | here => exact .here ht
  | call _ hcall ih => exact (ih (hcall.fault_of_called ht)).call hcall ht

/-- Where a visit meets no fault, all that it leads to is visited. -/
theorem Descends.visits (h : s.Descends n t k) (hs : (s.node n).2.2.fault = none) :
    s.Visits n t k := h.visits_of_fault (Session.fault_of_node (h.fault_of_node hs))

/-- The way through a node is part of the way through each node that leads to it. -/
theorem During.of_calls (h : t.During k u) (hcall : s.Calls n t k) : s.During n u := by
  have hdescends : s.Descends n t k := .call .here hcall
  cases h with
  | before h => exact .before (hdescends.trans h)
  | behind h => exact .behind (hdescends.trans h)
  | blocks h he hsplit => exact .blocks (hdescends.trans h) he hsplit
  | signature h hsplit => exact .signature (hdescends.trans h) hsplit
  | numbered h hfree => exact .numbered (hdescends.trans h) hfree
  | listed h hfree hsplit => exact .listed (hdescends.trans h) hfree hsplit
  | declared h hfree hsplit => exact .declared (hdescends.trans h) hfree hsplit

/-! ### Single operations -/

/-- The second session comes from the first one by a single operation. -/
inductive Moves (s : Session) : Session → Prop where
  | report (d : Diagnostic) : Moves s (s.report [d])
  | push : Moves s s.push
  | pop : Moves s s.pop
  | declare (x : Ident) (b : Binding) : Moves s (s.declare x b).2
  /-- A new struct gets a table for its fields. -/
  | number : Moves s { s with fields := s.fields.declare }
  /-- The struct `id` gets a field. -/
  | list (id : Nat) (d : VarDecl) : Moves s (addField id s d)
  /-- A function that has just been bound gets another formal. -/
  | sign {t : Session} {d : FnDecl} {fs : List Formal} (f : Formal)
      (h : s = (t.fnName { d with formals := fs }).2) :
      Moves s (t.fnName { d with formals := fs ++ [f] }).2

/-- Single operations lead from the one session to the other, all of them on the way through the
node `n` in the session `s`. -/
def Leads (s : Session) (n : Node) : Session → Session → Prop :=
  Relation.ReflTransGen fun t u => t.Moves u ∧ s.During n u

theorem Leads.of_calls {v : Session} (h : t.Leads k u v) (hcall : s.Calls n t k) :
    s.Leads n u v :=
  Relation.ReflTransGen.mono (fun _ _ hstep => ⟨hstep.1, hstep.2.of_calls hcall⟩) _ _ h

theorem Leads.of_move (h : u = t ∨ t.Moves u) (hu : s.During n u) : s.Leads n t u := by
  rcases h with rfl | hmove
  · exact .refl
  · exact .single ⟨hmove, hu⟩

/-- If operations lead through each part of a list, they lead through the list. -/
theorem reflTransGen_all {α : Type} {R : Session → Session → Prop} {f : Session → α → α × Session}
    {xs : List α} (h : ∀ ys x zs, xs = ys ++ x :: zs →
      Relation.ReflTransGen R (all f t ys).2 (f (all f t ys).2 x).2) :
    Relation.ReflTransGen R t (all f t xs).2 := by
  induction xs using List.reverseRecOn with
  | nil => exact .refl
  | append_singleton xs x ih =>
    rw [all_append]
    refine (ih fun ys y zs hsplit => h ys y (zs ++ [x]) ?_).trans (h xs x [] rfl)
    rw [hsplit, List.append_assoc, List.cons_append]

theorem moves_declareVar (s : Session) (d : VarDecl) : s.Moves (s.declareVar d).2 := by
  unfold declareVar
  split
  · split
    · exact .report _
    · split
      · exact .report _
      · exact .declare _ _
  · exact .declare _ _

theorem moves_varDecl (s : Session) (d : VarDecl) :
    (s.varDecl d).2 = s ∨ s.Moves (s.varDecl d).2 := by
  unfold varDecl run
  split
  · exact .inl rfl
  · dsimp only
    split
    · exact .inr (.report _)
    · split
      · split
        · exact .inl rfl
        · exact .inr (.report _)
      · exact .inr (s.moves_declareVar d)

theorem moves_formal (s : Session) (f : Formal) :
    (s.formal f).2 = s ∨ s.Moves (s.formal f).2 := by
  unfold formal run
  split
  · exact .inl rfl
  · dsimp only
    split
    · exact .inr (.report _)
    · split
      · exact .inr (.report _)
      · exact .inr (.declare _ _)

theorem moves_fnName (s : Session) (d : FnDecl) : s.Moves (s.fnName d).2 := by
  unfold fnName
  split
  · exact .report _
  · exact .declare _ _

end Session

/-- From in front of the node to behind it, single operations lead, wherever it is visited without a
fault. -/
def Node.Passable (n : Node) : Prop :=
  ∀ c m log, ((Session.ofContext c m log).node n).2.2.fault = none →
    (Session.ofContext c m log).Leads n (.ofContext c m log)
      ((Session.ofContext c m log).node n).2.2

namespace Session

variable {c : Context} {marked : Bool} {log : List Diagnostic} {n k : Node} {t : Session}

/-- What a node calls for is part of the way through it. -/
theorem leads_of_calls (hk : k.Passable) (hcall : (ofContext c marked log).Calls n t k)
    (hs : ((ofContext c marked log).node n).2.2.fault = none) :
    (ofContext c marked log).Leads n t (t.node k).2.2 := by
  have ht := hcall.fault_of_node hs
  obtain ⟨d, ds, rfl, -⟩ := hcall.context (fault_of_node ht)
  exact (hk _ _ _ ht).of_calls hcall

/-! ### Expressions -/

theorem length_found_ident (n : Names) (x : Ident) : (n.ident x).found.length ≤ 1 := by
  unfold Names.ident
  split <;> simp

theorem length_found_field (n : Names) (h : Hint) (x : Ident) :
    (n.field h x).found.length ≤ 1 := by
  fun_cases Names.field n h x <;> simp [Resolved.silent]

/-- All that is found in an expression is found in its parts, but for the last thing. -/
theorem found_eq_parts (n : Names) (e : Expr) : ∃ own : List Diagnostic, own.length ≤ 1 ∧
    (n.expr e).found = (n.exprs e.parts).found ++ own := by
  cases e with
  | ident x => exact ⟨_, length_found_ident n x, by simp [Names.expr, Expr.parts, Names.exprs,
      Resolved.silent]⟩
  | dot e x => exact ⟨_, length_found_field n (n.expr e).hint x, by simp [Names.expr, Expr.parts,
      Names.exprs, Resolved.both, Resolved.silent]⟩
  | int | str | bool | assign | call | unary | binary =>
    exact ⟨[], Nat.zero_le 1, by simp [Names.expr, Expr.parts, Names.exprs, Resolved.both,
      Resolved.wrap, Resolved.silent]⟩

theorem exprs_append_singleton (c : Context) (marked : Bool) (log : List Diagnostic)
    (es : List Expr) (e : Expr) : ((ofContext c marked log).exprs (es ++ [e])).2 =
      (((ofContext c marked log).exprs es).2.expr e).2 := by
  have hfound : (c.names.exprs (es ++ [e])).found =
      (c.names.exprs es).found ++ (c.names.expr e).found := by
    induction es with
    | nil => simp [Names.exprs, Resolved.both, Resolved.silent]
    | cons f es ih => simp [Names.exprs, Resolved.both, ih]
  simp only [exprs_ofContext, Resolved.session, expr_ofContext, hfound, marked_append,
    List.append_assoc]

theorem leads_parts {e : Expr} (h : ∀ f ∈ e.parts, (Node.expr f).Passable)
    (hs : ((ofContext c marked log).node (.expr e)).2.2.fault = none) {es fs : List Expr}
    (hsplit : e.parts = es ++ fs) :
    (ofContext c marked log).Leads (.expr e) (.ofContext c marked log)
      ((ofContext c marked log).exprs es).2 := by
  induction es using List.reverseRecOn generalizing fs with
  | nil =>
    rw [exprs_ofContext]
    simp [Resolved.session, Names.exprs, Resolved.silent, Leads, Relation.ReflTransGen.refl]
  | append_singleton es f ih =>
    rw [List.append_assoc] at hsplit
    rw [exprs_append_singleton]
    exact (ih hsplit).trans (leads_of_calls (h f (by simp [hsplit])) (.part hsplit) hs)

theorem passable_of_parts {e : Expr} (h : ∀ f ∈ e.parts, (Node.expr f).Passable) :
    (Node.expr e).Passable := by
  intro c m log hs
  have hparts := leads_parts h hs (List.append_nil _).symm
  -- Behind its parts, the expression itself reports at most one diagnostic.
  obtain ⟨own, hlength, hfound⟩ := found_eq_parts c.names e
  refine hparts.trans (Leads.of_move ?_ (.behind .here))
  change ((ofContext c m log).expr e).2 = _ ∨ Moves _ ((ofContext c m log).expr e).2
  rw [expr_ofContext, exprs_ofContext, Resolved.session, Resolved.session, hfound]
  match own, hlength with
  | [], _ => exact .inl (by rw [List.append_nil])
  | [d], _ =>
    right
    have hreport := Moves.report (s := (ofContext c m log).report (c.names.exprs e.parts).found) d
    simpa only [report_ofContext, marked_append, List.append_assoc] using hreport

mutual

theorem passable_expr : ∀ e : Expr, (Node.expr e).Passable
  | .int _ _ | .str _ _ | .bool _ _ | .ident _ => passable_of_parts nofun
  | .dot e _ | .unary _ e => passable_of_parts (List.forall_mem_singleton.2 (passable_expr e))
  | .assign t v | .binary _ t v => passable_of_parts
      (List.forall_mem_cons.2 ⟨passable_expr t, List.forall_mem_singleton.2 (passable_expr v)⟩)
  | .call _ args => passable_of_parts
      (List.forall_mem_cons.2 ⟨passable_of_parts nofun, passable_exprs args⟩)

theorem passable_exprs : ∀ es : List Expr, ∀ e ∈ es, (Node.expr e).Passable
  | [] => nofun
  | e :: es => List.forall_mem_cons.2 ⟨passable_expr e, passable_exprs es⟩

end

/-! ### Statements -/

theorem passable_varDecl (d : VarDecl) : (Node.decl (.var d)).Passable :=
  fun c m log _ => Leads.of_move ((ofContext c m log).moves_varDecl d) (.behind .here)

theorem passable_formal (f : Formal) : (Node.formal f).Passable :=
  fun c m log _ => Leads.of_move ((ofContext c m log).moves_formal f) (.behind .here)

theorem stmts_eq_all (s : Session) (ss : List Stmt) : (s.stmts ss).2 = (all stmt s ss).2 := by
  induction ss generalizing s with
  | nil => rw [stmts, all]
  | cons x ss ih => rw [stmts, ih, all]

theorem passable_body {b : FnBody} (h : ∀ x ∈ b.stmts, (Node.stmt x).Passable) :
    (Node.body b).Passable := by
  intro c m log hs
  have hdecls : (ofContext c m log).Leads (.body b) (.ofContext c m log)
      (all varDecl (ofContext c m log) b.decls).2 :=
    reflTransGen_all fun ds d es hsplit =>
      leads_of_calls (passable_varDecl d) (.localDecl hsplit) hs
  refine hdecls.trans ?_
  change Relation.ReflTransGen _ _ ((all varDecl (ofContext c m log) b.decls).2.stmts b.stmts).2
  rw [stmts_eq_all]
  refine reflTransGen_all fun ss x ts hsplit => ?_
  rw [← stmts_eq_all]
  exact leads_of_calls (h x (by simp [hsplit])) (.stmt hsplit) hs

/-- A statement leaves what its expression and then its blocks leave. -/
theorem stmt_eq_head (c : Context) (m : Bool) (log : List Diagnostic) {x : Stmt} {e : Expr}
    (h : x.head? = some e) : ((ofContext c m log).stmt x).2 =
      (all block ((ofContext c m log).expr e).2 x.blocks).2 := by
  by_cases hblocks : x.blocks = []
  · rw [hblocks]
    cases x with
    | ifThen | ifElse | whileLoop | repeatLoop => cases hblocks
    | assign | increment | decrement | read | write | call =>
      cases h
      simp [stmt, all, ident_ofContext, expr_ofContext, exprs_ofContext, Resolved.session,
        Names.expr, Resolved.both, marked_append]
    | ret v =>
      cases h
      simp [stmt, all]
  · obtain ⟨e', he', heq⟩ := (ofContext c m log).stmt_eq_blocks hblocks
    obtain rfl := Option.some.inj (h.symm.trans he')
    exact heq

theorem passable_stmt_of_blocks {x : Stmt} (h : ∀ b ∈ x.blocks, (Node.body b).Passable) :
    (Node.stmt x).Passable := by
  intro c m log hs
  cases he : x.head? with
  | none =>
    obtain rfl : x = .ret none := by
      cases x <;> simp_all [Stmt.head?]
    change Leads _ _ _ ((ofContext c m log).stmt (.ret none)).2
    rw [stmt]
    exact .refl
  | some e =>
    refine (leads_of_calls (passable_expr e) (.head he) hs).trans ?_
    change Relation.ReflTransGen _ _ ((ofContext c m log).stmt x).2
    rw [stmt_eq_head c m log he]
    -- Each block opens a scope, is visited in it, and closes it.
    refine reflTransGen_all fun bs b cs hsplit => ?_
    have hcall := Calls.block (s := ofContext c m log) he hsplit
    have hbody := leads_of_calls (h b (by simp [hsplit])) hcall hs
    have hclose : (ofContext c m log).During (.stmt x)
        (all block ((ofContext c m log).expr e).2 (bs ++ [b])).2 :=
      .blocks .here he (hsplit.trans (List.append_cons bs b cs))
    rw [all_append] at hclose
    exact (hbody.head ⟨.push, .before (.call .here hcall)⟩).tail ⟨.pop, hclose⟩

mutual

theorem passable_stmt : ∀ x : Stmt, (Node.stmt x).Passable
  | .ifThen _ _ ss | .whileLoop _ _ ss | .repeatLoop _ _ ss => passable_stmt_of_blocks
      (List.forall_mem_singleton.2 (passable_body (passable_stmts ss)))
  | .ifElse _ _ ss _ ess => passable_stmt_of_blocks
      (List.forall_mem_cons.2 ⟨passable_body (passable_stmts ss),
        List.forall_mem_singleton.2 (passable_body (passable_stmts ess))⟩)
  | .assign _ _ | .increment _ | .decrement _ | .read _ | .write _ | .call _ _ | .ret _ =>
    passable_stmt_of_blocks nofun

theorem passable_stmts : ∀ ss : List Stmt, ∀ x ∈ ss, (Node.stmt x).Passable
  | [] => nofun
  | x :: ss => List.forall_mem_cons.2 ⟨passable_stmt x, passable_stmts ss⟩

end

/-! ### Declarations -/

/-- A function is bound, and then its signature gets one formal after the other. -/
theorem leads_signature (s : Session) {d : FnDecl} {fs gs : List Formal}
    (hsplit : d.formals = fs ++ gs) :
    s.Leads (.decl (.func d)) s (s.fnName { d with formals := fs }).2 := by
  induction fs using List.reverseRecOn generalizing gs with
  | nil => exact .single ⟨s.moves_fnName _, .signature .here hsplit⟩
  | append_singleton fs f ih =>
    exact (ih (hsplit.trans (List.append_assoc fs [f] gs))).tail
      ⟨.sign f rfl, .signature .here hsplit⟩

/-- Behind its name, a function is about to visit its first formal, or its body. -/
theorem during_push_fnName (s : Session) (d : FnDecl) :
    s.During (.decl (.func d)) (s.fnName d).2.push := by
  cases hformals : d.formals with
  | nil =>
    have hbody := Calls.fnBody (s := s) (d := d)
    rw [hformals] at hbody
    exact .before (.call .here hbody)
  | cons f fs => exact .before (.call .here (@Calls.formal s d [] fs f hformals))

theorem passable_fnDecl (d : FnDecl) : (Node.decl (.func d)).Passable := by
  intro c m log hs
  have hformals : (ofContext c m log).Leads (.decl (.func d))
      ((ofContext c m log).fnName d).2.push
      (all formal ((ofContext c m log).fnName d).2.push d.formals).2 :=
    reflTransGen_all fun fs f gs hsplit => leads_of_calls (passable_formal f) (.formal hsplit) hs
  have hbody := leads_of_calls (passable_body (passable_stmts d.body.stmts)) .fnBody hs
  have hnode : ((ofContext c m log).node (.decl (.func d))).2.2 =
      ((all formal ((ofContext c m log).fnName d).2.push d.formals).2.body d.body).2.pop := by
    rw [node, decl, fnDecl_eq, run_ofContext]
  have hbehind := During.behind (Descends.here (s := ofContext c m log) (n := .decl (.func d)))
  rw [hnode] at hbehind ⊢
  have hsigned := leads_signature (ofContext c m log) (d := d) (List.append_nil _).symm
  exact ((hsigned.tail ⟨.push, during_push_fnName _ d⟩).trans hformals).trans
    (hbody.tail ⟨.pop, hbehind⟩)

/-- A struct gets a table for its fields and is bound, and then its fields are listed one after the
other. -/
theorem leads_listed {s : Session} {d : StructDecl}
    (hfree : s.table.lookupLocal d.name.name = none) {ds es : List VarDecl}
    (hsplit : d.fields = ds ++ es) :
    s.Leads (.decl (.struct d)) s (s.withStruct { d with fields := ds }).2 := by
  induction ds using List.reverseRecOn generalizing es with
  | nil =>
    have hnumbered : s.Leads (.decl (.struct d)) s { s with fields := s.fields.declare } :=
      .single ⟨.number, .numbered .here hfree⟩
    exact hnumbered.tail ⟨.declare _ _, .listed .here hfree hsplit⟩
  | append_singleton ds v ih =>
    have hlast : (s.withStruct { d with fields := ds ++ [v] }).2 =
        addField s.fields.nextId (s.withStruct { d with fields := ds }).2 v := List.foldl_append
    have hmove := Moves.list (s := (s.withStruct { d with fields := ds }).2) s.fields.nextId v
    rw [← hlast] at hmove
    exact (ih (hsplit.trans (List.append_assoc ds [v] es))).tail
      ⟨hmove, .listed .here hfree hsplit⟩

theorem passable_structDecl (d : StructDecl) : (Node.decl (.struct d)).Passable := by
  intro c m log hs
  have hbehind := During.behind (Descends.here (s := ofContext c m log) (n := .decl (.struct d)))
  cases hfree : (ofContext c m log).table.lookupLocal d.name.name with
  | some b =>
    have hnode : ((ofContext c m log).node (.decl (.struct d))).2.2 =
        (ofContext c m log).error d.name.position .multiplyDeclared := by
      simp [node, decl, structDecl_eq, run_ofContext, hfree]
    rw [hnode] at hbehind ⊢
    exact .single ⟨.report _, hbehind⟩
  | none =>
    have hnode : ((ofContext c m log).node (.decl (.struct d))).2.2 =
        (all varDecl ((ofContext c m log).withStruct d).2.push d.fields).2.pop := by
      simp [node, decl, structDecl_eq, run_ofContext, hfree]
    rw [hnode] at hbehind ⊢
    have hopen : (ofContext c m log).During (.decl (.struct d))
        (all varDecl ((ofContext c m log).withStruct d).2.push []).2 := .declared .here hfree rfl
    have hfields : (ofContext c m log).Leads (.decl (.struct d))
        ((ofContext c m log).withStruct d).2.push
        (all varDecl ((ofContext c m log).withStruct d).2.push d.fields).2 :=
      reflTransGen_all fun ds v es hsplit =>
        leads_of_calls (passable_varDecl v) (.field hfree hsplit) hs
    have hlisted := leads_listed hfree (List.append_nil d.fields).symm
    exact ((hlisted.tail ⟨.push, hopen⟩).trans hfields).tail ⟨.pop, hbehind⟩

theorem passable_decl : ∀ d : Decl, (Node.decl d).Passable
  | .var d => passable_varDecl d
  | .func d => passable_fnDecl d
  | .struct d => passable_structDecl d

end Session

/-! ### Runs -/

/-- What a run is busy with: the top level, the function of a declaration, or the struct of a
number. -/
inductive Focus where
  | top
  | function (d : FnDecl)
  | struct (id : Nat)

/-- The formals of the function that is visited. -/
def Focus.formals : Focus → List Formal
  | .function d => d.formals
  | .top | .struct _ => []

/-- What a run is busy with while it visits a declaration of the top level. -/
def Focus.of (s : Session) : Decl → Focus
  | .var _ => .top
  | .func d => .function d
  | .struct _ => .struct s.fields.nextId

namespace Session

/-- The sessions that a run over the program passes through, each with what the run is busy with. -/
inductive RunsThrough (s : Session) (p : Program) : Focus → Session → Prop where
  /-- Some declarations of the top level have been visited, and the others have not. -/
  | top {ds es : List Decl} (h : p.decls = ds ++ es) : RunsThrough s p .top (all decl s ds).2
  /-- A declaration of the top level is being visited. -/
  | inside {ds es : List Decl} {d : Decl} {t : Session} (h : p.decls = ds ++ d :: es)
      (ht : (all decl s ds).2.During (.decl d) t) : RunsThrough s p (.of (all decl s ds).2 d) t

/-- A run without a fault goes from its start to its end by single operations. -/
theorem leads_program {c : Context} {m : Bool} {log : List Diagnostic} {p : Program}
    (h : ((ofContext c m log).program p).2.fault = none) :
    Relation.ReflTransGen (fun t u => t.Moves u ∧ ∃ focus,
      (ofContext c m log).RunsThrough p focus u) (ofContext c m log)
      ((ofContext c m log).program p).2 := by
  refine reflTransGen_all fun ds d es hsplit => ?_
  have hd : ((all decl (ofContext c m log) ds).2.decl d).2.fault = none := by
    simp only [program, hsplit] at h
    exact fault_of_all_mem fault_of_decl h
  have hleads : (all decl (ofContext c m log) ds).2.Leads (.decl d)
      (all decl (ofContext c m log) ds).2 ((all decl (ofContext c m log) ds).2.decl d).2 := by
    have hcontext := decls_of_fault (fault_of_decl hd)
    rw [hcontext] at hd ⊢
    exact passable_decl d _ _ _ hd
  exact Relation.ReflTransGen.mono
    (fun _ _ hstep => ⟨hstep.1, _, .inside hsplit hstep.2⟩) _ _ hleads

end Session

end Carrot
