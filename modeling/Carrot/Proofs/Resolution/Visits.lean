import Carrot.Node
import Carrot.Proofs.Resolution.UpToFault
import Mathlib.Logic.Relation

/-! # Visits

Which nodes resolution visits on the way through a node, and what the session is when it
comes to them. A fault stops the way, so every session on it is without one.
-/

namespace Carrot

/-! ### The parts of statements and expressions -/

/-- The expression that a statement visits first. -/
def Stmt.head? : Stmt → Option Expr
  | .assign t v => some (.assign t v)
  | .increment p | .decrement p | .read p => some p
  | .write v => some v
  | .ifThen e _ _ | .ifElse e _ _ _ _ | .whileLoop e _ _ | .repeatLoop e _ _ => some e
  | .call f args => some (.call f args)
  | .ret v => v

/-- The blocks that a statement visits behind its expression. -/
def Stmt.blocks : Stmt → List FnBody
  | .ifThen _ ds ss | .whileLoop _ ds ss | .repeatLoop _ ds ss => [⟨ds, ss⟩]
  | .ifElse _ ds ss eds ess => [⟨ds, ss⟩, ⟨eds, ess⟩]
  | _ => []

/-- The expressions that an expression visits; a field is not visited, but looked up. -/
def Expr.parts : Expr → List Expr
  | .dot e _ => [e]
  | .assign t v => [t, v]
  | .call f args => .ident f :: args
  | .unary _ e => [e]
  | .binary _ l r => [l, r]
  | .int _ _ | .str _ _ | .bool _ _ | .ident _ => []

namespace Session

/-! ### Calls -/

/-- A visit of the first node in the first session calls for a visit of the second node in the
second session. -/
inductive Calls : Session → Node → Session → Node → Prop where
  | topDecl {s : Session} {p : Program} {ds es : List Decl} {d : Decl}
      (h : p.decls = ds ++ d :: es) : Calls s (.program p) (all decl s ds).2 (.decl d)
  | formal {s : Session} {d : FnDecl} {fs gs : List Formal} {f : Formal}
      (h : d.formals = fs ++ f :: gs) :
      Calls s (.decl (.func d)) (all formal (s.fnName d).2.push fs).2 (.formal f)
  | fnBody {s : Session} {d : FnDecl} :
      Calls s (.decl (.func d)) (all Session.formal (s.fnName d).2.push d.formals).2 (.body d.body)
  | field {s : Session} {d : StructDecl} {ds es : List VarDecl} {v : VarDecl}
      (hfree : s.table.lookupLocal d.name.name = none) (h : d.fields = ds ++ v :: es) :
      Calls s (.decl (.struct d)) (all varDecl (s.withStruct d).2.push ds).2 (.decl (.var v))
  | localDecl {s : Session} {b : FnBody} {ds es : List VarDecl} {v : VarDecl}
      (h : b.decls = ds ++ v :: es) : Calls s (.body b) (all varDecl s ds).2 (.decl (.var v))
  | stmt {s : Session} {b : FnBody} {ss ts : List Stmt} {t : Stmt} (h : b.stmts = ss ++ t :: ts) :
      Calls s (.body b) ((all varDecl s b.decls).2.stmts ss).2 (.stmt t)
  | head {s : Session} {t : Stmt} {e : Expr} (h : t.head? = some e) :
      Calls s (.stmt t) s (.expr e)
  | block {s : Session} {t : Stmt} {e : Expr} {bs cs : List FnBody} {b : FnBody}
      (he : t.head? = some e) (h : t.blocks = bs ++ b :: cs) :
      Calls s (.stmt t) (all block (s.expr e).2 bs).2.push (.body b)
  | part {s : Session} {e f : Expr} {es fs : List Expr} (h : e.parts = es ++ f :: fs) :
      Calls s (.expr e) (s.exprs es).2 (.expr f)

/-- On the way through the node `n` in the session `s`, resolution visits this node in this
session. -/
inductive Visits (s : Session) (n : Node) : Session → Node → Prop where
  | here (h : s.fault = none) : Visits s n s n
  | call {t u : Session} {k m : Node} (h : Visits s n t k) (hcall : t.Calls k u m)
      (hu : u.fault = none) : Visits s n u m

theorem Visits.invariant {P : Session → Node → Prop} {s t : Session} {n k : Node}
    (h : s.Visits n t k) (hstart : P s n)
    (hcalls : ∀ {t k u m}, P t k → t.Calls k u m → u.fault = none → P u m) : P t k := by
  induction h with
  | here => exact hstart
  | call _ hcall hu ih => exact hcalls ih hcall hu

/-! ### Statements by their parts -/

theorem block_of_fault {c : Context} {m : Bool} {log : List Diagnostic} {b : FnBody}
    (h : ((ofContext c m log).block b).2.fault = none) :
    (ofContext c m log).block b = (c.enter.body b).session c m log := by
  simp only [block, push_ofContext] at h ⊢
  have hss := fault_of_pop h
  have hds := varDecls_of_fault (fault_of_stmts hss)
  rw [hds] at hss ⊢
  simp only [Outcome.session] at hss ⊢
  rw [stmts_of_fault hss]
  simp only [Resolved.session, pop_varDecls, Context.body, Outcome.body, marked_append,
    List.append_assoc]

theorem fault_of_block {s : Session} {b : FnBody} (h : (s.block b).2.fault = none) :
    s.fault = none :=
  fault_of_push (fault_of_varDecls (fault_of_stmts (fault_of_pop h)))

/-- Blocks leave what is in scope, and add to the log what is found in them. -/
theorem blocks_of_fault {c : Context} {m : Bool} {log : List Diagnostic} {bs : List FnBody}
    (h : (all block (ofContext c m log) bs).2.fault = none) :
    (all block (ofContext c m log) bs).2 =
      let found := bs.flatMap fun b => (c.enter.body b).found
      ofContext c (m || !found.isEmpty) (log ++ found) := by
  induction bs generalizing m log with
  | nil => simp [all]
  | cons b bs ih =>
    simp only [all] at h ⊢
    have hb := block_of_fault (fault_of_all (f := block) fault_of_block h)
    rw [hb] at h ⊢
    refine (ih h).trans ?_
    rw [List.flatMap_cons, ← List.append_assoc, ← marked_append]

/-! ### Calls by what is in scope -/

end Session

/-- With `c` in scope, a visit of the first node calls for a visit of the second node with the
second context in scope. The list is what is found before. -/
inductive Context.Calls (c : Context) : Node → Context → Node → List Diagnostic → Prop where
  | topDecl {p : Program} {ds es : List Decl} {d : Decl} (h : p.decls = ds ++ d :: es) :
      c.Calls (.program p) (c.decls ds).context (.decl d) (c.decls ds).found
  | formal {d : FnDecl} {fs gs : List Formal} {f : Formal} (h : d.formals = fs ++ f :: gs) :
      c.Calls (.decl (.func d)) ((c.fnName d).context.enter.formals fs).context (.formal f)
        ((c.fnName d).found ++ ((c.fnName d).context.enter.formals fs).found)
  | fnBody {d : FnDecl} :
      c.Calls (.decl (.func d)) ((c.fnName d).context.enter.formals d.formals).context
        (.body d.body) ((c.fnName d).found ++ ((c.fnName d).context.enter.formals d.formals).found)
  | field {d : StructDecl} {ds es : List VarDecl} {v : VarDecl}
      (hfree : c.front.lookup d.name.name = none) (h : d.fields = ds ++ v :: es) :
      c.Calls (.decl (.struct d)) ((c.withStruct d).enter.varDecls ds).context (.decl (.var v))
        ((c.withStruct d).enter.varDecls ds).found
  | localDecl {b : FnBody} {ds es : List VarDecl} {v : VarDecl} (h : b.decls = ds ++ v :: es) :
      c.Calls (.body b) (c.varDecls ds).context (.decl (.var v)) (c.varDecls ds).found
  | stmt {b : FnBody} {ss ts : List Stmt} {t : Stmt} (h : b.stmts = ss ++ t :: ts) :
      c.Calls (.body b) (c.varDecls b.decls).context (.stmt t)
        ((c.varDecls b.decls).found ++ ((c.varDecls b.decls).context.stmts ss).found)
  | head {t : Stmt} {e : Expr} (h : t.head? = some e) : c.Calls (.stmt t) c (.expr e) []
  | block {t : Stmt} {e : Expr} {bs cs : List FnBody} {b : FnBody} (he : t.head? = some e)
      (h : t.blocks = bs ++ b :: cs) :
      c.Calls (.stmt t) c.enter (.body b)
        ((c.names.expr e).found ++ bs.flatMap fun b => (c.enter.body b).found)
  | part {e f : Expr} {es fs : List Expr} (h : e.parts = es ++ f :: fs) :
      c.Calls (.expr e) c (.expr f) (c.names.exprs es).found

namespace Session

theorem Calls.context {c : Context} {m : Bool} {log : List Diagnostic} {n k : Node} {t : Session}
    (h : (ofContext c m log).Calls n t k) (ht : t.fault = none) :
    ∃ d ds, t = ofContext d (m || !ds.isEmpty) (log ++ ds) ∧ c.Calls n d k ds := by
  cases h with
  | topDecl h =>
    rw [decls_of_fault ht]
    exact ⟨_, _, rfl, .topDecl h⟩
  | formal h =>
    rw [(fnFormals_of_fault ht).2, Outcome.session, List.append_assoc, marked_append]
    exact ⟨_, _, rfl, .formal h⟩
  | fnBody =>
    rw [(fnFormals_of_fault ht).2, Outcome.session, List.append_assoc, marked_append]
    exact ⟨_, _, rfl, .fnBody⟩
  | field hfree h =>
    have hstruct := withStruct_of_fault (fault_of_push (fault_of_varDecls ht))
    simp only [hstruct, push_ofContext] at ht ⊢
    rw [varDecls_of_fault ht]
    exact ⟨_, _, rfl, .field hfree h⟩
  | localDecl h =>
    rw [varDecls_of_fault ht]
    exact ⟨_, _, rfl, .localDecl h⟩
  | stmt h =>
    have hds := varDecls_of_fault (fault_of_stmts ht)
    rw [hds] at ht ⊢
    simp only [Outcome.session] at ht ⊢
    rw [stmts_of_fault ht, Resolved.session, List.append_assoc, marked_append]
    exact ⟨_, _, rfl, .stmt h⟩
  | head h => exact ⟨c, [], by simp, .head h⟩
  | block he h =>
    rw [expr_ofContext] at ht ⊢
    have hblocks := blocks_of_fault (fault_of_push ht)
    simp only [Resolved.session] at hblocks ⊢
    rw [hblocks, push_ofContext, List.append_assoc, marked_append]
    exact ⟨_, _, rfl, .block he h⟩
  | part h =>
    rw [exprs_ofContext]
    exact ⟨_, _, rfl, .part h⟩

/-! ### Parts are visited -/

theorem all_append {α : Type} (f : Session → α → α × Session) (s : Session) (xs ys : List α) :
    (all f s (xs ++ ys)).2 = (all f (all f s xs).2 ys).2 := by
  induction xs generalizing s with
  | nil => rfl
  | cons x xs ih => exact ih (f s x).2

/-- A list that is visited without a fault has each of its elements visited without one. -/
theorem fault_of_all_mem {α : Type} {f : Session → α → α × Session}
    (hf : ∀ {s x}, (f s x).2.fault = none → s.fault = none) {s : Session} {xs ys : List α} {x : α}
    (h : (all f s (xs ++ x :: ys)).2.fault = none) :
    (f (all f s xs).2 x).2.fault = none := by
  rw [all_append] at h
  exact fault_of_all hf h

theorem run_of_fault {α : Type} {s : Session} (h : s.fault = none) (x : α)
    (f : α → Session → α × Session) : s.run x f = f x s := by
  rw [run, h]
  rfl

theorem fault_report (s : Session) (ds : List Diagnostic) : (s.report ds).fault = s.fault := by
  unfold report
  split <;> rfl

theorem fault_expr (s : Session) (e : Expr) : (s.expr e).2.fault = s.fault := by
  unfold expr run
  split
  · rfl
  · exact fault_report s _

theorem fault_exprs (s : Session) (es : List Expr) : (s.exprs es).2.fault = s.fault := by
  unfold exprs run
  split
  · rfl
  · exact fault_report s _

theorem fault_of_fnName {s : Session} {d : FnDecl} (h : (s.fnName d).2.fault = none) :
    s.fault = none := by
  unfold fnName at h
  split at h
  · exact (fault_report s _).symm.trans h
  · exact fault_of_declare h

theorem fault_of_stmts_mem {s : Session} {ss ts : List Stmt} {t : Stmt}
    (h : (s.stmts (ss ++ t :: ts)).2.fault = none) : ((s.stmts ss).2.stmt t).2.fault = none := by
  induction ss generalizing s with
  | nil =>
    rw [List.nil_append, stmts] at h
    rw [stmts]
    exact fault_of_stmts h
  | cons u ss ih =>
    rw [List.cons_append, stmts] at h
    rw [stmts]
    exact ih h

theorem stmt_eq_blocks (s : Session) {t : Stmt} (h : t.blocks ≠ []) :
    ∃ e, t.head? = some e ∧ (s.stmt t).2 = (all block (s.expr e).2 t.blocks).2 := by
  cases t with
  | ifThen | ifElse | whileLoop | repeatLoop =>
    refine ⟨_, rfl, ?_⟩
    rw [stmt]
    rfl
  | assign | increment | decrement | read | write | call | ret => exact absurd rfl h

end Session

/-- The second node is a part of the first. The fields of a struct are left out: they are not
visited if the name of the struct is taken. -/
inductive Node.Contains : Node → Node → Prop where
  | decl {p : Program} {d : Decl} (h : d ∈ p.decls) : Contains (.program p) (.decl d)
  | formal {d : FnDecl} {f : Formal} (h : f ∈ d.formals) :
      Contains (.decl (.func d)) (.formal f)
  | fnBody {d : FnDecl} : Contains (.decl (.func d)) (.body d.body)
  | localDecl {b : FnBody} {v : VarDecl} (h : v ∈ b.decls) : Contains (.body b) (.decl (.var v))
  | stmt {b : FnBody} {t : Stmt} (h : t ∈ b.stmts) : Contains (.body b) (.stmt t)
  | head {t : Stmt} {e : Expr} (h : t.head? = some e) : Contains (.stmt t) (.expr e)
  | block {t : Stmt} {b : FnBody} (h : b ∈ t.blocks) : Contains (.stmt t) (.body b)
  | part {e f : Expr} (h : f ∈ e.parts) : Contains (.expr e) (.expr f)

namespace Session

theorem fault_of_node {s : Session} {n : Node} (h : (s.node n).2.2.fault = none) :
    s.fault = none := by
  cases n with
  | program p => exact fault_of_all fault_of_decl h
  | decl d => exact fault_of_decl (d := d) h
  | formal f => exact fault_of_formal (f := f) h
  | body b => exact fault_of_body (b := b) h
  | stmt t => exact fault_of_stmt (t := t) h
  | expr e => exact (fault_expr s e).symm.trans h
  | type t => cases h
  | position p => cases h

/-- A session that a call comes to without a fault is called for in a session without one. -/
theorem Calls.fault_of_called {s t : Session} {n k : Node} (h : s.Calls n t k)
    (ht : t.fault = none) : s.fault = none := by
  cases h with
  | topDecl => exact fault_of_all fault_of_decl ht
  | formal | fnBody => exact fault_of_fnName (fault_of_push (fault_of_formals ht))
  | field => exact fault_of_withStruct (fault_of_push (fault_of_varDecls ht))
  | localDecl => exact fault_of_varDecls ht
  | stmt => exact fault_of_varDecls (fault_of_stmts ht)
  | head => exact ht
  | block =>
    have hblocks := fault_of_all (f := Session.block) fault_of_block (fault_of_push ht)
    exact (fault_expr s _).symm.trans hblocks
  | part => exact (fault_exprs s _).symm.trans ht

/-- What a visit without a fault calls for is visited without a fault. -/
theorem Calls.fault_of_node {s t : Session} {n k : Node} (h : s.Calls n t k)
    (hs : (s.node n).2.2.fault = none) : (t.node k).2.2.fault = none := by
  have hstart := Session.fault_of_node hs
  cases h with
  | topDecl hsplit =>
    simp only [node, program, hsplit] at hs
    exact fault_of_all_mem fault_of_decl hs
  | formal hsplit =>
    simp only [node, decl, fnDecl_eq, run_of_fault hstart, hsplit] at hs
    exact fault_of_all_mem fault_of_formal (fault_of_body (fault_of_pop hs))
  | fnBody =>
    simp only [node, decl, fnDecl_eq, run_of_fault hstart] at hs
    exact fault_of_pop hs
  | field hfree hsplit =>
    simp only [node, decl, structDecl_eq, run_of_fault hstart, hfree, hsplit] at hs
    exact fault_of_all_mem fault_of_varDecl (fault_of_pop hs)
  | localDecl hsplit =>
    simp only [node, body, hsplit] at hs
    exact fault_of_all_mem fault_of_varDecl (fault_of_stmts hs)
  | stmt hsplit =>
    simp only [node, body, hsplit] at hs
    exact fault_of_stmts_mem hs
  -- Expressions meet no fault of their own.
  | head => exact (fault_expr s _).trans hstart
  | @block t e bs cs b he hsplit =>
    obtain ⟨e', he', heq⟩ := s.stmt_eq_blocks (t := t) (by simp [hsplit])
    obtain rfl := Option.some.inj (he.symm.trans he')
    simp only [node, heq, hsplit] at hs
    exact fault_of_pop (fault_of_all_mem (f := Session.block) fault_of_block hs)
  | part => exact (fault_expr _ _).trans ((fault_exprs s _).trans hstart)

/-- A visit without a fault calls for a visit of each part, and none of these meets a fault. -/
theorem exists_calls {s : Session} {n m : Node} (h : n.Contains m)
    (hs : (s.node n).2.2.fault = none) : ∃ t, s.Calls n t m ∧ (t.node m).2.2.fault = none := by
  obtain ⟨t, hcall⟩ : ∃ t, s.Calls n t m := by
    cases h with
    | decl hd =>
      obtain ⟨ds, es, hsplit⟩ := List.append_of_mem hd
      exact ⟨_, .topDecl hsplit⟩
    | formal hf =>
      obtain ⟨fs, gs, hsplit⟩ := List.append_of_mem hf
      exact ⟨_, .formal hsplit⟩
    | fnBody => exact ⟨_, .fnBody⟩
    | localDecl hv =>
      obtain ⟨ds, es, hsplit⟩ := List.append_of_mem hv
      exact ⟨_, .localDecl hsplit⟩
    | stmt ht =>
      obtain ⟨ss, ts, hsplit⟩ := List.append_of_mem ht
      exact ⟨_, .stmt hsplit⟩
    | head he => exact ⟨_, .head he⟩
    | block hb =>
      obtain ⟨bs, cs, hsplit⟩ := List.append_of_mem hb
      obtain ⟨e, he, -⟩ := s.stmt_eq_blocks (List.ne_nil_of_mem hb)
      exact ⟨_, .block he hsplit⟩
    | part hf =>
      obtain ⟨es, fs, hsplit⟩ := List.append_of_mem hf
      exact ⟨_, .part hsplit⟩
  exact ⟨t, hcall, hcall.fault_of_node hs⟩

/-- A visit without a fault comes to all parts of the node, and to the parts of these. -/
theorem exists_visits {s : Session} {n m : Node} (h : Relation.ReflTransGen Node.Contains n m)
    (hs : (s.node n).2.2.fault = none) :
    ∃ t, s.Visits n t m ∧ (t.node m).2.2.fault = none := by
  induction h with
  | refl => exact ⟨s, .here (fault_of_node hs), hs⟩
  | tail _ hcontains ih =>
    obtain ⟨t, hvisit, ht⟩ := ih
    obtain ⟨u, hcall, hu⟩ := exists_calls hcontains ht
    exact ⟨u, hvisit.call hcall (fault_of_node hu), hu⟩

end Session

end Carrot
