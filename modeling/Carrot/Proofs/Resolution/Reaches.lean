import Carrot.Proofs.Resolution.Coherence
import Carrot.Proofs.Resolution.States
import Carrot.Proofs.Resolution.UnknownTypes

/-! # Reachable sessions

The sessions that a run passes through without a fault, each with the fields that are listed in it
and not yet declared. There are such fields only within the declaration of a struct, and no
expression is visited there. What is listed without its struct is explained at any time: it was
reported, or its declaration is ahead.
-/

namespace Carrot

/-! ### Behind a node -/

/-- The structs that the node declares, if any, are those of the program. -/
def Node.Within (p : Program) : Node → Prop
  | .program q => q = p
  | .decl (.struct d) => .struct d ∈ p.decls
  | _ => True

theorem Node.within_decl {p : Program} {d : Decl} (h : d ∈ p.decls) : (decl d).Within p := by
  cases d with
  | var | func => exact trivial
  | struct d => exact h

namespace Context

variable {base : Nat} {c : Context} {n : Node}

/-- What is in scope behind a node, and what is found in it. -/
def behindNode (c : Context) : Node → Context × List Diagnostic
  | .program p => ((c.decls p.decls).context, (c.decls p.decls).found)
  | .decl d => ((c.decl d).context, (c.decl d).found)
  | .formal f => ((c.formal f).context, (c.formal f).found)
  | .body b => ((c.varDecls b.decls).context, (c.body b).found)
  | .stmt t => (c, (c.stmt t).found)
  | .expr e => (c, (c.names.expr e).found)
  | .type _ | .position _ => (c, [])

theorem Coherent.behindNode (h : c.Coherent base) (htop : n.IsTop → c.outer = []) :
    (c.behindNode n).1.Coherent base := by
  cases n with
  | program p => exact (h.decls (htop trivial) p.decls).1
  | decl d =>
    cases d with
    | var d => exact h.varDecl d
    | func d => exact h.fnName d
    | struct d => exact h.decl (htop trivial) (.struct d)
  | formal f => exact h.formal f
  | body b => exact h.varDecls b.decls
  | stmt | expr | type | position => exact h

theorem Explained.behindNode {p : Program} {log : List Diagnostic}
    (h : c.Explained base (p.Reports log)) (hn : n.Within p) :
    (c.behindNode n).1.Explained base (p.Reports (log ++ (c.behindNode n).2)) := by
  cases n with
  | program q =>
    cases hn
    exact h.decls fun d hd => hd
  | decl d =>
    refine h.decl fun s hs => ?_
    cases hs
    exact hn
  | formal f => exact (h.formal f).mono (·.append _)
  | body b => exact (h.varDecls b.decls).mono (·.append _)
  | stmt | expr | type | position => exact h.mono (·.append _)

end Context

namespace Session

theorem ofContext_inj {c d : Context} {m n : Bool} {log log' : List Diagnostic}
    (h : ofContext c m log = ofContext d n log') : c = d ∧ log = log' := by
  obtain ⟨front, outer, fields⟩ := c
  cases h
  exact ⟨rfl, rfl⟩

theorem node_of_fault {c : Context} {m : Bool} {log : List Diagnostic} {n : Node}
    (h : ((ofContext c m log).node n).2.2.fault = none) :
    ((ofContext c m log).node n).2.2 =
      ofContext (c.behindNode n).1 (m || !(c.behindNode n).2.isEmpty)
        (log ++ (c.behindNode n).2) := by
  cases n with
  | program p =>
    have hdecls : (all decl (ofContext c m log) p.decls).2.fault = none := h
    exact congrArg Prod.snd (decls_of_fault hdecls)
  | decl d => exact congrArg Prod.snd (decl_of_fault h)
  | formal f => exact congrArg Prod.snd (formal_of_fault h)
  | body b => exact congrArg Prod.snd (body_of_fault h)
  | stmt t => exact congrArg Prod.snd (stmt_of_fault h)
  | expr e => exact congrArg Prod.snd (expr_ofContext c m log e)
  | type t => cases h
  | position p => cases h

/-! ### The sessions of a run -/

variable {s t u : Session} {n k : Node} {ahead : List VarDecl}

/-- The visits on the way through a node that are not those of fields in a struct. -/
inductive Outside (s : Session) (n : Node) : Session → Node → Prop where
  | here (h : s.fault = none) : Outside s n s n
  | call {t u : Session} {k m : Node} (h : Outside s n t k) (hk : ∀ d, k ≠ .decl (.struct d))
      (hcall : t.Calls k u m) (hu : u.fault = none) : Outside s n u m

/-- The sessions on the way through a node, each with the fields that are ahead: those that are
listed, but not yet declared. -/
inductive Reaches (s : Session) (n : Node) : Session → List VarDecl → Prop where
  | before {t : Session} {k : Node} (h : s.Outside n t k) : s.Reaches n t []
  | behind {t : Session} {k : Node} (h : s.Outside n t k) (hfault : (t.node k).2.2.fault = none) :
      s.Reaches n (t.node k).2.2 []
  /-- Some of the blocks of a statement have been visited. -/
  | blocks {t : Session} {x : Stmt} {e : Expr} {bs cs : List FnBody}
      (h : s.Outside n t (.stmt x)) (he : x.head? = some e) (hsplit : x.blocks = bs ++ cs)
      (hfault : (all block (t.expr e).2 bs).2.fault = none) :
      s.Reaches n (all block (t.expr e).2 bs).2 []
  /-- A function is bound, and its signature has the first of its formals. -/
  | signature {t : Session} {d : FnDecl} {fs gs : List Formal}
      (h : s.Outside n t (.decl (.func d))) (hsplit : d.formals = fs ++ gs)
      (hfault : (t.fnName { d with formals := fs }).2.fault = none) :
      s.Reaches n (t.fnName { d with formals := fs }).2 []
  /-- A struct has a table for its fields, but is not bound. -/
  | numbered {t : Session} {d : StructDecl} (h : s.Outside n t (.decl (.struct d)))
      (hfree : t.table.lookupLocal d.name.name = none) :
      s.Reaches n { t with fields := t.fields.declare } []
  /-- A struct is bound, and the first of its fields are listed: all of these are ahead. -/
  | listed {t : Session} {d : StructDecl} {ds es : List VarDecl}
      (h : s.Outside n t (.decl (.struct d))) (hfree : t.table.lookupLocal d.name.name = none)
      (hsplit : d.fields = ds ++ es)
      (hfault : (t.withStruct { d with fields := ds }).2.fault = none) :
      s.Reaches n (t.withStruct { d with fields := ds }).2 ds
  /-- The first fields of a struct are declared in a scope of their own; the others are ahead. -/
  | field {t : Session} {d : StructDecl} {ds es : List VarDecl}
      (h : s.Outside n t (.decl (.struct d))) (hfree : t.table.lookupLocal d.name.name = none)
      (hsplit : d.fields = ds ++ es)
      (hfault : (all varDecl (t.withStruct d).2.push ds).2.fault = none) :
      s.Reaches n (all varDecl (t.withStruct d).2.push ds).2 es

theorem Outside.fault_of_start (h : s.Outside n t k) : s.fault = none := by
  induction h with
  | here h => exact h
  | call _ _ _ _ ih => exact ih

theorem Outside.visits (h : s.Outside n t k) : s.Visits n t k := by
  induction h with
  | here h => exact .here h
  | call _ _ hcall hu ih => exact ih.call hcall hu

theorem Outside.trans {m : Node} (h : s.Outside n t k) (hrest : t.Outside k u m) :
    s.Outside n u m := by
  induction hrest with
  | here => exact h
  | call _ hk hcall hu ih => exact ih.call hk hcall hu

/-- A way goes on behind a node that it comes to. -/
theorem Outside.reaches (h : s.Outside n t k) (hrest : t.Reaches k u ahead) :
    s.Reaches n u ahead := by
  cases hrest with
  | before hk => exact .before (h.trans hk)
  | behind hk hfault => exact .behind (h.trans hk) hfault
  | blocks hk he hsplit hfault => exact .blocks (h.trans hk) he hsplit hfault
  | signature hk hsplit hfault => exact .signature (h.trans hk) hsplit hfault
  | numbered hk hfree => exact .numbered (h.trans hk) hfree
  | listed hk hfree hsplit hfault => exact .listed (h.trans hk) hfree hsplit hfault
  | field hk hfree hsplit hfault => exact .field (h.trans hk) hfree hsplit hfault

theorem Reaches.fault_of_start (h : s.Reaches n t ahead) : s.fault = none := by
  cases h with
  | before h | behind h | blocks h | signature h | numbered h | listed h | field h =>
    exact h.fault_of_start

/-- A visit is that of a field in a struct, or it is none of these. -/
theorem Visits.outside_or_field (h : s.Visits n t k) :
    s.Outside n t k ∨ ∃ u d ds v es, s.Outside n u (.decl (.struct d)) ∧
      u.table.lookupLocal d.name.name = none ∧ d.fields = ds ++ v :: es ∧
      t = (all varDecl (u.withStruct d).2.push ds).2 ∧ k = .decl (.var v) := by
  induction h with
  | here h => exact .inl (.here h)
  | @call t u k m _ hcall hu ih =>
    rcases ih with houtside | ⟨-, -, -, v, -, -, -, -, -, rfl⟩
    · by_cases hk : ∃ d, k = .decl (.struct d)
      · obtain ⟨d, rfl⟩ := hk
        cases hcall with
        | field hfree hsplit => exact .inr ⟨t, d, _, _, _, houtside, hfree, hsplit, rfl, rfl⟩
      · exact .inl (houtside.call (fun d hd => hk ⟨d, hd⟩) hcall hu)
    · -- A variable has no parts that are visited.
      cases hcall

theorem Visits.outside (h : s.Visits n t k) (hk : ∀ v, k ≠ .decl (.var v)) : s.Outside n t k :=
  h.outside_or_field.resolve_right fun ⟨_, _, _, v, _, _, _, _, _, hv⟩ => hk v hv

theorem Visits.reaches_expr {e : Expr} (h : s.Visits n t (.expr e)) : s.Reaches n t [] :=
  .before (h.outside (by simp))

end Session

def Node.LeadsToStruct : Node → Prop
  | .program _ | .decl (.struct _) => True
  | _ => False

namespace Session

variable {s t : Session} {n k : Node}

theorem Calls.not_leadsToStruct (h : s.Calls n t k) (hn : ¬n.LeadsToStruct) :
    ¬k.LeadsToStruct := by
  cases h with
  | topDecl | field => exact absurd trivial hn
  | formal | fnBody | localDecl | stmt | head | block | part => exact id

theorem Visits.not_leadsToStruct (h : s.Visits n t k) (hn : ¬n.LeadsToStruct) :
    ¬k.LeadsToStruct := by
  induction h with
  | here => exact hn
  | call _ hcall _ ih => exact hcall.not_leadsToStruct ih

/-- A session without a fault on the way through a node is reached, and no fields are ahead in it if
the node leads to no struct. -/
theorem During.reaches (h : s.During n t) (ht : t.fault = none) :
    ∃ ahead, s.Reaches n t ahead ∧ (¬n.LeadsToStruct → ahead = []) := by
  have hnone {u : Session} {d : StructDecl} {ds : List VarDecl}
      (h : s.Outside n u (.decl (.struct d))) (hn : ¬n.LeadsToStruct) : ds = [] :=
    absurd trivial (h.visits.not_leadsToStruct hn)
  cases h with
  | before h =>
    rcases (h.visits_of_fault ht).outside_or_field with
      houtside | ⟨u, d, ds, v, es, houtside, hfree, hsplit, rfl, rfl⟩
    · exact ⟨[], .before houtside, fun _ => rfl⟩
    · exact ⟨_, .field houtside hfree hsplit ht, hnone houtside⟩
  | behind h =>
    rcases (h.visits_of_fault (fault_of_node ht)).outside_or_field with
      houtside | ⟨u, d, ds, v, es, houtside, hfree, hsplit, rfl, rfl⟩
    · exact ⟨[], .behind houtside ht, fun _ => rfl⟩
    · -- Behind a field, it is one of those that are declared.
      have hfield := all_append varDecl (u.withStruct d).2.push ds [v]
      change _ = (node _ (.decl (.var v))).2.2 at hfield
      rw [← hfield] at ht ⊢
      exact ⟨es, .field houtside hfree (hsplit.trans (List.append_cons ds v es)) ht,
        hnone houtside⟩
  | @blocks u x e bs cs h he hsplit =>
    have hblocks := fault_of_all (f := Session.block) fault_of_block ht
    have hvisit := h.visits_of_fault ((fault_expr u e).symm.trans hblocks)
    exact ⟨[], .blocks (hvisit.outside (by simp)) he hsplit ht, fun _ => rfl⟩
  | signature h hsplit =>
    have hvisit := h.visits_of_fault (fault_of_fnName ht)
    exact ⟨[], .signature (hvisit.outside (by simp)) hsplit ht, fun _ => rfl⟩
  | numbered h hfree =>
    have hvisit := h.visits_of_fault ht
    exact ⟨[], .numbered (hvisit.outside (by simp)) hfree, fun _ => rfl⟩
  | listed h hfree hsplit =>
    have houtside := (h.visits_of_fault (fault_of_withStruct ht)).outside (by simp)
    exact ⟨_, .listed houtside hfree hsplit ht, hnone houtside⟩
  | declared h hfree hsplit =>
    have hstruct := fault_of_withStruct (fault_of_push (fault_of_varDecls ht))
    have houtside := (h.visits_of_fault hstruct).outside (by simp)
    exact ⟨_, .field houtside hfree hsplit ht, hnone houtside⟩

/-- A session without a fault that a run passes through is reached, and no fields are ahead in it
while the run is not busy with a struct. -/
theorem RunsThrough.reaches {p : Program} {focus : Focus} (h : s.RunsThrough p focus t)
    (ht : t.fault = none) :
    ∃ ahead, s.Reaches (.program p) t ahead ∧ ((∀ id, focus ≠ .struct id) → ahead = []) := by
  cases h with
  | @top ds es hsplit =>
    have hstart : s.Outside (.program p) s (.program p) := .here (fault_of_all fault_of_decl ht)
    cases es with
    | nil =>
      obtain rfl : p.decls = ds := hsplit.trans (List.append_nil ds)
      exact ⟨[], .behind hstart ht, fun _ => rfl⟩
    | cons d es =>
      exact ⟨[], .before (hstart.call (by simp) (.topDecl hsplit) ht), fun _ => rfl⟩
  | @inside ds es d t hsplit hduring =>
    obtain ⟨ahead, hreach, hahead⟩ := hduring.reaches ht
    have hds := hreach.fault_of_start
    have hstart : s.Outside (.program p) s (.program p) := .here (fault_of_all fault_of_decl hds)
    refine ⟨ahead, (hstart.call (by simp) (.topDecl hsplit) hds).reaches hreach, fun hfocus => ?_⟩
    refine hahead ?_
    cases d with
    | var | func => exact id
    | struct d => exact absurd rfl (hfocus _)

/-! ### What is in scope is explained -/

/-- The session is without a fault, and what is in scope when it comes to the node is explained by
its log. -/
def Explained (p : Program) (base : Nat) (s : Session) (n : Node) : Prop :=
  n.Within p ∧ ∃ c m log, s = ofContext c m log ∧ c.Explained base (p.Reports log)

variable {p : Program} {base : Nat} {fields : StructFields} {s t : Session} {n k : Node}
  {ahead : List VarDecl}

/-- Calls hand on that what is in scope is explained, but for the fields of structs. -/
theorem Explained.call (h : s.Explained p base n) (hcall : s.Calls n t k) (ht : t.fault = none)
    (hn : ∀ d, n ≠ .decl (.struct d)) : t.Explained p base k := by
  obtain ⟨hwithin, c, m, log, rfl, hc⟩ := h
  obtain ⟨d, found, rfl, hcalls⟩ := hcall.context ht
  cases hcalls with
  | @topDecl _ ds es d hsplit =>
    cases hwithin
    have hmem (e : Decl) (he : e ∈ ds ++ d :: es) : e ∈ p.decls := hsplit ▸ he
    exact ⟨Node.within_decl (hmem d (by simp)), _, _, _, rfl,
      hc.decls fun e he => hmem e (List.mem_append_left _ he)⟩
  | field => exact absurd rfl (hn _)
  | formal | fnBody =>
    exact ⟨trivial, _, _, _, rfl, ((hc.fnName _).enter.formals _).mono (·.append _)⟩
  | localDecl | stmt => exact ⟨trivial, _, _, _, rfl, (hc.varDecls _).mono (·.append _)⟩
  | head | part => exact ⟨trivial, _, _, _, rfl, hc.mono (·.append _)⟩
  | block => exact ⟨trivial, _, _, _, rfl, hc.enter.mono (·.append _)⟩

/-- At every visit of a run but those of fields, what is in scope is explained. -/
theorem Outside.explained (h : (new fields).Outside (.program p) t k) :
    t.Explained p fields.nextId k := by
  induction h with
  | here => exact ⟨rfl, _, false, [], rfl, .initial fields⟩
  | call _ hk hcall hu ih => exact ih.call hcall hu hk

/-- What is in scope at such a visit, coherent and explained by the log. -/
theorem Outside.exists_context (h : (new fields).Outside (.program p) t k) :
    ∃ c m log, t = ofContext c m log ∧ c.Coherent fields.nextId ∧ (k.IsTop → c.outer = []) ∧
      k.Within p ∧ c.Explained fields.nextId (p.Reports log) := by
  obtain ⟨c, m, log, rfl, hcoherent, htop⟩ := h.visits.coherent
  obtain ⟨hwithin, d, m', log', heq, hexplained⟩ := h.explained
  obtain ⟨rfl, rfl⟩ := ofContext_inj heq
  exact ⟨c, m, log, rfl, hcoherent, htop, hwithin, hexplained⟩

/-- At every session of a run, what is in scope is coherent, and explained by the log and by the
fields that are ahead. -/
theorem Reaches.explained (h : (new fields).Reaches (.program p) s ahead) :
    ∃ c m log, s = ofContext c m log ∧ c.Coherent fields.nextId ∧
      c.Explained fields.nextId fun x b =>
        p.Reports log x b ∨ ∃ d ∈ ahead, ∃ tag, d.ListsUnknown x b tag := by
  cases h with
  | before h =>
    obtain ⟨c, m, log, rfl, hcoherent, -, -, hexplained⟩ := h.exists_context
    exact ⟨c, m, log, rfl, hcoherent, hexplained.mono .inl⟩
  | behind h hfault =>
    obtain ⟨c, m, log, rfl, hcoherent, htop, hwithin, hexplained⟩ := h.exists_context
    exact ⟨_, _, _, node_of_fault hfault, hcoherent.behindNode htop,
      (hexplained.behindNode hwithin).mono .inl⟩
  | blocks h he hsplit hfault =>
    obtain ⟨c, m, log, rfl, hcoherent, -, -, hexplained⟩ := h.exists_context
    rw [expr_ofContext] at hfault ⊢
    exact ⟨_, _, _, blocks_of_fault hfault, hcoherent,
      hexplained.mono fun hx => .inl ((hx.append _).append _)⟩
  | signature h hsplit hfault =>
    obtain ⟨c, m, log, rfl, hcoherent, -, -, hexplained⟩ := h.exists_context
    rw [fnName_of_fault hfault]
    exact ⟨_, _, _, rfl, hcoherent.fnName _,
      (hexplained.fnName _).mono fun hx => .inl (hx.append _)⟩
  | numbered h hfree =>
    obtain ⟨c, m, log, rfl, hcoherent, -, -, hexplained⟩ := h.exists_context
    exact ⟨{ c with fields := c.fields.register [] }, m, log, rfl, hcoherent.register .nil,
      (hexplained.mono .inl).register nofun⟩
  | @listed t d _ es h hfree hsplit hfault =>
    obtain ⟨c, m, log, rfl, hcoherent, htop, -, hexplained⟩ := h.exists_context
    rw [withStruct_of_fault hfault]
    exact ⟨_, m, log, rfl, hcoherent.withStruct (htop trivial) _,
      hexplained.listed { d with fields := ahead }⟩
  | @field t d ds es h hfree hsplit hfault =>
    obtain ⟨c, m, log, rfl, hcoherent, htop, hwithin, hexplained⟩ := h.exists_context
    have hstruct := withStruct_of_fault (fault_of_push (fault_of_varDecls hfault))
    simp only [hstruct, push_ofContext] at hfault ⊢
    rw [varDecls_of_fault hfault]
    exact ⟨_, _, _, rfl, (hcoherent.withStruct (htop trivial) d).enter.varDecls ds,
      (hexplained.withStruct hwithin hsplit).enter.varDecls ds⟩

/-- At every session of a run there is a scope to declare names in. -/
theorem Reaches.exists_scope (h : (new fields).Reaches (.program p) s ahead) :
    s.fault = none ∧ ∃ front outer, s.table.scopes = front :: outer := by
  obtain ⟨c, m, log, rfl, -, -⟩ := h.explained
  exact ⟨rfl, c.front, c.outer, rfl⟩

end Session

end Carrot
