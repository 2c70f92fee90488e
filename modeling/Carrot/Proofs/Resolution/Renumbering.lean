import Carrot.Proofs.Resolution.Erasure
import Carrot.Proofs.Syntax.Walk
import Mathlib.Data.List.Basic

/-! # Resolution behind other structs

The identity of a struct only says where its fields stand among those of all structs. So
resolution behind the structs of earlier runs does what it does without them, with all
identities moved behind theirs. Nor does it look at a binding that stands on the tree
before it: such a binding is replaced, or it stays where none is noted.
-/

namespace Carrot

/-! ### Moved identities -/

section Shift

variable (k : Nat)

/-- The same declaration when `k` structs are declared in front of all others. -/
def StructRef.shift (r : StructRef) : StructRef := { r with id := k + r.id }

def Role.shift : Role → Role
  | .structDecl name id => .structDecl name (k + id)
  | .instanceOf decl => .instanceOf (decl.map (·.shift k))
  | .var => .var
  | .formal => .formal
  | .func params => .func params

def Binding.shift (b : Binding) : Binding := { b with role := b.role.shift k }

def Scope.shift (s : Scope Binding) : Scope Binding := s.map fun e => (e.1, e.2.shift k)

def SymbolTable.shift (t : SymbolTable Binding) : SymbolTable Binding :=
  ⟨t.scopes.map (Scope.shift k), t.marked⟩

def Hint.shift : Hint → Hint
  | .struct b decl => .struct (b.shift k) (decl.map (·.shift k))
  | .plain p => .plain p
  | .nothing => .nothing

@[simp] theorem Binding.label_shift (b : Binding) : (b.shift k).label = b.label := rfl

@[simp] theorem Binding.isFormal_shift (b : Binding) : (b.shift k).isFormal = b.isFormal := by
  cases hb : b.role <;> simp [isFormal, shift, Role.shift, hb]

@[simp] theorem Binding.structRef?_shift (b : Binding) :
    (b.shift k).structRef? = b.structRef?.map (·.shift k) := by
  cases hb : b.role <;> simp [structRef?, shift, Role.shift, StructRef.shift, hb]

theorem Hint.ofBinding_shift (b : Binding) (p : Position) :
    ofBinding (b.shift k) p = (ofBinding b p).shift k := by
  cases hb : b.role <;> simp [ofBinding, Binding.shift, Role.shift, shift, hb]

@[simp] theorem Scope.lookup_shift (s : Scope Binding) (name : String) :
    (Scope.shift k s).lookup name = (s.lookup name).map (·.shift k) := by
  induction s with
  | nil => rfl
  | cons e s ih =>
    obtain ⟨x, b⟩ := e
    simp only [shift, List.map_cons, List.lookup_cons]
    cases name == x
    · exact ih
    · rfl

theorem Scope.findSome?_shift (ss : List (Scope Binding)) (name : String) :
    (ss.map (Scope.shift k)).findSome? (·.lookup name) =
      (ss.findSome? (·.lookup name)).map (·.shift k) := by
  induction ss with
  | nil => rfl
  | cons s ss ih =>
    rw [List.map_cons, List.findSome?_cons, List.findSome?_cons, lookup_shift, ih]
    cases s.lookup name <;> rfl

theorem Scope.insertNew_shift (s : Scope Binding) (name : String) (b : Binding) :
    Scope.insertNew (Scope.shift k s) name (b.shift k) = Scope.shift k (s.insertNew name b) := by
  unfold insertNew
  rw [lookup_shift, Option.isSome_map]
  split
  · rfl
  · simp [shift]

end Shift

/-! ### What is in scope behind other structs -/

/-- The fields of structs behind the tables `old` of other structs. -/
def StructFields.behind (old : List (SymbolTable Binding)) (f : StructFields) : StructFields :=
  ⟨old ++ f.tables.map (·.shift old.length)⟩

/-- What is in scope if the structs with the tables `old` are declared in front. -/
def Context.behind (old : List (SymbolTable Binding)) (c : Context) : Context :=
  ⟨Scope.shift old.length c.front, c.outer.map (Scope.shift old.length), c.fields.behind old⟩

section Behind

variable (old : List (SymbolTable Binding))

namespace StructFields

@[simp] theorem nextId_behind (f : StructFields) :
    (f.behind old).nextId = old.length + f.nextId := by
  simp [behind, nextId]

theorem table_behind (f : StructFields) (id : Nat) :
    (f.behind old).table (old.length + id) = (f.table id).shift old.length := by
  simp only [table, behind, List.getElem?_append_right (Nat.le_add_right _ _),
    Nat.add_sub_cancel_left, List.getElem?_map]
  cases f.tables[id]? <;> rfl

@[simp] theorem lookup_behind (f : StructFields) (id : Nat) (name : String) :
    (f.behind old).lookup (old.length + id) name = (f.lookup id name).map (·.shift old.length) := by
  rw [lookup, table_behind, SymbolTable.lookupGlobal, SymbolTable.shift, Scope.findSome?_shift]
  rfl

theorem register_behind (f : StructFields) (s : Scope Binding) :
    (f.behind old).register (Scope.shift old.length s) = (f.register s).behind old := by
  simp [register, behind, SymbolTable.shift]

end StructFields

namespace Context

theorem initial_eq_behind (fields : StructFields) :
    initial fields = (initial .empty).behind fields.tables := by
  simp [initial, behind, StructFields.behind, StructFields.empty, Scope.shift]

@[simp] theorem find_behind (c : Context) (name : String) :
    (c.behind old).find name = (c.find name).map (·.shift old.length) :=
  Scope.findSome?_shift old.length c.scopes name

@[simp] theorem lookupGlobal_behind (c : Context) (name : String) :
    (c.behind old).names.table.lookupGlobal name =
      (c.names.table.lookupGlobal name).map (·.shift old.length) := find_behind old c name

@[simp] theorem lookup_front_behind (c : Context) (name : String) :
    (c.behind old).front.lookup name = (c.front.lookup name).map (·.shift old.length) :=
  Scope.lookup_shift old.length c.front name

@[simp] theorem lookup_fields_behind (c : Context) (id : Nat) (name : String) :
    (c.behind old).names.fields.lookup (old.length + id) name =
      (c.names.fields.lookup id name).map (·.shift old.length) :=
  c.fields.lookup_behind old id name

theorem bind_behind (c : Context) (name : String) (b : Binding) :
    (c.behind old).bind name (b.shift old.length) = (c.bind name b).behind old := by
  simp [bind, behind, Scope.shift]

theorem enter_behind (c : Context) : (c.behind old).enter = c.enter.behind old := rfl

end Context

end Behind

/-! ### Noted bindings -/

/-- The bindings on the identifiers among some leaves, in order. -/
def slots (ls : List Leaf) : List (Option Binding) := (ls.filterMap Leaf.ident?).map (·.binding)

theorem slots_append (ls ms : List Leaf) : slots (ls ++ ms) = slots ls ++ slots ms := by
  simp [slots]

/-- A slot that held `old` after `new` is noted in it; `none` notes nothing. -/
def overlay (k : Nat) (old new : Option Binding) : Option Binding :=
  (new.map (·.shift k)).or old

/-- The leaves `after` are the leaves `before` with the bindings of the leaves `noted` on them, with
identities moved by `k`. -/
structure Overlaid (k : Nat) (before noted after : List Leaf) : Prop where
  length : (slots before).length = (slots noted).length
  slots : slots after = (slots before).zipWith (overlay k) (slots noted)

namespace Overlaid

variable {k : Nat} {b n a b' n' a' : List Leaf}

theorem nil : Overlaid k [] [] [] := ⟨rfl, rfl⟩

theorem append (h : Overlaid k b n a) (h' : Overlaid k b' n' a') :
    Overlaid k (b ++ b') (n ++ n') (a ++ a') := by
  constructor
  · simp only [slots_append, List.length_append, h.length, h'.length]
  · simp only [slots_append, List.zipWith_append h.length, h.slots, h'.slots]

/-- A binding is noted on an identifier. -/
theorem noted (x : Ident) (b : Binding) :
    Overlaid k [.ident x] [.ident { x.relabel .unbound with binding := some b }]
      [.ident { x with binding := some (b.shift k) }] := ⟨rfl, rfl⟩

/-- Nothing is noted on an identifier. -/
theorem ident (x : Ident) : Overlaid k [.ident x] [.ident (x.relabel .unbound)] [.ident x] :=
  ⟨rfl, rfl⟩

theorem type (t : TypeExpr) : Overlaid k t.leaves (t.relabel .unbound).leaves t.leaves := by
  cases t with
  | struct tag => exact ident tag
  | int | bool | void => exact nil

theorem varDecl (d : VarDecl) : Overlaid k d.leaves (d.relabel .unbound).leaves d.leaves :=
  (type d.type).append (ident d.name)

theorem varDecls (ds : List VarDecl) :
    Overlaid k (ds.flatMap VarDecl.leaves) ((ds.map (·.relabel .unbound)).flatMap VarDecl.leaves)
      (ds.flatMap VarDecl.leaves) := by
  induction ds with
  | nil => exact nil
  | cons d ds ih => exact (varDecl d).append ih

end Overlaid

/-- `r` is what resolving `x` gives behind `k` structs, if `r₀` is what resolving it without its
bindings gives. -/
structure Resolved.Follows {α : Type} (leaves : α → List Leaf) (k : Nat) (x : α)
    (r r₀ : Resolved α) : Prop where
  noted : Overlaid k (leaves x) (leaves r₀.node) (leaves r.node)
  hint : r.hint = r₀.hint.shift k
  found : r.found = r₀.found

/-- `o` is what declaring `x` gives behind the structs `old`, if `o₀` is what declaring it without
its bindings gives. -/
structure Outcome.Follows {α : Type} (leaves : α → List Leaf) (old : List (SymbolTable Binding))
    (x : α) (o o₀ : Outcome α) : Prop where
  noted : Overlaid old.length (leaves x) (leaves o₀.node) (leaves o.node)
  context : o.context = o₀.context.behind old
  found : o.found = o₀.found

namespace Resolved.Follows

variable {α β γ : Type} {lα : α → List Leaf} {lβ : β → List Leaf} {lγ : γ → List Leaf} {k : Nat}
  {x : α} {y : β} {r r₀ : Resolved α} {q q₀ : Resolved β}

theorem wrap {f : α → β} (h : r.Follows lα k x r₀) (hf : ∀ a, lβ (f a) = lα a) :
    (Resolved.wrap f r).Follows lβ k (f x) (.wrap f r₀) := by
  refine ⟨?_, rfl, h.found⟩
  simpa only [Resolved.wrap, hf] using h.noted

theorem both {f : α → β → γ} (h : r.Follows lα k x r₀) (h' : q.Follows lβ k y q₀)
    (hf : ∀ a b, lγ (f a b) = lα a ++ lβ b) :
    (Resolved.both f r q).Follows lγ k (f x y) (.both f r₀ q₀) := by
  refine ⟨?_, rfl, ?_⟩
  · simpa only [Resolved.both, hf] using h.noted.append h'.noted
  · simp only [Resolved.both, h.found, h'.found]

end Resolved.Follows

variable (old : List (SymbolTable Binding))

/-! ### Expressions -/

namespace Names

variable {c : Context}

theorem structOf?_behind (label : String) (decl : Option StructRef) :
    (c.behind old).names.structOf? label (decl.map (·.shift old.length)) =
      (c.names.structOf? label decl).map (old.length + ·) := by
  unfold structOf?
  rw [Context.lookupGlobal_behind]
  cases hb : c.names.table.lookupGlobal label with
  | none => cases decl <;> rfl
  | some b => cases hr : b.structRef? <;> cases decl <;> simp [hr, StructRef.shift]

theorem follows_ident (x : Ident) :
    ((c.behind old).names.ident x).Follows (fun x => [.ident x]) old.length x
      (c.names.ident (x.relabel .unbound)) := by
  have hname : (x.relabel .unbound).name = x.name := rfl
  unfold ident
  rw [Context.lookupGlobal_behind, hname]
  cases c.names.table.lookupGlobal x.name with
  | none => exact ⟨.ident x, rfl, rfl⟩
  | some b => exact ⟨.noted x b, Hint.ofBinding_shift _ b _, rfl⟩

theorem follows_field (h : Hint) (x : Ident) :
    ((c.behind old).names.field (h.shift old.length) x).Follows (fun x => [.ident x]) old.length x
      (c.names.field h (x.relabel .unbound)) := by
  cases h with
  | nothing => exact ⟨.ident x, rfl, rfl⟩
  | plain p => exact ⟨.ident x, rfl, rfl⟩
  | struct b decl =>
    simp only [field, Hint.shift, Binding.label_shift, structOf?_behind old]
    cases c.names.structOf? b.label decl with
    | none => exact ⟨.ident x, rfl, rfl⟩
    | some id =>
      have hname : (x.relabel .unbound).name = x.name := rfl
      simp only [Option.map_some, Context.lookup_fields_behind, hname]
      cases c.names.fields.lookup id x.name with
      | none => exact ⟨.ident x, rfl, rfl⟩
      | some g => exact ⟨.noted x g, Hint.ofBinding_shift _ g _, rfl⟩

mutual

theorem follows_expr : ∀ e : Expr,
    ((c.behind old).names.expr e).Follows Expr.leaves old.length e
      (c.names.expr (e.relabel .unbound))
  | .int _ _ | .str _ _ | .bool _ _ => by
    simp only [expr, Expr.relabel]
    exact ⟨⟨rfl, rfl⟩, rfl, rfl⟩
  | .ident x => by
    simp only [expr, Expr.relabel]
    have h := follows_ident old (c := c) x
    exact ⟨h.noted, h.hint, h.found⟩
  | .dot e x => by
    have he := follows_expr e
    have hx := follows_field old (c := c) (c.names.expr (e.relabel .unbound)).hint x
    simp only [expr, Expr.relabel, he.hint]
    exact ⟨he.noted.append hx.noted, hx.hint, by rw [he.found, hx.found]⟩
  | .assign t v => by
    simp only [expr, Expr.relabel]
    exact (follows_expr t).both (follows_expr v) fun _ _ => rfl
  | .call f args => by
    simp only [expr, Expr.relabel]
    exact (follows_ident old f).both (follows_exprs args) fun _ _ => rfl
  | .unary _ e => by
    simp only [expr, Expr.relabel]
    exact (follows_expr e).wrap fun _ => rfl
  | .binary _ l r => by
    simp only [expr, Expr.relabel]
    exact (follows_expr l).both (follows_expr r) fun _ _ => rfl

theorem follows_exprs : ∀ es : List Expr,
    ((c.behind old).names.exprs es).Follows Expr.listLeaves old.length es
      (c.names.exprs (Expr.listRelabel .unbound es))
  | [] => by
    simp only [exprs, Expr.listRelabel]
    exact ⟨.nil, rfl, rfl⟩
  | e :: es => by
    simp only [exprs, Expr.listRelabel]
    exact (follows_expr e).both (follows_exprs es) fun _ _ => rfl

end

end Names

/-! ### Declarations -/

namespace Context

variable {c : Context}

theorem follows_declareVar (d : VarDecl) :
    ((c.behind old).declareVar d).Follows VarDecl.leaves old
      d (c.declareVar (d.relabel .unbound)) := by
  cases ht : d.type with
  | struct tag =>
    have hleaves : d.leaves = [.ident tag] ++ [.ident d.name] := by
      rw [VarDecl.leaves, ht, TypeExpr.leaves]
    have hnone (p : Position) (e : Code) :
        Outcome.Follows VarDecl.leaves old d ⟨d, c.behind old, [.error p e]⟩
          ⟨d.relabel .unbound, c, [.error p e]⟩ := ⟨.varDecl d, rfl, rfl⟩
    have htag : (d.relabel .unbound).type = .struct (tag.relabel .unbound) := by
      rw [VarDecl.relabel, ht, TypeExpr.relabel]
    have hname : (tag.relabel .unbound).name = tag.name := rfl
    simp only [declareVar, ht, htag, hname, find_behind]
    cases hb : c.find tag.name with
    | none => exact hnone _ _
    | some b =>
      simp only [Option.map_some, Binding.structRef?_shift]
      cases b.structRef? with
      | none => exact hnone _ _
      | some ref =>
        let own : Binding := ⟨tag.name, some d.name.position, .instanceOf (some ref)⟩
        refine ⟨?_, bind_behind old c d.name.name own, rfl⟩
        rw [hleaves]
        exact (Overlaid.noted tag b).append (.noted d.name own)
  | int | bool | void =>
    simp only [declareVar, VarDecl.relabel, ht, TypeExpr.relabel]
    refine ⟨?_, bind_behind old c d.name.name ⟨_, some d.name.position, .var⟩, rfl⟩
    rw [VarDecl.leaves, ht]
    exact .noted d.name ⟨_, some d.name.position, .var⟩

theorem relabel_type_eq_void (t : TypeExpr) : t.relabel .unbound = .void ↔ t = .void := by
  cases t <;> simp [TypeExpr.relabel]

theorem label_relabel (t : TypeExpr) : (t.relabel .unbound).label = t.label := by
  cases t <;> rfl

theorem follows_varDecl (c : Context) (d : VarDecl) :
    ((c.behind old).varDecl d).Follows VarDecl.leaves old
      d (c.varDecl (d.relabel .unbound)) := by
  have hname : (d.relabel .unbound).name.name = d.name.name := rfl
  have htype : (d.relabel .unbound).type = .void ↔ d.type = .void := relabel_type_eq_void d.type
  simp only [varDecl, hname, htype, lookup_front_behind]
  by_cases hv : d.type = .void
  · simp only [hv, if_true]
    exact ⟨.varDecl d, rfl, rfl⟩
  · simp only [hv, if_false]
    cases c.front.lookup d.name.name with
    | none => exact follows_declareVar old d
    | some b =>
      simp only [Option.map_some, Binding.isFormal_shift]
      exact ⟨.varDecl d, rfl, rfl⟩

theorem follows_formal (c : Context) (f : Formal) :
    ((c.behind old).formal f).Follows Formal.leaves old f (c.formal (f.relabel .unbound)) := by
  have hname : (f.relabel .unbound).name.name = f.name.name := rfl
  have htype : (f.relabel .unbound).type = .void ↔ f.type = .void := relabel_type_eq_void f.type
  have hlabel : (f.relabel .unbound).type.label = f.type.label := label_relabel f.type
  have hsame : Overlaid old.length f.leaves (f.relabel .unbound).leaves f.leaves :=
    (Overlaid.type f.type).append (.ident f.name)
  simp only [formal, hname, htype, hlabel, lookup_front_behind, Option.isSome_map]
  split
  · exact ⟨hsame, rfl, rfl⟩
  · split
    · exact ⟨hsame, rfl, rfl⟩
    · let own : Binding := ⟨f.type.label, some f.name.position, .formal⟩
      exact ⟨(Overlaid.type f.type).append (.noted f.name own),
        bind_behind old c f.name.name own, rfl⟩

theorem follows_all {α : Type} {f : Context → α → Outcome α} {leaves : α → List Leaf}
    {forget : α → α}
    (hf : ∀ c x, (f (c.behind old) x).Follows leaves old x (f c (forget x))) (c : Context)
    (xs : List α) :
    (all f (c.behind old) xs).Follows (·.flatMap leaves) old xs (all f c (xs.map forget)) := by
  induction xs generalizing c with
  | nil => exact ⟨.nil, rfl, rfl⟩
  | cons x xs ih =>
    have hx := hf c x
    have hxs := ih (f c (forget x)).context
    simp only [all, List.map_cons, hx.context]
    exact ⟨hx.noted.append hxs.noted, hxs.context, by rw [hx.found, hxs.found]⟩

theorem follows_varDecls (c : Context) (ds : List VarDecl) :
    ((c.behind old).varDecls ds).Follows (·.flatMap VarDecl.leaves) old ds
      (c.varDecls (ds.map (·.relabel .unbound))) := follows_all old (follows_varDecl old) c ds

theorem follows_formals (c : Context) (fs : List Formal) :
    ((c.behind old).formals fs).Follows (·.flatMap Formal.leaves) old fs
      (c.formals (fs.map (·.relabel .unbound))) := follows_all old (follows_formal old) c fs

/-! ### Statements -/

/-- A body follows if its declarations do, and its statements behind them. -/
theorem follows_contents {ss : List Stmt} (c : Context) (ds : List VarDecl)
    (h : ∀ c : Context, ((c.behind old).stmts ss).Follows Stmt.listLeaves old.length ss
      (c.stmts (Stmt.listRelabel .unbound ss))) :
    ((c.behind old).body ⟨ds, ss⟩).Follows FnBody.leaves old.length ⟨ds, ss⟩
      (c.body (FnBody.relabel .unbound ⟨ds, ss⟩)) := by
  have hds := follows_varDecls old c ds
  have hss := h (c.varDecls (ds.map (·.relabel .unbound))).context
  simp only [body, FnBody.relabel, hds.context]
  exact ⟨hds.noted.append hss.noted, rfl, by simp only [Outcome.body, hds.found, hss.found]⟩

mutual

theorem follows_stmt : ∀ (s : Stmt) (c : Context),
    ((c.behind old).stmt s).Follows Stmt.leaves old.length s (c.stmt (s.relabel .unbound))
  | .assign t v, _ => by
    simp only [stmt, Stmt.relabel]
    exact (Names.follows_expr old t).both (Names.follows_expr old v) fun _ _ => rfl
  | .increment p, _ | .decrement p, _ | .read p, _ | .write p, _ => by
    simp only [stmt, Stmt.relabel]
    exact (Names.follows_expr old p).wrap fun _ => rfl
  | .ret (some p), c => by
    simp only [stmt, Stmt.relabel]
    have hp := Names.follows_expr old (c := c) p
    exact ⟨hp.noted, rfl, hp.found⟩
  | .ret none, _ => by
    simp only [stmt, Stmt.relabel]
    exact ⟨.nil, rfl, rfl⟩
  | .ifThen e ds ss, c | .whileLoop e ds ss, c | .repeatLoop e ds ss, c => by
    simp only [stmt, Stmt.relabel, enter_behind]
    have he := Names.follows_expr old (c := c) e
    have hbody := follows_contents old c.enter ds (follows_stmts ss)
    exact ⟨he.noted.append hbody.noted, rfl, congrArg₂ (· ++ ·) he.found hbody.found⟩
  | .ifElse e ds ss eds ess, c => by
    simp only [stmt, Stmt.relabel, enter_behind]
    have he := Names.follows_expr old (c := c) e
    have hthen := follows_contents old c.enter ds (follows_stmts ss)
    have helse := follows_contents old c.enter eds (follows_stmts ess)
    exact ⟨(he.noted.append hthen.noted).append helse.noted, rfl,
      congrArg₂ (· ++ ·) (congrArg₂ (· ++ ·) he.found hthen.found) helse.found⟩
  | .call f args, _ => by
    simp only [stmt, Stmt.relabel]
    exact (Names.follows_ident old f).both (Names.follows_exprs old args) fun _ _ => rfl

theorem follows_stmts : ∀ (ss : List Stmt) (c : Context),
    ((c.behind old).stmts ss).Follows Stmt.listLeaves old.length ss
      (c.stmts (Stmt.listRelabel .unbound ss))
  | [], _ => by
    simp only [stmts, Stmt.listRelabel]
    exact ⟨.nil, rfl, rfl⟩
  | s :: ss, c => by
    simp only [stmts, Stmt.listRelabel]
    exact (follows_stmt s c).both (follows_stmts ss c) fun _ _ => rfl

end

/-! ### Functions, structs and the top level -/

theorem fnBinding_relabel (d : FnDecl) :
    Session.fnBinding (d.relabel .unbound) = Session.fnBinding d := by
  simp only [Session.fnBinding, FnDecl.relabel, List.map_map, Function.comp_def, Formal.relabel,
    label_relabel]
  rfl

theorem follows_fnName (c : Context) (d : FnDecl) :
    ((c.behind old).fnName d).Follows (fun x => [.ident x]) old d.name
      (c.fnName (d.relabel .unbound)) := by
  have hname : (d.relabel .unbound).name.name = d.name.name := rfl
  simp only [fnName, hname, lookup_front_behind, Option.isSome_map, fnBinding_relabel]
  split
  · exact ⟨.ident d.name, rfl, rfl⟩
  · exact ⟨.noted d.name _, bind_behind old c d.name.name (Session.fnBinding d), rfl⟩

theorem follows_fnDecl (c : Context) (d : FnDecl) :
    ((c.behind old).fnDecl d).Follows FnDecl.leaves old d (c.fnDecl (d.relabel .unbound)) := by
  have hx := follows_fnName old c d
  generalize hd : d.relabel .unbound = e at hx ⊢
  have hfs := follows_formals old (c.fnName e).context.enter d.formals
  have hb := follows_contents old
    ((c.fnName e).context.enter.formals (d.formals.map (·.relabel .unbound))).context
    d.body.decls (follows_stmts old d.body.stmts)
  simp only [fnDecl, hx.context, enter_behind, hfs.context]
  subst hd
  exact ⟨(Overlaid.type d.returnType).append (hx.noted.append (hfs.noted.append hb.noted)), rfl,
    congrArg₂ (· ++ ·) (congrArg₂ (· ++ ·) hx.found hfs.found) hb.found⟩

theorem fieldBinding?_behind (c : Context) (d : VarDecl) :
    (c.behind old).fieldBinding? d =
      (c.fieldBinding? (d.relabel .unbound)).map (·.shift old.length) := by
  cases ht : d.type with
  | struct tag =>
    have hname : (tag.relabel .unbound).name = tag.name := rfl
    simp only [fieldBinding?, VarDecl.relabel, ht, TypeExpr.relabel, find_behind, hname]
    cases c.find tag.name with
    | none => rfl
    | some b =>
      simp only [Option.map_some, Option.bind_some, Binding.structRef?_shift]
      rfl
  | int | bool | void => rw [fieldBinding?, fieldBinding?, VarDecl.relabel, ht]; rfl

theorem addField_behind (c : Context) (s : Scope Binding) (d : VarDecl) :
    (c.behind old).addField (Scope.shift old.length s) d =
      Scope.shift old.length (c.addField s (d.relabel .unbound)) := by
  unfold addField
  rw [fieldBinding?_behind]
  cases c.fieldBinding? (d.relabel .unbound) with
  | none => rfl
  | some b => exact Scope.insertNew_shift _ s _ b

theorem addFields_behind (c : Context) (s : Scope Binding) (ds : List VarDecl) :
    ds.foldl (c.behind old).addField (Scope.shift old.length s) =
      Scope.shift old.length ((ds.map (·.relabel .unbound)).foldl c.addField s) := by
  induction ds generalizing s with
  | nil => rfl
  | cons d ds ih => rw [List.foldl_cons, addField_behind, ih, List.map_cons, List.foldl_cons]

theorem structBinding_behind (c : Context) (d : StructDecl) :
    (c.behind old).structBinding d =
      (c.structBinding (d.relabel .unbound)).shift old.length := by
  simp only [structBinding, behind, StructFields.nextId_behind, Binding.shift, Binding.ofStruct,
    Role.shift]
  rfl

theorem withStruct_behind (c : Context) (d : StructDecl) :
    (c.behind old).withStruct d = (c.withStruct (d.relabel .unbound)).behind old := by
  have hbind : (c.behind old).bind d.name.name ((c.behind old).structBinding d) =
      (c.bind d.name.name (c.structBinding (d.relabel .unbound))).behind old := by
    rw [structBinding_behind, bind_behind]
  have hfields := addFields_behind old
    (c.bind d.name.name (c.structBinding (d.relabel .unbound))) [] d.fields
  simp only [withStruct, hbind]
  rw [show ([] : Scope Binding) = Scope.shift old.length [] from rfl, hfields]
  simp only [behind, StructFields.register_behind]
  rfl

theorem follows_structDecl (c : Context) (d : StructDecl) :
    ((c.behind old).structDecl d).Follows StructDecl.leaves old d
      (c.structDecl (d.relabel .unbound)) := by
  have hname : (d.relabel .unbound).name.name = d.name.name := rfl
  have hfs := follows_varDecls old (c.withStruct (d.relabel .unbound)).enter d.fields
  simp only [structDecl, hname, lookup_front_behind, Option.isSome_map, withStruct_behind,
    enter_behind]
  split
  · exact ⟨(Overlaid.ident d.name).append (.varDecls d.fields), rfl, rfl⟩
  · rw [structBinding_behind]
    exact ⟨(Overlaid.noted d.name _).append hfs.noted, rfl, hfs.found⟩

theorem follows_decl (c : Context) (d : Decl) :
    ((c.behind old).decl d).Follows Decl.leaves old d (c.decl (d.relabel .unbound)) := by
  cases d with
  | var d =>
    have h := follows_varDecl old c d
    exact ⟨h.noted, h.context, h.found⟩
  | func d =>
    have h := follows_fnDecl old c d
    exact ⟨h.noted, h.context, h.found⟩
  | struct d =>
    have h := follows_structDecl old c d
    exact ⟨h.noted, h.context, h.found⟩

/-- Behind other structs, and with bindings on the tree, declarations are resolved as they are
alone and without bindings. -/
theorem follows_decls (c : Context) (ds : List Decl) :
    ((c.behind old).decls ds).Follows (·.flatMap Decl.leaves) old ds
      (c.decls (ds.map (·.relabel .unbound))) := follows_all old (follows_decl old) c ds

end Context

end Carrot
