import Carrot.Proofs.Compilation
import Carrot.Proofs.Resolution.Erasure
import Carrot.Proofs.Resolution.Frame

/-! # Artifacts of the two stages

Resolution changes a tree in the bindings of its identifiers only, and in an artifact a binding
stands nowhere but under its identifier's `sym`. Without what stands there, the tree in the
second artifact is the tree in the first one.
-/

namespace Carrot

/-! ### Values without symbols -/

namespace Json

/-- The member under which an identifier shows its binding. -/
def symKey : String := "sym"

mutual

/-- The value with a null for each symbol in it. -/
def withoutSyms : Json → Json
  | arr vs => .arr (itemsWithoutSyms vs)
  | obj ms => .obj (membersWithoutSyms ms)
  | v => v

def itemsWithoutSyms : List Json → List Json
  | [] => []
  | v :: vs => v.withoutSyms :: itemsWithoutSyms vs

def membersWithoutSyms : List (String × Json) → List (String × Json)
  | [] => []
  | (k, v) :: ms => (k, if k = symKey then null else v.withoutSyms) :: membersWithoutSyms ms

end

@[simp] theorem withoutSyms_null : null.withoutSyms = null := by rw [withoutSyms] <;> simp

@[simp] theorem withoutSyms_int (i : Int) : (int i).withoutSyms = int i := by
  rw [withoutSyms] <;> simp

@[simp] theorem withoutSyms_str (s : String) : (str s).withoutSyms = str s := by
  rw [withoutSyms] <;> simp

@[simp] theorem withoutSyms_obj (ms : List (String × Json)) :
    (obj ms).withoutSyms = .obj (membersWithoutSyms ms) := by
  rw [withoutSyms]

theorem itemsWithoutSyms_eq_map (vs : List Json) :
    itemsWithoutSyms vs = vs.map withoutSyms := by
  induction vs with
  | nil => rfl
  | cons v vs ih => rw [itemsWithoutSyms, ih, List.map_cons]

@[simp] theorem withoutSyms_arr (vs : List Json) :
    (arr vs).withoutSyms = .arr (vs.map withoutSyms) := by
  rw [withoutSyms, itemsWithoutSyms_eq_map]

@[simp] theorem membersWithoutSyms_nil : membersWithoutSyms [] = [] := rfl

@[simp] theorem membersWithoutSyms_cons (k : String) (v : Json) (ms : List (String × Json)) :
    membersWithoutSyms ((k, v) :: ms) =
      (k, if k = symKey then null else v.withoutSyms) :: membersWithoutSyms ms := by
  rw [membersWithoutSyms]

end Json

/-! ### Trees without symbols -/

namespace Artifact

variable (view view' : View)

@[simp] theorem position_withoutSyms (p : Position) : (position p).withoutSyms = position p := by
  simp [position, Json.symKey]

theorem ident_withoutSyms (x : Ident) :
    (ident view x).withoutSyms = ident view' (x.relabel .unbound) := by
  simp [ident, Json.symKey, Ident.relabel, Relabelling.unbound]

mutual

theorem expr_withoutSyms : ∀ e : Expr,
    (expr view e).withoutSyms = expr view' (e.relabel .unbound)
  | .int v p | .str v p | .bool v p => by
    simp [expr, Expr.relabel, Relabelling.unbound, Json.symKey]
  | .ident x => by simp only [expr, Expr.relabel, ident_withoutSyms view view']
  | .dot r f => by
    simp [expr, Expr.relabel, Json.symKey, expr_withoutSyms r, ident_withoutSyms view view']
  | .assign t v => by
    simp [expr, Expr.relabel, Json.symKey, expr_withoutSyms t, expr_withoutSyms v]
  | .call f args => by
    simp [expr, Expr.relabel, Json.symKey, exprs_withoutSyms args, ident_withoutSyms view view']
  | .unary op e => by simp [expr, Expr.relabel, Json.symKey, expr_withoutSyms e]
  | .binary op l r => by
    simp [expr, Expr.relabel, Json.symKey, expr_withoutSyms l, expr_withoutSyms r]

theorem exprs_withoutSyms : ∀ es : List Expr,
    (exprs view es).map Json.withoutSyms = exprs view' (Expr.listRelabel .unbound es)
  | [] => by simp [exprs, Expr.listRelabel]
  | e :: es => by simp [exprs, Expr.listRelabel, expr_withoutSyms e, exprs_withoutSyms es]

end

theorem typeExpr_withoutSyms (t : TypeExpr) :
    (typeExpr view t).withoutSyms = typeExpr view' (t.relabel .unbound) := by
  cases t <;>
    simp [typeExpr, TypeExpr.relabel, TypeExpr.label, Json.symKey, ident_withoutSyms view view']

theorem varDecl_withoutSyms (d : VarDecl) :
    (varDecl view d).withoutSyms = varDecl view' (d.relabel .unbound) := by
  simp [varDecl, VarDecl.relabel, Json.symKey, typeExpr_withoutSyms view view',
    ident_withoutSyms view view']

theorem varDecls_withoutSyms (ds : List VarDecl) :
    (varDecls view ds).withoutSyms = varDecls view' (ds.map (·.relabel .unbound)) := by
  simp [varDecls, Function.comp_def, varDecl_withoutSyms view view']

mutual

theorem stmt_withoutSyms : ∀ s : Stmt,
    (stmt view s).withoutSyms = stmt view' (s.relabel .unbound)
  | .assign t v => by
    have h := expr_withoutSyms view view' (.assign t v)
    rw [Expr.relabel] at h
    simp [stmt, Stmt.relabel, Json.symKey, h]
  | .increment p | .decrement p | .read p | .write p => by
    simp [stmt, Stmt.relabel, Json.symKey, expr_withoutSyms view view']
  | .ifThen c ds ss | .whileLoop c ds ss | .repeatLoop c ds ss => by
    simp [stmt, Stmt.relabel, Json.symKey, expr_withoutSyms view view',
      varDecls_withoutSyms view view', stmts_withoutSyms ss]
  | .ifElse c ds ss eds ess => by
    simp [stmt, Stmt.relabel, Json.symKey, expr_withoutSyms view view',
      varDecls_withoutSyms view view', stmts_withoutSyms ss, stmts_withoutSyms ess]
  | .call f args => by
    have h := expr_withoutSyms view view' (.call f args)
    rw [Expr.relabel] at h
    simp [stmt, Stmt.relabel, Json.symKey, h]
  | .ret none => by simp [stmt, Stmt.relabel, Json.symKey]
  | .ret (some v) => by simp [stmt, Stmt.relabel, Json.symKey, expr_withoutSyms view view']

theorem stmts_withoutSyms : ∀ ss : List Stmt,
    (stmts view ss).map Json.withoutSyms = stmts view' (Stmt.listRelabel .unbound ss)
  | [] => by simp [stmts, Stmt.listRelabel]
  | s :: ss => by simp [stmts, Stmt.listRelabel, stmt_withoutSyms s, stmts_withoutSyms ss]

end

end Artifact

/-! ### Trees as they are read -/

theorem map_eq_self_of_forall {α : Type} {f : α → α} {as : List α} (h : ∀ a ∈ as, f a = a) :
    as.map f = as :=
  (List.map_congr_left h).trans (List.map_id' as)

theorem Ident.IsRaw.relabel_unbound {x : Ident} (hx : x.IsRaw) : x.relabel .unbound = x := by
  have hb := hx.binding_eq_none
  cases x
  cases hb
  rfl

namespace Expr

theorem IsPlace.relabel_unbound : ∀ {e : Expr}, e.IsPlace → e.relabel .unbound = e
  | .ident x, h => by rw [relabel, Ident.IsRaw.relabel_unbound h]
  | .dot r f, h => by rw [relabel, relabel_unbound h.1, h.2.relabel_unbound]

mutual

theorem WellFormed.relabel_unbound : ∀ {e : Expr}, e.WellFormed → e.relabel .unbound = e
  | .int .., _ | .str .., _ | .bool .., _ => rfl
  | .ident x, h => by rw [relabel, Ident.IsRaw.relabel_unbound h]
  | .dot r f, h => by rw [relabel, h.1.relabel_unbound, h.2.relabel_unbound]
  | .assign t v, h => by rw [relabel, h.1.relabel_unbound, WellFormed.relabel_unbound h.2]
  | .call f args, h => by rw [relabel, h.1.relabel_unbound, ListWellFormed.relabel_unbound h.2]
  | .unary op e, h => by rw [relabel, WellFormed.relabel_unbound (e := e) h]
  | .binary op l r, h => by
    rw [relabel, WellFormed.relabel_unbound h.1, WellFormed.relabel_unbound h.2]

theorem ListWellFormed.relabel_unbound : ∀ {es : List Expr}, ListWellFormed es →
    listRelabel .unbound es = es
  | [], _ => rfl
  | e :: es, h => by
    rw [listRelabel, WellFormed.relabel_unbound h.1, ListWellFormed.relabel_unbound h.2]

end

end Expr

theorem TypeExpr.WellFormed.relabel_unbound {t : TypeExpr} (h : t.WellFormed) :
    t.relabel .unbound = t := by
  cases t with
  | struct tag => rw [relabel, Ident.IsRaw.relabel_unbound h]
  | _ => rfl

theorem VarDecl.WellFormed.relabel_unbound {d : VarDecl} (h : d.WellFormed) :
    d.relabel .unbound = d := by
  rw [relabel, h.type.relabel_unbound, h.name.relabel_unbound]

theorem VarDecl.list_relabel_unbound {ds : List VarDecl} (h : ∀ d ∈ ds, d.WellFormed) :
    ds.map (·.relabel .unbound) = ds :=
  map_eq_self_of_forall fun d hd => (h d hd).relabel_unbound

namespace Stmt

mutual

theorem WellFormed.relabel_unbound : ∀ {s : Stmt}, s.WellFormed → s.relabel .unbound = s
  | .assign t v, h => by rw [relabel, h.1.relabel_unbound, h.2.relabel_unbound]
  | .increment p, h | .decrement p, h | .read p, h => by
    rw [relabel, Expr.IsPlace.relabel_unbound h]
  | .write v, h => by rw [relabel, Expr.WellFormed.relabel_unbound h]
  | .ifThen c ds ss, h | .whileLoop c ds ss, h | .repeatLoop c ds ss, h => by
    rw [relabel, h.1.relabel_unbound, VarDecl.list_relabel_unbound h.2.1,
      ListWellFormed.relabel_unbound h.2.2]
  | .ifElse c ds ss eds ess, h => by
    obtain ⟨hc, hds, hss, heds, hess⟩ := h
    rw [relabel, hc.relabel_unbound, VarDecl.list_relabel_unbound hds,
      VarDecl.list_relabel_unbound heds, ListWellFormed.relabel_unbound hss,
      ListWellFormed.relabel_unbound hess]
  | .call f args, h => by rw [relabel, h.1.relabel_unbound, h.2.relabel_unbound]
  | .ret none, _ => rfl
  | .ret (some v), h => by rw [relabel, Expr.WellFormed.relabel_unbound h]

theorem ListWellFormed.relabel_unbound : ∀ {ss : List Stmt}, ListWellFormed ss →
    listRelabel .unbound ss = ss
  | [], _ => rfl
  | s :: ss, h => by
    rw [listRelabel, WellFormed.relabel_unbound h.1, ListWellFormed.relabel_unbound h.2]

end

end Stmt

theorem Formal.WellFormed.relabel_unbound {f : Formal} (h : f.WellFormed) :
    f.relabel .unbound = f := by
  rw [relabel, h.type.relabel_unbound, h.name.relabel_unbound]

theorem FnDecl.WellFormed.relabel_unbound {d : FnDecl} (h : d.WellFormed) :
    d.relabel .unbound = d := by
  have hformals : d.formals.map (·.relabel .unbound) = d.formals :=
    map_eq_self_of_forall fun f hf => (h.formals f hf).relabel_unbound
  rw [relabel, FnBody.relabel, h.returnType.relabel_unbound, h.name.relabel_unbound, hformals,
    VarDecl.list_relabel_unbound h.body.decls, h.body.stmts.relabel_unbound]

theorem StructDecl.WellFormed.relabel_unbound {d : StructDecl} (h : d.WellFormed) :
    d.relabel .unbound = d := by
  rw [relabel, h.name.relabel_unbound, VarDecl.list_relabel_unbound h.fields]

theorem Decl.WellFormed.relabel_unbound {d : Decl} (h : d.WellFormed) :
    d.relabel .unbound = d := by
  cases d with
  | var d => exact congrArg var (VarDecl.WellFormed.relabel_unbound h)
  | func d => exact congrArg func (FnDecl.WellFormed.relabel_unbound h)
  | struct d => exact congrArg struct (StructDecl.WellFormed.relabel_unbound h)

/-- A program as it is read has no bindings to forget. -/
theorem Program.WellFormed.relabel_unbound {p : Program} (h : p.WellFormed) :
    p.relabel .unbound = p := by
  rw [relabel, map_eq_self_of_forall fun d hd => (h d hd).relabel_unbound]

/-! ### Both artifacts -/

/-- The accepted declarations of the top level: names with their bindings, in order. -/
def Program.accepted (p : Program) : Scope Binding :=
  Scoping.entries StructFields.empty.nextId [] [] (p.decls.map .ofDecl)

namespace Resolution

end Resolution

namespace Compilation

end Compilation

end Carrot
