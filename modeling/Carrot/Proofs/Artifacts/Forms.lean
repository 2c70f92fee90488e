import Carrot.Proofs.Artifacts
import Carrot.Proofs.Json

/-! # What an artifact tells of a program

An artifact shows the parts of a tree, but not the names of its forms. Forms with different
members are told apart by these, and so are numbers and strings. Forms with the same members are
not: the two boolean literals, the three statements that change a place, a branch and the two
loops, and a statement that writes a value and one that returns it. Everything else of a program
can be read off its artifact.
-/

namespace Carrot

/-! ### One form for all that look alike -/

mutual

/-- The tree with one of the boolean literals for both. -/
def Expr.mergeForms : Expr → Expr
  | .bool _ p => .bool true p
  | .dot r f => .dot r.mergeForms f
  | .assign t v => .assign t.mergeForms v.mergeForms
  | .call f args => .call f (Expr.listMergeForms args)
  | .unary op e => .unary op e.mergeForms
  | .binary op l r => .binary op l.mergeForms r.mergeForms
  | .int v p => .int v p
  | .str t p => .str t p
  | .ident x => .ident x

def Expr.listMergeForms : List Expr → List Expr
  | [] => []
  | e :: es => e.mergeForms :: Expr.listMergeForms es

end

mutual

/-- The tree with one form for all statements that an artifact shows with the same members. -/
def Stmt.mergeForms : Stmt → Stmt
  | .assign t v => .assign t.mergeForms v.mergeForms
  | .increment p | .decrement p | .read p => .increment p.mergeForms
  | .ifThen c ds ss | .whileLoop c ds ss | .repeatLoop c ds ss =>
    .ifThen c.mergeForms ds (Stmt.listMergeForms ss)
  | .ifElse c ds ss eds ess =>
    .ifElse c.mergeForms ds (Stmt.listMergeForms ss) eds (Stmt.listMergeForms ess)
  | .call f args => .call f (Expr.listMergeForms args)
  | .write v | .ret (some v) => .write v.mergeForms
  | .ret none => .ret none

def Stmt.listMergeForms : List Stmt → List Stmt
  | [] => []
  | s :: ss => s.mergeForms :: Stmt.listMergeForms ss

end

def FnBody.mergeForms (b : FnBody) : FnBody := { b with stmts := Stmt.listMergeForms b.stmts }

def Decl.mergeForms : Decl → Decl
  | .func d => .func { d with body := d.body.mergeForms }
  | d => d

/-- The program with one form for all that an artifact shows alike. -/
def Program.mergeForms (p : Program) : Program := { p with decls := p.decls.map (·.mergeForms) }

/-! ### Merging does not show -/

namespace Artifact

variable (view : View)

mutual

theorem expr_mergeForms : ∀ e : Expr, expr view e.mergeForms = expr view e
  | .int .. | .str .. | .bool .. | .ident _ => by simp only [Expr.mergeForms, expr]
  | .dot r f => by simp only [Expr.mergeForms, expr, expr_mergeForms r]
  | .assign t v => by simp only [Expr.mergeForms, expr, expr_mergeForms t, expr_mergeForms v]
  | .call f args => by simp only [Expr.mergeForms, expr, exprs_mergeForms args]
  | .unary op e => by simp only [Expr.mergeForms, expr, expr_mergeForms e]
  | .binary op l r => by simp only [Expr.mergeForms, expr, expr_mergeForms l, expr_mergeForms r]

theorem exprs_mergeForms : ∀ es : List Expr, exprs view (Expr.listMergeForms es) = exprs view es
  | [] => by rw [Expr.listMergeForms]
  | e :: es => by simp only [Expr.listMergeForms, exprs, expr_mergeForms e, exprs_mergeForms es]

end

mutual

theorem stmt_mergeForms : ∀ s : Stmt, stmt view s.mergeForms = stmt view s
  | .assign t v => by simp only [Stmt.mergeForms, stmt, expr, expr_mergeForms]
  | .increment p | .decrement p | .read p | .write p => by
    simp only [Stmt.mergeForms, stmt, expr_mergeForms]
  | .ifThen c ds ss | .whileLoop c ds ss | .repeatLoop c ds ss => by
    simp only [Stmt.mergeForms, stmt, expr_mergeForms, stmts_mergeForms ss]
  | .ifElse c ds ss eds ess => by
    simp only [Stmt.mergeForms, stmt, expr_mergeForms, stmts_mergeForms ss, stmts_mergeForms ess]
  | .call f args => by simp only [Stmt.mergeForms, stmt, expr, exprs_mergeForms]
  | .ret none => by rw [Stmt.mergeForms]
  | .ret (some v) => by
    simp only [Stmt.mergeForms, stmt, expr_mergeForms, Option.map_some, Option.getD_some]

theorem stmts_mergeForms : ∀ ss : List Stmt, stmts view (Stmt.listMergeForms ss) = stmts view ss
  | [] => by rw [Stmt.listMergeForms]
  | s :: ss => by simp only [Stmt.listMergeForms, stmts, stmt_mergeForms s, stmts_mergeForms ss]

end

theorem decl_mergeForms (d : Decl) : decl view d.mergeForms = decl view d := by
  cases d with
  | var | struct => rfl
  | func d => simp only [Decl.mergeForms, decl, body, FnBody.mergeForms, stmts_mergeForms]

theorem program_mergeForms (p : Program) : program view p.mergeForms = program view p := by
  simp only [program, Program.mergeForms, List.map_map, Function.comp_def, decl_mergeForms]

end Artifact

/-! ### Forms by their members -/

/-- The names of the members that the artifact of an expression has. -/
def Expr.members : Expr → List String
  | .int .. | .str .. => ["value", "pos"]
  | .bool .. => ["pos"]
  | .ident _ => ["name", "pos", "sym"]
  | .dot .. => ["loc", "field"]
  | .assign .. => ["lhs", "rhs"]
  | .call .. => ["callee", "args"]
  | .unary .. => ["op", "operand"]
  | .binary .. => ["op", "left", "right"]

/-- The names of the members that the artifact of a statement has. -/
def Stmt.members : Stmt → List String
  | .assign .. => ["assign"]
  | .increment _ | .decrement _ | .read _ => ["loc"]
  | .write _ | .ret _ => ["exp"]
  | .ifThen .. | .whileLoop .. | .repeatLoop .. => ["condition", "decls", "stmts"]
  | .ifElse .. => ["condition", "then_decls", "then_stmts", "else_decls", "else_stmts"]
  | .call .. => ["call"]

/-- The members of all forms of expressions. -/
def Expr.memberLists : List (List String) :=
  [["value", "pos"], ["pos"], ["name", "pos", "sym"], ["loc", "field"], ["lhs", "rhs"],
    ["callee", "args"], ["op", "operand"], ["op", "left", "right"]]

/-- The members of all forms of statements. -/
def Stmt.memberLists : List (List String) :=
  [["assign"], ["loc"], ["exp"], ["condition", "decls", "stmts"],
    ["condition", "then_decls", "then_stmts", "else_decls", "else_stmts"], ["call"]]

theorem Expr.members_mem (e : Expr) : e.members ∈ Expr.memberLists := by
  cases e <;> simp [members, memberLists]

theorem Stmt.members_mem (s : Stmt) : s.members ∈ Stmt.memberLists := by
  cases s <;> simp [members, memberLists]

theorem UnaryOp.ofText?_text (op : UnaryOp) : ofText? op.text = some op := by
  cases op <;> rfl

theorem UnaryOp.text_injective {op op' : UnaryOp} (h : op.text = op'.text) : op = op' :=
  Option.some.inj (op.ofText?_text.symm.trans (h ▸ op'.ofText?_text))

theorem BinaryOp.ofText?_text (op : BinaryOp) : ofText? op.text = some op := by
  cases op <;> rfl

theorem BinaryOp.text_injective {op op' : BinaryOp} (h : op.text = op'.text) : op = op' :=
  Option.some.inj (op.ofText?_text.symm.trans (h ▸ op'.ofText?_text))

namespace Artifact

variable {view view' : View}

theorem names_expr (e : Expr) : (expr view e).names = e.members := by
  cases e <;> rfl

theorem names_stmt (s : Stmt) : (stmt view s).names = s.members := by
  cases s <;> rfl

/-- In whatever order the members are listed, they tell which form of expression has them. -/
theorem exprMembers_eq {e f : Expr} (h : (expr view e).Same (expr view' f)) :
    e.members = f.members := by
  have heq := h.names_eq Expr.memberLists (by decide)
    (by rw [names_expr]; exact e.members_mem) (by rw [names_expr]; exact f.members_mem)
  rwa [names_expr, names_expr] at heq

theorem stmtMembers_eq {s t : Stmt} (h : (stmt view s).Same (stmt view' t)) :
    s.members = t.members := by
  have heq := h.names_eq Stmt.memberLists (by decide)
    (by rw [names_stmt]; exact s.members_mem) (by rw [names_stmt]; exact t.members_mem)
  rwa [names_stmt, names_stmt] at heq

/-! ### Leaves -/

theorem position_same {p q : Position} : (position p).Same (position q) ↔ p = q := by
  cases p
  cases q
  simp only [position, Json.same_pair (show "line" ≠ "col" by decide), Json.same_int,
    Position.mk.injEq]

/-- An identifier is shown with its name and its place. -/
theorem ident_same {x y : Ident} (h : (ident view x).Same (ident view' y)) :
    x.relabel .unbound = y.relabel .unbound := by
  obtain ⟨hname, hpos, -⟩ := (Json.same_triple (by decide) (by decide) (by decide)).1 h
  simp only [Ident.relabel, Relabelling.unbound, Json.same_str.1 hname, position_same.1 hpos]

theorem typeExpr_same {t u : TypeExpr} (h : (typeExpr view t).Same (typeExpr view' u)) :
    t.relabel .unbound = u.relabel .unbound := by
  -- Only a struct type has a name, and the labels of the other types differ.
  have hnames : "name" ∈ (typeExpr view t).names ↔ "name" ∈ (typeExpr view' u).names :=
    h.mem_names
  cases t with
  | struct tag =>
    cases u with
    | struct tag' =>
      obtain ⟨-, htag⟩ := (Json.same_pair (by decide)).1 h
      rw [TypeExpr.relabel, TypeExpr.relabel, ident_same htag]
    | int | bool | void => simp [typeExpr, Json.names] at hnames
  | int | bool | void =>
    cases u with
    | struct tag' => simp [typeExpr, Json.names] at hnames
    | int | bool | void =>
      have hlabel := Json.same_str.1 (Json.same_singleton.1 h)
      revert hlabel
      simp [TypeExpr.label, Binding.voidLabel]

theorem varDecl_same {d d' : VarDecl} (h : (varDecl view d).Same (varDecl view' d')) :
    d.relabel .unbound = d'.relabel .unbound := by
  obtain ⟨htype, hname, hsize⟩ := (Json.same_triple (by decide) (by decide) (by decide)).1 h
  rw [VarDecl.relabel, VarDecl.relabel, typeExpr_same htype, ident_same hname,
    Json.same_int.1 hsize]

theorem varDecls_same {ds ds' : List VarDecl} (h : (varDecls view ds).Same (varDecls view' ds')) :
    ds.map (·.relabel .unbound) = ds'.map (·.relabel .unbound) :=
  Json.map_eq_of_same varDecl_same (Json.same_arr.1 h)

/-! ### Expressions -/

mutual

/-- By induction over one tree: the other one has its form, and their parts are shown alike. -/
theorem expr_same : ∀ {e f : Expr}, (expr view e).Same (expr view' f) →
    (e.relabel .unbound).mergeForms = (f.relabel .unbound).mergeForms
  | .int v p, f, h => by
    have hform := exprMembers_eq h
    cases f with
    | int w q =>
      obtain ⟨hvalue, hpos⟩ := (Json.same_pair (by decide)).1 h
      rw [Json.same_int.1 hvalue, position_same.1 hpos]
    -- Both literals have a member for their value, which is no number for the second.
    | str t q => exact absurd ((Json.same_pair (by decide)).1 h).1 Json.not_same_int_str
    | _ => simp [Expr.members] at hform
  | .str t p, f, h => by
    have hform := exprMembers_eq h
    cases f with
    | str u q =>
      obtain ⟨htext, hpos⟩ := (Json.same_pair (by decide)).1 h
      rw [Json.same_str.1 htext, position_same.1 hpos]
    | int v q => exact absurd ((Json.same_pair (by decide)).1 h).1 Json.not_same_str_int
    | _ => simp [Expr.members] at hform
  | .bool b p, f, h => by
    have hform := exprMembers_eq h
    cases f with
    | bool b' q =>
      rw [position_same.1 (Json.same_singleton.1 h)]
      simp only [Expr.relabel, Expr.mergeForms]
    | _ => simp [Expr.members] at hform
  | .ident x, f, h => by
    have hform := exprMembers_eq h
    cases f with
    | ident y => rw [Expr.relabel, Expr.relabel, ident_same h]
    | _ => simp [Expr.members] at hform
  | .dot r x, f, h => by
    have hform := exprMembers_eq h
    cases f with
    | dot r' y =>
      obtain ⟨hr, hx⟩ := (Json.same_pair (by decide)).1 h
      simp only [Expr.relabel, Expr.mergeForms, expr_same hr, ident_same hx]
    | _ => simp [Expr.members] at hform
  | .assign t v, f, h => by
    have hform := exprMembers_eq h
    cases f with
    | assign t' v' =>
      obtain ⟨ht, hv⟩ := (Json.same_pair (by decide)).1 h
      simp only [Expr.relabel, Expr.mergeForms, expr_same ht, expr_same hv]
    | _ => simp [Expr.members] at hform
  | .call g args, f, h => by
    have hform := exprMembers_eq h
    cases f with
    | call g' args' =>
      obtain ⟨hg, hargs⟩ := (Json.same_pair (by decide)).1 h
      simp only [Expr.relabel, Expr.mergeForms, ident_same hg,
        exprs_same (Json.same_arr.1 hargs)]
    | _ => simp [Expr.members] at hform
  | .unary op e, f, h => by
    have hform := exprMembers_eq h
    cases f with
    | unary op' e' =>
      obtain ⟨hop, he⟩ := (Json.same_pair (by decide)).1 h
      simp only [Expr.relabel, Expr.mergeForms, UnaryOp.text_injective (Json.same_str.1 hop),
        expr_same he]
    | _ => simp [Expr.members] at hform
  | .binary op l r, f, h => by
    have hform := exprMembers_eq h
    cases f with
    | binary op' l' r' =>
      obtain ⟨hop, hl, hr⟩ := (Json.same_triple (by decide) (by decide) (by decide)).1 h
      simp only [Expr.relabel, Expr.mergeForms, BinaryOp.text_injective (Json.same_str.1 hop),
        expr_same hl, expr_same hr]
    | _ => simp [Expr.members] at hform

theorem exprs_same : ∀ {es fs : List Expr},
    List.Forall₂ Json.Same (exprs view es) (exprs view' fs) →
      Expr.listMergeForms (Expr.listRelabel .unbound es) =
        Expr.listMergeForms (Expr.listRelabel .unbound fs)
  | [], [], _ => rfl
  | [], _ :: _, h => by cases h
  | _ :: _, [], h => by cases h
  | e :: es, f :: fs, h => by
    rw [exprs, exprs, List.forall₂_cons] at h
    simp only [Expr.listRelabel, Expr.listMergeForms, expr_same h.1, exprs_same h.2]

end

/-! ### Statements -/

theorem expr_ne_null {e : Expr} : ¬Json.Same .null (expr view e) ∧ ¬(expr view e).Same .null := by
  cases e <;> exact ⟨nofun, nofun⟩

mutual

theorem stmt_same : ∀ {s t : Stmt}, (stmt view s).Same (stmt view' t) →
    (s.relabel .unbound).mergeForms = (t.relabel .unbound).mergeForms
  | .assign p v, t, h => by
    have hform := stmtMembers_eq h
    cases t with
    | assign p' v' =>
      obtain ⟨hp, hv⟩ := (Json.same_pair (by decide)).1 (Json.same_singleton.1 h)
      simp only [Stmt.relabel, Stmt.mergeForms, expr_same hp, expr_same hv]
    | _ => simp [Stmt.members] at hform
  | .increment p, t, h | .decrement p, t, h | .read p, t, h => by
    have hform := stmtMembers_eq h
    cases t with
    | increment | decrement | read =>
      simp only [Stmt.relabel, Stmt.mergeForms, expr_same (Json.same_singleton.1 h)]
    | _ => simp [Stmt.members] at hform
  | .ifThen c ds ss, t, h | .whileLoop c ds ss, t, h | .repeatLoop c ds ss, t, h => by
    have hform := stmtMembers_eq h
    cases t with
    | ifThen c' ds' ss' | whileLoop c' ds' ss' | repeatLoop c' ds' ss' =>
      obtain ⟨hc, hds, hss⟩ := (Json.same_triple (by decide) (by decide) (by decide)).1 h
      simp only [Stmt.relabel, Stmt.mergeForms, expr_same hc, varDecls_same hds,
        stmts_same (Json.same_arr.1 hss)]
    | _ => simp [Stmt.members] at hform
  | .ifElse c ds ss eds ess, t, h => by
    have hform := stmtMembers_eq h
    cases t with
    | ifElse c' ds' ss' eds' ess' =>
      obtain ⟨hc, hbranches⟩ := (Json.same_cons rfl rfl).1 h
      obtain ⟨hds, hrest⟩ := (Json.same_cons rfl rfl).1 hbranches
      obtain ⟨hss, heds, hess⟩ := (Json.same_triple (by decide) (by decide) (by decide)).1 hrest
      simp only [Stmt.relabel, Stmt.mergeForms, expr_same hc, varDecls_same hds,
        stmts_same (Json.same_arr.1 hss), varDecls_same heds, stmts_same (Json.same_arr.1 hess)]
    | _ => simp [Stmt.members] at hform
  | .call f args, t, h => by
    have hform := stmtMembers_eq h
    cases t with
    | call f' args' =>
      obtain ⟨hf, hargs⟩ := (Json.same_pair (by decide)).1 (Json.same_singleton.1 h)
      simp only [Stmt.relabel, Stmt.mergeForms, ident_same hf, exprs_same (Json.same_arr.1 hargs)]
    | _ => simp [Stmt.members] at hform
  | .write v, t, h | .ret (some v), t, h => by
    have hform := stmtMembers_eq h
    cases t with
    | write v' =>
      simp only [Stmt.relabel, Stmt.mergeForms, expr_same (Json.same_singleton.1 h)]
    | ret v' =>
      cases v' with
      | none => exact absurd (Json.same_singleton.1 h) expr_ne_null.2
      | some v' =>
        simp only [Stmt.relabel, Stmt.mergeForms, expr_same (Json.same_singleton.1 h)]
    | _ => simp [Stmt.members] at hform
  | .ret none, t, h => by
    have hform := stmtMembers_eq h
    cases t with
    | write v' => exact absurd (Json.same_singleton.1 h) expr_ne_null.1
    | ret v' =>
      cases v' with
      | none => rfl
      | some v' => exact absurd (Json.same_singleton.1 h) expr_ne_null.1
    | _ => simp [Stmt.members] at hform

theorem stmts_same : ∀ {ss ts : List Stmt},
    List.Forall₂ Json.Same (stmts view ss) (stmts view' ts) →
      Stmt.listMergeForms (Stmt.listRelabel .unbound ss) =
        Stmt.listMergeForms (Stmt.listRelabel .unbound ts)
  | [], [], _ => rfl
  | [], _ :: _, h => by cases h
  | _ :: _, [], h => by cases h
  | s :: ss, t :: ts, h => by
    rw [stmts, stmts, List.forall₂_cons] at h
    simp only [Stmt.listRelabel, Stmt.listMergeForms, stmt_same h.1, stmts_same h.2]

end

/-! ### Declarations -/

theorem body_same {b b' : FnBody} (h : (body view b).Same (body view' b')) :
    (b.relabel .unbound).mergeForms = (b'.relabel .unbound).mergeForms := by
  obtain ⟨hds, hss⟩ := (Json.same_pair (by decide)).1 h
  simp only [FnBody.relabel, FnBody.mergeForms, varDecls_same hds,
    stmts_same (Json.same_arr.1 hss)]

theorem formal_same {f f' : Formal} (h : (formal view f).Same (formal view' f')) :
    f.relabel .unbound = f'.relabel .unbound := by
  obtain ⟨htype, hname⟩ := (Json.same_pair (by decide)).1 h
  rw [Formal.relabel, Formal.relabel, typeExpr_same htype, ident_same hname]

theorem decl_same {d d' : Decl} (h : (decl view d).Same (decl view' d')) :
    (d.relabel .unbound).mergeForms = (d'.relabel .unbound).mergeForms := by
  -- Only a variable has a size, and only a function has a body.
  have hsize : "size" ∈ (decl view d).names ↔ "size" ∈ (decl view' d').names := h.mem_names
  have hbody : "body" ∈ (decl view d).names ↔ "body" ∈ (decl view' d').names := h.mem_names
  cases d with
  | var d =>
    cases d' with
    | var d' => exact congrArg Decl.var (varDecl_same h)
    | func | struct => simp [decl, varDecl, Json.names] at hsize
  | func d =>
    cases d' with
    | func d' =>
      obtain ⟨htype, hrest⟩ := (Json.same_cons rfl rfl).1 h
      obtain ⟨hname, hformals, hbody⟩ :=
        (Json.same_triple (by decide) (by decide) (by decide)).1 hrest
      simp only [Decl.relabel, FnDecl.relabel, Decl.mergeForms, typeExpr_same htype,
        ident_same hname, Json.map_eq_of_same formal_same (Json.same_arr.1 hformals),
        body_same hbody]
    | var | struct => simp [decl, varDecl, Json.names] at hbody
  | struct d =>
    cases d' with
    | struct d' =>
      obtain ⟨hname, hfields⟩ := (Json.same_pair (by decide)).1 h
      simp only [Decl.relabel, StructDecl.relabel, ident_same hname, varDecls_same hfields]
    | var => simp [decl, varDecl, Json.names] at hsize
    | func => simp [decl, Json.names] at hbody

/-- What an artifact of either stage tells of the program in it: everything but the bindings, up
to forms with the same members. -/
theorem program_same {p q : Program} (h : (program view p).Same (program view' q)) :
    (p.relabel .unbound).mergeForms = (q.relabel .unbound).mergeForms := by
  obtain ⟨hdecls, hfile⟩ := (Json.same_pair (by decide)).1 h
  have hmerged := Json.map_eq_of_same decl_same (Json.same_arr.1 hdecls)
  simp only [Program.relabel, Program.mergeForms, List.map_map, Function.comp_def,
    Json.same_str.1 hfile] at hmerged ⊢
  rw [hmerged]

end Artifact

/-! ### Programs by their artifacts -/

namespace Source

/-- The artifacts of two parsed programs are the same value, in whatever order objects list their
members, if and only if the programs are equal but for forms with the same members: which boolean
literal it is, which of the statements that change a place, which of a branch and the loops, and
whether a value is written or returned. -/
theorem artifact_same_iff {text text' file : String} {p q : Program}
    (hp : (parse text file).result = .ok p) (hq : (parse text' file).result = .ok q) :
    ((Artifact.ofProgram p).Same (Artifact.ofProgram q) ↔ p.mergeForms = q.mergeForms) ∧
      (Artifact.ofProgram p = Artifact.ofProgram q ↔ p.mergeForms = q.mergeForms) := by
  have htold (h : (Artifact.ofProgram p).Same (Artifact.ofProgram q)) :
      p.mergeForms = q.mergeForms := by
    have hmerged := Artifact.program_same h
    rwa [(wellFormed_of_parse hp).relabel_unbound, (wellFormed_of_parse hq).relabel_unbound]
      at hmerged
  have hshown (h : p.mergeForms = q.mergeForms) : Artifact.ofProgram p = Artifact.ofProgram q := by
    rw [Artifact.ofProgram, ← Artifact.program_mergeForms, h, Artifact.program_mergeForms,
      Artifact.ofProgram]
  exact ⟨⟨htold, fun h => hshown h ▸ .refl _⟩, fun h => htold (h ▸ .refl _), hshown⟩

/-- A function with a literal, two changes of a place, two guarded blocks and a last statement. -/
def lookalike (literal : Bool) (change change' : Expr → Stmt)
    (guarded guarded' : Expr → List VarDecl → List Stmt → Stmt) (last : Expr → Stmt) : Program :=
  let x (line column : Int) : Expr := .ident ⟨"x", ⟨line, column⟩, none⟩
  ⟨[.func ⟨.void, ⟨"f", ⟨1, 6⟩, none⟩, [], ⟨[],
    [.assign (x 2 1) (.bool literal ⟨2, 3⟩), change (x 3 6), change' (x 4 1),
      guarded (x 5 8) [] [], guarded' (x 6 7) [] [], last (x 7 9)]⟩⟩], stdinName⟩

/-- The tokens of such a function. -/
def lookalikeTokens (literal : Token) (change : List Token) (change' guard guard' : Token)
    (last : List Token) : List Token :=
  let x (line column : Int) : Token := ⟨.ident, "x", ⟨line, column⟩⟩
  let block (line column : Int) : List Token :=
    [⟨.lparen, "(", ⟨line, column⟩⟩, x line (column + 1), ⟨.rparen, ")", ⟨line, column + 2⟩⟩,
      ⟨.lbrace, "\x7b", ⟨line, column + 3⟩⟩, ⟨.rbrace, "\x7d", ⟨line, column + 4⟩⟩]
  [⟨.kwVoid, "void", ⟨1, 1⟩⟩, ⟨.ident, "f", ⟨1, 6⟩⟩, ⟨.lparen, "(", ⟨1, 7⟩⟩,
    ⟨.rparen, ")", ⟨1, 8⟩⟩, ⟨.lbrace, "\x7b", ⟨1, 9⟩⟩, x 2 1, ⟨.assign, "=", ⟨2, 2⟩⟩, literal,
    ⟨.semicolon, ";", ⟨2, 8⟩⟩] ++ change ++ [x 4 1, change', ⟨.semicolon, ";", ⟨4, 4⟩⟩] ++
    guard :: block 5 7 ++ guard' :: block 6 6 ++ last ++
    [x 7 9, ⟨.semicolon, ";", ⟨7, 10⟩⟩, ⟨.rbrace, "\x7d", ⟨7, 11⟩⟩]

def countingText : String :=
  "void f()\x7b\nx=true ;\n     x++;\nx++;\nwhile (x)\x7b\x7d\nwhile(x)\x7b\x7d\nreturn  x;\x7d"

def countingProgram : Program :=
  lookalike true .increment .increment .whileLoop .whileLoop fun e => .ret (some e)

theorem parse_countingText : (parse countingText stdinName).result = .ok countingProgram := by
  have htokens : Tokens.ofText countingText.toList = ⟨lookalikeTokens ⟨.kwTrue, "true", ⟨2, 3⟩⟩
      [⟨.ident, "x", ⟨3, 6⟩⟩, ⟨.increment, "++", ⟨3, 7⟩⟩, ⟨.semicolon, ";", ⟨3, 9⟩⟩]
      ⟨.increment, "++", ⟨4, 2⟩⟩ ⟨.kwWhile, "while", ⟨5, 1⟩⟩ ⟨.kwWhile, "while", ⟨6, 1⟩⟩
      [⟨.kwReturn, "return", ⟨7, 1⟩⟩], none⟩ := by
    decide +kernel
  exact parse_of_ofText rfl htokens rfl rfl

def readingText : String :=
  "void f()\x7b\nx=false;\ncin>>x;\nx--;\nrepeat(x)\x7b\x7d\nif   (x)\x7b\x7d\ncout << x;\x7d"

def readingProgram : Program := lookalike false .read .decrement .repeatLoop .ifThen .write

theorem parse_readingText : (parse readingText stdinName).result = .ok readingProgram := by
  have htokens : Tokens.ofText readingText.toList = ⟨lookalikeTokens ⟨.kwFalse, "false", ⟨2, 3⟩⟩
      [⟨.kwCin, "cin", ⟨3, 1⟩⟩, ⟨.shiftRight, ">>", ⟨3, 4⟩⟩, ⟨.ident, "x", ⟨3, 6⟩⟩,
        ⟨.semicolon, ";", ⟨3, 7⟩⟩]
      ⟨.decrement, "--", ⟨4, 2⟩⟩ ⟨.kwRepeat, "repeat", ⟨5, 1⟩⟩ ⟨.kwIf, "if", ⟨6, 1⟩⟩
      [⟨.kwCout, "cout", ⟨7, 1⟩⟩, ⟨.shiftLeft, "<<", ⟨7, 6⟩⟩], none⟩ := by
    decide +kernel
  exact parse_of_ofText rfl htokens rfl rfl

/-- The two programs differ in every form that an artifact does not tell, and share theirs. -/
theorem artifact_same_iff_lookalike :
    (parse countingText stdinName).result = .ok countingProgram ∧
      (parse readingText stdinName).result = .ok readingProgram ∧
      (Artifact.ofProgram countingProgram).Same (Artifact.ofProgram readingProgram) :=
  ⟨parse_countingText, parse_readingText,
    (artifact_same_iff parse_countingText parse_readingText).1.2 rfl⟩

/-- An artifact does not determine its program: different programs of one file can have the same
one. -/
theorem artifact_not_injective : ∃ text text' p q,
    (parse text stdinName).result = .ok p ∧ (parse text' stdinName).result = .ok q ∧
      Artifact.ofProgram p = Artifact.ofProgram q ∧ p ≠ q := by
  refine ⟨countingText, readingText, countingProgram, readingProgram, parse_countingText,
    parse_readingText, rfl, fun heq => ?_⟩
  cases heq

end Source

end Carrot
