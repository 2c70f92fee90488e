import Carrot.Proofs.Parsing.Walk
import Carrot.Proofs.Resolution.Clean

/-! # What diagnostics blame

Every diagnostic stands at an identifier, and along the walk of the tree no identifier
is blamed twice. A dot may blame the last name of its receiver, but only if nothing was
found in the receiver. In a parsed program the identifiers stand one behind the other,
so the diagnostics do too.
-/

namespace Carrot

/-- The findings `ds` blame identifiers among the leaves `ls`, in their order, each at most
once. -/
def Blames (ds : List Diagnostic) (ls : List Leaf) : Prop :=
  (ds.map (·.position)).Sublist ((ls.filterMap Leaf.ident?).map (·.position))

namespace Blames

variable {ds es : List Diagnostic} {ls ms : List Leaf}

theorem nil (ls : List Leaf) : Blames [] ls := List.nil_sublist _

theorem append (h : Blames ds ls) (k : Blames es ms) : Blames (ds ++ es) (ls ++ ms) := by
  unfold Blames at *
  rw [List.map_append, List.filterMap_append, List.map_append]
  exact h.append k

theorem left (h : Blames ds ls) (ms : List Leaf) : Blames ds (ls ++ ms) := by
  simpa using h.append (nil ms)

theorem right (h : Blames ds ls) (ms : List Leaf) : Blames ds (ms ++ ls) := (nil ms).append h

theorem of_mem {x : Ident} (hx : .ident x ∈ ls) (e : Code) : Blames [.error x.position e] ls :=
  List.singleton_sublist.2
    (List.mem_map.2 ⟨x, List.mem_filterMap.2 ⟨_, hx, rfl⟩, rfl⟩)

theorem ident (x : Ident) (e : Code) : Blames [.error x.position e] [.ident x] :=
  of_mem List.mem_cons_self e

end Blames

/-! ### Expressions -/

namespace Names

variable {n : Names}

theorem position_of_ofBinding {b : Binding} {p q : Position} (h : Hint.ofBinding b p = .plain q) :
    q = p := by
  unfold Hint.ofBinding at h
  split at h <;> cases h
  rfl

/-- A name that offers something is not reported. -/
theorem found_of_hint_ident {x : Ident} (h : (n.ident x).hint ≠ .nothing) :
    (n.ident x).found = [] := by
  unfold ident at h ⊢
  split
  · next hx => simp [hx] at h
  · rfl

/-- A field that offers something is not reported, and its receiver offers something too. -/
theorem found_of_hint_field {g : Hint} {x : Ident} (h : (n.field g x).hint ≠ .nothing) :
    (n.field g x).found = [] ∧ g ≠ .nothing := by
  fun_cases field n g x <;> simp_all [Resolved.silent, field]

/-- An expression that offers something is not reported. -/
theorem found_of_hint : ∀ {e : Expr}, (n.expr e).hint ≠ .nothing → (n.expr e).found = []
  | .ident x, h => by
    rw [expr] at h ⊢
    exact found_of_hint_ident h
  | .dot e x, h => by
    rw [expr] at h ⊢
    obtain ⟨hfound, hreceiver⟩ := found_of_hint_field h
    rw [hfound, found_of_hint hreceiver, List.append_nil]
  | .int _ _, h | .str _ _, h | .bool _ _, h | .assign _ _, h | .call _ _, h | .unary _ _, h
  | .binary _ _ _, h => by
    rw [expr] at h
    exact absurd rfl h

/-- A plain value is offered at the place of its last name. -/
theorem ident_of_hint {p : Position} : ∀ {e : Expr}, (n.expr e).hint = .plain p →
    ∃ x, .ident x ∈ e.leaves ∧ x.position = p
  | .ident x, h => by
    rw [expr, ident] at h
    split at h
    · cases h
    · exact ⟨x, by simp [Expr.leaves], (position_of_ofBinding h).symm⟩
  | .dot e x, h => by
    rw [expr] at h
    refine ⟨x, by simp [Expr.leaves], ?_⟩
    revert h
    fun_cases field n (n.expr e).hint x <;> intro h
    · cases h
    · cases h
    · cases h
    · cases h
    · exact (position_of_ofBinding h).symm
  | .int _ _, h | .str _ _, h | .bool _ _, h | .assign _ _, h | .call _ _, h | .unary _ _, h
  | .binary _ _ _, h => by
    rw [expr] at h
    cases h

theorem blames_ident (x : Ident) : Blames (n.ident x).found [.ident x] := by
  unfold ident
  split
  · exact .ident x _
  · exact .nil _

/-- A dot blames its field, or the last name of a receiver in which nothing was found. -/
theorem blames_dot {e : Expr} (he : Blames (n.expr e).found e.leaves) (x : Ident) :
    Blames ((n.expr e).found ++ (n.field (n.expr e).hint x).found) (e.leaves ++ [.ident x]) := by
  cases hh : (n.expr e).hint with
  | nothing =>
    rw [field, Resolved.silent, List.append_nil]
    exact he.left _
  | plain p =>
    obtain ⟨y, hy, rfl⟩ := ident_of_hint hh
    rw [found_of_hint (by simp [hh]), field]
    exact (Blames.of_mem hy _).left _
  | struct b decl =>
    refine he.append ?_
    simp only [field]
    split
    · exact .nil _
    · split
      · exact .ident x _
      · exact .nil _

mutual

theorem blames_expr : ∀ e : Expr, Blames (n.expr e).found e.leaves
  | .int _ _ | .str _ _ | .bool _ _ => by
    rw [expr]
    exact .nil _
  | .ident x => by
    rw [expr]
    exact blames_ident x
  | .dot e x => by
    rw [expr]
    exact blames_dot (blames_expr e) x
  | .assign t v => by
    rw [expr]
    exact (blames_expr t).append (blames_expr v)
  | .call f args => by
    rw [expr]
    exact (blames_ident f).append (blames_exprs args)
  | .unary _ e => by
    rw [expr]
    exact blames_expr e
  | .binary _ l r => by
    rw [expr]
    exact (blames_expr l).append (blames_expr r)

theorem blames_exprs : ∀ es : List Expr, Blames (n.exprs es).found (Expr.listLeaves es)
  | [] => by
    rw [exprs]
    exact .nil _
  | e :: es => by
    rw [exprs]
    exact (blames_expr e).append (blames_exprs es)

end

end Names

/-! ### Declarations and statements -/

namespace Context

variable {c : Context}

theorem blames_declareVar (d : VarDecl) : Blames (c.declareVar d).found d.leaves := by
  unfold declareVar VarDecl.leaves
  cases d.type with
  | struct tag =>
    refine Blames.left ?_ _
    dsimp only
    split
    · exact .ident tag _
    · split
      · exact .ident tag _
      · exact .nil _
  | int | bool | void => exact .nil _

theorem blames_varDecl (d : VarDecl) : Blames (c.varDecl d).found d.leaves := by
  have hname (e : Code) : Blames [.error d.name.position e] d.leaves := (Blames.ident _ e).right _
  fun_cases varDecl c d with
  | case1 => exact hname _
  | case2 _ b =>
    dsimp only
    split
    · exact .nil _
    · exact hname _
  | case3 => exact blames_declareVar d

theorem blames_formal (f : Formal) : Blames (c.formal f).found f.leaves := by
  fun_cases formal c f with
  | case1 => exact (Blames.ident _ _).right _
  | case2 => exact (Blames.ident _ _).right _
  | case3 => exact .nil _

theorem blames_all {α : Type} {f : Context → α → Outcome α} {leaves : α → List Leaf}
    (hf : ∀ c x, Blames (f c x).found (leaves x)) (c : Context) (xs : List α) :
    Blames (all f c xs).found (xs.flatMap leaves) := by
  induction xs generalizing c with
  | nil => exact .nil _
  | cons x xs ih => exact (hf c x).append (ih _)

theorem blames_varDecls (ds : List VarDecl) :
    Blames (c.varDecls ds).found (ds.flatMap VarDecl.leaves) :=
  blames_all (fun _ => blames_varDecl) c ds

theorem blames_formals (fs : List Formal) :
    Blames (c.formals fs).found (fs.flatMap Formal.leaves) :=
  blames_all (fun _ => blames_formal) c fs

mutual

theorem blames_stmt {c : Context} : ∀ s : Stmt, Blames (c.stmt s).found s.leaves
  | .assign t v => by
    rw [stmt]
    exact (Names.blames_expr t).append (Names.blames_expr v)
  | .increment p | .decrement p | .read p | .write p | .ret (some p) => by
    rw [stmt]
    exact Names.blames_expr p
  | .ret none => by
    rw [stmt]
    exact .nil _
  | .ifThen e ds ss | .whileLoop e ds ss | .repeatLoop e ds ss => by
    rw [stmt]
    exact (Names.blames_expr e).append ((blames_varDecls ds).append (blames_stmts ss))
  | .ifElse e ds ss eds ess => by
    rw [stmt]
    exact ((Names.blames_expr e).append ((blames_varDecls ds).append (blames_stmts ss))).append
      ((blames_varDecls eds).append (blames_stmts ess))
  | .call f args => by
    rw [stmt]
    exact (Names.blames_ident f).append (Names.blames_exprs args)

theorem blames_stmts {c : Context} : ∀ ss : List Stmt,
    Blames (c.stmts ss).found (Stmt.listLeaves ss)
  | [] => by
    rw [stmts]
    exact .nil _
  | s :: ss => by
    rw [stmts]
    exact (blames_stmt s).append (blames_stmts ss)

end

theorem blames_body (b : FnBody) : Blames (c.body b).found b.leaves :=
  (blames_varDecls b.decls).append (blames_stmts b.stmts)

theorem blames_fnName (d : FnDecl) : Blames (c.fnName d).found [.ident d.name] := by
  fun_cases fnName c d with
  | case1 => exact .ident _ _
  | case2 => exact .nil _

theorem blames_decl (c : Context) (d : Decl) : Blames (c.decl d).found d.leaves := by
  cases d with
  | var d => exact blames_varDecl d
  | func d =>
    refine Blames.right ?_ _
    rw [← List.append_assoc]
    exact ((blames_fnName d).append (blames_formals d.formals)).append (blames_body d.body)
  | struct d =>
    unfold decl structDecl
    dsimp only
    split
    · exact (Blames.ident _ _).left _
    · exact (blames_varDecls d.fields).right _

/-- Whatever is in scope, the findings in declarations blame each identifier at most once. -/
theorem blames_decls (c : Context) (ds : List Decl) :
    Blames (c.decls ds).found (ds.flatMap Decl.leaves) :=
  blames_all blames_decl c ds

end Context

/-! ### Programs -/

namespace Resolution

/-- The diagnostics of a run blame identifiers of the program, in their order, each at most once. -/
theorem blames_diagnostics {p : Program} (fields : StructFields) (hp : Named p.declared) :
    Blames (ofProgram p fields).diagnostics p.leaves := by
  rw [ofProgram_eq p fields hp]
  exact Context.blames_decls _ _

/-- The diagnostics of one run over a parsed program stand one behind the other, each at an
identifier of the program. The identifiers stand one behind the other as well, so none of them
is blamed twice. -/
theorem diagnostics_in_order {text file : String} {p : Program} (fields : StructFields)
    (hp : (Source.parse text file).result = .ok p) :
    let ds := (ofProgram p fields).diagnostics
    ds.Pairwise (fun d e => d.position < e.position) ∧
      p.idents.Pairwise (fun x y => x.position < y.position) ∧
      ∃ xs : List Ident, xs.Sublist p.idents ∧ ds.map (·.position) = xs.map (·.position) := by
  intro ds
  have hidents := Source.pairwise_idents_of_parse hp
  have hblames := blames_diagnostics fields (Source.wellFormed_of_parse hp).named
  have hplaces : (ds.map (·.position)).Pairwise (· < ·) :=
    (List.pairwise_map.2 hidents).sublist hblames
  exact ⟨List.pairwise_map.1 hplaces, hidents, List.sublist_map_iff.1 hblames⟩

/-- A local of an unknown struct type, a void local, a dot behind a number and an unknown name. -/
def faultyText : String := "void f(int n)\x7bstruct q z;void v;n.a=u;\x7d"

def faultyTokens : List Token :=
  [⟨.kwVoid, "void", ⟨1, 1⟩⟩, ⟨.ident, "f", ⟨1, 6⟩⟩, ⟨.lparen, "(", ⟨1, 7⟩⟩,
    ⟨.kwInt, "int", ⟨1, 8⟩⟩, ⟨.ident, "n", ⟨1, 12⟩⟩, ⟨.rparen, ")", ⟨1, 13⟩⟩,
    ⟨.lbrace, "\x7b", ⟨1, 14⟩⟩, ⟨.kwStruct, "struct", ⟨1, 15⟩⟩, ⟨.ident, "q", ⟨1, 22⟩⟩,
    ⟨.ident, "z", ⟨1, 24⟩⟩, ⟨.semicolon, ";", ⟨1, 25⟩⟩, ⟨.kwVoid, "void", ⟨1, 26⟩⟩,
    ⟨.ident, "v", ⟨1, 31⟩⟩, ⟨.semicolon, ";", ⟨1, 32⟩⟩, ⟨.ident, "n", ⟨1, 33⟩⟩,
    ⟨.dot, ".", ⟨1, 34⟩⟩, ⟨.ident, "a", ⟨1, 35⟩⟩, ⟨.assign, "=", ⟨1, 36⟩⟩,
    ⟨.ident, "u", ⟨1, 37⟩⟩, ⟨.semicolon, ";", ⟨1, 38⟩⟩, ⟨.rbrace, "\x7d", ⟨1, 39⟩⟩]

def faultyDecls : List Decl :=
  [.func ⟨.void, ⟨"f", ⟨1, 6⟩, none⟩, [⟨.int, ⟨"n", ⟨1, 12⟩, none⟩⟩],
    ⟨[⟨.struct ⟨"q", ⟨1, 22⟩, none⟩, ⟨"z", ⟨1, 24⟩, none⟩, 0⟩, ⟨.void, ⟨"v", ⟨1, 31⟩, none⟩, -1⟩],
      [.assign (.dot (.ident ⟨"n", ⟨1, 33⟩, none⟩) ⟨"a", ⟨1, 35⟩, none⟩)
        (.ident ⟨"u", ⟨1, 37⟩, none⟩)]⟩⟩]

theorem parse_faultyText :
    (Source.parse faultyText stdinName).result = .ok ⟨faultyDecls, stdinName⟩ := by
  have htokens : Tokens.ofText faultyText.toList = ⟨faultyTokens, none⟩ := by decide +kernel
  exact Source.parse_of_ofText rfl htokens rfl rfl

theorem diagnostics_in_order_faulty :
    (Source.parse faultyText stdinName).result = .ok ⟨faultyDecls, stdinName⟩ ∧
      (ofProgram ⟨faultyDecls, stdinName⟩).diagnostics =
        [.error ⟨1, 22⟩ .undeclared, .error ⟨1, 31⟩ .voidNonFunction,
          .error ⟨1, 33⟩ .dotAccessNonStruct, .error ⟨1, 37⟩ .undeclared] ∧
      (ofProgram ⟨faultyDecls, stdinName⟩).diagnostics.Pairwise
        fun d e => d.position < e.position :=
  ⟨parse_faultyText, by decide, (diagnostics_in_order .empty parse_faultyText).1⟩

end Resolution

end Carrot
