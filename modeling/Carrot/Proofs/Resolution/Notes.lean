import Carrot.Proofs.Layout.Indentation
import Carrot.Proofs.Parsing.Walk
import Carrot.Proofs.Resolution.Clean
import Carrot.Proofs.Resolution.Firsts

/-! # Notes in the text of a resolved program

Whatever resolution finds, the notes that it leaves on names are labels of types and names of
structs, so they stay in their lines. All bindings in scope and among the fields of structs have
such notes at any time of a run. Hence a resolved program is laid out as a parsed one is.
-/

namespace Carrot

open Layout

/-! ### Notes -/

namespace Binding

theorem inline_label (ty : TypeExpr) : Inline ty.label.toList := by
  cases ty with
  | struct tag => exact .fixed Binding.structLabel.toList (by decide)
  | int | bool | void => exact .fixed _ (by decide)

theorem quiet_var (ty : TypeExpr) (pos : Option Position) : Quiet ⟨ty.label, pos, .var⟩ :=
  inline_label ty

theorem quiet_formal (ty : TypeExpr) (pos : Option Position) : Quiet ⟨ty.label, pos, .formal⟩ :=
  inline_label ty

theorem quiet_instance {tag : Ident} (h : (Leaf.ident tag).Neat) (pos : Option Position)
    (ref : Option StructRef) : Quiet ⟨tag.name, pos, .instanceOf ref⟩ :=
  (Starts.name h.1).inline

theorem quiet_ofStruct (name : String) (pos : Option Position) (id : Nat) :
    (ofStruct name pos id).Quiet := .fixed structLabel.toList (by decide)

theorem quiet_fnBinding (d : FnDecl) : (Session.fnBinding d).Quiet := by
  have hparams : ∀ p ∈ Param.signature (d.formals.map fun f => ⟨f.name.name, f.type.label⟩),
      Inline p.type.toList := by
    intro p hp
    rw [Param.signature_eq_firsts] at hp
    obtain ⟨f, -, rfl⟩ := List.mem_map.1 (mem_of_mem_firsts hp)
    exact inline_label f.type
  have htypes := Inline.intercalate (List.forall_mem_map.2 hparams)
  have harrow (cs : List Char) (h : Inline cs) : Inline (cs ++ d.returnType.label.toList) :=
    h.append (inline_label d.returnType)
  simp only [Quiet, note, Session.fnBinding]
  -- A function without parameters has nothing in front of its arrow.
  split
  · simpa using harrow "-> ".toList (.fixed _ (by decide))
  · simpa using harrow _ (htypes.append (.fixed " -> ".toList (by decide)))

end Binding

/-- A note that stays in its line can be written behind any name. -/
theorem Leaf.Neat.note {x : Ident} {b : Binding} (hx : (Leaf.ident x).Neat) (hb : b.Quiet) :
    (Leaf.ident { x with binding := some b }).Neat := by
  refine ⟨hx.1, fun b' hb' => ?_⟩
  cases hb'
  exact hb

namespace Context

/-- All names in scope and all fields of structs have notes that stay in their lines. -/
structure Quiet (c : Context) : Prop where
  scopes : ∀ s ∈ c.scopes, s.Forall Binding.Quiet
  fields : ∀ t ∈ c.fields.tables, ∀ s ∈ t.scopes, Scope.Forall Binding.Quiet s

variable {c : Context}

theorem quiet_initial : (initial .empty).Quiet where
  scopes := by simp [initial, scopes, Scope.Forall]
  fields := by simp [initial, StructFields.empty]

namespace Quiet

theorem find (h : c.Quiet) {name : String} {b : Binding} (hb : c.find name = some b) : b.Quiet :=
  Scope.Forall.findSome? h.scopes hb

theorem field (h : c.Quiet) {id : Nat} {name : String} {b : Binding}
    (hb : c.fields.lookup id name = some b) : b.Quiet := by
  obtain ⟨t, ht, s, hs, he⟩ := StructFields.exists_of_lookup hb (Nat.zero_le id)
  exact h.fields t ht s hs _ he

theorem enter (h : c.Quiet) : c.enter.Quiet := ⟨forall_enter h.scopes, h.fields⟩

theorem bind (h : c.Quiet) {name : String} {b : Binding} (hb : b.Quiet) :
    (c.bind name b).Quiet := ⟨forall_bind h.scopes hb, h.fields⟩

end Quiet

/-! ### Expressions -/

theorem neat_ident (h : c.Quiet) {x : Ident} (hx : (Leaf.ident x).Neat) :
    (Leaf.ident (c.names.ident x).node).Neat := by
  fun_cases Names.ident c.names x with
  | case1 => exact hx
  | case2 b hb => exact hx.note (h.find hb)

theorem neat_field (h : c.Quiet) (hint : Hint) {x : Ident} (hx : (Leaf.ident x).Neat) :
    (Leaf.ident (c.names.field hint x).node).Neat := by
  fun_cases Names.field c.names hint x with
  | case1 | case2 | case3 | case4 => exact hx
  | case5 b decl id hid f hf => exact hx.note (h.field hf)

mutual

/-- Resolving an expression notes bindings of the scopes and of fields only. -/
theorem neat_expr (h : c.Quiet) : ∀ {e : Expr}, Neat e.leaves → Neat (c.names.expr e).node.leaves
  | .int _ _, he | .str _ _, he | .bool _ _, he => by
    rw [Names.expr]
    exact he
  | .ident x, he => by
    rw [Names.expr]
    exact neat_cons.2 ⟨neat_ident h (neat_cons.1 he).1, neat_nil⟩
  | .dot e x, he => by
    simp only [Names.expr, Expr.leaves, neat_append, neat_cons] at he ⊢
    exact ⟨neat_expr h he.1, neat_field h _ he.2.1, neat_nil⟩
  | .assign t v, he => by
    simp only [Names.expr, Resolved.both, Expr.leaves, neat_append] at he ⊢
    exact ⟨neat_expr h he.1, neat_expr h he.2⟩
  | .call f args, he => by
    simp only [Names.expr, Resolved.both, Expr.leaves, neat_append, neat_cons] at he ⊢
    exact ⟨⟨neat_ident h he.1.1, neat_nil⟩, neat_exprs h he.2⟩
  | .unary op e, he => by
    simp only [Names.expr, Resolved.wrap, Expr.leaves] at he ⊢
    exact neat_expr h he
  | .binary op l r, he => by
    simp only [Names.expr, Resolved.both, Expr.leaves, neat_append] at he ⊢
    exact ⟨neat_expr h he.1, neat_expr h he.2⟩

theorem neat_exprs (h : c.Quiet) : ∀ {es : List Expr}, Neat (Expr.listLeaves es) →
    Neat (Expr.listLeaves (c.names.exprs es).node)
  | [], _ => by
    rw [Names.exprs]
    exact neat_nil
  | e :: es, he => by
    simp only [Names.exprs, Resolved.both, Expr.listLeaves, neat_append] at he ⊢
    exact ⟨neat_expr h he.1, neat_exprs h he.2⟩

end

end Context

/-! ### Variables and formals -/

/-- The node is written as it should be, and so are the notes in scope behind it. -/
structure Outcome.Neat {α : Type} (leaves : α → List Leaf) (o : Outcome α) : Prop where
  node : Carrot.Neat (leaves o.node)
  context : o.context.Quiet

namespace Context

variable {c : Context}

theorem neat_all {α : Type} {f : Context → α → Outcome α} {leaves : α → List Leaf}
    (hf : ∀ {c}, Quiet c → ∀ {x}, Neat (leaves x) → (f c x).Neat leaves) {c : Context}
    (h : c.Quiet) {xs : List α} (hxs : Neat (xs.flatMap leaves)) :
    (all f c xs).Neat (·.flatMap leaves) := by
  induction xs generalizing c with
  | nil => exact ⟨neat_nil, h⟩
  | cons x xs ih =>
    obtain ⟨hx, hxs⟩ := neat_append.1 hxs
    have hfirst := hf h hx
    have hrest := ih hfirst.context hxs
    exact ⟨neat_append.2 ⟨hfirst.node, hrest.node⟩, hrest.context⟩

theorem neat_declareVar (h : c.Quiet) {d : VarDecl} (hd : Neat d.leaves) :
    (c.declareVar d).Neat VarDecl.leaves := by
  fun_cases declareVar c d with
  | case1 | case2 => exact ⟨hd, h⟩
  | case3 tag htype b hb ref href own =>
    simp only [VarDecl.leaves, htype, TypeExpr.leaves, neat_append, neat_cons] at hd
    have hown : own.Quiet := Binding.quiet_instance hd.1.1 _ _
    refine ⟨?_, h.bind hown⟩
    exact neat_cons.2 ⟨hd.1.1.note (h.find hb), neat_cons.2 ⟨hd.2.1.note hown, neat_nil⟩⟩
  | case4 htype own =>
    simp only [VarDecl.leaves, neat_append, neat_cons] at hd
    have hown : own.Quiet := Binding.quiet_var _ _
    exact ⟨neat_append.2 ⟨hd.1, neat_cons.2 ⟨hd.2.1.note hown, neat_nil⟩⟩, h.bind hown⟩

theorem neat_varDecl (h : c.Quiet) {d : VarDecl} (hd : Neat d.leaves) :
    (c.varDecl d).Neat VarDecl.leaves := by
  fun_cases varDecl c d with
  | case1 | case2 => exact ⟨hd, h⟩
  | case3 => exact neat_declareVar h hd

theorem neat_varDecls (h : c.Quiet) {ds : List VarDecl} (hds : Neat (ds.flatMap VarDecl.leaves)) :
    (c.varDecls ds).Neat (·.flatMap VarDecl.leaves) := neat_all neat_varDecl h hds

theorem neat_formal (h : c.Quiet) {f : Formal} (hf : Neat f.leaves) :
    (c.formal f).Neat Formal.leaves := by
  fun_cases formal c f with
  | case1 | case2 => exact ⟨hf, h⟩
  | case3 hvoid hfree own =>
    simp only [Formal.leaves, neat_append, neat_cons] at hf
    have hown : own.Quiet := Binding.quiet_formal _ _
    exact ⟨neat_append.2 ⟨hf.1, neat_cons.2 ⟨hf.2.1.note hown, neat_nil⟩⟩, h.bind hown⟩

theorem neat_formals (h : c.Quiet) {fs : List Formal} (hfs : Neat (fs.flatMap Formal.leaves)) :
    (c.formals fs).Neat (·.flatMap Formal.leaves) := neat_all neat_formal h hfs

/-! ### Statements -/

mutual

theorem neat_stmt {c : Context} (h : c.Quiet) : ∀ {s : Stmt}, Neat s.leaves →
    Neat (c.stmt s).node.leaves
  | .assign t v, hs => by
    simp only [stmt, Resolved.both, Stmt.leaves, neat_append] at hs ⊢
    exact ⟨neat_expr h hs.1, neat_expr h hs.2⟩
  | .increment p, hs | .decrement p, hs | .read p, hs | .write p, hs | .ret (some p), hs => by
    simp only [stmt, Resolved.wrap, Stmt.leaves] at hs ⊢
    exact neat_expr h hs
  | .ifThen e ds ss, hs | .whileLoop e ds ss, hs | .repeatLoop e ds ss, hs => by
    simp only [stmt, Resolved.both, Outcome.body, Stmt.leaves, neat_append] at hs ⊢
    have hds := neat_varDecls h.enter hs.2.1
    exact ⟨neat_expr h hs.1, hds.node, neat_stmts hds.context hs.2.2⟩
  | .ifElse e ds ss eds ess, hs => by
    simp only [stmt, Resolved.both, Outcome.body, Stmt.leaves, neat_append] at hs ⊢
    obtain ⟨⟨he, hds, hss⟩, heds, hess⟩ := hs
    have hds := neat_varDecls h.enter hds
    have heds := neat_varDecls h.enter heds
    exact ⟨⟨neat_expr h he, hds.node, neat_stmts hds.context hss⟩, heds.node,
      neat_stmts heds.context hess⟩
  | .call f args, hs => by
    simp only [stmt, Resolved.both, Stmt.leaves, neat_append, neat_cons] at hs ⊢
    exact ⟨⟨neat_ident h hs.1.1, neat_nil⟩, neat_exprs h hs.2⟩
  | .ret none, hs => by
    rw [stmt]
    exact hs

theorem neat_stmts {c : Context} (h : c.Quiet) : ∀ {ss : List Stmt}, Neat (Stmt.listLeaves ss) →
    Neat (Stmt.listLeaves (c.stmts ss).node)
  | [], _ => by
    rw [stmts]
    exact neat_nil
  | s :: ss, hs => by
    simp only [stmts, Resolved.both, Stmt.listLeaves, neat_append] at hs ⊢
    exact ⟨neat_stmt h hs.1, neat_stmts h hs.2⟩

end

/-! ### Declarations -/

theorem neat_fnName (h : c.Quiet) {d : FnDecl} (hd : (Leaf.ident d.name).Neat) :
    (c.fnName d).Neat fun x => [.ident x] := by
  fun_cases fnName c d with
  | case1 => exact ⟨neat_cons.2 ⟨hd, neat_nil⟩, h⟩
  | case2 =>
    have hown := Binding.quiet_fnBinding d
    exact ⟨neat_cons.2 ⟨hd.note hown, neat_nil⟩, h.bind hown⟩

theorem neat_fnDecl (h : c.Quiet) {d : FnDecl} (hd : Neat d.leaves) :
    (c.fnDecl d).Neat FnDecl.leaves := by
  simp only [FnDecl.leaves, FnBody.leaves, neat_append, neat_cons] at hd
  obtain ⟨hty, ⟨hx, -⟩, hfs, hds, hss⟩ := hd
  have hname := neat_fnName h hx
  have hformals := neat_formals hname.context.enter hfs
  have hlocals := neat_varDecls hformals.context hds
  refine ⟨?_, hname.context⟩
  simp only [fnDecl, body, Outcome.body, FnDecl.leaves, FnBody.leaves, neat_append]
  exact ⟨hty, hname.node, hformals.node, hlocals.node, neat_stmts hlocals.context hss⟩

/-- The label of a field is that of its type, so it stays in its line as well. -/
theorem quiet_fieldBinding? {d : VarDecl} (hd : Neat d.leaves) {b : Binding}
    (hb : c.fieldBinding? d = some b) : b.Quiet := by
  unfold fieldBinding? at hb
  split at hb
  · next tag htype =>
    cases hb
    simp only [VarDecl.leaves, htype, TypeExpr.leaves, neat_append, neat_cons] at hd
    exact Binding.quiet_instance hd.1.1 _ _
  · cases hb
  · cases hb
    exact Binding.quiet_var _ _

theorem Quiet.withStruct (h : c.Quiet) {d : StructDecl}
    (hfields : Neat (d.fields.flatMap VarDecl.leaves)) : (c.withStruct d).Quiet := by
  have hnamed : (c.bind d.name.name (c.structBinding d)).Quiet := h.bind (Binding.quiet_ofStruct ..)
  have hlisted := forall_addFields (c := c.bind d.name.name (c.structBinding d)) .nil
    fun v hv _ hb => quiet_fieldBinding? (neat_flatMap.1 hfields v hv) hb
  exact ⟨hnamed.scopes, StructFields.forall_register hnamed.fields hlisted⟩

theorem neat_structDecl (h : c.Quiet) {d : StructDecl} (hd : Neat d.leaves) :
    (c.structDecl d).Neat StructDecl.leaves := by
  fun_cases structDecl c d with
  | case1 => exact ⟨hd, h⟩
  | case2 hfree fs =>
    simp only [StructDecl.leaves, neat_append, neat_cons] at hd
    have hcontext := h.withStruct hd.2
    have hfields := neat_varDecls hcontext.enter hd.2
    exact ⟨neat_cons.2 ⟨hd.1.1.note (Binding.quiet_ofStruct ..), hfields.node⟩, hcontext⟩

theorem neat_decl (h : c.Quiet) {d : Decl} (hd : Neat d.leaves) : (c.decl d).Neat Decl.leaves := by
  cases d with
  | var d => exact ⟨(neat_varDecl h hd).node, (neat_varDecl h hd).context⟩
  | func d => exact ⟨(neat_fnDecl h hd).node, (neat_fnDecl h hd).context⟩
  | struct d => exact ⟨(neat_structDecl h hd).node, (neat_structDecl h hd).context⟩

end Context

/-! ### Programs -/

theorem Resolution.neat_ofProgram {p : Program} (hp : Named p.declared) (h : Neat p.leaves) :
    Neat (ofProgram p).program.leaves := by
  rw [ofProgram_eq p .empty hp]
  exact (Context.neat_all Context.neat_decl Context.quiet_initial h).node

/-- A leaf shown by a token is written as it should be, since the token has the form of its kind. -/
theorem Token.neat_of_leaf? {t : Token} {l : Leaf} (ht : t.word.Formed) (hl : t.leaf? = some l) :
    l.Neat := by
  have hshows := shows_of_leaf? hl
  cases l with
  | ident x =>
    obtain ⟨hk, rfl⟩ := hshows
    exact ⟨ht.name hk, by simp⟩
  | int v pos =>
    obtain ⟨-, rfl, -⟩ := hshows
    exact Int.natCast_nonneg _
  | str s pos =>
    obtain ⟨hk, rfl, -⟩ := hshows
    exact ht.string hk
  | bool b pos => exact trivial

namespace Source

variable {text file : String} {p : Program}

theorem neat_of_parse (hp : (parse text file).result = .ok p) : Neat p.leaves := by
  intro l hl
  rw [leaves_of_parse hp] at hl
  obtain ⟨t, ht, hleaf⟩ := List.mem_filterMap.1 hl
  obtain ⟨hs, hstop, -⟩ := parse_eq_ok_iff.1 hp
  have hformed := (lexes_of_scan hstop).formed ((Screening.check_eq_ok_iff_passes _).1 hs)
  exact Token.neat_of_leaf? (hformed t.word (List.mem_map_of_mem ht)) hleaf

/-- The text of a program that parsing returns, or that resolving its names then leaves, passes the
screening. Its lines are empty or indented by four blanks for every brace that is open before them;
a line that closes a brace stands one level further out. -/
theorem text_laid_out (hp : (parse text file).result = .ok p) :
    ∀ q ∈ [p, (Resolution.ofProgram p).program],
      Screening.check q.text.toList = .ok () ∧
      ∀ before l after, Text.lines q.text.toList = before ++ l :: after →
        LineAt (openBraces before) l := by
  have hraw := neat_of_parse hp
  have hneat : ∀ q ∈ [p, (Resolution.ofProgram p).program], Neat q.leaves :=
    List.forall_mem_cons.2 ⟨hraw, List.forall_mem_singleton.2
      (Resolution.neat_ofProgram (wellFormed_of_parse hp).named hraw)⟩
  intro q hq
  exact ⟨Program.check_text (hneat q hq), fun _ _ _ => Program.lineAt_text (hneat q hq)⟩

/-- A call with a brace in a string literal, and with an unknown name. -/
def bracedText : String := "void f(int n)\x7bf(\"\x7b\",u);\x7d"

def bracedTokens : List Token :=
  [⟨.kwVoid, "void", ⟨1, 1⟩⟩, ⟨.ident, "f", ⟨1, 6⟩⟩, ⟨.lparen, "(", ⟨1, 7⟩⟩,
    ⟨.kwInt, "int", ⟨1, 8⟩⟩, ⟨.ident, "n", ⟨1, 12⟩⟩, ⟨.rparen, ")", ⟨1, 13⟩⟩,
    ⟨.lbrace, "\x7b", ⟨1, 14⟩⟩, ⟨.ident, "f", ⟨1, 15⟩⟩, ⟨.lparen, "(", ⟨1, 16⟩⟩,
    ⟨.strLit, "\"\x7b\"", ⟨1, 17⟩⟩, ⟨.comma, ",", ⟨1, 20⟩⟩, ⟨.ident, "u", ⟨1, 21⟩⟩,
    ⟨.rparen, ")", ⟨1, 22⟩⟩, ⟨.semicolon, ";", ⟨1, 23⟩⟩, ⟨.rbrace, "\x7d", ⟨1, 24⟩⟩]

def bracedProgram : Program :=
  ⟨[.func ⟨.void, ⟨"f", ⟨1, 6⟩, none⟩, [⟨.int, ⟨"n", ⟨1, 12⟩, none⟩⟩],
    ⟨[], [.call ⟨"f", ⟨1, 15⟩, none⟩ [.str "\"\x7b\"" ⟨1, 17⟩, .ident ⟨"u", ⟨1, 21⟩, none⟩]]⟩⟩],
    stdinName⟩

theorem parse_bracedText : (parse bracedText stdinName).result = .ok bracedProgram := by
  have hscreen : Screening.check bracedText.toList = .ok () :=
    (Screening.check_eq_ok_iff_passes _).2 (by decide +kernel)
  have htokens : Tokens.ofText bracedText.toList = ⟨bracedTokens, none⟩ := by decide +kernel
  exact parse_of_ofText hscreen htokens rfl rfl

theorem text_laid_out_braced :
    (parse bracedText stdinName).result = .ok bracedProgram ∧
      (Resolution.ofProgram bracedProgram).diagnostics = [.error ⟨1, 21⟩ .undeclared] ∧
      Screening.check (Resolution.ofProgram bracedProgram).program.text.toList = .ok () ∧
      LineAt 1 "    f(int -> void)(\"\x7b\", u);".toList := by
  have hlines : Text.lines (Resolution.ofProgram bracedProgram).program.text.toList =
      ["void f(int n) \x7b".toList] ++
        "    f(int -> void)(\"\x7b\", u);".toList :: [['\x7d'], []] := by decide +kernel
  have hdepth : openBraces ["void f(int n) \x7b".toList] = 1 := by decide +kernel
  obtain ⟨hscreen, hline⟩ := text_laid_out parse_bracedText
    (Resolution.ofProgram bracedProgram).program (List.mem_cons_of_mem _ List.mem_cons_self)
  have hcall := hline _ _ _ hlines
  rw [hdepth] at hcall
  exact ⟨parse_bracedText, by decide, hscreen, hcall⟩

end Source

end Carrot
