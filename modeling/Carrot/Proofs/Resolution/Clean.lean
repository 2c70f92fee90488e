import Carrot.Proofs.Resolution.Checked

/-! # Clean programs are fully resolved

If resolution finds nothing, every name that can have a binding has one. Functions
and structs keep the invariant of the scopes around them, and the fields of a struct
that is entered have been checked against structs that were declared before it.
-/

namespace Carrot

namespace Context

variable {c : Context}

/-! ### Functions -/

theorem names_formals (c : Context) (fs : List Formal) :
    Formal.names (c.formals fs).node = Formal.names fs := by
  have h := congrArg (List.map (·.name.name)) (c.formals_unbound fs)
  rw [List.map_map, List.map_map] at h
  exact h

theorem fnName_of_found_eq_nil {d : FnDecl} (hd : (c.fnName d).found = []) :
    c.front.lookup d.name.name = none ∧ (c.fnName d).node.IsSet ∧
      (c.fnName d).context = c.bind d.name.name (Session.fnBinding d) := by
  fun_cases fnName c d with
  | case1 hl => simp [fnName, hl] at hd
  | case2 hl => exact ⟨Option.not_isSome_iff_eq_none.1 hl, rfl, rfl⟩

theorem fnDecl_isResolved {d : FnDecl} (hs : c.Sound) (hc : c.Covers []) (hd : d.WellFormed)
    (hx : (c.fnDecl d).found = []) :
    (c.fnDecl d).node.IsResolved ∧ (c.fnDecl d).context.Sound ∧
      (c.fnDecl d).context.Covers [] := by
  simp only [fnDecl, body, Outcome.body, List.append_eq_nil_iff] at hx ⊢
  obtain ⟨⟨hname, hformals⟩, hdecls, hstmts⟩ := hx
  obtain ⟨hfree, hset, hctx⟩ := fnName_of_found_eq_nil hname
  have hchecked : (Session.fnBinding d).Checked := by simp [Binding.Checked, Session.fnBinding]
  have hsound : (c.fnName d).context.Sound := hctx ▸ hs.bind hchecked
  have hcovers : (c.fnName d).context.Covers [] := hctx ▸ hc.bind hfree rfl
  obtain ⟨hfs, hsound', hcovers'⟩ :=
    formals_of_found_eq_nil hsound.enter (covers_enter _) hd.formals hformals
  obtain ⟨hvars, hsound'', -⟩ := varDecls_of_found_eq_nil hsound' hcovers' hd.body.decls hdecls
  refine ⟨⟨hset, hd.returnType.isUnset, hfs, ?_, ?_, ?_⟩, hsound, hcovers⟩
  · intro v hv hmem
    rw [names_formals] at hmem
    exact (hvars v hv).1 hmem
  · intro v hv hmem
    rw [names_formals] at hmem
    exact (hvars v hv).2 hmem
  · exact stmts_isResolved hsound'' hd.body.stmts hstmts

/-! ### Structs -/

/-- Where nothing is found, the types of variables name structs of the scopes around them. -/
theorem tags_of_found_eq_nil {ds : List VarDecl} (hfront : c.front.Forall Binding.IsVariable)
    (hx : (c.varDecls ds).found = []) : ∀ d ∈ ds, ∀ tag, d.type = .struct tag →
      ∃ b ref, c.outer.findSome? (·.lookup tag.name) = some b ∧ b.structRef? = some ref := by
  induction ds generalizing c with
  | nil => simp
  | cons d ds ih =>
    rw [varDecls, all] at hx
    obtain ⟨hx, hxs⟩ := List.append_eq_nil_iff.1 hx
    rcases varDecl_of_found_eq_nil hx with ⟨b, hb, hformal, -⟩ | ⟨hfree, heq⟩
    · have hvar := hfront _ (mem_of_lookup hb)
      rw [hvar.not_isFormal] at hformal
      cases hformal
    · rw [heq] at hx hxs
      obtain ⟨-, own, hown, hctx, htag⟩ := declareVar_of_found_eq_nil hx
      rw [hctx] at hxs
      have hrest := ih (c := c.bind d.name.name own) (hfront.append hown) hxs
      refine List.forall_mem_cons.2 ⟨fun tag ht => ?_, hrest⟩
      obtain ⟨b, ref, hb, href⟩ := htag tag ht
      refine ⟨b, ref, ?_, href⟩
      simp only [find, scopes, List.findSome?_cons] at hb
      cases hl : c.front.lookup tag.name with
      | none => simpa [hl] using hb
      | some v =>
        obtain rfl : v = b := by simpa [hl] using hb
        rw [(hfront _ (mem_of_lookup hl)).structRef?_eq_none] at href
        cases href

theorem checked_fieldBinding? {d : VarDecl} {b : Binding} (hb : c.fieldBinding? d = some b)
    (hd : ∀ tag, d.type = .struct tag →
      ∃ b ref, c.find tag.name = some b ∧ b.structRef? = some ref) : b.Checked := by
  unfold fieldBinding? at hb
  cases ht : d.type with
  | struct tag =>
    obtain ⟨s, ref, hs, href⟩ := hd tag ht
    simp only [ht, hs, Option.bind_some, href, Option.some.injEq] at hb
    simp [← hb, Binding.Checked]
  | void => simp [ht] at hb
  | int | bool =>
    simp only [ht, Option.some.injEq] at hb
    simp [← hb, Binding.Checked]

/-- The fields of a struct know their declarations if their types name structs. -/
theorem checked_addFields {ds : List VarDecl} {s : Scope Binding} (hs : s.Forall Binding.Checked)
    (hds : ∀ d ∈ ds, ∀ tag, d.type = .struct tag →
      ∃ b ref, c.find tag.name = some b ∧ b.structRef? = some ref) :
    Scope.Forall Binding.Checked (ds.foldl c.addField s) :=
  forall_addFields hs fun d hd _ hb => checked_fieldBinding? hb (hds d hd)

theorem structDecl_isResolved {d : StructDecl} (hs : c.Sound) (hc : c.Covers [])
    (hd : d.WellFormed) (hx : (c.structDecl d).found = []) :
    (c.structDecl d).node.IsResolved ∧ (c.structDecl d).context.Sound ∧
      (c.structDecl d).context.Covers [] := by
  fun_cases structDecl c d with
  | case1 hl => simp [structDecl, hl] at hx
  | case2 hl fs =>
    have hfree := Option.not_isSome_iff_eq_none.1 hl
    have hfields : fs.found = [] := by simpa [structDecl, hl] using hx
    have hchecked : (c.structBinding d).Checked := by
      simp [Binding.Checked, structBinding, Binding.ofStruct]
    have hnamed : (c.bind d.name.name (c.structBinding d)).Sound := hs.bind hchecked
    have htags := tags_of_found_eq_nil (c := (c.withStruct d).enter) .nil hfields
    have hlisted := checked_addFields (c := c.bind d.name.name (c.structBinding d)) .nil htags
    have hsound : (c.withStruct d).Sound :=
      ⟨hnamed.scopes, StructFields.forall_register hs.fields hlisted⟩
    refine ⟨⟨rfl, (block_of_found_eq_nil hsound hd.fields hfields).1⟩, hsound, ?_⟩
    exact hc.bind (b := c.structBinding d) hfree rfl

/-! ### Programs -/

theorem decl_isResolved {d : Decl} (hs : c.Sound) (hc : c.Covers []) (hd : d.WellFormed)
    (hx : (c.decl d).found = []) :
    (c.decl d).node.IsResolved ∧ (c.decl d).context.Sound ∧ (c.decl d).context.Covers [] := by
  cases d with
  | var d =>
    have hvar : (c.varDecl d).found = [] := hx
    have hwf : d.WellFormed := hd
    have hone : (c.varDecls [d]).found = [] := by simpa [varDecls, all] using hvar
    obtain ⟨hvars, hsound, hcovers⟩ := varDecls_of_found_eq_nil hs hc
      (List.forall_mem_singleton.2 hwf) hone
    exact ⟨(hvars _ List.mem_cons_self).2 List.not_mem_nil, hsound, hcovers⟩
  | func d => exact fnDecl_isResolved hs hc hd hx
  | struct d => exact structDecl_isResolved hs hc hd hx

theorem decls_isResolved {ds : List Decl} (hs : c.Sound) (hc : c.Covers [])
    (hds : ∀ d ∈ ds, d.WellFormed) (hx : (c.decls ds).found = []) :
    ∀ d ∈ (c.decls ds).node, d.IsResolved := by
  induction ds generalizing c with
  | nil => simp [decls, all]
  | cons d ds ih =>
    obtain ⟨hd, hds⟩ := List.forall_mem_cons.1 hds
    rw [decls, all] at hx ⊢
    obtain ⟨hx, hxs⟩ := List.append_eq_nil_iff.1 hx
    obtain ⟨hres, hs', hc'⟩ := decl_isResolved hs hc hd hx
    exact List.forall_mem_cons.2 ⟨hres, ih hs' hc' hds hxs⟩

theorem sound_initial : (initial .empty).Sound := by
  constructor
  · intro s hs
    rw [show s = [] by simpa [initial, scopes] using hs]
    simp [Scope.Forall]
  · simp [initial, StructFields.empty]

end Context

/-! ### Names of parsed programs -/

theorem Ident.IsRaw.name_ne {x : Ident} (hx : x.IsRaw) : x.name ≠ "" := by
  obtain ⟨c, cs, hcs, -⟩ := hx.isName
  intro h
  simp [h] at hcs

theorem named_varDecls {ds : List VarDecl} (hds : ∀ d ∈ ds, d.WellFormed) :
    Named (ds.map (·.name)) := by
  intro x hx
  obtain ⟨d, hd, rfl⟩ := List.mem_map.1 hx
  exact (hds d hd).name.name_ne

mutual

theorem Stmt.WellFormed.named : ∀ {s : Stmt}, s.WellFormed → Named s.declared
  | .ifThen _ ds ss, h | .whileLoop _ ds ss, h | .repeatLoop _ ds ss, h => by
    rw [Stmt.declared, named_append]
    exact ⟨named_varDecls h.2.1, Stmt.listNamed h.2.2⟩
  | .ifElse _ ds ss eds ess, h => by
    obtain ⟨-, hds, hss, heds, hess⟩ := h
    rw [Stmt.declared, named_append, named_append, named_append]
    exact ⟨⟨named_varDecls hds, Stmt.listNamed hss⟩, named_varDecls heds, Stmt.listNamed hess⟩
  | .assign _ _, _ | .increment _, _ | .decrement _, _ | .read _, _ | .write _, _ | .call _ _, _
  | .ret _, _ => by simp [Stmt.declared]

theorem Stmt.listNamed : ∀ {ss : List Stmt}, Stmt.ListWellFormed ss → Named (Stmt.listDeclared ss)
  | [], _ => by simp [Stmt.listDeclared]
  | s :: ss, h => by
    rw [Stmt.listDeclared, named_append]
    exact ⟨Stmt.WellFormed.named h.1, Stmt.listNamed h.2⟩

end

theorem Program.WellFormed.named {p : Program} (hp : p.WellFormed) : Named p.declared := by
  intro x hx
  obtain ⟨d, hd, hx⟩ := List.mem_flatMap.1 hx
  have hd := hp d hd
  have hnamed : Named d.declared := by
    cases d with
    | var d => simpa [Decl.declared] using hd.name.name_ne
    | func d =>
      have hformals : Named (d.formals.map (·.name)) := by
        simpa [Named] using fun f hf => (hd.formals f hf).name.name_ne
      rw [Decl.declared, FnDecl.declared, FnBody.declared, named_cons, named_append, named_append]
      exact ⟨hd.name.name_ne, hformals, named_varDecls hd.body.decls,
        Stmt.listNamed hd.body.stmts⟩
    | struct d =>
      rw [Decl.declared, StructDecl.declared, named_cons]
      exact ⟨hd.name.name_ne, named_varDecls hd.fields⟩
  exact hnamed x hx

/-! ### Clean programs -/

namespace Resolution

/-- A parsed program in which resolution finds no error is returned with a binding noted on each
name: on every identifier and field of an expression, on every declared name and on every struct
type of a variable, but not on a local that repeats a formal of its function, nor on the types of
formals and functions. Fields are only looked up in struct instances, and struct types are bound
to struct declarations. -/
theorem isResolved_of_ok {text file : String} {p : Program}
    (hp : (Source.parse text file).result = .ok p) (hok : (ofProgram p).ok) :
    (ofProgram p).session.fault = none ∧
      (ofProgram p).program.relabel .unbound = p.relabel .unbound ∧
      (ofProgram p).program.IsResolved := by
  have hwf := Source.wellFormed_of_parse hp
  have hnamed := hwf.named
  refine ⟨?_, program_unbound p .empty hnamed, ?_⟩
  · rw [ofProgram_eq p .empty hnamed]
    rfl
  · rw [ofProgram_eq p .empty hnamed] at hok ⊢
    have hfound : ((Context.initial .empty).decls p.decls).found = [] := by
      simpa [ok, Session.ofContext] using hok
    have hcovers : (Context.initial .empty).Covers [] := by simp [Context.Covers, Context.initial]
    exact Context.decls_isResolved Context.sound_initial hcovers hwf hfound

/-- A function that sets a field, with a local that repeats its formal. -/
def setterText : String := "struct s\x7bint a;\x7dvoid f(int n)\x7bint n;struct s t;t.a=n;\x7d"

def setterTokens : List Token :=
  [⟨.kwStruct, "struct", ⟨1, 1⟩⟩, ⟨.ident, "s", ⟨1, 8⟩⟩, ⟨.lbrace, "\x7b", ⟨1, 9⟩⟩,
    ⟨.kwInt, "int", ⟨1, 10⟩⟩, ⟨.ident, "a", ⟨1, 14⟩⟩, ⟨.semicolon, ";", ⟨1, 15⟩⟩,
    ⟨.rbrace, "\x7d", ⟨1, 16⟩⟩, ⟨.kwVoid, "void", ⟨1, 17⟩⟩, ⟨.ident, "f", ⟨1, 22⟩⟩,
    ⟨.lparen, "(", ⟨1, 23⟩⟩, ⟨.kwInt, "int", ⟨1, 24⟩⟩, ⟨.ident, "n", ⟨1, 28⟩⟩,
    ⟨.rparen, ")", ⟨1, 29⟩⟩, ⟨.lbrace, "\x7b", ⟨1, 30⟩⟩, ⟨.kwInt, "int", ⟨1, 31⟩⟩,
    ⟨.ident, "n", ⟨1, 35⟩⟩, ⟨.semicolon, ";", ⟨1, 36⟩⟩, ⟨.kwStruct, "struct", ⟨1, 37⟩⟩,
    ⟨.ident, "s", ⟨1, 44⟩⟩, ⟨.ident, "t", ⟨1, 46⟩⟩, ⟨.semicolon, ";", ⟨1, 47⟩⟩,
    ⟨.ident, "t", ⟨1, 48⟩⟩, ⟨.dot, ".", ⟨1, 49⟩⟩, ⟨.ident, "a", ⟨1, 50⟩⟩, ⟨.assign, "=", ⟨1, 51⟩⟩,
    ⟨.ident, "n", ⟨1, 52⟩⟩, ⟨.semicolon, ";", ⟨1, 53⟩⟩, ⟨.rbrace, "\x7d", ⟨1, 54⟩⟩]

def setterDecls : List Decl :=
  [.struct ⟨⟨"s", ⟨1, 8⟩, none⟩, [⟨.int, ⟨"a", ⟨1, 14⟩, none⟩, -1⟩]⟩,
    .func ⟨.void, ⟨"f", ⟨1, 22⟩, none⟩, [⟨.int, ⟨"n", ⟨1, 28⟩, none⟩⟩],
      ⟨[⟨.int, ⟨"n", ⟨1, 35⟩, none⟩, -1⟩,
        ⟨.struct ⟨"s", ⟨1, 44⟩, none⟩, ⟨"t", ⟨1, 46⟩, none⟩, 0⟩],
      [.assign (.dot (.ident ⟨"t", ⟨1, 48⟩, none⟩) ⟨"a", ⟨1, 50⟩, none⟩)
        (.ident ⟨"n", ⟨1, 52⟩, none⟩)]⟩⟩]

theorem parse_setterText :
    (Source.parse setterText stdinName).result = .ok ⟨setterDecls, stdinName⟩ := by
  have htokens : Tokens.ofText setterText.toList = ⟨setterTokens, none⟩ := by decide +kernel
  exact Source.parse_of_ofText rfl htokens rfl rfl

theorem isResolved_of_ok_setter :
    (Source.parse setterText stdinName).result = .ok ⟨setterDecls, stdinName⟩ ∧
      (ofProgram ⟨setterDecls, stdinName⟩).ok ∧
      (ofProgram ⟨setterDecls, stdinName⟩).program.IsResolved := by
  have hok : (ofProgram ⟨setterDecls, stdinName⟩).ok := by decide
  exact ⟨parse_setterText, hok, (isResolved_of_ok parse_setterText hok).2.2⟩

end Resolution

end Carrot
