import Carrot.Proofs.Parsing.Rewording
import Carrot.Proofs.Parsing.Spellable

/-! # Which programs parsing returns

Positions have no part in whether a tree is well-formed. The tokens that spell a well-formed
tree, with blanks between them, make a text that is read as the tree again, up to positions. So
exactly the well-formed programs are returned.
-/

namespace Carrot

/-! ### Well-formed trees up to positions -/

theorem Ident.isRaw_unplaced {x : Ident} : (x.relabel .unplaced).IsRaw ↔ x.IsRaw :=
  ⟨fun h => ⟨h.isName, h.binding_eq_none⟩, fun h => ⟨h.isName, h.binding_eq_none⟩⟩

theorem Expr.isPlace_unplaced : ∀ {e : Expr}, (e.relabel .unplaced).IsPlace ↔ e.IsPlace
  | .ident _ => Ident.isRaw_unplaced
  | .dot r _ => and_congr r.isPlace_unplaced Ident.isRaw_unplaced
  | .int .. | .str .. | .bool .. | .assign .. | .call .. | .unary .. | .binary .. => by
    simp [relabel, IsPlace]

mutual

theorem Expr.wellFormed_unplaced : ∀ {e : Expr}, (e.relabel .unplaced).WellFormed ↔ e.WellFormed
  | .int .. | .str .. | .bool .. => Iff.rfl
  | .ident _ => Ident.isRaw_unplaced
  | .dot r _ => and_congr r.isPlace_unplaced Ident.isRaw_unplaced
  | .assign t v => and_congr t.isPlace_unplaced v.wellFormed_unplaced
  | .call _ _ => and_congr Ident.isRaw_unplaced Expr.listWellFormed_unplaced
  | .unary _ e => e.wellFormed_unplaced
  | .binary _ l r => and_congr l.wellFormed_unplaced r.wellFormed_unplaced

theorem Expr.listWellFormed_unplaced : ∀ {es : List Expr},
    Expr.ListWellFormed (Expr.listRelabel .unplaced es) ↔ Expr.ListWellFormed es
  | [] => Iff.rfl
  | e :: _ => and_congr e.wellFormed_unplaced Expr.listWellFormed_unplaced

end

theorem TypeExpr.wellFormed_unplaced {ty : TypeExpr} :
    (ty.relabel .unplaced).WellFormed ↔ ty.WellFormed := by
  cases ty with
  | struct tag => exact Ident.isRaw_unplaced
  | _ => exact Iff.rfl

/-- The size that a declaration notes follows from its type, and types keep their form. -/
theorem VarDecl.eq_ofType_unplaced {d : VarDecl} :
    d.relabel .unplaced = .ofType (d.type.relabel .unplaced) (d.name.relabel .unplaced) ↔
      d = .ofType d.type d.name := by
  obtain ⟨ty, x, size⟩ := d
  cases ty <;> simp [relabel, ofType, TypeExpr.relabel]

theorem VarDecl.wellFormed_unplaced {d : VarDecl} :
    (d.relabel .unplaced).WellFormed ↔ d.WellFormed :=
  ⟨fun h => ⟨TypeExpr.wellFormed_unplaced.1 h.type, Ident.isRaw_unplaced.1 h.name,
      eq_ofType_unplaced.1 h.eq_ofType⟩,
    fun h => ⟨TypeExpr.wellFormed_unplaced.2 h.type, Ident.isRaw_unplaced.2 h.name,
      eq_ofType_unplaced.2 h.eq_ofType⟩⟩

theorem VarDecl.forall_unplaced {ds : List VarDecl} :
    (∀ d ∈ ds.map (·.relabel .unplaced), d.WellFormed) ↔ ∀ d ∈ ds, d.WellFormed := by
  simp only [List.forall_mem_map, wellFormed_unplaced]

mutual

theorem Stmt.wellFormed_unplaced : ∀ {s : Stmt}, (s.relabel .unplaced).WellFormed ↔ s.WellFormed
  | .assign t v => and_congr t.isPlace_unplaced v.wellFormed_unplaced
  | .increment p | .decrement p | .read p => p.isPlace_unplaced
  | .write v => v.wellFormed_unplaced
  | .ifThen c _ _ | .whileLoop c _ _ | .repeatLoop c _ _ =>
    and_congr c.wellFormed_unplaced
      (and_congr VarDecl.forall_unplaced Stmt.listWellFormed_unplaced)
  | .ifElse c _ _ _ _ =>
    and_congr c.wellFormed_unplaced
      (and_congr VarDecl.forall_unplaced (and_congr Stmt.listWellFormed_unplaced
        (and_congr VarDecl.forall_unplaced Stmt.listWellFormed_unplaced)))
  | .call _ _ => and_congr Ident.isRaw_unplaced Expr.listWellFormed_unplaced
  | .ret none => Iff.rfl
  | .ret (some v) => v.wellFormed_unplaced

theorem Stmt.listWellFormed_unplaced : ∀ {ss : List Stmt},
    Stmt.ListWellFormed (Stmt.listRelabel .unplaced ss) ↔ Stmt.ListWellFormed ss
  | [] => Iff.rfl
  | s :: _ => and_congr s.wellFormed_unplaced Stmt.listWellFormed_unplaced

end

theorem FnBody.wellFormed_unplaced {b : FnBody} :
    (b.relabel .unplaced).WellFormed ↔ b.WellFormed :=
  ⟨fun h => ⟨VarDecl.forall_unplaced.1 h.decls, Stmt.listWellFormed_unplaced.1 h.stmts⟩,
    fun h => ⟨VarDecl.forall_unplaced.2 h.decls, Stmt.listWellFormed_unplaced.2 h.stmts⟩⟩

theorem Formal.wellFormed_unplaced {f : Formal} :
    (f.relabel .unplaced).WellFormed ↔ f.WellFormed :=
  ⟨fun h => ⟨TypeExpr.wellFormed_unplaced.1 h.type, Ident.isRaw_unplaced.1 h.name⟩,
    fun h => ⟨TypeExpr.wellFormed_unplaced.2 h.type, Ident.isRaw_unplaced.2 h.name⟩⟩

theorem FnDecl.wellFormed_unplaced {d : FnDecl} :
    (d.relabel .unplaced).WellFormed ↔ d.WellFormed := by
  have hformals : (∀ f ∈ d.formals.map (·.relabel .unplaced), f.WellFormed) ↔
      ∀ f ∈ d.formals, f.WellFormed := by
    simp only [List.forall_mem_map, Formal.wellFormed_unplaced]
  exact ⟨fun h => ⟨TypeExpr.wellFormed_unplaced.1 h.returnType, Ident.isRaw_unplaced.1 h.name,
      hformals.1 h.formals, FnBody.wellFormed_unplaced.1 h.body⟩,
    fun h => ⟨TypeExpr.wellFormed_unplaced.2 h.returnType, Ident.isRaw_unplaced.2 h.name,
      hformals.2 h.formals, FnBody.wellFormed_unplaced.2 h.body⟩⟩

theorem StructDecl.wellFormed_unplaced {d : StructDecl} :
    (d.relabel .unplaced).WellFormed ↔ d.WellFormed :=
  ⟨fun h => ⟨Ident.isRaw_unplaced.1 h.name, fun hnil => h.fields_ne_nil (congrArg _ hnil),
      VarDecl.forall_unplaced.1 h.fields⟩,
    fun h => ⟨Ident.isRaw_unplaced.2 h.name,
      fun hnil => h.fields_ne_nil (List.map_eq_nil_iff.1 hnil),
      VarDecl.forall_unplaced.2 h.fields⟩⟩

theorem Decl.wellFormed_unplaced {d : Decl} : (d.relabel .unplaced).WellFormed ↔ d.WellFormed := by
  cases d with
  | var d => exact VarDecl.wellFormed_unplaced
  | func d => exact FnDecl.wellFormed_unplaced
  | struct d => exact StructDecl.wellFormed_unplaced

theorem Program.wellFormed_unplaced {p : Program} :
    p.WellFormed ↔ ∀ d ∈ p.decls.map (·.relabel .unplaced), d.WellFormed := by
  simp only [WellFormed, List.forall_mem_map, Decl.wellFormed_unplaced]

namespace Source

/-- The tokens that spell some declarations, written with blanks between them, are read as the
declarations again, up to positions. -/
theorem parse_spaced {ts : List Token} {ds : List Decl} (hts : Writable ts)
    (h : Sequence Decl.Spelled ts ds) (file : String) :
    ∃ ds', (parse (String.ofList (spaced (ts.map Token.word))) file).result = .ok ⟨ds', file⟩ ∧
      ds'.map (·.relabel .unplaced) = ds.map (·.relabel .unplaced) := by
  have hnested := Grammar.nested_of_derivesProgram (Grammar.derivesProgram_iff.2 h)
  have hlegible : Legible [] (spaced (ts.map Token.word)) (ts.map Token.word) := by
    refine .spaced (List.forall_mem_map.2 hts) ?_
    rw [List.filterMap_map]
    exact hnested.openAfter_eq []
  obtain ⟨hstop, hwords⟩ := hlegible.lexes.scan .start
  obtain ⟨ds', hds', heq⟩ := h.respelled_decls hwords
  have hfit : WordsFit (ts.map Token.word) := fun w hw => (List.forall_mem_map.2 hts w hw).fits
  have hnumbers := checkNumbers_of_wordsFit (hwords ▸ hfit)
  refine ⟨ds', parse_eq_ok_iff.2 ?_, heq⟩
  rw [String.toList_ofList]
  exact ⟨(Screening.check_eq_ok_iff_passes _).2 hlegible.passes, hstop,
    checkNumbers_eq_none_iff.1 (congrArg Prod.snd hnumbers), ds', hds', rfl⟩

/-- Exactly the well-formed programs are returned by parsing, up to positions. -/
theorem exists_parse_iff_wellFormed (p : Program) (file : String) :
    (∃ text q, (parse text file).result = .ok q ∧
      q.decls.map (·.relabel .unplaced) = p.decls.map (·.relabel .unplaced)) ↔ p.WellFormed := by
  constructor
  · rintro ⟨text, q, hparse, heq⟩
    have hq := wellFormed_of_parse hparse
    rw [Program.wellFormed_unplaced] at hq ⊢
    rwa [← heq]
  · intro hp
    obtain ⟨ts, hts, hds⟩ := Sequence.exists_spelled fun d hd => Decl.exists_spelled (hp d hd)
    obtain ⟨ds, hparse, heq⟩ := parse_spaced hts hds file
    exact ⟨_, _, hparse, heq⟩

end Source

end Carrot
