import Carrot.Proofs.Parsing.Exact
import Carrot.Proofs.Token.Lexing

/-! # What parsed programs look like

A parsed program carries no bindings, its names and literals have the form of their
tokens, numbers are not too large, and assignments and dots start from places. All of
this is read off from what the tokens spell.
-/

namespace Carrot

/-! ### Well-formed trees -/

/-- A name as parsing leaves it. -/
structure Ident.IsRaw (x : Ident) : Prop where
  isName : IsName x.name
  binding_eq_none : x.binding = none

/-- A name or a chain of names. -/
def Expr.IsPlace : Expr → Prop
  | .ident x => x.IsRaw
  | .dot r f => r.IsPlace ∧ f.IsRaw
  | _ => False

mutual

/-- An expression that some text can be read as: what is assigned to is a place, a literal is in its
range, and nothing is resolved yet. -/
def Expr.WellFormed : Expr → Prop
  | .int v _ => 0 ≤ v ∧ v ≤ maxInt
  | .str t _ => IsStringLiteral t
  | .bool _ _ => True
  | .ident x => x.IsRaw
  | .dot r f => r.IsPlace ∧ f.IsRaw
  | .assign t v => t.IsPlace ∧ v.WellFormed
  | .call f args => f.IsRaw ∧ Expr.ListWellFormed args
  | .unary _ e => e.WellFormed
  | .binary _ l r => l.WellFormed ∧ r.WellFormed

def Expr.ListWellFormed : List Expr → Prop
  | [] => True
  | e :: es => e.WellFormed ∧ Expr.ListWellFormed es

end

theorem Expr.IsPlace.wellFormed {e : Expr} (h : e.IsPlace) : e.WellFormed := by
  cases e <;> simp_all [IsPlace, WellFormed]

theorem Expr.listWellFormed_append {es fs : List Expr} :
    Expr.ListWellFormed (es ++ fs) ↔ Expr.ListWellFormed es ∧ Expr.ListWellFormed fs := by
  induction es with
  | nil => simp [ListWellFormed]
  | cons e es ih => simp [ListWellFormed, ih, and_assoc]

def TypeExpr.WellFormed : TypeExpr → Prop
  | .struct tag => tag.IsRaw
  | _ => True

structure VarDecl.WellFormed (d : VarDecl) : Prop where
  type : d.type.WellFormed
  name : d.name.IsRaw
  eq_ofType : d = .ofType d.type d.name

structure Formal.WellFormed (f : Formal) : Prop where
  type : f.type.WellFormed
  name : f.name.IsRaw

mutual

def Stmt.WellFormed : Stmt → Prop
  | .assign t v => t.IsPlace ∧ v.WellFormed
  | .increment p | .decrement p | .read p => p.IsPlace
  | .write v => v.WellFormed
  | .ifThen c ds ss | .whileLoop c ds ss | .repeatLoop c ds ss =>
      c.WellFormed ∧ (∀ d ∈ ds, d.WellFormed) ∧ Stmt.ListWellFormed ss
  | .ifElse c ds ss eds ess => c.WellFormed ∧ (∀ d ∈ ds, d.WellFormed) ∧ Stmt.ListWellFormed ss ∧
      (∀ d ∈ eds, d.WellFormed) ∧ Stmt.ListWellFormed ess
  | .call f args => f.IsRaw ∧ Expr.ListWellFormed args
  | .ret none => True
  | .ret (some v) => v.WellFormed

def Stmt.ListWellFormed : List Stmt → Prop
  | [] => True
  | s :: ss => s.WellFormed ∧ Stmt.ListWellFormed ss

end

theorem Stmt.listWellFormed_append {ss ts : List Stmt} :
    Stmt.ListWellFormed (ss ++ ts) ↔ Stmt.ListWellFormed ss ∧ Stmt.ListWellFormed ts := by
  induction ss with
  | nil => simp [ListWellFormed]
  | cons s ss ih => simp [ListWellFormed, ih, and_assoc]

structure FnBody.WellFormed (b : FnBody) : Prop where
  decls : ∀ d ∈ b.decls, d.WellFormed
  stmts : Stmt.ListWellFormed b.stmts

structure FnDecl.WellFormed (d : FnDecl) : Prop where
  returnType : d.returnType.WellFormed
  name : d.name.IsRaw
  formals : ∀ f ∈ d.formals, f.WellFormed
  body : d.body.WellFormed

structure StructDecl.WellFormed (d : StructDecl) : Prop where
  name : d.name.IsRaw
  fields_ne_nil : d.fields ≠ []
  fields : ∀ f ∈ d.fields, f.WellFormed

def Decl.WellFormed : Decl → Prop
  | .var d => d.WellFormed
  | .func d => d.WellFormed
  | .struct d => d.WellFormed

def Program.WellFormed (p : Program) : Prop := ∀ d ∈ p.decls, d.WellFormed

/-! ### From tokens to trees -/

/-- The names and string literals among the tokens have their form. -/
def TokensFormed (ts : List Token) : Prop := ∀ t ∈ ts, t.word.Formed

@[simp] theorem tokensFormed_cons {t : Token} {ts : List Token} :
    TokensFormed (t :: ts) ↔ t.word.Formed ∧ TokensFormed ts := List.forall_mem_cons

@[simp] theorem tokensFormed_append {ts us : List Token} :
    TokensFormed (ts ++ us) ↔ TokensFormed ts ∧ TokensFormed us := List.forall_mem_append

section

variable {ts : List Token} {x : Token}

theorem TokenWord.Formed.ident (h : x.word.Formed) (hx : x.kind = .ident) : x.ident.IsRaw :=
  ⟨h.name hx, rfl⟩

/-- A property of each item that its tokens grant holds of all items of a sequence. -/
theorem Sequence.forall_mem {α : Type} {P : List Token → α → Prop} {Q : α → Prop}
    (hPQ : ∀ us a, TokensFormed us → P us a → Q a) {as : List α} (h : Sequence P ts as)
    (hts : TokensFormed ts) : ∀ a ∈ as, Q a := by
  induction h with
  | nil => simp
  | snoc _ ha ih =>
    rw [tokensFormed_append] at hts
    rw [List.forall_mem_append]
    exact ⟨ih hts.1, by simpa using hPQ _ _ hts.2 ha⟩

theorem Separated.forall_mem {α : Type} {P : List Token → α → Prop} {Q : α → Prop}
    (hPQ : ∀ us a, TokensFormed us → P us a → Q a) {as : List α} (h : Separated P ts as)
    (hts : TokensFormed ts) : ∀ a ∈ as, Q a := by
  induction h with
  | nil => simp
  | one ha => simpa using hPQ _ _ hts ha
  | snoc _ _ _ ha ih =>
    rw [tokensFormed_append, tokensFormed_cons] at hts
    rw [List.forall_mem_append]
    exact ⟨ih hts.1, by simpa using hPQ _ _ hts.2.2 ha⟩

theorem TypeExpr.Spelled.wellFormed {ty : TypeExpr} (h : TypeExpr.Spelled ts ty)
    (hts : TokensFormed ts) : ty.WellFormed := by
  cases h with
  | @word t _ h =>
    cases hk : t.kind <;> rw [hk] at h <;> cases h <;> exact trivial
  | struct _ hx =>
    simp only [tokensFormed_cons] at hts
    exact hts.2.1.ident hx

theorem VarDecl.type_ofType (ty : TypeExpr) (x : Ident) : (VarDecl.ofType ty x).type = ty := by
  cases ty <;> rfl

theorem VarDecl.name_ofType (ty : TypeExpr) (x : Ident) : (VarDecl.ofType ty x).name = x := by
  cases ty <;> rfl

theorem VarDecl.Spelled.wellFormed {d : VarDecl} (h : VarDecl.Spelled ts d)
    (hts : TokensFormed ts) : d.WellFormed := by
  cases h with
  | @ofType ts ty x e hty hx he =>
    simp only [tokensFormed_append, tokensFormed_cons] at hts
    refine ⟨?_, ?_, ?_⟩
    · rw [VarDecl.type_ofType]
      exact hty.wellFormed hts.1
    · rw [VarDecl.name_ofType]
      exact hts.2.1.ident hx
    · rw [VarDecl.type_ofType, VarDecl.name_ofType]

theorem Formal.Spelled.wellFormed {f : Formal} (h : Formal.Spelled ts f)
    (hts : TokensFormed ts) : f.WellFormed := by
  cases h with
  | mk hty hx =>
    simp only [tokensFormed_append, tokensFormed_cons] at hts
    exact ⟨hty.wellFormed hts.1, hts.2.1.ident hx⟩

theorem Expr.PlaceSpelled.isPlace {e : Expr} (h : Expr.PlaceSpelled ts e)
    (hts : TokensFormed ts) : e.IsPlace := by
  induction h with
  | ident hx =>
    simp only [tokensFormed_cons] at hts
    exact hts.1.ident hx
  | dot _ _ hx ih =>
    simp only [tokensFormed_append, tokensFormed_cons] at hts
    exact ⟨ih hts.1, hts.2.2.1.ident hx⟩

theorem Token.wellFormed_of_literal? {t : Token} {e : Expr} (h : t.literal? = some e)
    (ht : t.word.Formed) : e.WellFormed := by
  unfold literal? at h
  split at h
  · cases h
    refine ⟨Int.natCast_nonneg _, ?_⟩
    rw [intValue]
    exact_mod_cast Nat.min_le_right _ _
  · next hk =>
    cases h
    exact ht.string hk
  · cases h
    exact trivial
  · cases h
    exact trivial
  · cases h

/-- What a part of an expression must be like, whatever level it is read at. -/
def ExprPart.WellFormed : ExprPart → Prop
  | .expr _ e => e.WellFormed
  | .args es => Expr.ListWellFormed es

theorem ExprPart.Spelled.wellFormed {p : ExprPart} (h : ExprPart.Spelled ts p)
    (hts : TokensFormed ts) : p.WellFormed := by
  induction h with
  | place h => exact (h.isPlace hts).wellFormed
  | literal h => exact Token.wellFormed_of_literal? h (tokensFormed_cons.1 hts).1
  | group _ _ _ ih =>
    simp only [List.cons_append, tokensFormed_cons, tokensFormed_append] at hts
    exact ih hts.2.1
  | call hf _ _ _ ih =>
    simp only [List.cons_append, tokensFormed_cons, tokensFormed_append] at hts
    exact ⟨hts.1.ident hf, ih hts.2.2.1⟩
  | unary _ _ ih => exact ih (tokensFormed_cons.1 hts).2
  | binary _ _ _ iha ihb =>
    simp only [tokensFormed_cons, tokensFormed_append] at hts
    exact ⟨iha hts.1, ihb hts.2.2⟩
  | assign hp _ _ ih =>
    simp only [tokensFormed_cons, tokensFormed_append] at hts
    exact ⟨hp.isPlace hts.1, ih hts.2.2⟩
  | lower _ ih => exact ih hts
  | noArgs => exact trivial
  | firstArg _ ih => exact ⟨ih hts, trivial⟩
  | nextArg _ _ _ _ ih ihe =>
    simp only [tokensFormed_cons, tokensFormed_append] at hts
    exact Expr.listWellFormed_append.2 ⟨ih hts.1, ihe hts.2.2, trivial⟩

def StmtPart.WellFormed : StmtPart → Prop
  | .stmt s => s.WellFormed
  | .stmts ss => Stmt.ListWellFormed ss
  | .block b => b.WellFormed

theorem Owner.wellFormed_close {g : Guard} {c : Expr} {b : FnBody} (hc : c.WellFormed)
    (hb : b.WellFormed) : ((Owner.ofGuard g c).close b).WellFormed := by
  cases g <;> exact ⟨hc, hb.decls, hb.stmts⟩

theorem StmtPart.Spelled.wellFormed {p : StmtPart} (h : StmtPart.Spelled ts p)
    (hts : TokensFormed ts) : p.WellFormed := by
  induction h with
  | assign hp _ hv _ =>
    simp only [tokensFormed_cons, tokensFormed_append] at hts
    exact ⟨hp.isPlace hts.1.1, hv.wellFormed hts.1.2.2⟩
  | increment hp _ _ => exact hp.isPlace (tokensFormed_append.1 hts).1
  | decrement hp _ _ => exact hp.isPlace (tokensFormed_append.1 hts).1
  | read _ _ hp _ =>
    simp only [List.cons_append, tokensFormed_cons, tokensFormed_append] at hts
    exact hp.isPlace hts.2.2.1
  | write _ _ hv _ =>
    simp only [List.cons_append, tokensFormed_cons, tokensFormed_append] at hts
    exact hv.wellFormed hts.2.2.1
  | call hf _ h _ _ =>
    simp only [List.cons_append, tokensFormed_cons, tokensFormed_append] at hts
    exact ⟨hts.1.ident hf, h.wellFormed hts.2.2.1⟩
  | ret _ _ => exact trivial
  | retValue _ hv _ =>
    simp only [List.cons_append, tokensFormed_cons, tokensFormed_append] at hts
    exact hv.wellFormed hts.2.1
  | guarded g _ _ hc _ _ ih =>
    simp only [List.cons_append, tokensFormed_cons, tokensFormed_append] at hts
    exact Owner.wellFormed_close (hc.wellFormed hts.2.2.1) (ih hts.2.2.2.2)
  | ifElse _ _ hc _ _ _ _ ihb ihd =>
    simp only [List.cons_append, tokensFormed_cons, tokensFormed_append] at hts
    have hb := ihb hts.2.2.1.2.2
    have hd := ihd hts.2.2.2.2
    exact ⟨hc.wellFormed hts.2.2.1.1, hb.decls, hb.stmts, hd.decls, hd.stmts⟩
  | noStmts => exact trivial
  | nextStmt _ _ ih ihs =>
    rw [tokensFormed_append] at hts
    exact Stmt.listWellFormed_append.2 ⟨ih hts.1, ihs hts.2, trivial⟩
  | block _ hds _ _ ih =>
    simp only [List.cons_append, tokensFormed_cons, tokensFormed_append] at hts
    exact ⟨hds.forall_mem (fun _ _ hus hd => hd.wellFormed hus) hts.2.1.1, ih hts.2.1.2⟩

theorem Decl.Spelled.wellFormed {d : Decl} (h : Decl.Spelled ts d) (hts : TokensFormed ts) :
    d.WellFormed := by
  have hstruct {us : List Token} {d : StructDecl} (h : StructDecl.Spelled us d)
      (hus : TokensFormed us) : d.WellFormed := by
    cases h with
    | mk _ hx _ hds hne _ =>
      simp only [List.cons_append, tokensFormed_cons, tokensFormed_append] at hus
      exact ⟨hus.2.1.ident hx, hne,
        hds.forall_mem (fun _ _ hus hd => hd.wellFormed hus) hus.2.2.2.1⟩
  cases h with
  | var h => exact h.wellFormed hts
  | func hty hx _ hfs _ hb =>
    simp only [tokensFormed_cons, tokensFormed_append] at hts
    exact ⟨hty.wellFormed hts.1.1, hts.1.2.1.ident hx,
      hfs.forall_mem (fun _ _ hus hf => hf.wellFormed hus) hts.1.2.2.2, hb.wellFormed hts.2.2⟩
  | struct h => exact hstruct h hts
  | structEnd h _ => exact hstruct h (tokensFormed_append.1 hts).1

end

/-- Every program that parsing returns is well-formed. -/
theorem Source.wellFormed_of_parse {text file : String} {p : Program}
    (h : (parse text file).result = .ok p) : p.WellFormed := by
  obtain ⟨hs, hstop, -, ds, hds, rfl⟩ := parse_eq_ok_iff.1 h
  have hformed := (lexes_of_scan hstop).formed ((Screening.check_eq_ok_iff_passes _).1 hs)
  refine hds.forall_mem (fun _ _ hus hd => hd.wellFormed hus) fun t ht => ?_
  exact hformed t.word (List.mem_map_of_mem ht)

end Carrot
