import Carrot.Proofs.Parsing.Completeness.Expression

/-! # What spells a statement can be read

Each declaration and each statement is read from a point between two of them to such
a point, with itself added to the innermost block. A block is read from the point in
front of its brace, and closing it finishes the statement that it belongs to.
-/

namespace Carrot

/-! ### Statements -/

/-- An expression is read up to the token behind it. -/
theorem ExprStep.reads_done {ts : List Token} {t : Token} {e : Expr} {p : Purpose}
    (h : ExprPart.Spelled ts (.expr 0 e)) (ht : p.endKind? = some t.kind) :
    (operand (.ofPurpose p)).Reads (ts ++ [t]) (done p e) := by
  obtain ⟨ps, o, ho, rfl⟩ := h.isRead.reads (s := .ofPurpose p) rfl
  apply Reads.snoc ho
  cases p with
  | guard g =>
    rw [next?, Surroundings.after?_rparen (Option.some.inj ht).symm]
    rfl
  | argument f args => cases ht
  | _ =>
    rw [next?, Surroundings.after?_semicolon (Option.some.inj ht).symm]
    rfl

namespace PartialBody

variable {b : PartialBody} {ts us : List Token} {t x : Token}

/-- The body with more declarations in its innermost block. -/
def addDecls (b : PartialBody) (ds : List VarDecl) : PartialBody :=
  { b with block := ⟨ds.reverse ++ b.block.decls, b.block.stmts⟩ }

/-- The body with more statements in its innermost block. -/
def addStmts (b : PartialBody) (ss : List Stmt) : PartialBody :=
  { b with block := ⟨b.block.decls, ss.reverse ++ b.block.stmts⟩ }

theorem finish_addStmts (hb : b.point = .between) (ss : List Stmt) (s : Stmt) :
    (b.addStmts ss).finish s = b.addStmts (ss ++ [s]) := by
  simp [addStmts, finish, OpenBlock.addStmt, hb]

/-! #### Tokens by their kind -/

section

variable {r e : Expr} {ty : TypeExpr}

theorem next?_ident (hb : b.point = .between) (h : t.kind = .ident) :
    b.next? t = some (b.moveTo (.place (.ident t.ident))) := by
  simp [next?, hb, h, openStmt?]

theorem next?_cin (hb : b.point = .between) (h : t.kind = .kwCin) :
    b.next? t = some (b.moveTo .readArrows) := by
  simp [next?, hb, h, openStmt?]

theorem next?_cout (hb : b.point = .between) (h : t.kind = .kwCout) :
    b.next? t = some (b.moveTo .writeArrows) := by
  simp [next?, hb, h, openStmt?]

theorem next?_guard (hb : b.point = .between) {g : Guard} (h : t.kind = g.keyword) :
    b.next? t = some (b.moveTo (.guardOpen g)) := by
  cases g <;> simp [next?, hb, h, openStmt?, Guard.keyword]

theorem next?_return (hb : b.point = .between) (h : t.kind = .kwReturn) :
    b.next? t = some (b.moveTo .returned) := by
  simp [next?, hb, h, openStmt?]

theorem next?_else (hb : b.point = .between) (h : t.kind = .kwElse) {c : Expr}
    {ds : List VarDecl} {ss rest : List Stmt} (hs : b.block.stmts = .ifThen c ds ss :: rest) :
    b.next? t = some { b with
      block := ⟨b.block.decls, rest⟩, point := .blockOpen (.ifElse c ds ss) } := by
  simp [next?, hb, h, openStmt?, openElse?, hs]

theorem next?_struct (hb : b.point = .between) (hs : b.block.stmts = []) (h : t.kind = .kwStruct) :
    b.next? t = some (b.moveTo .localTag) := by
  simp [next?, hb, h, openStmt?, openDecl?, hs]

theorem next?_type (hb : b.point = .between) (hs : b.block.stmts = [])
    (h : TypeExpr.ofKind? t.kind = some ty) : b.next? t = some (b.moveTo (.localType ty)) := by
  cases hk : t.kind <;> rw [hk] at h <;> cases h <;>
    simp [next?, hb, hk, openStmt?, openDecl?, hs, TypeExpr.ofKind?]

theorem next?_localTag (h : t.kind = .ident) :
    (b.moveTo .localTag).next? t = some (b.moveTo (.localType (.struct t.ident))) := by
  simp [next?, h]

theorem next?_localType (h : t.kind = .ident) :
    (b.moveTo (.localType ty)).next? t = some (b.moveTo (.localName (.ofType ty t.ident))) := by
  simp [next?, h]

theorem next?_localName (hb : b.point = .between) (h : t.kind = .semicolon) {d : VarDecl} :
    (b.moveTo (.localName d)).next? t = some (b.addDecls [d]) := by
  simp [next?, h, hb, moveTo, addDecls, OpenBlock.addDecl]

theorem next?_place_dot (h : t.kind = .dot) :
    (b.moveTo (.place r)).next? t = some (b.moveTo (.placeDot r)) := by
  simp [next?, h, place?]

theorem next?_placeDot (h : t.kind = .ident) :
    (b.moveTo (.placeDot r)).next? t = some (b.moveTo (.place (.dot r t.ident))) := by
  simp [next?, h]

theorem next?_place_assign (h : t.kind = .assign) :
    (b.moveTo (.place r)).next? t = some (b.expect (.assign r)) := by
  simp [next?, h, place?]

theorem next?_place_increment (h : t.kind = .increment) :
    (b.moveTo (.place r)).next? t = some (b.moveTo (.semicolon (.increment r))) := by
  simp [next?, h, place?]

theorem next?_place_decrement (h : t.kind = .decrement) :
    (b.moveTo (.place r)).next? t = some (b.moveTo (.semicolon (.decrement r))) := by
  simp [next?, h, place?]

theorem next?_place_lparen (h : t.kind = .lparen) {f : Ident} :
    (b.moveTo (.place (.ident f))).next? t = some (b.expect (.argument f [])) := by
  simp [next?, h, place?]

theorem next?_semicolon (h : t.kind = .semicolon) {s : Stmt} :
    (b.moveTo (.semicolon s)).next? t = some (b.finish s) := by
  simp [next?, h]

theorem next?_readArrows (h : t.kind = .shiftRight) :
    (b.moveTo .readArrows).next? t = some (b.moveTo .readName) := by
  simp [next?, h]

theorem next?_readName (h : t.kind = .ident) :
    (b.moveTo .readName).next? t = some (b.moveTo (.readPlace (.ident t.ident))) := by
  simp [next?, h]

theorem next?_readPlace_dot (h : t.kind = .dot) :
    (b.moveTo (.readPlace r)).next? t = some (b.moveTo (.readDot r)) := by
  simp [next?, h]

theorem next?_readDot (h : t.kind = .ident) :
    (b.moveTo (.readDot r)).next? t = some (b.moveTo (.readPlace (.dot r t.ident))) := by
  simp [next?, h]

theorem next?_readPlace_semicolon (h : t.kind = .semicolon) :
    (b.moveTo (.readPlace r)).next? t = some (b.finish (.read r)) := by
  simp [next?, h]

theorem next?_writeArrows (h : t.kind = .shiftLeft) :
    (b.moveTo .writeArrows).next? t = some (b.expect .write) := by
  simp [next?, h]

theorem next?_guardOpen (h : t.kind = .lparen) {g : Guard} :
    (b.moveTo (.guardOpen g)).next? t = some (b.expect (.guard g)) := by
  simp [next?, h]

theorem next?_blockOpen (h : t.kind = .lbrace) {o : Owner} :
    (b.moveTo (.blockOpen o)).next? t = some (b.openBlock o) := by
  simp [next?, h, openBlock, moveTo]

theorem next?_rbrace (hb : b.point = .between) (h : t.kind = .rbrace) :
    b.next? t = b.closeBlock? := by
  simp [next?, hb, h]

theorem next?_returned_semicolon (h : t.kind = .semicolon) :
    (b.moveTo .returned).next? t = some (b.finish (.ret none)) := by
  simp [next?, h]

/-- Behind `return`, an expression is read as anywhere else. -/
theorem next?_returned {c : PartialBody} (h : (b.expect .ret).next? t = some c) :
    (b.moveTo .returned).next? t = some c := by
  obtain ⟨y, hy, rfl⟩ := Option.map_eq_some_iff.1 ((next?_expr b _ t).symm.trans h)
  have ht : t.kind ≠ .semicolon := by
    intro ht
    simp [ExprStep.next?, Surroundings.operand?, Token.literal?, ht] at hy
  simpa [next?, ht, ExprStep.next?] using congrArg (Option.map b.follow) hy

end

/-! #### Expressions in a body -/

theorem reads_expr {p : Purpose} {e : Expr} (h : ExprPart.Spelled ts (.expr 0 e))
    (ht : p.endKind? = some t.kind) :
    (b.expect p).Reads (ts ++ [t]) (b.follow (.done p e)) :=
  reads_of_expr rfl (ExprStep.reads_done h ht)

/-- A value behind `return` is read up to its semicolon. -/
theorem reads_returned {e : Expr} (h : ExprPart.Spelled ts (.expr 0 e))
    (ht : t.kind = .semicolon) :
    (b.moveTo .returned).Reads (ts ++ [t]) (b.finish (.ret (some e))) := by
  have hr := reads_expr (b := b) (p := .ret) h (congrArg some ht.symm)
  cases hts : ts ++ [t] with
  | nil => simp at hts
  | cons u us =>
    obtain ⟨c, hc, hus⟩ := Reads.cons_iff.1 (hts ▸ hr)
    exact .cons (next?_returned hc) hus

/-- A call statement is read up to its semicolon. -/
theorem reads_args {f : Ident} {es : List Expr} {r e : Token}
    (h : ExprPart.Spelled ts (.args es)) (hr : r.kind = .rparen) (he : e.kind = .semicolon) :
    (b.expect (.argument f [])).Reads (ts ++ [r, e]) (b.finish (.call f es)) := by
  have hargs : (b.expect (.argument f [])).Reads (ts ++ [r])
      (b.moveTo (.semicolon (.call f es))) :=
    reads_of_expr rfl (h.isRead (.statement f) hr).1
  simpa using hargs.snoc (next?_semicolon he)

/-! #### Places at the start of a statement -/

theorem reads_place {e : Expr} (h : Expr.PlaceSpelled ts e) (hb : b.point = .between) :
    b.Reads ts (b.moveTo (.place e)) := by
  induction h with
  | ident hx => exact .one (next?_ident hb hx)
  | dot _ hd hx ih => exact ih.append (.cons (next?_place_dot hd) (.one (next?_placeDot hx)))

theorem reads_readPlace {e : Expr} (h : Expr.PlaceSpelled ts e) :
    (b.moveTo .readName).Reads ts (b.moveTo (.readPlace e)) := by
  induction h with
  | ident hx => exact .one (next?_readName hx)
  | dot _ hd hx ih => exact ih.append (.cons (next?_readPlace_dot hd) (.one (next?_readDot hx)))

/-! #### Declarations in a block -/

theorem reads_type {ty : TypeExpr} (h : TypeExpr.Spelled ts ty) (hb : b.point = .between)
    (hs : b.block.stmts = []) : b.Reads ts (b.moveTo (.localType ty)) := by
  cases h with
  | word h => exact .one (next?_type hb hs h)
  | struct hk hx => exact .cons (next?_struct hb hs hk) (.one (next?_localTag hx))

theorem reads_varDecl {d : VarDecl} (h : VarDecl.Spelled ts d) (hb : b.point = .between)
    (hs : b.block.stmts = []) : b.Reads ts (b.addDecls [d]) := by
  cases h with
  | ofType hty hx he =>
    exact (reads_type hty hb hs).append (.cons (next?_localType hx) (.one (next?_localName hb he)))

theorem reads_varDecls {ds : List VarDecl} (h : Sequence VarDecl.Spelled ts ds)
    (hb : b.point = .between) (hs : b.block.stmts = []) : b.Reads ts (b.addDecls ds) := by
  induction h with
  | nil => exact .nil
  | @snoc _ _ d ds _ hd ih =>
    have hlast := reads_varDecl (b := b.addDecls ds) hd hb hs
    simpa [addDecls] using ih.append hlast

end PartialBody

/-! #### All statements -/

namespace StmtPart

/-- How a part of a function is read. -/
def IsRead (ts : List Token) : StmtPart → Prop
  | stmt s => ∀ b : PartialBody, b.point = .between → b.Reads ts (b.finish s)
  | stmts ss => ∀ b : PartialBody, b.point = .between → b.Reads ts (b.addStmts ss)
  | block body => ∀ (b : PartialBody) (o : Owner), (b.moveTo (.blockOpen o)).Reads ts
      (b.finish (o.close body))

open PartialBody

theorem Spelled.isRead {ts : List Token} {p : StmtPart} (h : Spelled ts p) : IsRead ts p := by
  induction h with
  | @assign ts us p v t e hp ht hv he =>
    intro b hb
    have hval := reads_expr (b := b) (p := .assign p) hv (congrArg some he.symm)
    simpa [follow] using (reads_place hp hb).append (.cons (next?_place_assign ht) hval)
  | increment hp ht he =>
    intro b hb
    exact (reads_place hp hb).append
      (.cons (next?_place_increment ht) (.one (next?_semicolon he)))
  | decrement hp ht he =>
    intro b hb
    exact (reads_place hp hb).append
      (.cons (next?_place_decrement ht) (.one (next?_semicolon he)))
  | read hk ha hp he =>
    intro b hb
    have hplace := Reads.cons (next?_cin hb hk) (.cons (next?_readArrows ha) (reads_readPlace hp))
    exact hplace.snoc (next?_readPlace_semicolon he)
  | @write ts v k a e hk ha hv he =>
    intro b hb
    have hval := reads_expr (b := b) (p := .write) hv (congrArg some he.symm)
    exact .cons (next?_cout hb hk) (.cons (next?_writeArrows ha) hval)
  | call hf hl h hr he =>
    intro b hb
    exact .cons (next?_ident hb hf) (.cons (next?_place_lparen hl) (reads_args h hr he))
  | ret hk he =>
    intro b hb
    exact .cons (next?_return hb hk) (.one (next?_returned_semicolon he))
  | retValue hk hv he =>
    intro b hb
    exact .cons (next?_return hb hk) (reads_returned hv he)
  | @guarded ts us c body k l r g hk hl hc hr _ ih =>
    intro b hb
    have hcond := reads_expr (b := b) (p := .guard g) hc (congrArg some hr.symm)
    have hopen := Reads.cons (next?_guard hb hk) (.cons (next?_guardOpen hl) hcond)
    simpa using hopen.append (ih b (.ofGuard g c))
  | @ifElse ts us vs c body d k l r e hk hl hc hr _ he _ ihb ihd =>
    intro b hb
    have hcond := reads_expr (b := b) (p := .guard .ifGuard) hc (congrArg some hr.symm)
    have hopen := Reads.cons (next?_guard (g := .ifGuard) hb hk) (.cons (next?_guardOpen hl) hcond)
    have hthen := hopen.append (ihb b (.ofGuard .ifGuard c))
    have hnext := next?_else (b := b.finish (.ifThen c body.decls body.stmts)) rfl he rfl
    have helse := Reads.cons hnext (ihd b (.ifElse c body.decls body.stmts))
    simpa [Owner.close] using hthen.append helse
  | noStmts => exact fun b _ => .nil
  | @nextStmt ts us ss s _ _ ih ihs =>
    intro b hb
    rw [← finish_addStmts hb]
    exact (ih b hb).append (ihs (b.addStmts ss) hb)
  | @block ts us ds ss l r hl hds _ hr ih =>
    intro b o
    have hdecls := reads_varDecls (b := b.openBlock o) hds rfl rfl
    have hstmts := ih ((b.openBlock o).addDecls ds) rfl
    have hclose := next?_rbrace (b := ((b.openBlock o).addDecls ds).addStmts ss) rfl hr
    refine ((Reads.cons (next?_blockOpen hl) hdecls).append hstmts).snoc (hclose.trans ?_)
    simp [closeBlock?, openBlock, addDecls, addStmts, OpenBlock.empty, OpenBlock.body, finish]

end StmtPart

end Carrot
