import Carrot.Proofs.Parsing.Completeness.Program

/-! # Whatever has been read can be completed

From every point that reading can reach, some tokens lead to the end of a program: the
expression is ended and its parentheses are closed, then the statement, the blocks
around it, and the declaration. So a token is only accepted if some program starts
with the tokens up to it.
-/

namespace Carrot

/-- A token of some kind, written anyhow. -/
def TokenKind.sample (k : TokenKind) : Token := ⟨k, "", .start⟩

@[simp] theorem TokenKind.kind_sample (k : TokenKind) : k.sample.kind = k := rfl

/-- Some tokens lead from `s` to where `P` holds. -/
def Reaches {σ : Type} (next? : σ → Token → Option σ) (P : σ → Prop) (s : σ) : Prop :=
  ∃ ts s', Reads next? s ts s' ∧ P s'

namespace Reaches

variable {σ : Type} {next? : σ → Token → Option σ} {P Q : σ → Prop} {s s' : σ}

theorem here (h : P s) : Reaches next? P s := ⟨[], s, .nil, h⟩

theorem step (k : TokenKind) (hk : next? s k.sample = some s') (h : Reaches next? P s') :
    Reaches next? P s := by
  obtain ⟨ts, r, hr, hP⟩ := h
  exact ⟨_, r, .cons hk hr, hP⟩

theorem trans (h : Reaches next? P s) (hPQ : ∀ r, P r → Reaches next? Q r) :
    Reaches next? Q s := by
  obtain ⟨ts, r, hr, hP⟩ := h
  obtain ⟨us, q, hq, hQ⟩ := hPQ r hP
  exact ⟨_, q, hr.append hq, hQ⟩

end Reaches

/-! ### Expressions -/

namespace ExprStep

/-- The expression is complete, and its statement can take over. -/
def IsFinished : ExprStep → Prop
  | .done p _ => p.endKind?.isSome
  | .called _ _ => True
  | _ => False

/-- Behind an operand, closing what is open finishes the expression. -/
theorem reaches_after (p : Purpose) (enclosing : List (Bracket × List Pending))
    (ps : List Pending) (o : Operand) :
    Reaches next? IsFinished (.after ⟨p, ps, enclosing⟩ o) := by
  have hclose (s : Surroundings) (o : Operand) : (after s o).next? TokenKind.rparen.sample =
      s.rparen? (Pending.closeAll s.pending o.expr) := by
    rw [next?, Surroundings.after?_rparen rfl]
  have hend (s : Surroundings) (o : Operand) : (after s o).next? TokenKind.semicolon.sample =
      s.semicolon? (Pending.closeAll s.pending o.expr) := by
    rw [next?, Surroundings.after?_semicolon rfl]
  induction enclosing generalizing ps o with
  | nil =>
    cases p with
    | assign | write | ret => exact .step .semicolon (hend _ o) (.here (P := IsFinished) rfl)
    | guard => exact .step .rparen (hclose _ o) (.here (P := IsFinished) rfl)
    | argument => exact .step .rparen (hclose _ o) (.here trivial)
  | cons b rest ih =>
    obtain ⟨b, qs⟩ := b
    cases b with
    | group | call => exact .step .rparen (hclose _ o) (ih qs _)

theorem reaches_isFinished {x : ExprStep} (hx : x.isOpen) : Reaches next? IsFinished x := by
  cases x with
  | operand s =>
    have hname : (operand s).next? TokenKind.ident.sample =
        some (.after s ⟨.ident TokenKind.ident.sample.ident, true⟩) := by
      rw [next?, Surroundings.operand?_ident rfl]
    exact .step .ident hname (reaches_after s.purpose s.enclosing s.pending _)
  | field s r =>
    have hname : (field s r).next? TokenKind.ident.sample =
        some (.after s ⟨.dot r TokenKind.ident.sample.ident, true⟩) := by
      simp [next?]
    exact .step .ident hname (reaches_after s.purpose s.enclosing s.pending _)
  | after s o => exact reaches_after s.purpose s.enclosing s.pending o
  | done | called => cases hx

/-! #### What a step leaves is open or finished -/

/-- An expression that is read further, or else is finished. -/
def IsSound (x : ExprStep) : Prop := x.isOpen ∨ x.IsFinished

theorem isSound_operand? {s : Surroundings} {t : Token} {y : ExprStep}
    (h : s.operand? t = some y) : y.IsSound := by
  unfold Surroundings.operand? at h
  split at h
  case h_5 =>
    split at h <;> cases h
    · exact .inl rfl
    · exact .inr trivial
  case h_6 =>
    obtain ⟨e, -, rfl⟩ := Option.map_eq_some_iff.1 h
    exact .inl rfl
  all_goals
    cases h
    exact .inl rfl

theorem isSound_rparen? {s : Surroundings} {e : Expr} {y : ExprStep} (h : s.rparen? e = some y) :
    y.IsSound := by
  unfold Surroundings.rparen? at h
  split at h <;> cases h
  · exact .inl rfl
  · exact .inl rfl
  · exact .inr rfl
  · exact .inr trivial

theorem isSound_comma? {s : Surroundings} {e : Expr} {y : ExprStep} (h : s.comma? e = some y) :
    y.IsSound := by
  unfold Surroundings.comma? at h
  split at h <;> cases h <;> exact .inl rfl

theorem isSound_semicolon? {s : Surroundings} {e : Expr} {y : ExprStep}
    (h : s.semicolon? e = some y) : y.IsSound := by
  unfold Surroundings.semicolon? at h
  split at h <;> cases h <;> exact .inr rfl

theorem isSound_after? {s : Surroundings} {o : Operand} {t : Token} {y : ExprStep}
    (h : s.after? o t = some y) : y.IsSound := by
  unfold Surroundings.after? at h
  split at h
  · cases h
    exact .inl rfl
  · cases h
    exact .inl rfl
  · obtain ⟨r, -, rfl⟩ := Option.map_eq_some_iff.1 h
    exact .inl rfl
  · exact isSound_rparen? h
  · exact isSound_comma? h
  · exact isSound_semicolon? h
  · obtain ⟨op, -, h⟩ := Option.bind_eq_some_iff.1 h
    obtain ⟨r, -, rfl⟩ := Option.map_eq_some_iff.1 h
    exact .inl rfl

/-- An expression is never finished as an argument: its parenthesis ends the whole call. -/
theorem isSound_of_next? {x y : ExprStep} {t : Token} (h : x.next? t = some y) : y.IsSound := by
  cases x with
  | operand s => exact isSound_operand? h
  | field s r =>
    simp only [next?] at h
    split at h <;> cases h
    exact .inl rfl
  | after s o => exact isSound_after? h
  | done | called => cases h

end ExprStep

/-! ### Function bodies -/

namespace PartialBody

variable {b c : PartialBody} {t : Token}

/-- No finished expression is left standing: its statement has taken over. -/
def IsOpen (b : PartialBody) : Prop := ∀ x, b.point = .expr x → x.isOpen

theorem isOpen_follow {x : ExprStep} (hx : x.IsSound) : (b.follow x).IsOpen := by
  rcases hx with hx | hx
  · rw [follow_of_isOpen hx]
    rintro y ⟨⟩
    exact hx
  · cases x with
    | done p e =>
      cases p with
      | argument => cases hx
      | _ => rintro y ⟨⟩
    | called => rintro y ⟨⟩
    | _ => cases hx

theorem isOpen_closeBlock? (h : b.closeBlock? = some c) : c.IsOpen := by
  unfold closeBlock? at h
  split at h <;> cases h
  rintro y ⟨⟩

theorem isOpen_openStmt? (h : b.openStmt? t = some c) : c.IsOpen := by
  unfold openStmt? openElse? openDecl? at h
  split at h
  case h_8 =>
    split at h <;> cases h
    rintro y ⟨⟩
  case h_9 =>
    split at h
    · split at h
      · cases h
        rintro y ⟨⟩
      · obtain ⟨ty, -, rfl⟩ := Option.map_eq_some_iff.1 h
        rintro y ⟨⟩
    · cases h
  all_goals
    cases h
    rintro y ⟨⟩

theorem isOpen_place? {e : Expr} {k : TokenKind} (h : b.place? e k = some c) : c.IsOpen := by
  unfold place? at h
  split at h <;> cases h <;> rintro y ⟨⟩ <;> rfl

theorem isOpen_of_next? (h : b.next? t = some c) : c.IsOpen := by
  unfold next? at h
  split at h
  case h_1 => exact isOpen_closeBlock? h
  case h_2 => exact isOpen_openStmt? h
  case h_6 => exact isOpen_place? h
  case h_17 =>
    obtain ⟨y, hy, rfl⟩ := Option.map_eq_some_iff.1 h
    exact isOpen_follow (ExprStep.isSound_operand? hy)
  case h_19 =>
    obtain ⟨y, hy, rfl⟩ := Option.map_eq_some_iff.1 h
    exact isOpen_follow (ExprStep.isSound_of_next? hy)
  all_goals
    cases h <;> rintro y ⟨⟩ <;> rfl

/-- Every point of a block leads to a point between two statements of it, or of a new block. -/
theorem reaches_between (hb : b.IsOpen) : Reaches next? (·.point = .between) b := by
  have hsemicolon (s : Stmt) : Reaches next? (·.point = .between) (b.moveTo (.semicolon s)) :=
    .step .semicolon (next?_semicolon rfl) (.here rfl)
  have hblock (o : Owner) : Reaches next? (·.point = .between) (b.moveTo (.blockOpen o)) :=
    .step .lbrace (next?_blockOpen rfl) (.here rfl)
  have hexpr (x : ExprStep) (hx : x.isOpen) :
      Reaches next? (·.point = .between) (b.moveTo (.expr x)) := by
    obtain ⟨ts, y, hy, hfinished⟩ := ExprStep.reaches_isFinished hx
    refine Reaches.trans ⟨ts, _, reads_of_expr hx hy, rfl⟩ ?_
    rintro _ rfl
    cases y with
    | done p e =>
      cases p with
      | assign | write | ret => exact .here rfl
      | guard g => exact hblock _
      | argument => cases hfinished
    | called f es => exact hsemicolon _
    | _ => cases hfinished
  have hplace (e : Expr) : Reaches next? (·.point = .between) (b.moveTo (.place e)) :=
    .step .increment (next?_place_increment rfl) (hsemicolon _)
  have hread (e : Expr) : Reaches next? (·.point = .between) (b.moveTo (.readPlace e)) :=
    .step .semicolon (next?_readPlace_semicolon rfl) (.here rfl)
  have hname : Reaches next? (·.point = .between) (b.moveTo .readName) :=
    .step .ident (next?_readName rfl) (hread _)
  have hlocal (ty : TypeExpr) : Reaches next? (·.point = .between) (b.moveTo (.localType ty)) :=
    .step .ident (next?_localType rfl) (.step .semicolon (by simp [next?]; rfl) (.here rfl))
  have hpoint : b = b.moveTo b.point := rfl
  rw [hpoint]
  cases hp : b.point with
  | between => exact .here rfl
  | localTag => exact .step .ident (next?_localTag rfl) (hlocal _)
  | localType ty => exact hlocal ty
  | localName d => exact .step .semicolon (by simp [next?]; rfl) (.here rfl)
  | place e => exact hplace e
  | placeDot e => exact .step .ident (next?_placeDot rfl) (hplace _)
  | readArrows => exact .step .shiftRight (next?_readArrows rfl) hname
  | readName => exact hname
  | readPlace e => exact hread e
  | readDot e => exact .step .ident (next?_readDot rfl) (hread _)
  | writeArrows => exact .step .shiftLeft (next?_writeArrows rfl) (hexpr _ rfl)
  | guardOpen g => exact .step .lparen (next?_guardOpen rfl) (hexpr _ rfl)
  | blockOpen o => exact hblock o
  | returned => exact .step .semicolon (next?_returned_semicolon rfl) (.here rfl)
  | semicolon s => exact hsemicolon s
  | expr x => exact hexpr x (hb x hp)

/-- Closing blocks leads to the outermost one. -/
theorem reaches_outermost {outer : List (OpenBlock × Owner)} (ho : b.outer = outer)
    (hb : b.point = .between) :
    Reaches next? (fun c => c.point = .between ∧ c.outer = []) b := by
  induction outer generalizing b with
  | nil => exact .here ⟨hb, ho⟩
  | cons o outer ih =>
    obtain ⟨block, owner⟩ := o
    have hclose : b.closeBlock? =
        some ⟨b.head, outer, block.addStmt (owner.close b.block.body), .between⟩ := by
      rw [closeBlock?, ho]
    exact .step .rbrace ((next?_rbrace hb rfl).trans hclose) (ih rfl rfl)

end PartialBody

/-! ### Programs -/

namespace OpenDecl

variable {d : OpenDecl} {t : Token}

def IsOpen (d : OpenDecl) : Prop := ∀ b, d = .body b → b.IsOpen

theorem isOpen_first? (h : first? t = some d) : d.IsOpen := by
  unfold first? at h
  split at h
  · cases h
    rintro b ⟨⟩
  · obtain ⟨ty, -, rfl⟩ := Option.map_eq_some_iff.1 h
    rintro b ⟨⟩

theorem isOpen_field? {x : Ident} {fs : List VarDecl} {q : FieldPoint}
    (h : field? x fs q t = some d) : d.IsOpen := by
  unfold field? at h
  split at h
  case h_2 =>
    obtain ⟨ty, -, rfl⟩ := Option.map_eq_some_iff.1 h
    rintro b ⟨⟩
  all_goals
    cases h <;> rintro b ⟨⟩

theorem isOpen_formal? {f : FnHead} {q : FormalPoint} (h : formal? f q t = some d) :
    d.IsOpen := by
  unfold formal? at h
  split at h
  case h_5 | h_6 =>
    obtain ⟨ty, -, rfl⟩ := Option.map_eq_some_iff.1 h
    rintro b ⟨⟩
  all_goals
    cases h <;> rintro b ⟨⟩

end OpenDecl

namespace PartialProgram

variable {p q : PartialProgram} {t : Token}

theorem isOpen_body? {b : PartialBody} (h : p.body? b t = some q) : q.current.IsOpen := by
  unfold body? at h
  split at h
  · cases h
    rintro b ⟨⟩
  · obtain ⟨c, hc, rfl⟩ := Option.map_eq_some_iff.1 h
    rintro b ⟨⟩
    exact PartialBody.isOpen_of_next? hc

theorem isOpen_of_next? (h : p.next? t = some q) : q.current.IsOpen := by
  unfold next? at h
  split at h
  case h_2 | h_3 =>
    obtain ⟨d, hd, rfl⟩ := Option.map_eq_some_iff.1 h
    exact OpenDecl.isOpen_first? hd
  case h_11 =>
    obtain ⟨d, hd, rfl⟩ := Option.map_eq_some_iff.1 h
    exact OpenDecl.isOpen_field? hd
  case h_12 =>
    obtain ⟨d, hd, rfl⟩ := Option.map_eq_some_iff.1 h
    exact OpenDecl.isOpen_formal? hd
  case h_13 =>
    cases h
    rintro b ⟨⟩ y ⟨⟩
  case h_14 => exact isOpen_body? h
  all_goals
    cases h <;> rintro b ⟨⟩

theorem isOpen_of_reads {ts : List Token} (h : start.Reads ts p) : p.current.IsOpen := by
  have hstart : start.current.IsOpen := by rintro b ⟨⟩
  exact h.invariant (P := fun q => q.current.IsOpen) (fun _ _ _ _ => isOpen_of_next?) hstart

/-- Behind the brace of a body, ending its statement and its blocks ends the function. -/
theorem reaches_of_body {b : PartialBody} (hb : b.IsOpen) :
    Reaches next? IsBetween (p.moveTo (.body b)) := by
  obtain ⟨ts, c, hc, hpoint, houter⟩ :=
    (PartialBody.reaches_between hb).trans fun c hc => PartialBody.reaches_outermost rfl hc
  refine Reaches.trans ⟨ts, _, reads_of_body hc, rfl⟩ ?_
  rintro _ rfl
  obtain ⟨f, hf⟩ : ∃ f, c.complete? = some f := by
    simp [PartialBody.complete?, hpoint, houter]
  have hbrace : (p.moveTo (.body c)).next? TokenKind.rbrace.sample =
      some ((p.moveTo (.body c)).finish (.func f)) := by
    simp [next?, body?, hf]
  exact .step .rbrace hbrace (.here (.inl rfl))

/-- Every point of a program leads to a point between two declarations. -/
theorem reaches_isBetween (hp : p.current.IsOpen) : Reaches next? IsBetween p := by
  have hname (ty : TypeExpr) (x : Ident) : Reaches next? IsBetween (p.moveTo (.name ty x)) :=
    .step .semicolon (by simp [next?]; rfl) (.here (.inl rfl))
  have htype (ty : TypeExpr) : Reaches next? IsBetween (p.moveTo (.type ty)) :=
    .step .ident (by simp [next?]; rfl) (hname _ _)
  have hbody (h : FnHead) : Reaches next? IsBetween (p.moveTo (.bodyOpen h)) :=
    .step .lbrace (by simp [next?]; rfl) (reaches_of_body (by rintro y ⟨⟩))
  have hformals (h : FnHead) : Reaches next? IsBetween (p.moveTo (.formals h .after)) :=
    .step .rparen (by simp [next?, OpenDecl.formal?]; rfl) (hbody _)
  have hformal (h : FnHead) (ty : TypeExpr) :
      Reaches next? IsBetween (p.moveTo (.formals h (.type ty))) :=
    .step .ident (by simp [next?, OpenDecl.formal?]; rfl) (hformals _)
  have hfields (x : Ident) (f : VarDecl) (fs : List VarDecl) :
      Reaches next? IsBetween (p.moveTo (.fields x (f :: fs) .between)) :=
    .step .rbrace (by simp [next?]; rfl) (.here (.inr rfl))
  have hfield (x : Ident) (fs : List VarDecl) (d : VarDecl) :
      Reaches next? IsBetween (p.moveTo (.fields x fs (.name d))) :=
    .step .semicolon (by simp [next?, OpenDecl.field?]; rfl) (hfields _ _ _)
  have hfieldType (x : Ident) (fs : List VarDecl) (ty : TypeExpr) :
      Reaches next? IsBetween (p.moveTo (.fields x fs (.type ty))) :=
    .step .ident (by simp [next?, OpenDecl.field?]; rfl) (hfield _ _ _)
  -- From each point the shortest way to the end of the declaration is taken.
  have hcurrent : p = p.moveTo p.current := rfl
  rw [hcurrent]
  cases hc : p.current with
  | none => exact .here (.inl rfl)
  | structEnd => exact .here (.inr rfl)
  | tag =>
    refine .step .ident (by simp [next?]; rfl) (.step .ident (by simp [next?]; rfl) (hname _ _))
  | tagName x => exact .step .ident (by simp [next?]; rfl) (hname _ _)
  | type ty => exact htype ty
  | name ty x => exact hname ty x
  | fields x fs q =>
    cases q with
    | between =>
      exact .step .kwInt (by simp [next?, OpenDecl.field?, TypeExpr.ofKind?])
        (hfieldType x fs .int)
    | tag => exact .step .ident (by simp [next?, OpenDecl.field?]; rfl) (hfieldType _ _ _)
    | type ty => exact hfieldType _ _ _
    | name d => exact hfield _ _ _
  | formals h q =>
    cases q with
    | first | next =>
      exact .step .kwInt (by simp [next?, OpenDecl.formal?, TypeExpr.ofKind?]) (hformal h .int)
    | tag => exact .step .ident (by simp [next?, OpenDecl.formal?]; rfl) (hformal _ _)
    | type ty => exact hformal _ _
    | after => exact hformals _
  | bodyOpen h => exact hbody h
  | body b => exact reaches_of_body (hp b hc)

end PartialProgram

end Carrot
