import Carrot.Proofs.Parsing.Image

/-! # Precedence

An expression that is written with parentheses only where the table of levels asks for them is read
as itself again: what the layers of the grammar put together is what the levels say.
-/

namespace Carrot

/-! ### A function with one statement -/

/-- The tokens of a function whose only statement writes an expression. -/
def writingTokens (ty : TypeExpr) (f : Ident) (fs : List Formal) (e : Expr) : List Token :=
  ty.tokens ++ f.token :: TokenKind.lparen.token ::
    [TokenKind.comma.token].intercalate (fs.map Formal.tokens) ++ TokenKind.rparen.token ::
    (TokenKind.lbrace.token :: TokenKind.kwCout.token :: TokenKind.shiftLeft.token :: e.tokens ++
      [TokenKind.semicolon.token, TokenKind.rbrace.token])

theorem Formal.separated_tokens {fs : List Formal} (hfs : ∀ f ∈ fs, f.WellFormed) :
    Writable ([TokenKind.comma.token].intercalate (fs.map Formal.tokens)) ∧
      Separated Formal.Spelled ([TokenKind.comma.token].intercalate (fs.map Formal.tokens)) fs := by
  induction fs with
  | nil => exact ⟨by simp, .nil⟩
  | cons f fs ih =>
    obtain ⟨hf, hfs⟩ := List.forall_mem_cons.1 hfs
    obtain ⟨hts, hf⟩ := Formal.spelled_tokens hf
    obtain ⟨hus, hsep⟩ := ih hfs
    cases fs with
    | nil => exact ⟨by simpa using hts, by simpa using .one hf⟩
    | cons g gs =>
      have hcons := Separated.cons hf (c := TokenKind.comma.token) rfl hsep (by simp)
      exact ⟨by simpa [hts] using hus, by simpa using hcons⟩

section

variable {ty : TypeExpr} {f : Ident} {fs : List Formal} {e : Expr}

theorem spelled_writingTokens (hty : ty.WellFormed) (hf : f.IsRaw) (hfs : ∀ g ∈ fs, g.WellFormed)
    (he : e.WellFormed) :
    Writable (writingTokens ty f fs e) ∧
      Decl.Spelled (writingTokens ty f fs e) (.func ⟨ty, f, fs, [], [.write e]⟩) := by
  obtain ⟨hts, hty⟩ := TypeExpr.spelled_tokens hty
  obtain ⟨hus, hfs⟩ := Formal.separated_tokens hfs
  obtain ⟨hvs, he⟩ := ExprPart.spelled_tokens he
  refine ⟨by simp [writingTokens, hts, hus, hvs, Ident.writable_token hf], ?_⟩
  have hwrite := StmtPart.Spelled.write (k := TokenKind.kwCout.token) rfl
    (a := TokenKind.shiftLeft.token) rfl (he.mono (Nat.zero_le _))
    (e := TokenKind.semicolon.token) rfl
  have hbody := StmtPart.Spelled.block (l := TokenKind.lbrace.token) rfl .nil
    (.nextStmt .noStmts hwrite) (r := TokenKind.rbrace.token) rfl
  have := Decl.Spelled.func hty (x := f.token) rfl (l := TokenKind.lparen.token) rfl hfs
    (r := TokenKind.rparen.token) rfl hbody
  rw [Ident.ident_token hf] at this
  simpa [writingTokens] using this

theorem Stmt.eq_write_of_relabel {r : Relabelling} {ss : List Stmt}
    (h : Stmt.listRelabel r ss = [.write e]) : ∃ e', ss = [.write e'] ∧ e'.relabel r = e := by
  match ss with
  | [.write e'] => exact ⟨e', rfl, Stmt.write.inj (List.cons.inj h).1⟩
  | s :: t :: ss => cases (List.cons.inj h).2
  | [.ret none] | [.ret (some _)] | [.assign ..] | [.increment _] | [.decrement _] | [.read _]
  | [.ifThen ..] | [.ifElse ..] | [.whileLoop ..] | [.repeatLoop ..] | [.call ..] | [] =>
    simp [listRelabel, relabel] at h

/-- Declarations that are such a function up to positions are a function of this form. -/
theorem eq_writing_of_unplaced {ds : List Decl} (h : ds.map (·.relabel .unplaced) =
    [Decl.relabel .unplaced (.func ⟨ty, f, fs, [], [.write e]⟩)]) :
    ∃ ty' f' fs' e', ds = [.func ⟨ty', f', fs', [], [.write e']⟩] ∧
      e'.relabel .unplaced = e.relabel .unplaced := by
  obtain ⟨d, rfl, hd⟩ := List.map_eq_singleton_iff.1 h
  cases d with
  | var d => cases hd
  | struct d => cases hd
  | func d =>
    obtain ⟨ty', f', fs', ds', ss'⟩ := d
    obtain ⟨-, -, -, hbody⟩ := FnDecl.mk.inj (Decl.func.inj hd)
    obtain ⟨hdecls, hstmts⟩ := FnBody.mk.inj hbody
    obtain rfl := List.map_eq_nil_iff.1 hdecls
    obtain ⟨e', rfl, he'⟩ := Stmt.eq_write_of_relabel hstmts
    exact ⟨ty', f', fs', e', rfl, he'⟩

end

namespace Source

/-- An expression is read as it was meant, up to positions, if its tokens are written with blanks
between them and with parentheses only around operands that hold together less tightly than their
places require. -/
theorem parse_writing (file : String) (ty : TypeExpr) (f : Ident) (fs : List Formal) (e : Expr)
    (hty : ty.WellFormed) (hf : f.IsRaw) (hfs : ∀ g ∈ fs, g.WellFormed) (he : e.WellFormed) :
    ∃ ty' f' fs' e',
      (parse (String.ofList (spaced ((writingTokens ty f fs e).map Token.word))) file).result =
        .ok ⟨[.func ⟨ty', f', fs', [], [.write e']⟩], file⟩ ∧
      e'.relabel .unplaced = e.relabel .unplaced := by
  obtain ⟨hts, hspelled⟩ := spelled_writingTokens hty hf hfs he
  obtain ⟨ds, hparse, heq⟩ := parse_spaced hts (.one hspelled) file
  obtain ⟨ty', f', fs', e', rfl, he'⟩ := eq_writing_of_unplaced heq
  exact ⟨ty', f', fs', e', hparse, he'⟩

/-- A name of one letter. -/
def letter (c : Char) : Ident := ⟨c.toString, .start, none⟩

theorem isRaw_letter {c : Char} (hc : Lexeme.isLetter c) : (letter c).IsRaw := by
  -- No keyword has only one letter.
  have hlong : ∀ k ∈ TokenKind.keywords, k.1.length ≠ 1 := by decide
  have hword : TokenKind.ofWord c.toString = .ident := by
    rw [TokenKind.ofWord, List.lookup_eq_none_iff.2, Option.getD_none]
    intro k hk
    rw [bne_iff_ne]
    intro hsame
    exact hlong k hk (by simp [← hsame])
  exact ⟨⟨c, [], by simp [letter], hc, by simp, hword⟩, rfl⟩

/-- An expression with operators of every level. -/
def mixedExpr : Expr :=
  let name (c : Char) : Expr := .ident (letter c)
  .assign (name 'a') (.binary .or
    (.binary .eq
      (.binary .mul (.unary .not (.binary .sub (name 'b') (.binary .sub (name 'c') (name 'd'))))
        (.call (letter 'f') [.dot (name 'x') (letter 'y'), .assign (name 'a') (.int 1 .start)]))
      (.binary .lt (name 'p') (name 'q')))
    (.binary .and (.assign (name 'b') (name 'c')) (.bool true .start)))

theorem wellFormed_mixedExpr : mixedExpr.WellFormed := by
  simp [mixedExpr, Expr.WellFormed, Expr.ListWellFormed, Expr.IsPlace, isRaw_letter,
    Lexeme.isLetter, maxInt]

def mixedText : String :=
  "void g ( ) \x7b cout << a = ! ( b - ( c - d ) ) * f ( x . y , a = 1 ) == ( p < q ) || "
    ++ "( b = c ) && true ; \x7d "

theorem spaced_mixedExpr :
    String.ofList (spaced ((writingTokens .void (letter 'g') [] mixedExpr).map Token.word)) =
      mixedText := by
  decide +kernel

theorem parse_writing_mixed :
    mixedExpr.WellFormed ∧ ∃ ty f fs e,
      (parse mixedText).result = .ok ⟨[.func ⟨ty, f, fs, [], [.write e]⟩], stdinName⟩ ∧
      e.relabel .unplaced = mixedExpr.relabel .unplaced := by
  have h := parse_writing stdinName .void (letter 'g') [] mixedExpr trivial
    (isRaw_letter (by decide)) (by simp) wellFormed_mixedExpr
  rw [spaced_mixedExpr] at h
  exact ⟨wellFormed_mixedExpr, h⟩

end Source

end Carrot
