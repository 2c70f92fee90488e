import Carrot.Proofs.Layout.Legible

/-! # The words of a written program

Which words the canonical text of a well-formed tree is cut into, whatever stands
behind it. Blanks and ends of lines are lost. Inside a line the text behind an
expression must not go on its last word; whole lines end by themselves.
-/

namespace Carrot

/-! ### Expressions -/

mutual

def Expr.words : Expr → List TokenWord
  | .int v _ => [⟨.intLit, toString v⟩]
  | .str t _ => [⟨.strLit, t⟩]
  | .bool true _ => [TokenKind.kwTrue.word]
  | .bool false _ => [TokenKind.kwFalse.word]
  | .ident x => [x.word]
  | .dot r f =>
    TokenKind.lparen.word :: r.words ++ [TokenKind.rparen.word, TokenKind.dot.word, f.word]
  | .assign t v =>
    TokenKind.lparen.word :: t.words ++ TokenKind.assign.word :: v.words ++ [TokenKind.rparen.word]
  | .call f args =>
    f.word :: TokenKind.lparen.word :: Expr.argsWords args ++ [TokenKind.rparen.word]
  | .unary op e => TokenKind.lparen.word :: op.kind.word :: e.words ++ [TokenKind.rparen.word]
  | .binary op l r =>
    TokenKind.lparen.word :: l.words ++ op.kind.word :: r.words ++ [TokenKind.rparen.word]

/-- The words of the arguments of a call. -/
def Expr.argsWords : List Expr → List TokenWord
  | [] => []
  | e :: es => e.words ++ Expr.moreArgsWords es

def Expr.moreArgsWords : List Expr → List TokenWord
  | [] => []
  | e :: es => TokenKind.comma.word :: e.words ++ Expr.moreArgsWords es

end

/-- In front of a text that makes no word longer, `s` is cut into the words `ws`. -/
def Written (s : String) (ws : List TokenWord) : Prop :=
  ∀ {stack rest us}, Stops rest → Legible stack rest us →
    Legible stack (s.toList ++ rest) (ws ++ us)

theorem Ident.text_eq_name {x : Ident} (hx : x.IsRaw) : x.text = x.name := by
  rw [text, hx.binding_eq_none]

theorem Ident.written {x : Ident} (hx : x.IsRaw) : Written x.text [x.word] := by
  intro stack rest us hr h
  rw [text_eq_name hx]
  exact .name hx hr h

theorem IsName.head? {s : String} (hs : IsName s) :
    ∃ c, s.toList.head? = some c ∧ c ≠ '-' ∧ c ≠ '=' := by
  obtain ⟨c, cs, hcs, hc, -, -⟩ := hs
  refine ⟨c, by rw [hcs, List.head?_cons], ?_, ?_⟩ <;>
    · rintro rfl
      exact absurd hc (by decide)

/-- An expression starts with a character that makes no longer symbol of an operator. -/
theorem Expr.head?_text {e : Expr} (he : e.WellFormed) :
    ∃ c, e.text.toList.head? = some c ∧ c ≠ '-' ∧ c ≠ '=' := by
  cases e with
  | int v p =>
    obtain ⟨n, rfl⟩ := Int.eq_ofNat_of_zero_le he.1
    obtain ⟨c, cs, hcs, hdigit⟩ := Lexeme.exists_digits n
    have hc := hdigit c List.mem_cons_self
    have htext : (Expr.int n p).text.toList = c :: cs := hcs
    refine ⟨c, by rw [htext, List.head?_cons], ?_, ?_⟩ <;>
      · rintro rfl
        exact absurd hc (by decide)
  | str t p =>
    obtain ⟨cs, hcs, -, -⟩ := he
    exact ⟨'"', by rw [text, hcs, List.head?_cons], by decide, by decide⟩
  | bool b p =>
    cases b with
    | false => exact ⟨'f', by rw [text]; rfl, by decide, by decide⟩
    | true => exact ⟨'t', by rw [text]; rfl, by decide, by decide⟩
  | ident x =>
    rw [text, Ident.text_eq_name he]
    exact he.isName.head?
  | call f args =>
    obtain ⟨c, hc, hne⟩ := he.1.isName.head?
    exact ⟨c, by simp [text, Ident.text_eq_name he.1, hc], hne⟩
  | dot r f => exact ⟨'(', by simp [text], by decide, by decide⟩
  | assign t v => exact ⟨'(', by simp [text], by decide, by decide⟩
  | unary op e => exact ⟨'(', by simp [text], by decide, by decide⟩
  | binary op l r => exact ⟨'(', by simp [text], by decide, by decide⟩

mutual

theorem Expr.written : ∀ {e : Expr}, e.WellFormed → Written e.text e.words
  | .int v _, he, stack, rest, us, hr, h => by
    obtain ⟨n, rfl⟩ := Int.eq_ofNat_of_zero_le he.1
    exact .natural n hr h
  | .str t _, he, stack, rest, us, hr, h => .string he h
  | .bool true _, _, stack, rest, us, hr, h => by
    rw [text, words]
    exact .keyword .kwTrue _ rfl (by decide) hr h
  | .bool false _, _, stack, rest, us, hr, h => by
    rw [text, words]
    exact .keyword .kwFalse _ rfl (by decide) hr h
  | .ident x, he, stack, rest, us, hr, h => Ident.written he hr h
  | .dot r f, he, stack, rest, us, hr, h => by
    have hf := Ident.written he.2 hr h
    have hr' := Expr.written he.1.wellFormed (stops_cons rfl)
      (.rparen (.symbol .dot [] rfl rfl (by decide) hf))
    simpa [text, words] using Legible.lparen hr'
  | .assign t v, he, stack, rest, us, hr, h => by
    have hv := Expr.written he.2 (stops_cons rfl) (.rparen h)
    have ht := Expr.written he.1.wellFormed (stops_cons rfl)
      (.blank (.inl rfl) (.assign (.blank (.inl rfl) hv)))
    simpa [text, words] using Legible.lparen ht
  | .call f args, he, stack, rest, us, hr, h => by
    have hargs := Expr.written_args he.2 (stops_cons rfl) (.rparen h)
    have hf := Ident.written he.1 (stops_cons rfl) (.lparen hargs)
    simpa [text, words] using hf
  | .unary op e, he, stack, rest, us, hr, h => by
    have he' := Expr.written (e := e) he (stops_cons rfl) (.rparen h)
    obtain ⟨c, hc, hne⟩ := Expr.head?_text (e := e) he
    obtain ⟨cs, hcs⟩ := List.head?_eq_some_iff.1 hc
    rw [hcs] at he'
    simpa [text, words, hcs] using Legible.lparen (.unary op hne he')
  | .binary op l r, he, stack, rest, us, hr, h => by
    have hr' := Expr.written he.2 (stops_cons rfl) (.rparen h)
    have hl := Expr.written he.1 (stops_cons rfl)
      (.blank (.inl rfl) (.binary op (.blank (.inl rfl) hr')))
    simpa [text, words] using Legible.lparen hl

theorem Expr.written_args :
    ∀ {es : List Expr}, Expr.ListWellFormed es → Written (Expr.argsText es) (Expr.argsWords es)
  | [], _, stack, rest, us, hr, h => h
  | e :: es, he, stack, rest, us, hr, h => by
    have hes := Expr.written_moreArgs he.2 hr h
    have he' := Expr.written he.1 hes.1 hes.2
    simpa [argsText, argsWords] using he'

theorem Expr.written_moreArgs {stack rest : List Char} {us : List TokenWord} :
    ∀ {es : List Expr}, Expr.ListWellFormed es → Stops rest → Legible stack rest us →
      Stops ((Expr.moreArgsText es).toList ++ rest) ∧
        Legible stack ((Expr.moreArgsText es).toList ++ rest) (Expr.moreArgsWords es ++ us)
  | [], _, hr, h => ⟨hr, h⟩
  | e :: es, he, hr, h => by
    have hes := Expr.written_moreArgs he.2 hr h
    have he' := Expr.written he.1 hes.1 hes.2
    constructor
    · simpa [moreArgsText] using stops_cons rfl
    · simpa [moreArgsText, moreArgsWords] using Legible.comma (.blank (.inl rfl) he')

end

/-! ### Variables and blocks -/

def TypeExpr.words : TypeExpr → List TokenWord
  | .int => [TokenKind.kwInt.word]
  | .bool => [TokenKind.kwBool.word]
  | .void => [TokenKind.kwVoid.word]
  | .struct tag => [TokenKind.kwStruct.word, tag.word]

def VarDecl.words (d : VarDecl) : List TokenWord :=
  d.type.words ++ [d.name.word, TokenKind.semicolon.word]

/-- The words of a block, braces included, whose statements have the words `body`. -/
def blockWords (ds : List VarDecl) (body : List TokenWord) : List TokenWord :=
  TokenKind.lbrace.word :: ds.flatMap VarDecl.words ++ body ++ [TokenKind.rbrace.word]

/-- The words in front of a guarded block. -/
def guardWords (g : Guard) (c : Expr) : List TokenWord :=
  g.keyword.word :: TokenKind.lparen.word :: c.words ++ [TokenKind.rparen.word]

theorem TypeExpr.written {t : TypeExpr} (ht : t.WellFormed) : Written t.text t.words := by
  intro stack rest us hr h
  cases t with
  | int => exact .keyword .kwInt _ rfl (by decide) hr h
  | bool => exact .keyword .kwBool _ rfl (by decide) hr h
  | void => exact .keyword .kwVoid _ rfl (by decide) hr h
  | struct tag =>
    have htag := Legible.blank (.inl rfl) (.name ht hr h)
    simpa [text, words] using
      Legible.keyword .kwStruct ['t', 'r', 'u', 'c', 't'] rfl (by decide)
        (stops_cons rfl) htag

namespace Layout

variable {stack rest : List Char} {us : List TokenWord} {indent : Int}

theorem legible_blanks (indent : Int) (h : Legible stack rest us) :
    Legible stack ((blanks indent).toList ++ rest) us := by
  rw [blanks, String.toList_ofList]
  induction indent.toNat with
  | zero => exact h
  | succ n ih => exact .blank (.inl rfl) ih

/-- A semicolon at the end of a line. -/
theorem legible_end (h : Legible stack rest us) :
    Legible stack (';' :: '\n' :: rest) (TokenKind.semicolon.word :: us) :=
  .semicolon (.blank (.inr rfl) h)

/-- Whatever comes behind them, the lines `s` are cut into the words `ws`. -/
def Lines (s : String) (ws : List TokenWord) : Prop :=
  ∀ {stack rest us}, Legible stack rest us → Legible stack (s.toList ++ rest) (ws ++ us)

theorem lines_join {α : Type} {text : α → String} {words : α → List TokenWord} {as : List α}
    (h : ∀ a ∈ as, Lines (text a) (words a)) :
    Lines (String.join (as.map text)) (as.flatMap words) := by
  intro stack rest us hr
  induction as with
  | nil => simpa using hr
  | cons a as ih =>
    obtain ⟨ha, has⟩ := List.forall_mem_cons.1 h
    simpa using ha (ih has)

theorem lines_varDecl (indent : Int) {d : VarDecl} (hd : d.WellFormed) :
    Lines (varDecl indent d) d.words := by
  intro stack rest us h
  have hname := Legible.blank (.inl rfl) (.name hd.name (stops_cons rfl) (legible_end h))
  have htype := TypeExpr.written hd.type (stops_cons rfl) hname
  simpa [varDecl, VarDecl.words] using legible_blanks indent htype

theorem lines_varDecls (indent : Int) {ds : List VarDecl} (hds : ∀ d ∈ ds, d.WellFormed) :
    Lines (varDecls indent ds) (ds.flatMap VarDecl.words) :=
  lines_join fun d hd => lines_varDecl indent (hds d hd)

/-- The contents of a block behind its opening brace. -/
theorem legible_block (indent : Int) {ds : List VarDecl} {body : String} {ws : List TokenWord}
    (hds : ∀ d ∈ ds, d.WellFormed) (hb : Lines body ws) (h : Legible stack rest us) :
    Legible stack ('\x7b' :: '\n' :: (block indent ds body).toList ++ rest)
      (blockWords ds ws ++ us) := by
  have hclose := legible_blanks indent (.rbrace (.blank (.inr rfl) h))
  have hlines := lines_varDecls (indent + step) hds (hb hclose)
  simpa [block, blockWords] using Legible.lbrace (.blank (.inr rfl) hlines)

theorem legible_keyword (g : Guard) (hr : Stops rest) (h : Legible stack rest us) :
    Legible stack (g.keyword.spelling.toList ++ rest) (g.keyword.word :: us) := by
  cases g with
  | ifGuard => exact .keyword .kwIf ['f'] rfl (by decide) hr h
  | whileGuard => exact .keyword .kwWhile ['h', 'i', 'l', 'e'] rfl (by decide) hr h
  | repeatGuard => exact .keyword .kwRepeat ['e', 'p', 'e', 'a', 't'] rfl (by decide) hr h

/-- The line that opens a guarded block, up to its brace. -/
theorem legible_guarded (g : Guard) {k : String} {c : Expr} (hk : k = g.keyword.spelling)
    (hc : c.WellFormed) (h : Legible stack ('\x7b' :: '\n' :: rest) us) :
    Legible stack ((guarded indent k c).toList ++ rest) (guardWords g c ++ us) := by
  subst hk
  have hcond := Expr.written hc (stops_cons rfl) (.rparen (.blank (.inl rfl) h))
  have hkey := legible_keyword g (stops_cons rfl) (.blank (.inl rfl) (.lparen hcond))
  simpa [guarded, guardWords] using legible_blanks indent hkey

end Layout

/-! ### Statements -/

mutual

def Stmt.words : Stmt → List TokenWord
  | .assign t v => t.words ++ TokenKind.assign.word :: v.words ++ [TokenKind.semicolon.word]
  | .increment p => p.words ++ [TokenKind.increment.word, TokenKind.semicolon.word]
  | .decrement p => p.words ++ [TokenKind.decrement.word, TokenKind.semicolon.word]
  | .read p =>
    TokenKind.kwCin.word :: TokenKind.shiftRight.word :: p.words ++ [TokenKind.semicolon.word]
  | .write v =>
    TokenKind.kwCout.word :: TokenKind.shiftLeft.word :: v.words ++ [TokenKind.semicolon.word]
  | .ifThen c ds ss => guardWords .ifGuard c ++ blockWords ds (Stmt.listWords ss)
  | .ifElse c ds ss eds ess =>
    guardWords .ifGuard c ++ blockWords ds (Stmt.listWords ss)
      ++ TokenKind.kwElse.word :: blockWords eds (Stmt.listWords ess)
  | .whileLoop c ds ss => guardWords .whileGuard c ++ blockWords ds (Stmt.listWords ss)
  | .repeatLoop c ds ss => guardWords .repeatGuard c ++ blockWords ds (Stmt.listWords ss)
  | .call f args => (Expr.call f args).words ++ [TokenKind.semicolon.word]
  | .ret none => [TokenKind.kwReturn.word, TokenKind.semicolon.word]
  | .ret (some v) => TokenKind.kwReturn.word :: v.words ++ [TokenKind.semicolon.word]

def Stmt.listWords : List Stmt → List TokenWord
  | [] => []
  | s :: ss => s.words ++ Stmt.listWords ss

end

namespace Layout

mutual

-- What is written last is legible first: each line is put in front of a text that is.
theorem lines_stmt : ∀ {s : Stmt} (indent : Int), s.WellFormed → Lines (stmt indent s) s.words
  | .assign t v, indent, hs, stack, rest, us, h => by
    have hv := Expr.written hs.2 (stops_cons rfl) (legible_end h)
    have ht := Expr.written hs.1.wellFormed (stops_cons rfl)
      (.blank (.inl rfl) (.assign (.blank (.inl rfl) hv)))
    simpa [stmt, Stmt.words] using legible_blanks indent ht
  | .increment p, indent, hs, stack, rest, us, h => by
    have hp := Expr.written (Expr.IsPlace.wellFormed hs) (stops_cons rfl)
      (.symbol .increment ['+'] rfl rfl (by decide) (legible_end h))
    simpa [stmt, Stmt.words] using legible_blanks indent hp
  | .decrement p, indent, hs, stack, rest, us, h => by
    have hp := Expr.written (Expr.IsPlace.wellFormed hs) (stops_cons rfl)
      (.symbol .decrement ['-'] rfl rfl (by decide) (legible_end h))
    simpa [stmt, Stmt.words] using legible_blanks indent hp
  | .read p, indent, hs, stack, rest, us, h => by
    have hp := Expr.written (Expr.IsPlace.wellFormed hs) (stops_cons rfl) (legible_end h)
    have harrows := Legible.symbol .shiftRight ['>'] rfl rfl (by decide)
      (.blank (.inl rfl) hp)
    have hcin := Legible.keyword .kwCin ['i', 'n'] rfl (by decide) (stops_cons rfl)
      (.blank (.inl rfl) harrows)
    simpa [stmt, Stmt.words] using legible_blanks indent hcin
  | .write v, indent, hs, stack, rest, us, h => by
    have hv := Expr.written (e := v) hs (stops_cons rfl) (legible_end h)
    have harrows := Legible.symbol .shiftLeft ['<'] rfl rfl (by decide)
      (.blank (.inl rfl) hv)
    have hcout := Legible.keyword .kwCout ['o', 'u', 't'] rfl (by decide) (stops_cons rfl)
      (.blank (.inl rfl) harrows)
    simpa [stmt, Stmt.words] using legible_blanks indent hcout
  | .ifThen c ds ss, indent, hs, stack, rest, us, h => by
    have hblock := legible_block indent hs.2.1 (lines_stmts (indent + step) hs.2.2) h
    simpa [stmt, Stmt.words] using legible_guarded .ifGuard (k := "if") rfl hs.1 hblock
  | .whileLoop c ds ss, indent, hs, stack, rest, us, h => by
    have hblock := legible_block indent hs.2.1 (lines_stmts (indent + step) hs.2.2) h
    simpa [stmt, Stmt.words] using legible_guarded .whileGuard (k := "while") rfl hs.1 hblock
  | .repeatLoop c ds ss, indent, hs, stack, rest, us, h => by
    have hblock := legible_block indent hs.2.1 (lines_stmts (indent + step) hs.2.2) h
    simpa [stmt, Stmt.words] using legible_guarded .repeatGuard (k := "repeat") rfl hs.1 hblock
  | .ifElse c ds ss eds ess, indent, hs, stack, rest, us, h => by
    obtain ⟨hc, hds, hss, heds, hess⟩ := hs
    have helse := Legible.keyword .kwElse ['l', 's', 'e'] rfl (by decide) (stops_cons rfl)
      (.blank (.inl rfl) (legible_block indent heds (lines_stmts (indent + step) hess) h))
    have hblock := legible_block indent hds (lines_stmts (indent + step) hss)
      (legible_blanks indent helse)
    simpa [stmt, Stmt.words] using legible_guarded .ifGuard (k := "if") rfl hc hblock
  | .call f args, indent, hs, stack, rest, us, h => by
    have hcall := Expr.written (e := .call f args) hs (stops_cons rfl) (legible_end h)
    simpa [stmt, Stmt.words] using legible_blanks indent hcall
  | .ret none, indent, _, stack, rest, us, h => by
    have hret := Legible.keyword .kwReturn ['e', 't', 'u', 'r', 'n'] rfl (by decide)
      (stops_cons rfl) (legible_end h)
    simpa [stmt, Stmt.words] using legible_blanks indent hret
  | .ret (some v), indent, hs, stack, rest, us, h => by
    have hv := Expr.written (e := v) hs (stops_cons rfl) (legible_end h)
    have hret := Legible.keyword .kwReturn ['e', 't', 'u', 'r', 'n'] rfl (by decide)
      (stops_cons rfl) (.blank (.inl rfl) hv)
    simpa [stmt, Stmt.words] using legible_blanks indent hret

theorem lines_stmts :
    ∀ {ss : List Stmt} (indent : Int), Stmt.ListWellFormed ss →
      Lines (stmts indent ss) (Stmt.listWords ss)
  | [], _, _, stack, rest, us, h => by
    rw [stmts, Stmt.listWords]
    exact h
  | s :: ss, indent, hss, stack, rest, us, h => by
    have hs := lines_stmt indent hss.1 (lines_stmts indent hss.2 h)
    simpa [stmts, Stmt.listWords] using hs

end

end Layout

/-! ### Declarations -/

def Formal.words (f : Formal) : List TokenWord := f.type.words ++ [f.name.word]

def FnDecl.words (d : FnDecl) : List TokenWord :=
  d.returnType.words ++ d.name.word :: TokenKind.lparen.word
    :: [TokenKind.comma.word].intercalate (d.formals.map Formal.words)
    ++ TokenKind.rparen.word :: blockWords d.body.decls (Stmt.listWords d.body.stmts)

def StructDecl.words (d : StructDecl) : List TokenWord :=
  TokenKind.kwStruct.word :: d.name.word :: TokenKind.lbrace.word
    :: d.fields.flatMap VarDecl.words ++ [TokenKind.rbrace.word, TokenKind.semicolon.word]

def Decl.words : Decl → List TokenWord
  | .var d => d.words
  | .func d => d.words
  | .struct d => d.words

def Program.words (p : Program) : List TokenWord := p.decls.flatMap Decl.words

namespace Layout

variable {stack rest : List Char} {us : List TokenWord}

theorem written_formal {f : Formal} (hf : f.WellFormed) : Written (formal f) f.words := by
  intro stack rest us hr h
  have hname := Legible.blank (.inl rfl) (.name hf.name hr h)
  simpa [formal, Formal.words] using TypeExpr.written hf.type (stops_cons rfl) hname

theorem written_formals {fs : List Formal} (hfs : ∀ f ∈ fs, f.WellFormed) :
    Written (String.intercalate ", " (fs.map formal))
      ([TokenKind.comma.word].intercalate (fs.map Formal.words)) := by
  intro stack rest us hr h
  induction fs with
  | nil => simpa using h
  | cons f fs ih =>
    obtain ⟨hf, hfs⟩ := List.forall_mem_cons.1 hfs
    cases fs with
    | nil => simpa using written_formal hf hr h
    | cons g gs =>
      have hgs := Legible.comma (.blank (.inl rfl) (ih hfs))
      simpa [String.intercalate_cons_cons, List.intercalate_cons_cons] using
        written_formal hf (stops_cons rfl) hgs

theorem lines_fnDecl (indent : Int) {d : FnDecl} (hd : d.WellFormed) :
    Lines (fnDecl indent d) d.words := by
  intro stack rest us h
  have hclose := Legible.rbrace (.blank (.inr rfl) (.blank (.inr rfl) h))
  have hbody := lines_varDecls (indent + step) hd.body.decls
    (lines_stmts (indent + step) hd.body.stmts hclose)
  have hformals := written_formals hd.formals (stops_cons rfl)
    (.rparen (.blank (.inl rfl) (.lbrace (.blank (.inr rfl) hbody))))
  have hname := Legible.name hd.name (stops_cons rfl) (.lparen hformals)
  have htype := TypeExpr.written hd.returnType (stops_cons rfl) (.blank (.inl rfl) hname)
  simpa [fnDecl, FnDecl.words, blockWords] using legible_blanks indent htype

theorem lines_structDecl (indent : Int) {d : StructDecl} (hd : d.WellFormed) :
    Lines (structDecl indent d) d.words := by
  intro stack rest us h
  have hclose := legible_blanks indent (.rbrace (legible_end (.blank (.inr rfl) h)))
  have hfields := lines_varDecls (indent + step) hd.fields hclose
  have hname := Legible.name hd.name (stops_cons rfl) (.lbrace (.blank (.inr rfl) hfields))
  have hstruct := Legible.keyword .kwStruct ['t', 'r', 'u', 'c', 't'] rfl (by decide)
    (stops_cons rfl) (.blank (.inl rfl) hname)
  simpa [structDecl, StructDecl.words] using legible_blanks indent hstruct

theorem lines_decl (indent : Int) {d : Decl} (hd : d.WellFormed) :
    Lines (decl indent d) d.words := by
  cases d with
  | var d => exact lines_varDecl indent hd
  | func d => exact lines_fnDecl indent hd
  | struct d => exact lines_structDecl indent hd

end Layout

/-- The canonical text of a well-formed program is cut into its words, and it passes screening. -/
theorem Program.legible_text {p : Program} (hp : p.WellFormed) :
    Legible [] p.text.toList p.words := by
  have hlines : Layout.Lines p.text p.words :=
    Layout.lines_join fun d hd => Layout.lines_decl 0 (hp d hd)
  simpa using hlines .nil

end Carrot
