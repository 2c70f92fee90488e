import Carrot.Proofs.Layout.RoundTrip

/-! # Written programs are told apart

The words of a tree show where each part of it begins and ends, also where they cannot be read
because of a dot: the first word tells an expression in parentheses from the others, and the word
behind its first part tells a field from an assignment and from an operator. So two parsed
programs with the same canonical text differ at most in positions.
-/

namespace Carrot

/-! ### First words -/

@[simp] theorem TokenKind.word_inj {k l : TokenKind} : k.word = l.word ↔ k = l :=
  ⟨congrArg TokenWord.kind, congrArg word⟩

@[simp] theorem TokenKind.kind_word (k : TokenKind) : k.word.kind = k := rfl

@[simp] theorem Ident.kind_word (x : Ident) : x.word.kind = .ident := rfl

theorem Ident.relabel_of_word {x y : Ident} (hx : x.IsRaw) (hy : y.IsRaw) (h : x.word = y.word) :
    x.relabel .unplaced = y.relabel .unplaced := by
  have hname : x.name = y.name := congrArg TokenWord.text h
  simp [relabel, Relabelling.unplaced, hname, hx.binding_eq_none, hy.binding_eq_none]

/-- The first word is of kind `k`. -/
def Opens (k : TokenKind) (ws : List TokenWord) : Prop := ws.head?.map (·.kind) = some k

@[simp] theorem opens_cons {k : TokenKind} {w : TokenWord} {ws : List TokenWord} :
    Opens k (w :: ws) ↔ w.kind = k := by
  simp [Opens]

theorem Opens.unique {k l : TokenKind} {ws : List TokenWord} (h : Opens k ws) (h' : Opens l ws) :
    k = l :=
  Option.some.inj (h.symm.trans h')

/-- The kind of the first word of an expression. -/
def Expr.opening : Expr → TokenKind
  | .int .. => .intLit
  | .str .. => .strLit
  | .bool true _ => .kwTrue
  | .bool false _ => .kwFalse
  | .ident _ | .call .. => .ident
  | .dot .. | .assign .. | .unary .. | .binary .. => .lparen

theorem Expr.opens (e : Expr) (us : List TokenWord) : Opens e.opening (e.words ++ us) := by
  cases e with
  | bool b => cases b <;> simp [opening, words]
  | _ => simp [opening, words]

/-- The kinds of words that an expression may start with. -/
def Expr.openings : List TokenKind := [.intLit, .strLit, .kwTrue, .kwFalse, .ident, .lparen]

theorem Expr.opening_mem (e : Expr) : e.opening ∈ openings := by
  cases e with
  | bool b => cases b <;> simp [opening, openings]
  | _ => simp [opening, openings]

theorem Expr.opening_ne {e : Expr} {k : TokenKind} (hk : k ∉ openings) : e.opening ≠ k :=
  fun h => hk (h ▸ e.opening_mem)

/-! ### Expressions -/

theorem UnaryOp.kind_inj {op op' : UnaryOp} : op.kind = op'.kind ↔ op = op' := by
  constructor
  · intro h
    cases op <;> cases op' <;> first | rfl | cases h
  · exact congrArg kind

theorem BinaryOp.kind_inj {op op' : BinaryOp} : op.kind = op'.kind ↔ op = op' := by
  constructor
  · intro h
    have := ExprPart.binaryOfKind?_kind op
    rw [h, ExprPart.binaryOfKind?_kind] at this
    exact (Option.some.inj this).symm
  · exact congrArg kind

theorem UnaryOp.kind_not_mem (op : UnaryOp) : op.kind ∉ Expr.openings := by
  cases op <;> decide

/-- An operator is neither a closing parenthesis nor an assignment. -/
theorem BinaryOp.kind_ne (op : BinaryOp) : op.kind ≠ .rparen ∧ op.kind ≠ .assign := by
  cases op <;> decide

/-- The words do not go on as the arguments of a call. -/
def Ends (ws : List TokenWord) : Prop := ¬Opens .lparen ws

@[simp] theorem ends_cons {w : TokenWord} {ws : List TokenWord} :
    Ends (w :: ws) ↔ w.kind ≠ .lparen := by
  simp [Ends]

@[simp] theorem BinaryOp.kind_ne_lparen (op : BinaryOp) : op.kind ≠ .lparen := by
  cases op <;> decide

/-- An expression in parentheses that starts with an expression: that one, and the words behind
it. -/
def Expr.split? : Expr → Option (Expr × List TokenWord)
  | .dot r f => some (r, [TokenKind.rparen.word, TokenKind.dot.word, f.word])
  | .assign t v => some (t, TokenKind.assign.word :: v.words ++ [TokenKind.rparen.word])
  | .binary op a b => some (a, op.kind.word :: b.words ++ [TokenKind.rparen.word])
  | _ => none

section

variable {e a : Expr} {ws us us' : List TokenWord}

theorem Expr.words_of_split? (h : e.split? = some (a, ws)) :
    e.words = TokenKind.lparen.word :: a.words ++ ws := by
  cases e <;> cases h <;> simp [words]

theorem Expr.WellFormed.of_split? (he : e.WellFormed) (h : e.split? = some (a, ws)) :
    a.WellFormed ∧ Ends (ws ++ us) := by
  cases e <;> cases h
  · exact ⟨he.1.wellFormed, by simp⟩
  · exact ⟨he.1.wellFormed, by simp⟩
  · exact ⟨he.1, by simp⟩

/-- Behind an opening parenthesis comes an expression or an operator, but not both. -/
theorem Expr.split_cancel {b : Expr} (hb : ∀ {e : Expr} {us us' : List TokenWord}, e.WellFormed →
      Ends us → Ends us' → b.words ++ us = e.words ++ us' →
        b.relabel .unplaced = e.relabel .unplaced ∧ us = us')
    (he : e.WellFormed) (hus : Ends us)
    (h : TokenKind.lparen.word :: b.words ++ us = e.words ++ us') :
    ∃ a ws, e.split? = some (a, ws) ∧ b.relabel .unplaced = a.relabel .unplaced ∧
      us = ws ++ us' := by
  have hopen : e.opening = .lparen := (e.opens us').unique (h ▸ opens_cons.2 rfl)
  cases hs : e.split? with
  | some s =>
    obtain ⟨a, ws⟩ := s
    obtain ⟨ha, hends⟩ := he.of_split? hs
    simp only [words_of_split? hs, List.cons_append, List.append_assoc, List.cons.injEq,
      true_and] at h
    obtain ⟨heq, hrest⟩ := hb ha hus hends h
    exact ⟨a, ws, rfl, heq, hrest⟩
  | none =>
    cases e with
    | unary op e =>
      simp only [words, List.cons_append, List.cons.injEq, true_and] at h
      have hop := (b.opens us).unique (h ▸ opens_cons.2 rfl)
      exact absurd hop (opening_ne op.kind_not_mem)
    | bool b => cases b <;> cases hopen
    | int | str | ident | call => cases hopen
    | dot | assign | binary => cases hs

end

theorem Expr.ends_moreArgs (es : List Expr) (us : List TokenWord) :
    Ends (Expr.moreArgsWords es ++ TokenKind.rparen.word :: us) := by
  cases es <;> simp [moreArgsWords]

mutual

/-- Words that start with an expression, and do not go on as a call, tell which one it is. -/
theorem Expr.words_cancel : ∀ {e e' : Expr} {us us' : List TokenWord}, e.WellFormed →
    e'.WellFormed → Ends us → Ends us' → e.words ++ us = e'.words ++ us' →
      e.relabel .unplaced = e'.relabel .unplaced ∧ us = us'
  | .int v p, e', us, us', he, he', _, _, h => by
    have hopen := (Expr.opens (.int v p) us).unique (h ▸ e'.opens us')
    cases e' with
    | int v' p' =>
      obtain ⟨n, rfl⟩ := Int.eq_ofNat_of_zero_le he.1
      obtain ⟨m, rfl⟩ := Int.eq_ofNat_of_zero_le he'.1
      simp only [words, List.singleton_append, List.cons.injEq, TokenWord.mk.injEq, true_and] at h
      have hvalue := congrArg (fun s : String => decimalValue s.toList) h.1
      change decimalValue n.repr.toList = decimalValue m.repr.toList at hvalue
      rw [decimalValue_repr, decimalValue_repr] at hvalue
      exact ⟨by rw [relabel, relabel, hvalue]; rfl, h.2⟩
    | bool b => cases b <;> cases hopen
    | _ => cases hopen
  | .str s p, e', us, us', _, _, _, _, h => by
    have hopen := (Expr.opens (.str s p) us).unique (h ▸ e'.opens us')
    cases e' with
    | str s' p' =>
      simp only [words, List.singleton_append, List.cons.injEq, TokenWord.mk.injEq, true_and] at h
      exact ⟨by rw [relabel, relabel, h.1]; rfl, h.2⟩
    | bool b => cases b <;> cases hopen
    | _ => cases hopen
  | .bool b p, e', us, us', _, _, _, _, h => by
    have hopen := (Expr.opens (.bool b p) us).unique (h ▸ e'.opens us')
    cases e' with
    | bool b' p' =>
      cases b <;> cases b' <;> cases hopen <;>
        exact ⟨by simp [relabel], by simpa [words] using h⟩
    | _ => cases b <;> cases hopen
  | .ident x, e', us, us', he, he', hu, _, h => by
    have hopen := (Expr.opens (.ident x) us).unique (h ▸ e'.opens us')
    cases e' with
    | ident x' =>
      simp only [words, List.singleton_append, List.cons.injEq] at h
      exact ⟨by rw [relabel, relabel, Ident.relabel_of_word he he' h.1], h.2⟩
    | call f args =>
      -- A parenthesis behind the name would have to be among the words that follow.
      simp only [words, List.cons_append, List.nil_append, List.cons.injEq] at h
      exact absurd (by simp [h.2]) hu
    | bool b => cases b <;> cases hopen
    | _ => cases hopen
  | .call f args, e', us, us', he, he', _, hu', h => by
    have hopen := (Expr.opens (.call f args) us).unique (h ▸ e'.opens us')
    cases e' with
    | call f' args' =>
      simp only [words, List.cons_append, List.append_assoc, List.nil_append, List.cons.injEq,
        true_and] at h
      obtain ⟨hargs, hus⟩ := Expr.args_cancel he.2 he'.2 h.2
      exact ⟨by rw [relabel, relabel, Ident.relabel_of_word he.1 he'.1 h.1, hargs], hus⟩
    | ident x =>
      simp only [words, List.cons_append, List.nil_append, List.cons.injEq] at h
      exact absurd (by simp [← h.2]) hu'
    | bool b => cases b <;> cases hopen
    | _ => cases hopen
  | .dot r f, e', us, us', he, he', _, _, h => by
    rw [words, List.append_assoc] at h
    obtain ⟨a, ws, hs, hr, hrest⟩ :=
      Expr.split_cancel (words_cancel he.1.wellFormed) he' (by simp) h
    cases e' <;> cases hs
    · simp only [List.cons_append, List.nil_append, List.cons.injEq, true_and] at hrest
      exact ⟨by rw [relabel, relabel, hr, Ident.relabel_of_word he.2 he'.2 hrest.1], hrest.2⟩
    · simp at hrest
    · simp [(BinaryOp.kind_ne _).1.symm] at hrest
  | .assign t v, e', us, us', he, he', _, _, h => by
    rw [words, List.append_assoc, List.append_assoc] at h
    obtain ⟨a, ws, hs, ht, hrest⟩ :=
      Expr.split_cancel (words_cancel he.1.wellFormed) he' (by simp) h
    cases e' <;> cases hs
    · simp at hrest
    · simp only [List.cons_append, List.append_assoc, List.cons.injEq, true_and] at hrest
      obtain ⟨hv, hrest⟩ := words_cancel he.2 he'.2 (by simp) (by simp) hrest
      exact ⟨by rw [relabel, relabel, ht, hv], by simpa using hrest⟩
    · simp [(BinaryOp.kind_ne _).2.symm] at hrest
  | .binary op a b, e', us, us', he, he', _, _, h => by
    rw [words, List.append_assoc, List.append_assoc] at h
    obtain ⟨a, ws, hs, ha, hrest⟩ := Expr.split_cancel (words_cancel he.1) he' (by simp) h
    cases e' <;> cases hs
    · simp [op.kind_ne.1] at hrest
    · simp [op.kind_ne.2] at hrest
    · simp only [List.cons_append, List.append_assoc, List.cons.injEq, TokenKind.word_inj,
        BinaryOp.kind_inj] at hrest
      obtain ⟨hb, hus⟩ := words_cancel he.2 he'.2 (by simp) (by simp) hrest.2
      exact ⟨by rw [relabel, relabel, hrest.1, ha, hb], by simpa using hus⟩
  | .unary op e, e', us, us', he, he', _, _, h => by
    have hopen := (Expr.opens (.unary op e) us).unique (h ▸ e'.opens us')
    cases e' with
    | unary op' e' =>
      simp only [words, List.cons_append, List.append_assoc, List.cons.injEq, true_and,
        TokenKind.word_inj, UnaryOp.kind_inj] at h
      rw [WellFormed] at he he'
      obtain ⟨heq, hus⟩ := words_cancel he he' (by simp) (by simp) h.2
      exact ⟨by rw [relabel, relabel, h.1, heq], by simpa using hus⟩
    | dot | assign | binary =>
      -- The other expression is in parentheses, where no prefix operator opens.
      simp only [words, List.cons_append, List.append_assoc, List.cons.injEq, true_and] at h
      have hop := (Expr.opens _ _).unique (h ▸ opens_cons.2 rfl)
      exact absurd hop (Expr.opening_ne op.kind_not_mem)
    | bool b => cases b <;> cases hopen
    | _ => cases hopen

theorem Expr.args_cancel : ∀ {es es' : List Expr} {us us' : List TokenWord},
    Expr.ListWellFormed es → Expr.ListWellFormed es' →
      Expr.argsWords es ++ TokenKind.rparen.word :: us =
        Expr.argsWords es' ++ TokenKind.rparen.word :: us' →
      Expr.listRelabel .unplaced es = Expr.listRelabel .unplaced es' ∧ us = us'
  | [], [], _, _, _, _, h => by simpa [argsWords] using h
  | [], e :: es, us, us', _, _, h => by
    rw [argsWords, argsWords, List.nil_append, List.append_assoc] at h
    have hopen := (e.opens _).unique (h ▸ opens_cons.2 rfl)
    exact absurd hopen (Expr.opening_ne (by decide))
  | e :: es, [], us, us', _, _, h => by
    rw [argsWords, argsWords, List.nil_append, List.append_assoc] at h
    have hopen := (e.opens _).unique (h ▸ opens_cons.2 rfl)
    exact absurd hopen (Expr.opening_ne (by decide))
  | e :: es, e' :: es', us, us', he, he', h => by
    rw [argsWords, argsWords, List.append_assoc, List.append_assoc] at h
    obtain ⟨heq, hrest⟩ := Expr.words_cancel he.1 he'.1 (Expr.ends_moreArgs _ _)
      (Expr.ends_moreArgs _ _) h
    obtain ⟨hlist, hus⟩ := Expr.moreArgs_cancel he.2 he'.2 hrest
    exact ⟨by rw [listRelabel, listRelabel, heq, hlist], hus⟩

theorem Expr.moreArgs_cancel : ∀ {es es' : List Expr} {us us' : List TokenWord},
    Expr.ListWellFormed es → Expr.ListWellFormed es' →
      Expr.moreArgsWords es ++ TokenKind.rparen.word :: us =
        Expr.moreArgsWords es' ++ TokenKind.rparen.word :: us' →
      Expr.listRelabel .unplaced es = Expr.listRelabel .unplaced es' ∧ us = us'
  | [], [], _, _, _, _, h => by simpa [moreArgsWords] using h
  | [], _ :: _, _, _, _, _, h => by simp [moreArgsWords] at h
  | _ :: _, [], _, _, _, _, h => by simp [moreArgsWords] at h
  | e :: es, e' :: es', us, us', he, he', h => by
    simp only [moreArgsWords, List.cons_append, List.append_assoc, List.cons.injEq, true_and] at h
    obtain ⟨heq, hrest⟩ := Expr.words_cancel he.1 he'.1 (Expr.ends_moreArgs _ _)
      (Expr.ends_moreArgs _ _) h
    obtain ⟨hlist, hus⟩ := Expr.moreArgs_cancel he.2 he'.2 hrest
    exact ⟨by rw [listRelabel, listRelabel, heq, hlist], hus⟩

end

/-! ### Variables -/

/-- The kinds of words that a type may start with. -/
def TypeExpr.openings : List TokenKind := [.kwInt, .kwBool, .kwVoid, .kwStruct]

def TypeExpr.opening : TypeExpr → TokenKind
  | .int => .kwInt
  | .bool => .kwBool
  | .void => .kwVoid
  | .struct _ => .kwStruct

theorem TypeExpr.opens (ty : TypeExpr) (us : List TokenWord) :
    Opens ty.opening (ty.words ++ us) := by
  cases ty <;> simp [opening, words]

theorem TypeExpr.opening_mem (ty : TypeExpr) : ty.opening ∈ openings := by
  cases ty <;> simp [opening, openings]

section

variable {us us' : List TokenWord}

theorem TypeExpr.words_cancel {ty ty' : TypeExpr} (hty : ty.WellFormed) (hty' : ty'.WellFormed)
    (h : ty.words ++ us = ty'.words ++ us') :
    ty.relabel .unplaced = ty'.relabel .unplaced ∧ us = us' := by
  have hopen := (ty.opens us).unique (h ▸ ty'.opens us')
  cases ty <;> cases ty' <;> cases hopen <;>
    simp only [words, List.cons_append, List.nil_append, List.cons.injEq, true_and] at h
  · exact ⟨rfl, h⟩
  · exact ⟨rfl, h⟩
  · exact ⟨rfl, h⟩
  · exact ⟨by rw [relabel, relabel, Ident.relabel_of_word hty hty' h.1], h.2⟩

/-- A type and a name, as variables, formals and functions start. -/
theorem typed_cancel {ty ty' : TypeExpr} {x x' : Ident} (hty : ty.WellFormed)
    (hty' : ty'.WellFormed) (hx : x.IsRaw) (hx' : x'.IsRaw)
    (h : ty.words ++ x.word :: us = ty'.words ++ x'.word :: us') :
    (ty.relabel .unplaced = ty'.relabel .unplaced ∧
      x.relabel .unplaced = x'.relabel .unplaced) ∧ us = us' := by
  obtain ⟨htype, hrest⟩ := TypeExpr.words_cancel hty hty' h
  rw [List.cons.injEq] at hrest
  exact ⟨⟨htype, Ident.relabel_of_word hx hx' hrest.1⟩, hrest.2⟩

theorem VarDecl.words_cancel {d d' : VarDecl} (hd : d.WellFormed) (hd' : d'.WellFormed)
    (h : d.words ++ us = d'.words ++ us') :
    d.relabel .unplaced = d'.relabel .unplaced ∧ us = us' := by
  simp only [words, List.append_assoc, List.cons_append, List.nil_append] at h
  obtain ⟨⟨hty, hx⟩, hrest⟩ := typed_cancel hd.type hd'.type hd.name hd'.name h
  refine ⟨?_, by simpa using hrest⟩
  rw [hd.eq_ofType, hd'.eq_ofType, relabel_ofType, relabel_ofType, hty, hx]

/-- Parts one after another, where words that no part starts with come behind the last. -/
theorem flatMap_cancel {α : Type} {words : α → List TokenWord} {forget : α → α} {P : α → Prop}
    (Stops : List TokenWord → Prop) (hstops : ∀ a us, ¬Stops (words a ++ us))
    (hcancel : ∀ {a a' us us'}, P a → P a' → words a ++ us = words a' ++ us' →
      forget a = forget a' ∧ us = us') {as as' : List α} (has : ∀ a ∈ as, P a)
    (has' : ∀ a ∈ as', P a) (hus : Stops us) (hus' : Stops us')
    (h : as.flatMap words ++ us = as'.flatMap words ++ us') :
    as.map forget = as'.map forget ∧ us = us' := by
  induction as generalizing as' with
  | nil =>
    cases as' with
    | nil => exact ⟨rfl, h⟩
    | cons a' as' =>
      rw [List.flatMap_nil, List.nil_append, List.flatMap_cons, List.append_assoc] at h
      exact absurd (h ▸ hus) (hstops a' _)
  | cons a as ih =>
    obtain ⟨ha, has⟩ := List.forall_mem_cons.1 has
    rw [List.flatMap_cons, List.append_assoc] at h
    cases as' with
    | nil =>
      rw [List.flatMap_nil, List.nil_append] at h
      exact absurd (h ▸ hus') (hstops a _)
    | cons a' as' =>
      obtain ⟨ha', has'⟩ := List.forall_mem_cons.1 has'
      rw [List.flatMap_cons, List.append_assoc] at h
      obtain ⟨heq, hrest⟩ := hcancel ha ha' h
      obtain ⟨hlist, hus⟩ := ih has has' hrest
      exact ⟨by rw [List.map_cons, List.map_cons, heq, hlist], hus⟩

/-- The words do not start with a declaration. -/
def NoType (ws : List TokenWord) : Prop := ∀ k ∈ TypeExpr.openings, ¬Opens k ws

theorem VarDecl.list_cancel {ds ds' : List VarDecl} (hds : ∀ d ∈ ds, d.WellFormed)
    (hds' : ∀ d ∈ ds', d.WellFormed) (hus : NoType us) (hus' : NoType us')
    (h : ds.flatMap words ++ us = ds'.flatMap words ++ us') :
    ds.map (·.relabel .unplaced) = ds'.map (·.relabel .unplaced) ∧ us = us' := by
  refine flatMap_cancel NoType (fun d vs hvs => ?_) words_cancel hds hds' hus hus' h
  rw [words, List.append_assoc] at hvs
  exact hvs _ d.type.opening_mem (d.type.opens _)

end

/-! ### Statements -/

/-- A statement that starts with an expression: that one, and the words behind it. -/
def Stmt.split? : Stmt → Option (Expr × List TokenWord)
  | .assign t v => some (t, TokenKind.assign.word :: v.words ++ [TokenKind.semicolon.word])
  | .increment p => some (p, [TokenKind.increment.word, TokenKind.semicolon.word])
  | .decrement p => some (p, [TokenKind.decrement.word, TokenKind.semicolon.word])
  | .call f args => some (.call f args, [TokenKind.semicolon.word])
  | _ => none

/-- The kind of the first word of a statement. -/
def Stmt.opening : Stmt → TokenKind
  | .assign e _ | .increment e | .decrement e => e.opening
  | .call .. => .ident
  | .read _ => .kwCin
  | .write _ => .kwCout
  | .ifThen .. | .ifElse .. => .kwIf
  | .whileLoop .. => .kwWhile
  | .repeatLoop .. => .kwRepeat
  | .ret _ => .kwReturn

/-- The kinds of words that a statement may start with. -/
def Stmt.openings : List TokenKind :=
  Expr.openings ++ [.kwCin, .kwCout, .kwIf, .kwWhile, .kwRepeat, .kwReturn]

theorem Stmt.opens (s : Stmt) (us : List TokenWord) : Opens s.opening (s.words ++ us) := by
  cases s with
  | assign e | increment e | decrement e =>
    simp only [opening, words, List.append_assoc, e.opens]
  | ret v => cases v <;> simp [opening, words]
  | _ => simp [opening, words, Expr.words, guardWords, Guard.keyword]

theorem Stmt.opening_mem (s : Stmt) : s.opening ∈ openings := by
  cases s with
  | assign e | increment e | decrement e => exact List.mem_append_left _ e.opening_mem
  | _ => simp [opening, openings, Expr.openings]

section

variable {us us' : List TokenWord}

theorem Stmt.not_opens {s : Stmt} {k : TokenKind} (hk : k ∉ openings) :
    ¬Opens k (s.words ++ us) :=
  fun h => hk ((s.opens us).unique h ▸ s.opening_mem)

theorem guardWords_cancel {g g' : Guard} {c c' : Expr} (hc : c.WellFormed) (hc' : c'.WellFormed)
    (h : guardWords g c ++ us = guardWords g' c' ++ us') :
    c.relabel .unplaced = c'.relabel .unplaced ∧ us = us' := by
  simp only [guardWords, List.cons_append, List.append_assoc, List.cons.injEq, true_and] at h
  obtain ⟨hcond, hrest⟩ := Expr.words_cancel hc hc' (by simp) (by simp) h.2
  exact ⟨hcond, by simpa using hrest⟩

/-- An expression at the end of a statement. -/
theorem Expr.semicolon_cancel {e e' : Expr} (he : e.WellFormed) (he' : e'.WellFormed)
    (h : e.words ++ TokenKind.semicolon.word :: us = e'.words ++ TokenKind.semicolon.word :: us') :
    e.relabel .unplaced = e'.relabel .unplaced ∧ us = us' :=
  (words_cancel he he' (by simp) (by simp) h).imp_right fun hrest => (List.cons.inj hrest).2

/-! ### Statements that start with an expression -/

theorem Stmt.words_of_split? {s : Stmt} {e : Expr} {ws : List TokenWord}
    (h : s.split? = some (e, ws)) : s.words = e.words ++ ws ∧ s.opening = e.opening := by
  cases s <;> cases h <;> simp [words, opening, Expr.opening]

theorem Stmt.WellFormed.of_split? {s : Stmt} {e : Expr} {ws : List TokenWord} (hs : s.WellFormed)
    (h : s.split? = some (e, ws)) : e.WellFormed ∧ Ends (ws ++ us) := by
  cases s <;> cases h
  · exact ⟨hs.1.wellFormed, by simp⟩
  · exact ⟨Expr.IsPlace.wellFormed hs, by simp⟩
  · exact ⟨Expr.IsPlace.wellFormed hs, by simp⟩
  · exact ⟨hs, by simp⟩

/-- A statement that does not start with an expression starts with a keyword of its own. -/
theorem Stmt.opening_not_mem {s : Stmt} (h : s.split? = none) : s.opening ∉ Expr.openings := by
  cases s with
  | assign | increment | decrement | call => cases h
  | _ => simp [opening, Expr.openings]

theorem Stmt.split_cancel {s s' : Stmt} {e : Expr} {ws : List TokenWord} (hs : s.WellFormed)
    (hs' : s'.WellFormed) (h : s.split? = some (e, ws)) (heq : s.words ++ us = s'.words ++ us') :
    ∃ e' ws', s'.split? = some (e', ws') ∧ e.relabel .unplaced = e'.relabel .unplaced ∧
      ws ++ us = ws' ++ us' := by
  obtain ⟨hwords, hopening⟩ := words_of_split? h
  have hopen := (s.opens us).unique (heq ▸ s'.opens us')
  cases h' : s'.split? with
  | none => exact absurd (hopen ▸ hopening ▸ e.opening_mem) (opening_not_mem h')
  | some x =>
    obtain ⟨e', ws'⟩ := x
    rw [hwords, (words_of_split? h').1, List.append_assoc, List.append_assoc] at heq
    obtain ⟨he, hends⟩ : e.WellFormed ∧ Ends (ws ++ us) := hs.of_split? h
    obtain ⟨he', hends'⟩ : e'.WellFormed ∧ Ends (ws' ++ us') := hs'.of_split? h'
    obtain ⟨hexpr, hrest⟩ := Expr.words_cancel he he' hends hends' heq
    exact ⟨e', ws', rfl, hexpr, hrest⟩

/-- A statement that starts with a keyword is taken for no other kind of statement. -/
theorem Stmt.keyword_cancel {s s' : Stmt} (h : s.split? = none)
    (heq : s.words ++ us = s'.words ++ us') : s'.split? = none ∧ s.opening = s'.opening := by
  have hopen := (s.opens us).unique (heq ▸ s'.opens us')
  refine ⟨?_, hopen⟩
  cases h' : s'.split? with
  | none => rfl
  | some x =>
    have hmem : s.opening ∈ Expr.openings :=
      hopen ▸ (words_of_split? h').2 ▸ x.1.opening_mem
    exact absurd hmem (opening_not_mem h)

/-! ### All statements -/

theorem Stmt.noType_list (ss : List Stmt) (us : List TokenWord) :
    NoType (Stmt.listWords ss ++ TokenKind.rbrace.word :: us) := by
  intro k hk
  cases ss with
  | nil =>
    rw [listWords, List.nil_append, opens_cons]
    rintro rfl
    exact absurd hk (by decide)
  | cons s ss =>
    rw [listWords, List.append_assoc]
    refine not_opens fun hmem => ?_
    have hdisjoint : ∀ k ∈ TypeExpr.openings, k ∉ openings := by decide
    exact hdisjoint k hk hmem

theorem Stmt.not_else_list (ss : List Stmt) (us : List TokenWord) :
    ¬Opens .kwElse (Stmt.listWords ss ++ TokenKind.rbrace.word :: us) := by
  cases ss with
  | nil => simp [listWords]
  | cons s ss =>
    rw [listWords, List.append_assoc]
    exact not_opens (by decide)

/-- The words of a block show where it ends, if those of its statements do. -/
theorem blockWords_cancel {ds ds' : List VarDecl} {ss ss' : List Stmt}
    (hds : ∀ d ∈ ds, d.WellFormed) (hds' : ∀ d ∈ ds', d.WellFormed)
    (hss : ∀ {vs vs'}, Stmt.listWords ss ++ TokenKind.rbrace.word :: vs =
      Stmt.listWords ss' ++ TokenKind.rbrace.word :: vs' →
        Stmt.listRelabel .unplaced ss = Stmt.listRelabel .unplaced ss' ∧ vs = vs')
    (h : blockWords ds (Stmt.listWords ss) ++ us = blockWords ds' (Stmt.listWords ss') ++ us') :
    (ds.map (·.relabel .unplaced) = ds'.map (·.relabel .unplaced) ∧
      Stmt.listRelabel .unplaced ss = Stmt.listRelabel .unplaced ss') ∧ us = us' := by
  simp only [blockWords, List.cons_append, List.append_assoc, List.nil_append, List.cons.injEq,
    true_and] at h
  obtain ⟨hdecls, hrest⟩ := VarDecl.list_cancel hds hds' (Stmt.noType_list ss us)
    (Stmt.noType_list ss' us') h
  obtain ⟨hstmts, hus⟩ := hss hrest
  exact ⟨⟨hdecls, hstmts⟩, hus⟩

theorem guarded_cancel {g g' : Guard} {c c' : Expr} {ds ds' : List VarDecl} {ss ss' : List Stmt}
    (hc : c.WellFormed) (hc' : c'.WellFormed) (hds : ∀ d ∈ ds, d.WellFormed)
    (hds' : ∀ d ∈ ds', d.WellFormed)
    (hss : ∀ {vs vs'}, Stmt.listWords ss ++ TokenKind.rbrace.word :: vs =
      Stmt.listWords ss' ++ TokenKind.rbrace.word :: vs' →
        Stmt.listRelabel .unplaced ss = Stmt.listRelabel .unplaced ss' ∧ vs = vs')
    (h : guardWords g c ++ (blockWords ds (Stmt.listWords ss) ++ us) =
      guardWords g' c' ++ (blockWords ds' (Stmt.listWords ss') ++ us')) :
    (c.relabel .unplaced = c'.relabel .unplaced ∧
      ds.map (·.relabel .unplaced) = ds'.map (·.relabel .unplaced) ∧
      Stmt.listRelabel .unplaced ss = Stmt.listRelabel .unplaced ss') ∧ us = us' := by
  obtain ⟨hcond, hrest⟩ := guardWords_cancel hc hc' h
  obtain ⟨hblock, hus⟩ := blockWords_cancel hds hds' hss hrest
  exact ⟨⟨hcond, hblock⟩, hus⟩

mutual

/-- Words that start with a statement, and do not go on with its second branch, tell which one it
is. -/
theorem Stmt.words_cancel : ∀ {s s' : Stmt} {us us' : List TokenWord}, s.WellFormed →
    s'.WellFormed → ¬Opens .kwElse us → ¬Opens .kwElse us' → s.words ++ us = s'.words ++ us' →
      s.relabel .unplaced = s'.relabel .unplaced ∧ us = us'
  | .assign t v, s', us, us', hs, hs', _, _, h => by
    obtain ⟨e', ws', hsplit, ht, hrest⟩ := Stmt.split_cancel hs hs' rfl h
    cases s' <;> cases hsplit
    · simp only [List.cons_append, List.append_assoc, List.nil_append, List.cons.injEq,
        true_and] at hrest
      obtain ⟨hv, hus⟩ := Expr.semicolon_cancel hs.2 hs'.2 hrest
      exact ⟨by rw [relabel, relabel, ht, hv], hus⟩
    all_goals simp at hrest
  | .increment p, s', us, us', hs, hs', _, _, h => by
    obtain ⟨e', ws', hsplit, hp, hrest⟩ := Stmt.split_cancel hs hs' rfl h
    cases s' <;> cases hsplit <;> simp at hrest
    exact ⟨by rw [relabel, relabel, hp], hrest⟩
  | .decrement p, s', us, us', hs, hs', _, _, h => by
    obtain ⟨e', ws', hsplit, hp, hrest⟩ := Stmt.split_cancel hs hs' rfl h
    cases s' <;> cases hsplit <;> simp at hrest
    exact ⟨by rw [relabel, relabel, hp], hrest⟩
  | .call f args, s', us, us', hs, hs', _, _, h => by
    obtain ⟨e', ws', hsplit, hcall, hrest⟩ := Stmt.split_cancel hs hs' rfl h
    cases s' <;> cases hsplit <;> simp at hrest
    rw [Expr.relabel, Expr.relabel, Expr.call.injEq] at hcall
    exact ⟨by rw [relabel, relabel, hcall.1, hcall.2], hrest⟩
  | .read p, s', us, us', hs, hs', _, _, h => by
    obtain ⟨hnone, hopen⟩ := Stmt.keyword_cancel rfl h
    cases s' with
    | read p' =>
      simp only [words, List.cons_append, List.append_assoc, List.nil_append, List.cons.injEq,
        true_and] at h
      rw [WellFormed] at hs hs'
      obtain ⟨hp, hus⟩ := Expr.semicolon_cancel hs.wellFormed hs'.wellFormed h
      exact ⟨by rw [relabel, relabel, hp], hus⟩
    | assign | increment | decrement => cases hnone
    | _ => cases hopen
  | .write v, s', us, us', hs, hs', _, _, h => by
    obtain ⟨hnone, hopen⟩ := Stmt.keyword_cancel rfl h
    cases s' with
    | write v' =>
      simp only [words, List.cons_append, List.append_assoc, List.nil_append, List.cons.injEq,
        true_and] at h
      rw [WellFormed] at hs hs'
      obtain ⟨hv, hus⟩ := Expr.semicolon_cancel hs hs' h
      exact ⟨by rw [relabel, relabel, hv], hus⟩
    | assign | increment | decrement => cases hnone
    | _ => cases hopen
  | .ret none, s', us, us', hs, hs', _, _, h => by
    obtain ⟨hnone, hopen⟩ := Stmt.keyword_cancel rfl h
    cases s' with
    | ret v =>
      cases v with
      | none => exact ⟨rfl, by simpa [words] using h⟩
      | some v =>
        -- No expression opens with a semicolon.
        simp only [words, List.cons_append, List.append_assoc, List.cons.injEq, true_and,
          List.nil_append] at h
        have hsemi := (v.opens _).unique (h ▸ opens_cons.2 rfl)
        exact absurd hsemi (Expr.opening_ne (by decide))
    | assign | increment | decrement => cases hnone
    | _ => cases hopen
  | .ret (some v), s', us, us', hs, hs', _, _, h => by
    obtain ⟨hnone, hopen⟩ := Stmt.keyword_cancel rfl h
    cases s' with
    | ret v' =>
      cases v' with
      | none =>
        simp only [words, List.cons_append, List.append_assoc, List.cons.injEq, true_and,
          List.nil_append] at h
        have hsemi := (v.opens _).unique (h ▸ opens_cons.2 rfl)
        exact absurd hsemi (Expr.opening_ne (by decide))
      | some v' =>
        simp only [words, List.cons_append, List.append_assoc, List.nil_append, List.cons.injEq,
          true_and] at h
        rw [WellFormed] at hs hs'
        obtain ⟨hv, hus⟩ := Expr.semicolon_cancel hs hs' h
        exact ⟨by rw [relabel, relabel, hv], hus⟩
    | assign | increment | decrement => cases hnone
    | _ => cases hopen
  | .ifThen c ds ss, s', us, us', hs, hs', hus, _, h => by
    obtain ⟨hnone, hopen⟩ := Stmt.keyword_cancel rfl h
    cases s' with
    | ifThen c' ds' ss' =>
      simp only [words, List.append_assoc] at h
      obtain ⟨⟨hc, hds, hss⟩, hus⟩ :=
        guarded_cancel hs.1 hs'.1 hs.2.1 hs'.2.1 (Stmt.list_cancel hs.2.2 hs'.2.2) h
      exact ⟨by rw [relabel, relabel, hc, hds, hss], hus⟩
    | ifElse c' ds' ss' eds' ess' =>
      simp only [words, List.append_assoc] at h
      -- Then `else` follows the first statement, which is excluded.
      obtain ⟨-, hrest⟩ :=
        guarded_cancel hs.1 hs'.1 hs.2.1 hs'.2.1 (Stmt.list_cancel hs.2.2 hs'.2.2.1) h
      exact absurd (by simp [hrest]) hus
    | assign | increment | decrement => cases hnone
    | _ => cases hopen
  | .ifElse c ds ss eds ess, s', us, us', hs, hs', hus, hus', h => by
    obtain ⟨hnone, hopen⟩ := Stmt.keyword_cancel rfl h
    obtain ⟨hwc, hwds, hwss, hweds, hwess⟩ := hs
    cases s' with
    | ifThen c' ds' ss' =>
      simp only [words, List.append_assoc] at h
      obtain ⟨-, hrest⟩ :=
        guarded_cancel hwc hs'.1 hwds hs'.2.1 (Stmt.list_cancel hwss hs'.2.2) h
      exact absurd (by simp [← hrest]) hus'
    | ifElse c' ds' ss' eds' ess' =>
      obtain ⟨hwc', hwds', hwss', hweds', hwess'⟩ := hs'
      simp only [words, List.append_assoc] at h
      obtain ⟨⟨hc, hds, hss⟩, hrest⟩ :=
        guarded_cancel hwc hwc' hwds hwds' (Stmt.list_cancel hwss hwss') h
      simp only [List.cons_append, List.cons.injEq, true_and] at hrest
      obtain ⟨⟨heds, hess⟩, hus⟩ :=
        blockWords_cancel hweds hweds' (Stmt.list_cancel hwess hwess') hrest
      exact ⟨by rw [relabel, relabel, hc, hds, hss, heds, hess], hus⟩
    | assign | increment | decrement => cases hnone
    | _ => cases hopen
  | .whileLoop c ds ss, s', us, us', hs, hs', _, _, h => by
    obtain ⟨hnone, hopen⟩ := Stmt.keyword_cancel rfl h
    cases s' with
    | whileLoop c' ds' ss' =>
      simp only [words, List.append_assoc] at h
      obtain ⟨⟨hc, hds, hss⟩, hus⟩ :=
        guarded_cancel hs.1 hs'.1 hs.2.1 hs'.2.1 (Stmt.list_cancel hs.2.2 hs'.2.2) h
      exact ⟨by rw [relabel, relabel, hc, hds, hss], hus⟩
    | assign | increment | decrement => cases hnone
    | _ => cases hopen
  | .repeatLoop c ds ss, s', us, us', hs, hs', _, _, h => by
    obtain ⟨hnone, hopen⟩ := Stmt.keyword_cancel rfl h
    cases s' with
    | repeatLoop c' ds' ss' =>
      simp only [words, List.append_assoc] at h
      obtain ⟨⟨hc, hds, hss⟩, hus⟩ :=
        guarded_cancel hs.1 hs'.1 hs.2.1 hs'.2.1 (Stmt.list_cancel hs.2.2 hs'.2.2) h
      exact ⟨by rw [relabel, relabel, hc, hds, hss], hus⟩
    | assign | increment | decrement => cases hnone
    | _ => cases hopen

theorem Stmt.list_cancel : ∀ {ss ss' : List Stmt}, Stmt.ListWellFormed ss →
    Stmt.ListWellFormed ss' → ∀ {us us' : List TokenWord},
      Stmt.listWords ss ++ TokenKind.rbrace.word :: us =
        Stmt.listWords ss' ++ TokenKind.rbrace.word :: us' →
      Stmt.listRelabel .unplaced ss = Stmt.listRelabel .unplaced ss' ∧ us = us'
  | [], [], _, _, us, us', h => by simpa [listWords] using h
  | [], s :: ss, _, _, us, us', h => by
    rw [listWords, listWords, List.nil_append, List.append_assoc] at h
    exact absurd (h ▸ opens_cons.2 rfl) (Stmt.not_opens (by decide))
  | s :: ss, [], _, _, us, us', h => by
    rw [listWords, listWords, List.nil_append, List.append_assoc] at h
    exact absurd (h ▸ opens_cons.2 rfl) (Stmt.not_opens (by decide))
  | s :: ss, s' :: ss', hs, hs', us, us', h => by
    rw [listWords, listWords, List.append_assoc, List.append_assoc] at h
    obtain ⟨heq, hrest⟩ := Stmt.words_cancel hs.1 hs'.1 (Stmt.not_else_list ss us)
      (Stmt.not_else_list ss' us') h
    obtain ⟨hlist, hus⟩ := Stmt.list_cancel hs.2 hs'.2 hrest
    exact ⟨by rw [listRelabel, listRelabel, heq, hlist], hus⟩

end

end

/-! ### Declarations -/

section

variable {us us' : List TokenWord}

theorem Formal.words_cancel {f f' : Formal} (hf : f.WellFormed) (hf' : f'.WellFormed)
    (h : f.words ++ us = f'.words ++ us') :
    f.relabel .unplaced = f'.relabel .unplaced ∧ us = us' := by
  rw [words, words, List.append_assoc, List.append_assoc] at h
  obtain ⟨⟨hty, hx⟩, hus⟩ := typed_cancel hf.type hf'.type hf.name hf'.name h
  exact ⟨by rw [relabel, relabel, hty, hx], hus⟩

/-- The words of further formals, each with its comma. -/
def moreFormalsWords (fs : List Formal) : List TokenWord :=
  fs.flatMap fun f => TokenKind.comma.word :: f.words

theorem intercalate_formals (f : Formal) (fs : List Formal) :
    [TokenKind.comma.word].intercalate ((f :: fs).map Formal.words) =
      f.words ++ moreFormalsWords fs := by
  induction fs generalizing f with
  | nil => simp [moreFormalsWords]
  | cons g gs ih =>
    have hcons := ih g
    rw [List.map_cons] at hcons
    rw [List.map_cons, List.map_cons, List.intercalate_cons_cons, hcons]
    simp [moreFormalsWords]

theorem Formal.moreWords_cancel {fs fs' : List Formal} (hfs : ∀ f ∈ fs, f.WellFormed)
    (hfs' : ∀ f ∈ fs', f.WellFormed)
    (h : moreFormalsWords fs ++ TokenKind.rparen.word :: us =
      moreFormalsWords fs' ++ TokenKind.rparen.word :: us') :
    fs.map (·.relabel .unplaced) = fs'.map (·.relabel .unplaced) ∧ us = us' := by
  have hcancel : fs.map (·.relabel .unplaced) = fs'.map (·.relabel .unplaced) ∧
      TokenKind.rparen.word :: us = TokenKind.rparen.word :: us' :=
    flatMap_cancel (Opens .rparen) (by simp)
      (fun hf hf' hwords => words_cancel hf hf' (List.cons.inj hwords).2) hfs hfs' (by simp)
      (by simp) h
  exact hcancel.imp_right fun hrest => (List.cons.inj hrest).2

theorem Formal.words_ne_rparen {f : Formal} : f.words ++ us ≠ TokenKind.rparen.word :: us' := by
  intro h
  rw [words, List.append_assoc] at h
  have hopen := (f.type.opens _).unique (h ▸ opens_cons.2 rfl)
  exact absurd (hopen ▸ f.type.opening_mem) (by decide)

theorem Formal.list_cancel {fs fs' : List Formal} (hfs : ∀ f ∈ fs, f.WellFormed)
    (hfs' : ∀ f ∈ fs', f.WellFormed)
    (h : [TokenKind.comma.word].intercalate (fs.map words) ++ TokenKind.rparen.word :: us =
      [TokenKind.comma.word].intercalate (fs'.map words) ++ TokenKind.rparen.word :: us') :
    fs.map (·.relabel .unplaced) = fs'.map (·.relabel .unplaced) ∧ us = us' := by
  cases fs with
  | nil =>
    cases fs' with
    | nil => simpa using h
    | cons f' fs' =>
      rw [intercalate_formals, List.append_assoc] at h
      exact absurd h.symm Formal.words_ne_rparen
  | cons f fs =>
    rw [intercalate_formals, List.append_assoc] at h
    cases fs' with
    | nil => exact absurd h Formal.words_ne_rparen
    | cons f' fs' =>
      rw [intercalate_formals, List.append_assoc] at h
      obtain ⟨hf, hfs⟩ := List.forall_mem_cons.1 hfs
      obtain ⟨hf', hfs'⟩ := List.forall_mem_cons.1 hfs'
      obtain ⟨heq, hrest⟩ := words_cancel hf hf' h
      obtain ⟨hlist, hus⟩ := moreWords_cancel hfs hfs' hrest
      exact ⟨by rw [List.map_cons, List.map_cons, heq, hlist], hus⟩

theorem FnDecl.words_cancel {d d' : FnDecl} (hd : d.WellFormed) (hd' : d'.WellFormed)
    (h : d.words ++ us = d'.words ++ us') :
    d.relabel .unplaced = d'.relabel .unplaced ∧ us = us' := by
  simp only [words, List.append_assoc, List.cons_append] at h
  obtain ⟨⟨hty, hx⟩, hrest⟩ := typed_cancel hd.returnType hd'.returnType hd.name hd'.name h
  obtain ⟨hformals, hrest⟩ := Formal.list_cancel hd.formals hd'.formals (List.cons.inj hrest).2
  obtain ⟨⟨hdecls, hstmts⟩, hus⟩ := blockWords_cancel hd.body.decls hd'.body.decls
    (Stmt.list_cancel hd.body.stmts hd'.body.stmts) hrest
  refine ⟨?_, hus⟩
  rw [relabel, relabel, hty, hx, hformals, FnBody.relabel, FnBody.relabel, hdecls, hstmts]

theorem StructDecl.words_cancel {d d' : StructDecl} (hd : d.WellFormed) (hd' : d'.WellFormed)
    (h : d.words ++ us = d'.words ++ us') :
    d.relabel .unplaced = d'.relabel .unplaced ∧ us = us' := by
  simp only [words, List.append_assoc, List.cons_append, List.cons.injEq, true_and] at h
  have hend : ∀ vs : List TokenWord, NoType (TokenKind.rbrace.word :: vs) := by
    intro vs k hk
    rw [opens_cons]
    rintro rfl
    exact absurd hk (by decide)
  obtain ⟨hfields, hus⟩ := VarDecl.list_cancel hd.fields hd'.fields (hend _) (hend _) h.2
  refine ⟨?_, by simpa using hus⟩
  rw [relabel, relabel, Ident.relabel_of_word hd.name hd'.name h.1, hfields]

/-- The declaration of a struct opens a brace where others have a name. -/
theorem typed_ne_struct {ty : TypeExpr} {x : Ident} {w : TokenWord} :
    ty.words ++ x.word :: us ≠ TokenKind.kwStruct.word :: w :: TokenKind.lbrace.word :: us' := by
  intro h
  have hkinds := congrArg (List.map (·.kind)) h
  cases ty <;> simp [TypeExpr.words] at hkinds

theorem VarDecl.words_ne_struct {d : VarDecl} {d' : StructDecl} :
    d.words ++ us ≠ d'.words ++ us' := by
  simpa [words, StructDecl.words] using typed_ne_struct

theorem FnDecl.words_ne_struct {d : FnDecl} {d' : StructDecl} :
    d.words ++ us ≠ d'.words ++ us' := by
  simpa [words, StructDecl.words] using typed_ne_struct

/-- Behind its name a variable ends, and a function has its formals. -/
theorem VarDecl.words_ne_func {d : VarDecl} {d' : FnDecl} (hd : d.WellFormed)
    (hd' : d'.WellFormed) : d.words ++ us ≠ d'.words ++ us' := by
  intro h
  simp only [words, FnDecl.words, List.append_assoc, List.cons_append] at h
  obtain ⟨-, hrest⟩ := typed_cancel hd.type hd'.returnType hd.name hd'.name h
  simp at hrest

theorem Decl.words_cancel {d d' : Decl} (hd : d.WellFormed) (hd' : d'.WellFormed)
    (h : d.words ++ us = d'.words ++ us') :
    d.relabel .unplaced = d'.relabel .unplaced ∧ us = us' := by
  cases d with
  | var d =>
    cases d' with
    | var d' => exact (VarDecl.words_cancel hd hd' h).imp_left (congrArg var)
    | func d' => exact absurd h (VarDecl.words_ne_func hd hd')
    | struct d' => exact absurd h VarDecl.words_ne_struct
  | func d =>
    cases d' with
    | var d' => exact absurd h.symm (VarDecl.words_ne_func hd' hd)
    | func d' => exact (FnDecl.words_cancel hd hd' h).imp_left (congrArg func)
    | struct d' => exact absurd h FnDecl.words_ne_struct
  | struct d =>
    cases d' with
    | var d' => exact absurd h.symm VarDecl.words_ne_struct
    | func d' => exact absurd h.symm FnDecl.words_ne_struct
    | struct d' => exact (StructDecl.words_cancel hd hd' h).imp_left (congrArg struct)

theorem Decl.words_ne_nil (d : Decl) : d.words ≠ [] := by
  cases d <;> simp [words, VarDecl.words, FnDecl.words, StructDecl.words]

end

/-- Programs with the same words are the same up to positions. -/
theorem Program.relabel_of_words {p q : Program} (hp : p.WellFormed) (hq : q.WellFormed)
    (h : p.words = q.words) :
    p.decls.map (·.relabel .unplaced) = q.decls.map (·.relabel .unplaced) := by
  have hwords : p.decls.flatMap Decl.words ++ [] = q.decls.flatMap Decl.words ++ [] :=
    congrArg (· ++ []) h
  have hcancel := flatMap_cancel (· = [])
    (fun d us hnil => d.words_ne_nil (List.append_eq_nil_iff.1 hnil).1) Decl.words_cancel hp hq
    rfl rfl hwords
  exact hcancel.1

/-- The words of a parsed program can be read off its text. -/
theorem Program.words_of_text {p q : Program} (hp : p.WellFormed) (hq : q.WellFormed)
    (h : p.text = q.text) : p.words = q.words := by
  have hscan := (Program.legible_text hp).lexes.scan .start
  have hscan' := (Program.legible_text hq).lexes.scan .start
  rw [h] at hscan
  exact hscan.2.symm.trans hscan'.2

/-- Parsed programs with the same canonical text are equal up to positions, with dots or
without. -/
theorem Source.parse_text_injective {text text' file file' : String} {p q : Program}
    (hp : (parse text file).result = .ok p) (hq : (parse text' file').result = .ok q)
    (h : p.text = q.text) :
    p.decls.map (·.relabel .unplaced) = q.decls.map (·.relabel .unplaced) := by
  have hwp := wellFormed_of_parse hp
  have hwq := wellFormed_of_parse hq
  exact Program.relabel_of_words hwp hwq (Program.words_of_text hwp hwq h)

/-- The function that reads a field, laid out differently. -/
def Source.looseFieldText : String := "\nvoid f() \x7b\n cin>>s.x; \x7d"

def Source.looseFieldTokens : List Token :=
  [⟨.kwVoid, "void", ⟨2, 1⟩⟩, ⟨.ident, "f", ⟨2, 6⟩⟩, ⟨.lparen, "(", ⟨2, 7⟩⟩, ⟨.rparen, ")", ⟨2, 8⟩⟩,
    ⟨.lbrace, "\x7b", ⟨2, 10⟩⟩, ⟨.kwCin, "cin", ⟨3, 2⟩⟩, ⟨.shiftRight, ">>", ⟨3, 5⟩⟩,
    ⟨.ident, "s", ⟨3, 7⟩⟩, ⟨.dot, ".", ⟨3, 8⟩⟩, ⟨.ident, "x", ⟨3, 9⟩⟩,
    ⟨.semicolon, ";", ⟨3, 10⟩⟩, ⟨.rbrace, "\x7d", ⟨3, 12⟩⟩]

def Source.looseFieldDecls : List Decl :=
  [.func ⟨.void, ⟨"f", ⟨2, 6⟩, none⟩, [], ⟨[], [.read (.dot (.ident ⟨"s", ⟨3, 7⟩, none⟩)
    ⟨"x", ⟨3, 9⟩, none⟩)]⟩⟩]

theorem Source.parse_looseFieldText :
    (parse looseFieldText "f.carrot").result = .ok ⟨looseFieldDecls, "f.carrot"⟩ := by
  have htokens : Tokens.ofText looseFieldText.toList = ⟨looseFieldTokens, none⟩ := by
    decide +kernel
  exact parse_of_ofText rfl htokens rfl rfl

theorem Source.parse_text_injective_field :
    fieldDecls.map (·.relabel .unplaced) = looseFieldDecls.map (·.relabel .unplaced) :=
  parse_text_injective parse_fieldText parse_looseFieldText (by decide +kernel)

end Carrot
