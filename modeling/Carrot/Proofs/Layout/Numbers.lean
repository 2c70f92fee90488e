import Carrot.Proofs.Layout.Respelling

/-! # Numbers in a written program

A literal of a parsed program is at most as large as literals may be, so the number
it is written as needs no warning and is short enough to be converted.
-/

namespace Carrot

namespace TokenWord

/-- A number that is neither too large nor too long. -/
def Fits (w : TokenWord) : Prop :=
  w.kind = .intLit → decimalValue w.text.toList ≤ maxInt ∧ w.text.length ≤ Source.maxDigits

/-- A value that a literal may have is written with ten digits at most. -/
theorem fits_natural {n : Nat} (hn : n ≤ maxInt) : Fits ⟨.intLit, n.repr⟩ := by
  intro _
  have hlen : (Nat.toDigits 10 n).length ≤ 10 :=
    (Nat.length_toDigits_le_iff (by decide) (by decide)).2 (Nat.lt_of_le_of_lt hn (by decide))
  rw [decimalValue_repr, ← String.length_toList, Nat.toList_repr]
  exact ⟨hn, Nat.le_trans hlen (by decide)⟩

theorem fits_of_ne {w : TokenWord} (h : w.kind ≠ .intLit) : w.Fits := fun hk => absurd hk h

end TokenWord

/-- All numbers among the words are neither too large nor too long. -/
def WordsFit (ws : List TokenWord) : Prop := ∀ w ∈ ws, w.Fits

section

variable {ws vs : List TokenWord}

@[simp] theorem wordsFit_nil : WordsFit [] := by simp [WordsFit]

@[simp] theorem wordsFit_append : WordsFit (ws ++ vs) ↔ WordsFit ws ∧ WordsFit vs :=
  List.forall_mem_append

@[simp] theorem wordsFit_cons_word {k : TokenKind} (hk : k ≠ .intLit) :
    WordsFit (k.word :: ws) ↔ WordsFit ws := by
  rw [WordsFit, List.forall_mem_cons]
  exact and_iff_right (TokenWord.fits_of_ne hk)

@[simp] theorem wordsFit_cons_ident {x : Ident} : WordsFit (x.word :: ws) ↔ WordsFit ws := by
  rw [WordsFit, List.forall_mem_cons]
  exact and_iff_right (TokenWord.fits_of_ne nofun)

theorem wordsFit_flatMap {α : Type} {words : α → List TokenWord} {as : List α}
    (h : ∀ a ∈ as, WordsFit (words a)) : WordsFit (as.flatMap words) := by
  intro w hw
  obtain ⟨a, ha, hw⟩ := List.mem_flatMap.1 hw
  exact h a ha w hw

@[simp] theorem UnaryOp.kind_ne_intLit (op : UnaryOp) : op.kind ≠ .intLit := by
  cases op <;> decide

@[simp] theorem BinaryOp.kind_ne_intLit (op : BinaryOp) : op.kind ≠ .intLit := by
  cases op <;> decide

end

theorem Source.checkNumbers_of_wordsFit {ts : List Token} (h : WordsFit (ts.map Token.word)) :
    checkNumbers ts = ([], none) := by
  induction ts with
  | nil => rfl
  | cons t ts ih =>
    rw [WordsFit, List.map_cons, List.forall_mem_cons] at h
    rw [checkNumbers, ih h.2]
    by_cases hk : t.kind = .intLit
    · obtain ⟨hv, hl⟩ := h.1 hk
      rw [Token.word] at hv hl
      simp [hk, Nat.not_lt.2 hv, Nat.not_lt.2 hl]
    · simp [hk]

mutual

theorem Expr.wordsFit : ∀ {e : Expr}, e.WellFormed → WordsFit e.words
  | .int v _, he => by
    obtain ⟨n, rfl⟩ := Int.eq_ofNat_of_zero_le he.1
    rw [words, WordsFit, List.forall_mem_singleton]
    exact TokenWord.fits_natural (Int.ofNat_le.1 he.2)
  | .str t _, _ => by
    rw [words, WordsFit, List.forall_mem_singleton]
    exact TokenWord.fits_of_ne nofun
  | .bool true _, _ => by simp [words]
  | .bool false _, _ => by simp [words]
  | .ident x, _ => by simp [words]
  | .dot r f, he => by simpa [words] using Expr.wordsFit he.1.wellFormed
  | .assign t v, he => by
    simpa [words] using ⟨Expr.wordsFit he.1.wellFormed, Expr.wordsFit he.2⟩
  | .call f es, he => by simpa [words] using Expr.args_wordsFit he.2
  | .unary op e, he => by simpa [words] using Expr.wordsFit (e := e) he
  | .binary op l r, he => by simpa [words] using ⟨Expr.wordsFit he.1, Expr.wordsFit he.2⟩

theorem Expr.args_wordsFit : ∀ {es : List Expr}, Expr.ListWellFormed es →
    WordsFit (Expr.argsWords es)
  | [], _ => by simp [argsWords]
  | e :: es, he => by
    simpa [argsWords] using ⟨Expr.wordsFit he.1, Expr.moreArgs_wordsFit he.2⟩

theorem Expr.moreArgs_wordsFit : ∀ {es : List Expr}, Expr.ListWellFormed es →
    WordsFit (Expr.moreArgsWords es)
  | [], _ => by simp [moreArgsWords]
  | e :: es, he => by
    simpa [moreArgsWords] using ⟨Expr.wordsFit he.1, Expr.moreArgs_wordsFit he.2⟩

end

theorem TypeExpr.wordsFit (ty : TypeExpr) : WordsFit ty.words := by
  cases ty <;> simp [words]

theorem VarDecl.wordsFit (d : VarDecl) : WordsFit d.words := by
  simp [words, TypeExpr.wordsFit]

theorem wordsFit_blockWords (ds : List VarDecl) {ws : List TokenWord} (h : WordsFit ws) :
    WordsFit (blockWords ds ws) := by
  simp [blockWords, wordsFit_flatMap, VarDecl.wordsFit, h]

theorem wordsFit_guardWords {g : Guard} {c : Expr} (hc : c.WellFormed) :
    WordsFit (guardWords g c) := by
  cases g <;> simp [guardWords, Guard.keyword, Expr.wordsFit hc]

mutual

theorem Stmt.wordsFit : ∀ {s : Stmt}, s.WellFormed → WordsFit s.words
  | .assign t v, hs => by
    simpa [words] using ⟨Expr.wordsFit hs.1.wellFormed, Expr.wordsFit hs.2⟩
  | .increment p, hs | .decrement p, hs | .read p, hs => by
    simpa [words] using Expr.wordsFit (Expr.IsPlace.wellFormed hs)
  | .write v, hs => by simpa [words] using Expr.wordsFit (e := v) hs
  | .ifThen c ds ss, hs | .whileLoop c ds ss, hs | .repeatLoop c ds ss, hs => by
    simpa [words] using
      ⟨wordsFit_guardWords hs.1, wordsFit_blockWords _ (Stmt.list_wordsFit hs.2.2)⟩
  | .ifElse c ds ss eds ess, hs => by
    obtain ⟨hc, -, hss, -, hess⟩ := hs
    simpa [words] using ⟨wordsFit_guardWords hc, wordsFit_blockWords _ (Stmt.list_wordsFit hss),
      wordsFit_blockWords _ (Stmt.list_wordsFit hess)⟩
  | .call f es, hs => by simpa [words] using Expr.wordsFit (e := .call f es) hs
  | .ret none, _ => by simp [words]
  | .ret (some v), hs => by simpa [words] using Expr.wordsFit (e := v) hs

theorem Stmt.list_wordsFit : ∀ {ss : List Stmt}, Stmt.ListWellFormed ss →
    WordsFit (Stmt.listWords ss)
  | [], _ => by simp [listWords]
  | s :: ss, hs => by
    simpa [listWords] using ⟨Stmt.wordsFit hs.1, Stmt.list_wordsFit hs.2⟩

end

theorem Formal.wordsFit (f : Formal) : WordsFit f.words := by
  simp [words, TypeExpr.wordsFit]

theorem wordsFit_formals (fs : List Formal) :
    WordsFit ([TokenKind.comma.word].intercalate (fs.map Formal.words)) := by
  induction fs with
  | nil => simp
  | cons f fs ih =>
    cases fs with
    | nil => simp [Formal.wordsFit]
    | cons g gs =>
      rw [List.map_cons] at ih
      simp [List.intercalate_cons_cons, Formal.wordsFit, ih]

/-- The numbers in a written program are neither too large nor too long. -/
theorem Program.wordsFit {p : Program} (hp : p.WellFormed) : WordsFit p.words := by
  apply wordsFit_flatMap
  intro d hd
  have hd := hp d hd
  cases d with
  | var d => exact VarDecl.wordsFit d
  | func d =>
    have hbody := wordsFit_blockWords d.body.decls (Stmt.list_wordsFit hd.body.stmts)
    simpa [Decl.words, FnDecl.words, TypeExpr.wordsFit, wordsFit_formals] using hbody
  | struct d => simp [Decl.words, StructDecl.words, wordsFit_flatMap, VarDecl.wordsFit]

end Carrot
