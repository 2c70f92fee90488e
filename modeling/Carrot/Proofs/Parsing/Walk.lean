import Carrot.Proofs.Parsing.Exact
import Carrot.Proofs.Syntax.Walk
import Carrot.Proofs.Token.Places

/-! # The leaves of parsed programs

Parsing keeps every name and literal: walking the tree meets the identifiers and
literals among the tokens, each once and in the order of the text. So the leaves of a
parsed program stand at places that increase strictly, and these places are those where
the text has the tokens.
-/

namespace Carrot

/-- The leaf that a token writes; keywords and symbols write none. -/
def Token.leaf? (t : Token) : Option Leaf :=
  match t.kind with
  | .ident => some (.ident t.ident)
  | .intLit => some (.int t.intValue t.position)
  | .strLit => some (.str t.text t.position)
  | .kwTrue => some (.bool true t.position)
  | .kwFalse => some (.bool false t.position)
  | _ => none

def Token.leaves (ts : List Token) : List Leaf := ts.filterMap Token.leaf?

section

variable {ts us : List Token} {t x : Token}

theorem position_of_leaf? {l : Leaf} (h : t.leaf? = some l) : l.position = t.position := by
  unfold Token.leaf? at h
  split at h <;> cases h <;> rfl

@[simp] theorem leaves_nil : Token.leaves [] = [] := rfl

@[simp] theorem leaves_append : Token.leaves (ts ++ us) = Token.leaves ts ++ Token.leaves us :=
  List.filterMap_append

theorem leaves_cons_ident (hx : x.kind = .ident) :
    Token.leaves (x :: ts) = [.ident x.ident] ++ Token.leaves ts := by
  simp [Token.leaves, Token.leaf?, hx]

/-- The kinds of token that write a leaf. -/
def TokenKind.leafy : List TokenKind := [.ident, .intLit, .strLit, .kwTrue, .kwFalse]

theorem leaves_cons_of_kind {k : TokenKind} (ht : t.kind = k) (hk : k ∉ TokenKind.leafy) :
    Token.leaves (t :: ts) = Token.leaves ts := by
  subst ht
  have hnone : t.leaf? = none := by
    unfold Token.leaf?
    split <;> simp_all [TokenKind.leafy]
  exact List.filterMap_cons_none hnone

theorem leaves_cons_of_some {α : Type} {f : TokenKind → Option α} {a : α} (h : f t.kind = some a)
    (hf : ∀ k ∈ TokenKind.leafy, f k = none) : Token.leaves (t :: ts) = Token.leaves ts :=
  leaves_cons_of_kind rfl fun hk => by simp [hf _ hk] at h

/-- The leaf shows the token: its place, and the text or value that it has. -/
def Leaf.Shows (l : Leaf) (t : Token) : Prop :=
  match l with
  | .ident x => t.kind = .ident ∧ x = ⟨t.text, t.position, none⟩
  | .int v p => t.kind = .intLit ∧ v = min (decimalValue t.text.toList) 2147483647 ∧ p = t.position
  | .str s p => t.kind = .strLit ∧ s = t.text ∧ p = t.position
  | .bool b p => t.kind = (if b then .kwTrue else .kwFalse) ∧ p = t.position

theorem shows_of_leaf? {l : Leaf} (h : t.leaf? = some l) : l.Shows t := by
  unfold Token.leaf? at h
  split at h <;> cases h <;> next hk => simp [Leaf.Shows, hk, Token.ident, Token.intValue, maxInt]

theorem leaf?_eq_none_iff : t.leaf? = none ↔ t.kind ∉ TokenKind.leafy := by
  unfold Token.leaf?
  split <;> simp_all [TokenKind.leafy]

/-- The tokens that write leaves are shown one for one. -/
theorem shows_leaves (ts : List Token) :
    List.Forall₂ Leaf.Shows (Token.leaves ts) (ts.filter (·.kind ∈ TokenKind.leafy)) := by
  induction ts with
  | nil => exact .nil
  | cons t ts ih =>
    cases h : t.leaf? with
    | none =>
      have hk := leaf?_eq_none_iff.1 h
      rw [Token.leaves, List.filterMap_cons_none h, List.filter_cons_of_neg (by simpa using hk)]
      exact ih
    | some l =>
      have hk : t.kind ∈ TokenKind.leafy := by
        by_contra hk
        rw [leaf?_eq_none_iff.2 hk] at h
        cases h
      rw [Token.leaves, List.filterMap_cons_some h, List.filter_cons_of_pos (by simpa using hk)]
      exact .cons (shows_of_leaf? h) ih

/-! ### Lists of parts -/

theorem Sequence.leaves {α : Type} {P : List Token → α → Prop} {f : α → List Leaf}
    (hP : ∀ us a, P us a → f a = Token.leaves us) {as : List α} (h : Sequence P ts as) :
    as.flatMap f = Token.leaves ts := by
  induction h with
  | nil => rfl
  | snoc _ ha ih => simp [ih, hP _ _ ha]

theorem Separated.leaves {α : Type} {P : List Token → α → Prop} {f : α → List Leaf}
    (hP : ∀ us a, P us a → f a = Token.leaves us) {as : List α} (h : Separated P ts as) :
    as.flatMap f = Token.leaves ts := by
  induction h with
  | nil => rfl
  | one ha => simp [hP _ _ ha]
  | snoc _ _ hc ha ih =>
    simp [ih, hP _ _ ha, leaves_cons_of_kind hc (by decide)]

/-! ### Types and variables -/

theorem TypeExpr.Spelled.leaves {ty : TypeExpr} (h : TypeExpr.Spelled ts ty) :
    ty.leaves = Token.leaves ts := by
  cases h with
  | @word t _ h =>
    rw [leaves_cons_of_some h (by decide)]
    cases ty with
    | struct tag => cases hk : t.kind <;> rw [hk] at h <;> cases h
    | _ => rfl
  | struct hs hx =>
    rw [leaves_cons_of_kind hs (by decide), leaves_cons_ident hx]
    rfl

theorem VarDecl.Spelled.leaves {d : VarDecl} (h : VarDecl.Spelled ts d) :
    d.leaves = Token.leaves ts := by
  cases h with
  | @ofType ts ty x e hty hx he =>
    rw [VarDecl.leaves_ofType, hty.leaves, leaves_append, leaves_cons_ident hx,
      leaves_cons_of_kind he (by decide)]
    rfl

theorem VarDecl.leaves_of_sequence {ds : List VarDecl} (h : Sequence VarDecl.Spelled ts ds) :
    ds.flatMap VarDecl.leaves = Token.leaves ts := h.leaves fun _ _ hd => hd.leaves

theorem Formal.Spelled.leaves {f : Formal} (h : Formal.Spelled ts f) :
    f.leaves = Token.leaves ts := by
  cases h with
  | mk hty hx =>
    rw [Formal.leaves, hty.leaves, leaves_append, leaves_cons_ident hx]
    rfl

/-! ### Expressions -/

theorem Expr.PlaceSpelled.leaves {e : Expr} (h : Expr.PlaceSpelled ts e) :
    e.leaves = Token.leaves ts := by
  induction h with
  | ident hx =>
    rw [leaves_cons_ident hx, Expr.leaves]
    rfl
  | dot _ hd hx ih =>
    rw [Expr.leaves, ih, leaves_append, leaves_cons_of_kind hd (by decide), leaves_cons_ident hx]
    rfl

theorem Token.leaves_of_literal? {e : Expr} (h : t.literal? = some e) :
    e.leaves = Token.leaves [t] := by
  unfold Token.literal? at h
  split at h <;> cases h <;> next hk => simp [Expr.leaves, Token.leaves, Token.leaf?, hk]

def ExprPart.leaves : ExprPart → List Leaf
  | .expr _ e => e.leaves
  | .args es => Expr.listLeaves es

theorem ExprPart.Spelled.leaves {p : ExprPart} (h : ExprPart.Spelled ts p) :
    p.leaves = Token.leaves ts := by
  induction h with
  | place h => exact h.leaves
  | literal h => exact Token.leaves_of_literal? h
  | group hl _ hr ih =>
    rw [List.cons_append, leaves_cons_of_kind hl (by decide), leaves_append,
      leaves_cons_of_kind hr (by decide), leaves_nil, List.append_nil, ← ih]
    rfl
  | call hf hl _ hr ih =>
    rw [List.cons_append, List.cons_append, leaves_cons_ident hf,
      leaves_cons_of_kind hl (by decide), leaves_append, leaves_cons_of_kind hr (by decide),
      leaves_nil, List.append_nil, ← ih]
    rfl
  | unary ht _ ih =>
    rw [leaves_cons_of_some ht (by decide), ← ih]
    rfl
  | binary _ ht _ iha ihb =>
    rw [leaves_append, leaves_cons_of_some ht (by decide), ← iha, ← ihb]
    rfl
  | assign hp ht _ ih =>
    rw [leaves_append, leaves_cons_of_kind ht (by decide), ← hp.leaves, ← ih]
    rfl
  | lower _ ih => exact ih
  | noArgs => rfl
  | firstArg _ ih =>
    rw [← ih]
    exact List.append_nil _
  | nextArg _ _ hc _ ih ihe =>
    rw [ExprPart.leaves, Expr.listLeaves_append, leaves_append,
      leaves_cons_of_kind hc (by decide), ← ih, ← ihe]
    simp only [Expr.listLeaves, List.append_nil, ExprPart.leaves]

/-! ### Statements -/

def StmtPart.leaves : StmtPart → List Leaf
  | .stmt s => s.leaves
  | .stmts ss => Stmt.listLeaves ss
  | .block b => b.leaves

theorem Owner.leaves_close (g : Guard) (c : Expr) (b : FnBody) :
    ((Owner.ofGuard g c).close b).leaves = c.leaves ++ b.leaves := by
  cases g <;> rfl

theorem Guard.keyword_not_leafy (g : Guard) : g.keyword ∉ TokenKind.leafy := by
  cases g <;> decide

theorem StmtPart.Spelled.leaves {p : StmtPart} (h : StmtPart.Spelled ts p) :
    p.leaves = Token.leaves ts := by
  induction h with
  | assign hp ht hv he =>
    rw [leaves_append, leaves_append, leaves_cons_of_kind ht (by decide),
      leaves_cons_of_kind he (by decide), leaves_nil, List.append_nil, ← hp.leaves, ← hv.leaves]
    rfl
  | increment hp ht he | decrement hp ht he =>
    rw [leaves_append, leaves_cons_of_kind ht (by decide), leaves_cons_of_kind he (by decide),
      leaves_nil, List.append_nil, ← hp.leaves]
    rfl
  | read hk ha hp he =>
    rw [List.cons_append, List.cons_append, leaves_cons_of_kind hk (by decide),
      leaves_cons_of_kind ha (by decide), leaves_append, leaves_cons_of_kind he (by decide),
      leaves_nil, List.append_nil, ← hp.leaves]
    rfl
  | write hk ha hv he =>
    rw [List.cons_append, List.cons_append, leaves_cons_of_kind hk (by decide),
      leaves_cons_of_kind ha (by decide), leaves_append, leaves_cons_of_kind he (by decide),
      leaves_nil, List.append_nil, ← hv.leaves]
    rfl
  | call hf hl h hr he =>
    rw [List.cons_append, List.cons_append, leaves_cons_ident hf,
      leaves_cons_of_kind hl (by decide), leaves_append, leaves_cons_of_kind hr (by decide),
      leaves_cons_of_kind he (by decide), leaves_nil, List.append_nil, ← h.leaves]
    rfl
  | ret hk he =>
    rw [leaves_cons_of_kind hk (by decide), leaves_cons_of_kind he (by decide)]
    rfl
  | retValue hk hv he =>
    rw [List.cons_append, leaves_cons_of_kind hk (by decide), leaves_append,
      leaves_cons_of_kind he (by decide), leaves_nil, List.append_nil, ← hv.leaves]
    rfl
  | guarded g hk hl hc hr _ ih =>
    rw [List.cons_append, List.cons_append, leaves_cons_of_kind hk g.keyword_not_leafy,
      leaves_cons_of_kind hl (by decide), leaves_append, leaves_cons_of_kind hr (by decide),
      ← hc.leaves, ← ih]
    exact Owner.leaves_close g _ _
  | ifElse hk hl hc hr _ he _ ihb ihd =>
    simp only [List.cons_append, List.append_assoc]
    rw [leaves_cons_of_kind hk (by decide), leaves_cons_of_kind hl (by decide), leaves_append,
      leaves_cons_of_kind hr (by decide), leaves_append, leaves_cons_of_kind he (by decide),
      ← hc.leaves, ← ihb, ← ihd, ← List.append_assoc]
    rfl
  | noStmts => rfl
  | nextStmt _ _ ih ihs =>
    rw [StmtPart.leaves, Stmt.listLeaves_append, leaves_append, ← ih, ← ihs]
    simp only [Stmt.listLeaves, List.append_nil, StmtPart.leaves]
  | block hl hds _ hr ih =>
    rw [List.cons_append, List.cons_append, leaves_cons_of_kind hl (by decide), leaves_append,
      leaves_append, leaves_cons_of_kind hr (by decide), leaves_nil, List.append_nil,
      ← VarDecl.leaves_of_sequence hds, ← ih]
    rfl

/-! ### Declarations -/

theorem StructDecl.Spelled.leaves {d : StructDecl} (h : StructDecl.Spelled ts d) :
    d.leaves = Token.leaves ts := by
  cases h with
  | mk hk hx hl hds _ hr =>
    rw [List.cons_append, List.cons_append, List.cons_append, leaves_cons_of_kind hk (by decide),
      leaves_cons_ident hx, leaves_cons_of_kind hl (by decide), leaves_append,
      leaves_cons_of_kind hr (by decide), leaves_nil, List.append_nil,
      ← VarDecl.leaves_of_sequence hds]
    rfl

theorem Decl.Spelled.leaves {d : Decl} (h : Decl.Spelled ts d) : d.leaves = Token.leaves ts := by
  cases h with
  | var h => exact h.leaves
  | func hty hx hl hfs hr hb =>
    rw [leaves_append, leaves_append, leaves_cons_ident hx, leaves_cons_of_kind hl (by decide),
      leaves_cons_of_kind hr (by decide), ← hty.leaves, ← hfs.leaves fun _ _ hf => hf.leaves,
      ← hb.leaves, List.append_assoc, List.append_assoc]
    rfl
  | struct h => exact h.leaves
  | structEnd h he =>
    rw [leaves_append, leaves_cons_of_kind he (by decide), leaves_nil, List.append_nil]
    exact h.leaves

end

/-! ### Programs -/

namespace Source

variable {text file : String} {p : Program}

/-- The leaves of a parsed program are those that the tokens of its text write, in order. -/
theorem leaves_of_parse (hp : (parse text file).result = .ok p) :
    p.leaves = Token.leaves (Tokens.ofText text.toList).tokens := by
  obtain ⟨-, -, -, ds, hds, rfl⟩ := parse_eq_ok_iff.1 hp
  exact hds.leaves fun _ _ hd => hd.leaves

theorem pairwise_leaves_of_parse (hp : (parse text file).result = .ok p) :
    p.leaves.Pairwise fun l m => l.position < m.position := by
  rw [leaves_of_parse hp]
  refine (Tokens.pairwise_scan .start _).filterMap _ fun t u h l hl m hm => ?_
  rw [position_of_leaf? hl, position_of_leaf? hm]
  exact h

theorem pairwise_idents_of_parse (hp : (parse text file).result = .ok p) :
    p.idents.Pairwise fun x y => x.position < y.position := by
  refine (pairwise_leaves_of_parse hp).filterMap _ fun l m h x hx y hy => ?_
  cases l <;> cases hx
  cases m <;> cases hy
  exact h

/-- The leaves of a parsed program are, one for one and in order, the names and literals among the
tokens of its text, up to the end of the text. Each token stands in the text behind the characters
that its place counts, and a leaf has the place, and the text or the value, of its token. So the
places increase along the walk, and no two leaves share one. -/
theorem leaves_show_tokens (hp : (parse text file).result = .ok p) :
    let ts := (Tokens.ofText text.toList).tokens.filter (·.kind ∈ TokenKind.leafy)
    List.Forall₂ Leaf.Shows p.leaves ts ∧
      (∀ t ∈ ts, ∃ before tail, text.toList = before ++ t.text.toList ++ tail ∧
        t.position = .behind before) ∧
      (Tokens.ofText text.toList).stop = none ∧
      p.leaves.Pairwise (fun l m => l.position < m.position) ∧
      (p.leaves.map Leaf.position).Nodup := by
  intro ts
  have hsorted := pairwise_leaves_of_parse hp
  refine ⟨?_, fun t ht => ?_, (parse_eq_ok_iff.1 hp).2.1, hsorted, ?_⟩
  · rw [leaves_of_parse hp]
    exact shows_leaves _
  · obtain ⟨before, tail, hsplit, hplace⟩ :=
      Tokens.exists_split_of_mem_scan (List.mem_of_mem_filter ht)
    exact ⟨before, tail, hsplit, hplace.trans (Position.after_start before)⟩
  · exact List.pairwise_map.2 (hsorted.imp fun h => ne_of_lt h)

theorem leaves_show_tokens_product :
    (parse productText).result = .ok ⟨productDecls, stdinName⟩ ∧
      List.Forall₂ Leaf.Shows (Program.leaves ⟨productDecls, stdinName⟩)
        [⟨.ident, "f", ⟨1, 5⟩⟩, ⟨.intLit, "2", ⟨1, 16⟩⟩, ⟨.ident, "x", ⟨1, 18⟩⟩] := by
  have h := (leaves_show_tokens parse_productText).1
  rw [ofText_productText] at h
  exact ⟨parse_productText, h⟩

end Source

end Carrot
