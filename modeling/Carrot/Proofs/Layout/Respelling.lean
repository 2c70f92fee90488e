import Carrot.Proofs.Layout.Words
import Carrot.Proofs.Syntax.Relabel

/-! # Trees from the words of a written program

Tokens with the words of a written tree spell that tree again, up to positions, if it
has no dots. All parentheses are written, so every operand is spelled at the level
of a term. A dot is written behind a parenthesis, where it cannot be read.
-/

namespace Carrot

/-! ### Dots -/

mutual

/-- Whether a field of something occurs in an expression. -/
def Expr.hasDot : Expr → Bool
  | .int _ _ | .str _ _ | .bool _ _ | .ident _ => false
  | .dot _ _ => true
  | .assign t v => t.hasDot || v.hasDot
  | .call _ args => Expr.listHasDot args
  | .unary _ e => e.hasDot
  | .binary _ l r => l.hasDot || r.hasDot

def Expr.listHasDot : List Expr → Bool
  | [] => false
  | e :: es => e.hasDot || Expr.listHasDot es

end

mutual

def Stmt.hasDot : Stmt → Bool
  | .assign t v => t.hasDot || v.hasDot
  | .increment p | .decrement p | .read p => p.hasDot
  | .write v => v.hasDot
  | .ifThen c _ ss | .whileLoop c _ ss | .repeatLoop c _ ss => c.hasDot || Stmt.listHasDot ss
  | .ifElse c _ ss _ ess => c.hasDot || Stmt.listHasDot ss || Stmt.listHasDot ess
  | .call _ args => Expr.listHasDot args
  | .ret none => false
  | .ret (some v) => v.hasDot

def Stmt.listHasDot : List Stmt → Bool
  | [] => false
  | s :: ss => s.hasDot || Stmt.listHasDot ss

end

def Decl.hasDot : Decl → Bool
  | .func d => Stmt.listHasDot d.body.stmts
  | .var _ | .struct _ => false

def Program.hasDot (p : Program) : Bool := p.decls.any Decl.hasDot

/-! ### Tokens with given words -/

/-- The tokens `ts` have the words `ws`. -/
def HaveWords (ts : List Token) (ws : List TokenWord) : Prop := ts.map Token.word = ws

namespace HaveWords

variable {ts : List Token} {ws vs : List TokenWord} {w : TokenWord}

@[simp] theorem nil_iff : HaveWords ts [] ↔ ts = [] := List.map_eq_nil_iff

theorem cons_iff :
    HaveWords ts (w :: ws) ↔ ∃ t us, ts = t :: us ∧ t.word = w ∧ HaveWords us ws :=
  List.map_eq_cons_iff

theorem append_iff :
    HaveWords ts (ws ++ vs) ↔ ∃ us us', ts = us ++ us' ∧ HaveWords us ws ∧ HaveWords us' vs :=
  List.map_eq_append_iff

theorem singleton_iff : HaveWords ts [w] ↔ ∃ t, ts = [t] ∧ t.word = w := by
  simp [cons_iff]

end HaveWords

theorem Token.kind_eq {t : Token} {k : TokenKind} (h : t.word = k.word) : t.kind = k :=
  congrArg TokenWord.kind h

theorem Token.kind_eq_ident {t : Token} {x : Ident} (h : t.word = x.word) : t.kind = .ident :=
  congrArg TokenWord.kind h

theorem Token.relabel_ident {t : Token} {x : Ident} (h : t.word = x.word) (hx : x.IsRaw) :
    t.ident.relabel .unplaced = x.relabel .unplaced := by
  have htext : t.text = x.name := congrArg TokenWord.text h
  simp [Ident.relabel, Relabelling.unplaced, Token.ident, htext, hx.binding_eq_none]

/-! ### Expressions -/

theorem decimalValue_repr (n : Nat) : decimalValue n.repr.toList = n := by
  rw [Nat.toList_repr, decimalValue, ← Nat.ofDigitChars_eq_foldl, Nat.ofDigitChars_ten_toDigits]

theorem Expr.IsPlace.spelled {p : Expr} (hp : p.IsPlace) (hdot : p.hasDot = false)
    {ts : List Token} (hts : HaveWords ts p.words) :
    ∃ p', Expr.PlaceSpelled ts p' ∧ p'.relabel .unplaced = p.relabel .unplaced := by
  cases p with
  | ident x =>
    rw [Expr.words] at hts
    obtain ⟨t, rfl, ht⟩ := HaveWords.singleton_iff.1 hts
    refine ⟨.ident t.ident, .ident (Token.kind_eq_ident ht), ?_⟩
    rw [Expr.relabel, Expr.relabel, Token.relabel_ident ht hp]
  | dot r f => simp [Expr.hasDot] at hdot
  | _ => exact hp.elim

namespace ExprPart

/-- A written number, string or truth value. -/
theorem spelled_literal {e : Expr} {w : TokenWord} {ts : List Token} (hts : HaveWords ts [w])
    (h : ∀ t : Token, t.word = w →
      ∃ e', t.literal? = some e' ∧ e'.relabel .unplaced = e.relabel .unplaced) :
    ∃ e', Spelled ts (expr termLevel e') ∧ e'.relabel .unplaced = e.relabel .unplaced := by
  obtain ⟨t, rfl, ht⟩ := HaveWords.singleton_iff.1 hts
  obtain ⟨e', hliteral, heq⟩ := h t ht
  exact ⟨e', .literal hliteral, heq⟩

theorem unaryOfKind?_kind (op : UnaryOp) : UnaryOp.ofKind? op.kind = some op := by
  cases op <;> rfl

theorem binaryOfKind?_kind (op : BinaryOp) : BinaryOp.ofKind? op.kind = some op := by
  cases op <;> rfl

theorem level_le_termLevel (op : BinaryOp) :
    op.leftLevel ≤ termLevel ∧ op.rightLevel ≤ termLevel := by
  cases op <;> decide

mutual

/-- The words of an expression without dots spell it as a term. -/
theorem spelled_words : ∀ {e : Expr} {ts : List Token}, e.WellFormed → e.hasDot = false →
    HaveWords ts e.words →
      ∃ e', Spelled ts (expr termLevel e') ∧ e'.relabel .unplaced = e.relabel .unplaced
  | .int v p, ts, he, _, hts => by
    obtain ⟨n, rfl⟩ := Int.eq_ofNat_of_zero_le he.1
    rw [Expr.words] at hts
    refine spelled_literal hts fun t ht => ⟨.int t.intValue t.position, ?_, ?_⟩
    · rw [Token.literal?, show t.kind = .intLit from congrArg TokenWord.kind ht]
    · have htext : t.text = n.repr := congrArg TokenWord.text ht
      have hn : n ≤ maxInt := Int.ofNat_le.1 he.2
      rw [Expr.relabel, Expr.relabel, Token.intValue, htext, decimalValue_repr,
        Nat.min_eq_left hn]
      rfl
  | .str s p, ts, _, _, hts => by
    rw [Expr.words] at hts
    refine spelled_literal hts fun t ht => ⟨.str t.text t.position, ?_, ?_⟩
    · rw [Token.literal?, show t.kind = .strLit from congrArg TokenWord.kind ht]
    · rw [Expr.relabel, Expr.relabel, show t.text = s from congrArg TokenWord.text ht]
      rfl
  | .bool true p, ts, _, _, hts => by
    rw [Expr.words] at hts
    refine spelled_literal hts fun t ht => ⟨.bool true t.position, ?_, by simp [Expr.relabel]⟩
    rw [Token.literal?, Token.kind_eq ht]
  | .bool false p, ts, _, _, hts => by
    rw [Expr.words] at hts
    refine spelled_literal hts fun t ht => ⟨.bool false t.position, ?_, by simp [Expr.relabel]⟩
    rw [Token.literal?, Token.kind_eq ht]
  | .ident x, ts, he, hdot, hts => by
    obtain ⟨p', hp', heq⟩ := Expr.IsPlace.spelled (p := .ident x) he hdot hts
    exact ⟨p', .place hp', heq⟩
  | .dot r f, ts, _, hdot, _ => by simp [Expr.hasDot] at hdot
  | .assign t v, ts, he, hdot, hts => by
    simp only [Expr.hasDot, Bool.or_eq_false_iff] at hdot
    simp only [Expr.words, HaveWords.append_iff, HaveWords.cons_iff, HaveWords.nil_iff,
      List.cons_append, List.append_assoc] at hts
    obtain ⟨l, _, rfl, hl, us, _, rfl, hus, s, _, rfl, hs, vs, _, rfl, hvs, r, _, rfl, hr, rfl⟩ :=
      hts
    obtain ⟨t', ht', ht⟩ := he.1.spelled hdot.1 hus
    obtain ⟨v', hv', hv⟩ := spelled_words he.2 hdot.2 hvs
    have hassign := Spelled.assign ht' (Token.kind_eq hs) (hv'.mono (Nat.zero_le _))
    refine ⟨.assign t' v', ?_, by rw [Expr.relabel, Expr.relabel, ht, hv]⟩
    simpa using Spelled.group (Token.kind_eq hl) hassign (Token.kind_eq hr)
  | .call f es, ts, he, hdot, hts => by
    rw [Expr.hasDot] at hdot
    simp only [Expr.words, HaveWords.append_iff, HaveWords.cons_iff, HaveWords.nil_iff,
      List.cons_append] at hts
    obtain ⟨x, _, rfl, hx, l, _, rfl, hl, us, _, rfl, hus, r, _, rfl, hr, rfl⟩ := hts
    obtain ⟨es', hes', heq⟩ := spelled_argsWords he.2 hdot hus
    refine ⟨.call x.ident es', ?_, ?_⟩
    · exact Spelled.call (Token.kind_eq_ident hx) (Token.kind_eq hl) hes' (Token.kind_eq hr)
    · rw [Expr.relabel, Expr.relabel, Token.relabel_ident hx he.1, heq]
  | .unary op e, ts, he, hdot, hts => by
    rw [Expr.hasDot] at hdot
    simp only [Expr.words, HaveWords.append_iff, HaveWords.cons_iff, HaveWords.nil_iff,
      List.cons_append] at hts
    obtain ⟨l, _, rfl, hl, o, _, rfl, ho, us, _, rfl, hus, r, _, rfl, hr, rfl⟩ := hts
    obtain ⟨e', he', heq⟩ := spelled_words (e := e) he hdot hus
    have hop : UnaryOp.ofKind? o.kind = some op := by rw [Token.kind_eq ho, unaryOfKind?_kind]
    have hunary := Spelled.unary hop (he'.mono (by decide))
    refine ⟨.unary op e', ?_, by rw [Expr.relabel, Expr.relabel, heq]⟩
    exact Spelled.group (Token.kind_eq hl) (hunary.mono (Nat.zero_le _)) (Token.kind_eq hr)
  | .binary op a b, ts, he, hdot, hts => by
    simp only [Expr.hasDot, Bool.or_eq_false_iff] at hdot
    simp only [Expr.words, HaveWords.append_iff, HaveWords.cons_iff, HaveWords.nil_iff,
      List.cons_append, List.append_assoc] at hts
    obtain ⟨l, _, rfl, hl, us, _, rfl, hus, o, _, rfl, ho, vs, _, rfl, hvs, r, _, rfl, hr, rfl⟩ :=
      hts
    obtain ⟨a', ha', ha⟩ := spelled_words he.1 hdot.1 hus
    obtain ⟨b', hb', hb⟩ := spelled_words he.2 hdot.2 hvs
    have hop : BinaryOp.ofKind? o.kind = some op := by rw [Token.kind_eq ho, binaryOfKind?_kind]
    have hbinary := Spelled.binary (ha'.mono (level_le_termLevel op).1) hop
      (hb'.mono (level_le_termLevel op).2)
    refine ⟨.binary op a' b', ?_, by rw [Expr.relabel, Expr.relabel, ha, hb]⟩
    simpa using Spelled.group (Token.kind_eq hl) (hbinary.mono (Nat.zero_le _)) (Token.kind_eq hr)

theorem spelled_argsWords : ∀ {es : List Expr} {ts : List Token}, Expr.ListWellFormed es →
    Expr.listHasDot es = false → HaveWords ts (Expr.argsWords es) →
      ∃ es', Spelled ts (args es') ∧ Expr.listRelabel .unplaced es' = Expr.listRelabel .unplaced es
  | [], ts, _, _, hts => by
    rw [Expr.argsWords, HaveWords.nil_iff] at hts
    exact ⟨[], hts ▸ .noArgs, rfl⟩
  | e :: es, ts, he, hdot, hts => by
    simp only [Expr.listHasDot, Bool.or_eq_false_iff] at hdot
    simp only [Expr.argsWords, HaveWords.append_iff] at hts
    obtain ⟨us, vs, rfl, hus, hvs⟩ := hts
    obtain ⟨e', he', heq⟩ := spelled_words he.1 hdot.1 hus
    obtain ⟨es', hes', hlist⟩ := spelled_moreArgsWords he.2 hdot.2 hvs
      (.firstArg (he'.mono (Nat.zero_le _))) (by simp)
    exact ⟨e' :: es', hes', by rw [Expr.listRelabel, Expr.listRelabel, heq, hlist]⟩

/-- Further arguments behind some that are spelled. -/
theorem spelled_moreArgsWords : ∀ {es es₀ : List Expr} {ts ts₀ : List Token},
    Expr.ListWellFormed es → Expr.listHasDot es = false → HaveWords ts (Expr.moreArgsWords es) →
      Spelled ts₀ (args es₀) → es₀ ≠ [] →
      ∃ es', Spelled (ts₀ ++ ts) (args (es₀ ++ es')) ∧
        Expr.listRelabel .unplaced es' = Expr.listRelabel .unplaced es
  | [], es₀, ts, ts₀, _, _, hts, h₀, _ => by
    rw [Expr.moreArgsWords, HaveWords.nil_iff] at hts
    exact ⟨[], by simpa [hts] using h₀, rfl⟩
  | e :: es, es₀, ts, ts₀, he, hdot, hts, h₀, hne => by
    simp only [Expr.listHasDot, Bool.or_eq_false_iff] at hdot
    simp only [Expr.moreArgsWords, HaveWords.append_iff, HaveWords.cons_iff,
      List.cons_append] at hts
    obtain ⟨c, _, rfl, hc, us, vs, rfl, hus, hvs⟩ := hts
    obtain ⟨e', he', heq⟩ := spelled_words he.1 hdot.1 hus
    obtain ⟨es', hes', hlist⟩ := spelled_moreArgsWords he.2 hdot.2 hvs
      (.nextArg h₀ hne (Token.kind_eq hc) (he'.mono (Nat.zero_le _))) (by simp)
    refine ⟨e' :: es', by simpa using hes', ?_⟩
    rw [Expr.listRelabel, Expr.listRelabel, heq, hlist]

end

end ExprPart

/-! ### Variables -/

variable {ts : List Token}

theorem TypeExpr.spelled_words {ty : TypeExpr} (hty : ty.WellFormed) (hts : HaveWords ts ty.words) :
    ∃ ty', TypeExpr.Spelled ts ty' ∧ ty'.relabel .unplaced = ty.relabel .unplaced := by
  have hword {k : TokenKind} {ty : TypeExpr} (hk : TypeExpr.ofKind? k = some ty)
      (hts : HaveWords ts [k.word]) : TypeExpr.Spelled ts ty := by
    obtain ⟨t, rfl, ht⟩ := HaveWords.singleton_iff.1 hts
    exact .word (by rw [Token.kind_eq ht, hk])
  cases ty with
  | int => exact ⟨.int, hword rfl hts, rfl⟩
  | bool => exact ⟨.bool, hword rfl hts, rfl⟩
  | void => exact ⟨.void, hword rfl hts, rfl⟩
  | struct tag =>
    simp only [words, HaveWords.cons_iff, HaveWords.nil_iff] at hts
    obtain ⟨s, _, rfl, hs, x, _, rfl, hx, rfl⟩ := hts
    refine ⟨.struct x.ident, .struct (Token.kind_eq hs) (Token.kind_eq_ident hx), ?_⟩
    rw [relabel, relabel, Token.relabel_ident hx hty]

theorem VarDecl.spelled_words {d : VarDecl} (hd : d.WellFormed) (hts : HaveWords ts d.words) :
    ∃ d', VarDecl.Spelled ts d' ∧ d'.relabel .unplaced = d.relabel .unplaced := by
  simp only [words, HaveWords.append_iff, HaveWords.cons_iff, HaveWords.nil_iff] at hts
  obtain ⟨us, _, rfl, hus, x, _, rfl, hx, e, _, rfl, he, rfl⟩ := hts
  obtain ⟨ty, hty, heq⟩ := TypeExpr.spelled_words hd.type hus
  refine ⟨.ofType ty x.ident, .ofType hty (Token.kind_eq_ident hx) (Token.kind_eq he), ?_⟩
  rw [hd.eq_ofType, relabel_ofType, relabel_ofType, heq, Token.relabel_ident hx hd.name]

/-- The words of some parts one after another, each of which spells its part up to `forget`. -/
theorem Sequence.of_words {α : Type} {P : List Token → α → Prop} {words : α → List TokenWord}
    {forget : α → α} {as : List α} (h : ∀ a ∈ as, ∀ {us}, HaveWords us (words a) →
      ∃ a', P us a' ∧ forget a' = forget a) (hts : HaveWords ts (as.flatMap words)) :
    ∃ as', Sequence P ts as' ∧ as'.map forget = as.map forget := by
  induction as generalizing ts with
  | nil =>
    rw [List.flatMap_nil, HaveWords.nil_iff] at hts
    exact ⟨[], hts ▸ .nil, rfl⟩
  | cons a as ih =>
    rw [List.flatMap_cons, HaveWords.append_iff] at hts
    obtain ⟨us, vs, rfl, hus, hvs⟩ := hts
    obtain ⟨a', ha', heq⟩ := h a List.mem_cons_self hus
    obtain ⟨as', has', hlist⟩ := ih (fun b hb => h b (List.mem_cons_of_mem a hb)) hvs
    exact ⟨a' :: as', .append (.one ha') has', by rw [List.map_cons, List.map_cons, heq, hlist]⟩

theorem VarDecl.spelled_list {ds : List VarDecl} (hds : ∀ d ∈ ds, d.WellFormed)
    (hts : HaveWords ts (ds.flatMap VarDecl.words)) :
    ∃ ds', Sequence VarDecl.Spelled ts ds' ∧
      ds'.map (·.relabel .unplaced) = ds.map (·.relabel .unplaced) :=
  Sequence.of_words (fun d hd _ => spelled_words (hds d hd)) hts

/-! ### Statements -/

namespace StmtPart

open ExprPart (expr args)

/-- The tokens spell these statements, up to positions. -/
def ListRespelled (ts : List Token) (ss : List Stmt) : Prop :=
  ∃ ss', Spelled ts (stmts ss') ∧ Stmt.listRelabel .unplaced ss' = Stmt.listRelabel .unplaced ss

/-- The tokens of a block whose statements are spelled by the words `ws`. -/
theorem spelled_blockWords {ds : List VarDecl} {ss : List Stmt} {ws : List TokenWord}
    (hds : ∀ d ∈ ds, d.WellFormed)
    (hss : ∀ {us}, HaveWords us ws → ListRespelled us ss)
    (hts : HaveWords ts (blockWords ds ws)) :
    ∃ b, Spelled ts (block b) ∧ b.decls.map (·.relabel .unplaced) = ds.map (·.relabel .unplaced) ∧
      Stmt.listRelabel .unplaced b.stmts = Stmt.listRelabel .unplaced ss := by
  simp only [blockWords, HaveWords.append_iff, HaveWords.cons_iff, HaveWords.nil_iff,
    List.cons_append, List.append_assoc] at hts
  obtain ⟨l, _, rfl, hl, us, _, rfl, hus, vs, _, rfl, hvs, r, _, rfl, hr, rfl⟩ := hts
  obtain ⟨ds', hds', hdecls⟩ := VarDecl.spelled_list hds hus
  obtain ⟨ss', hss', hstmts⟩ := hss hvs
  refine ⟨⟨ds', ss'⟩, ?_, hdecls, hstmts⟩
  simpa using Spelled.block (Token.kind_eq hl) hds' hss' (Token.kind_eq hr)

/-- The tokens in front of a guarded block. -/
theorem of_guardWords {g : Guard} {c : Expr} (hc : c.WellFormed) (hdot : c.hasDot = false)
    (hts : HaveWords ts (guardWords g c)) :
    ∃ k l us r c', ts = k :: l :: us ++ [r] ∧ k.kind = g.keyword ∧ l.kind = .lparen ∧
      ExprPart.Spelled us (expr 0 c') ∧ r.kind = .rparen ∧
      c'.relabel .unplaced = c.relabel .unplaced := by
  simp only [guardWords, HaveWords.append_iff, HaveWords.cons_iff, HaveWords.nil_iff,
    List.cons_append] at hts
  obtain ⟨k, _, rfl, hk, l, _, rfl, hl, us, _, rfl, hus, r, _, rfl, hr, rfl⟩ := hts
  obtain ⟨c', hc', heq⟩ := ExprPart.spelled_words hc hdot hus
  exact ⟨k, l, us, r, c', rfl, Token.kind_eq hk, Token.kind_eq hl, hc'.mono (Nat.zero_le _),
    Token.kind_eq hr, heq⟩

/-- The tokens of a guarded statement, if those of its block spell it. -/
theorem spelled_guarded (g : Guard) {c : Expr} {ds : List VarDecl} {ss : List Stmt}
    (hc : c.WellFormed) (hds : ∀ d ∈ ds, d.WellFormed) (hdot : c.hasDot = false)
    (hss : ∀ {us}, HaveWords us (Stmt.listWords ss) → ListRespelled us ss)
    (hts : HaveWords ts (guardWords g c ++ blockWords ds (Stmt.listWords ss))) :
    ∃ s, Spelled ts (stmt s) ∧
      s.relabel .unplaced = ((Owner.ofGuard g c).close ⟨ds, ss⟩).relabel .unplaced := by
  obtain ⟨us, vs, rfl, hus, hvs⟩ := HaveWords.append_iff.1 hts
  obtain ⟨k, l, us, r, c', rfl, hk, hl, hc', hr, hcond⟩ := of_guardWords hc hdot hus
  obtain ⟨b, hb, hdecls, hstmts⟩ := spelled_blockWords hds hss hvs
  refine ⟨(Owner.ofGuard g c').close b, ?_, ?_⟩
  · simpa using Spelled.guarded g hk hl hc' hr hb
  · cases g <;> simp [Owner.ofGuard, Owner.close, Stmt.relabel, hcond, hdecls, hstmts]

mutual

/-- The words of a statement without dots spell it. -/
theorem spelled_words : ∀ {s : Stmt} {ts : List Token}, s.WellFormed → s.hasDot = false →
    HaveWords ts s.words → ∃ s', Spelled ts (stmt s') ∧ s'.relabel .unplaced = s.relabel .unplaced
  | .assign t v, ts, hs, hdot, hts => by
    simp only [Stmt.hasDot, Bool.or_eq_false_iff] at hdot
    simp only [Stmt.words, HaveWords.append_iff, HaveWords.cons_iff, HaveWords.nil_iff,
      List.cons_append, List.append_assoc] at hts
    obtain ⟨us, _, rfl, hus, a, _, rfl, ha, vs, _, rfl, hvs, e, _, rfl, he, rfl⟩ := hts
    obtain ⟨t', ht', ht⟩ := hs.1.spelled hdot.1 hus
    obtain ⟨v', hv', hv⟩ := ExprPart.spelled_words hs.2 hdot.2 hvs
    refine ⟨.assign t' v', ?_, by rw [Stmt.relabel, Stmt.relabel, ht, hv]⟩
    simpa using Spelled.assign ht' (Token.kind_eq ha) (hv'.mono (Nat.zero_le _)) (Token.kind_eq he)
  | .increment p, ts, hs, hdot, hts => by
    rw [Stmt.hasDot] at hdot
    simp only [Stmt.words, HaveWords.append_iff, HaveWords.cons_iff, HaveWords.nil_iff] at hts
    obtain ⟨us, _, rfl, hus, o, _, rfl, ho, e, _, rfl, he, rfl⟩ := hts
    obtain ⟨p', hp', hp⟩ := Expr.IsPlace.spelled hs hdot hus
    refine ⟨.increment p', ?_, by rw [Stmt.relabel, Stmt.relabel, hp]⟩
    exact Spelled.increment hp' (Token.kind_eq ho) (Token.kind_eq he)
  | .decrement p, ts, hs, hdot, hts => by
    rw [Stmt.hasDot] at hdot
    simp only [Stmt.words, HaveWords.append_iff, HaveWords.cons_iff, HaveWords.nil_iff] at hts
    obtain ⟨us, _, rfl, hus, o, _, rfl, ho, e, _, rfl, he, rfl⟩ := hts
    obtain ⟨p', hp', hp⟩ := Expr.IsPlace.spelled hs hdot hus
    refine ⟨.decrement p', ?_, by rw [Stmt.relabel, Stmt.relabel, hp]⟩
    exact Spelled.decrement hp' (Token.kind_eq ho) (Token.kind_eq he)
  | .read p, ts, hs, hdot, hts => by
    rw [Stmt.hasDot] at hdot
    simp only [Stmt.words, HaveWords.append_iff, HaveWords.cons_iff, HaveWords.nil_iff,
      List.cons_append] at hts
    obtain ⟨k, _, rfl, hk, a, _, rfl, ha, us, _, rfl, hus, e, _, rfl, he, rfl⟩ := hts
    obtain ⟨p', hp', hp⟩ := Expr.IsPlace.spelled hs hdot hus
    refine ⟨.read p', ?_, by rw [Stmt.relabel, Stmt.relabel, hp]⟩
    exact Spelled.read (Token.kind_eq hk) (Token.kind_eq ha) hp' (Token.kind_eq he)
  | .write v, ts, hs, hdot, hts => by
    rw [Stmt.hasDot] at hdot
    simp only [Stmt.words, HaveWords.append_iff, HaveWords.cons_iff, HaveWords.nil_iff,
      List.cons_append] at hts
    obtain ⟨k, _, rfl, hk, a, _, rfl, ha, us, _, rfl, hus, e, _, rfl, he, rfl⟩ := hts
    obtain ⟨v', hv', hv⟩ := ExprPart.spelled_words (e := v) hs hdot hus
    refine ⟨.write v', ?_, by rw [Stmt.relabel, Stmt.relabel, hv]⟩
    exact Spelled.write (Token.kind_eq hk) (Token.kind_eq ha) (hv'.mono (Nat.zero_le _))
      (Token.kind_eq he)
  | .ifThen c ds ss, ts, hs, hdot, hts => by
    simp only [Stmt.hasDot, Bool.or_eq_false_iff] at hdot
    rw [Stmt.words] at hts
    exact spelled_guarded .ifGuard hs.1 hs.2.1 hdot.1 (spelled_listWords hs.2.2 hdot.2) hts
  | .whileLoop c ds ss, ts, hs, hdot, hts => by
    simp only [Stmt.hasDot, Bool.or_eq_false_iff] at hdot
    rw [Stmt.words] at hts
    exact spelled_guarded .whileGuard hs.1 hs.2.1 hdot.1 (spelled_listWords hs.2.2 hdot.2) hts
  | .repeatLoop c ds ss, ts, hs, hdot, hts => by
    simp only [Stmt.hasDot, Bool.or_eq_false_iff] at hdot
    rw [Stmt.words] at hts
    exact spelled_guarded .repeatGuard hs.1 hs.2.1 hdot.1 (spelled_listWords hs.2.2 hdot.2) hts
  | .ifElse c ds ss eds ess, ts, hs, hdot, hts => by
    obtain ⟨hc, hds, hss, heds, hess⟩ := hs
    simp only [Stmt.hasDot, Bool.or_eq_false_iff] at hdot
    simp only [Stmt.words, HaveWords.append_iff, HaveWords.cons_iff, List.append_assoc] at hts
    obtain ⟨us, _, rfl, hus, vs, _, rfl, hvs, e, us', rfl, he, hus'⟩ := hts
    -- The condition and both blocks are spelled again, each by its own words.
    obtain ⟨k, l, us, r, c', rfl, hk, hl, hc', hr, hcond⟩ := of_guardWords hc hdot.1.1 hus
    obtain ⟨b, hb, hdecls, hstmts⟩ :=
      spelled_blockWords hds (spelled_listWords hss hdot.1.2) hvs
    obtain ⟨d, hd, hdecls', hstmts'⟩ := spelled_blockWords heds (spelled_listWords hess hdot.2) hus'
    refine ⟨.ifElse c' b.decls b.stmts d.decls d.stmts, ?_, ?_⟩
    · simpa using Spelled.ifElse hk hl hc' hr hb (Token.kind_eq he) hd
    · rw [Stmt.relabel, Stmt.relabel, hcond, hdecls, hstmts, hdecls', hstmts']
  | .call f es, ts, hs, hdot, hts => by
    rw [Stmt.hasDot] at hdot
    simp only [Stmt.words, Expr.words, HaveWords.append_iff, HaveWords.cons_iff, HaveWords.nil_iff,
      List.cons_append, List.append_assoc, List.nil_append] at hts
    obtain ⟨x, _, rfl, hx, l, _, rfl, hl, us, _, rfl, hus, r, _, rfl, hr, e, _, rfl, he, rfl⟩ := hts
    obtain ⟨es', hes', heq⟩ := ExprPart.spelled_argsWords hs.2 hdot hus
    refine ⟨.call x.ident es', ?_, ?_⟩
    · exact Spelled.call (Token.kind_eq_ident hx) (Token.kind_eq hl) hes' (Token.kind_eq hr)
        (Token.kind_eq he)
    · rw [Stmt.relabel, Stmt.relabel, Token.relabel_ident hx hs.1, heq]
  | .ret none, ts, _, _, hts => by
    simp only [Stmt.words, HaveWords.cons_iff, HaveWords.nil_iff] at hts
    obtain ⟨k, _, rfl, hk, e, _, rfl, he, rfl⟩ := hts
    exact ⟨.ret none, .ret (Token.kind_eq hk) (Token.kind_eq he), rfl⟩
  | .ret (some v), ts, hs, hdot, hts => by
    rw [Stmt.hasDot] at hdot
    simp only [Stmt.words, HaveWords.append_iff, HaveWords.cons_iff, HaveWords.nil_iff,
      List.cons_append] at hts
    obtain ⟨k, _, rfl, hk, us, _, rfl, hus, e, _, rfl, he, rfl⟩ := hts
    obtain ⟨v', hv', hv⟩ := ExprPart.spelled_words (e := v) hs hdot hus
    refine ⟨.ret (some v'), ?_, by rw [Stmt.relabel, Stmt.relabel, hv]⟩
    exact Spelled.retValue (Token.kind_eq hk) (hv'.mono (Nat.zero_le _)) (Token.kind_eq he)

/-- The words of statements without dots spell them behind some that are spelled. -/
theorem spelled_moreStmts : ∀ {ss ss₀ : List Stmt} {ts ts₀ : List Token}, Stmt.ListWellFormed ss →
    Stmt.listHasDot ss = false → Spelled ts₀ (stmts ss₀) → HaveWords ts (Stmt.listWords ss) →
      ∃ ss', Spelled (ts₀ ++ ts) (stmts (ss₀ ++ ss')) ∧
        Stmt.listRelabel .unplaced ss' = Stmt.listRelabel .unplaced ss
  | [], ss₀, ts, ts₀, _, _, h₀, hts => by
    rw [Stmt.listWords, HaveWords.nil_iff] at hts
    exact ⟨[], by simpa [hts] using h₀, rfl⟩
  | s :: ss, ss₀, ts, ts₀, hss, hdot, h₀, hts => by
    simp only [Stmt.listHasDot, Bool.or_eq_false_iff] at hdot
    simp only [Stmt.listWords, HaveWords.append_iff] at hts
    obtain ⟨us, vs, rfl, hus, hvs⟩ := hts
    obtain ⟨s', hs', heq⟩ := spelled_words hss.1 hdot.1 hus
    obtain ⟨ss', hss', hlist⟩ := spelled_moreStmts hss.2 hdot.2 (.nextStmt h₀ hs') hvs
    refine ⟨s' :: ss', by simpa using hss', ?_⟩
    rw [Stmt.listRelabel, Stmt.listRelabel, heq, hlist]

theorem spelled_listWords {ss : List Stmt} (hss : Stmt.ListWellFormed ss)
    (hdot : Stmt.listHasDot ss = false) {ts : List Token} (hts : HaveWords ts (Stmt.listWords ss)) :
    ListRespelled ts ss :=
  spelled_moreStmts hss hdot .noStmts hts

end

end StmtPart

/-! ### Declarations -/

theorem Formal.spelled_words {f : Formal} (hf : f.WellFormed) (hts : HaveWords ts f.words) :
    ∃ f', Formal.Spelled ts f' ∧ f'.relabel .unplaced = f.relabel .unplaced := by
  simp only [words, HaveWords.append_iff, HaveWords.singleton_iff] at hts
  obtain ⟨us, _, rfl, hus, x, rfl, hx⟩ := hts
  obtain ⟨ty, hty, heq⟩ := TypeExpr.spelled_words hf.type hus
  refine ⟨⟨ty, x.ident⟩, .mk hty (Token.kind_eq_ident hx), ?_⟩
  rw [relabel, relabel, heq, Token.relabel_ident hx hf.name]

theorem Formal.spelled_list {fs : List Formal} (hfs : ∀ f ∈ fs, f.WellFormed)
    (hts : HaveWords ts ([TokenKind.comma.word].intercalate (fs.map words))) :
    ∃ fs', Separated Formal.Spelled ts fs' ∧
      fs'.map (·.relabel .unplaced) = fs.map (·.relabel .unplaced) := by
  induction fs generalizing ts with
  | nil =>
    rw [List.map_nil, List.intercalate_nil, HaveWords.nil_iff] at hts
    exact ⟨[], hts ▸ .nil, rfl⟩
  | cons f fs ih =>
    obtain ⟨hf, hfs⟩ := List.forall_mem_cons.1 hfs
    cases fs with
    | nil =>
      rw [List.map_singleton, List.intercalate_singleton] at hts
      obtain ⟨f', hf', heq⟩ := spelled_words hf hts
      exact ⟨[f'], .one hf', by simp [heq]⟩
    | cons g gs =>
      rw [List.map_cons, List.map_cons, List.intercalate_cons_cons, List.append_assoc,
        HaveWords.append_iff] at hts
      obtain ⟨us, _, rfl, hus, hts⟩ := hts
      obtain ⟨c, vs, rfl, hc, hvs⟩ := HaveWords.cons_iff.1 hts
      obtain ⟨f', hf', heq⟩ := spelled_words hf hus
      obtain ⟨fs', hfs', hlist⟩ := ih hfs (by simpa using hvs)
      refine ⟨f' :: fs', .cons hf' (Token.kind_eq hc) hfs' ?_, ?_⟩
      · intro hnil
        simp [hnil] at hlist
      · rw [List.map_cons, List.map_cons, heq, hlist]

theorem Decl.spelled_words {d : Decl} (hd : d.WellFormed) (hdot : d.hasDot = false)
    (hts : HaveWords ts d.words) :
    ∃ d', Decl.Spelled ts d' ∧ d'.relabel .unplaced = d.relabel .unplaced := by
  cases d with
  | var d =>
    obtain ⟨d', hd', heq⟩ := VarDecl.spelled_words hd hts
    exact ⟨.var d', .var hd', congrArg Decl.var heq⟩
  | func d =>
    rw [hasDot] at hdot
    simp only [words, FnDecl.words, HaveWords.append_iff, HaveWords.cons_iff,
      List.cons_append, List.append_assoc] at hts
    obtain ⟨us, _, rfl, hus, x, _, rfl, hx, l, _, rfl, hl, vs, _, rfl, hvs, r, ws, rfl, hr, hws⟩ :=
      hts
    obtain ⟨ty, hty, htype⟩ := TypeExpr.spelled_words hd.returnType hus
    obtain ⟨fs, hfs, hformals⟩ := Formal.spelled_list hd.formals hvs
    obtain ⟨b, hb, hdecls, hstmts⟩ := StmtPart.spelled_blockWords hd.body.decls
      (StmtPart.spelled_listWords hd.body.stmts hdot) hws
    refine ⟨.func ⟨ty, x.ident, fs, b⟩, ?_, ?_⟩
    · simpa using Decl.Spelled.func hty (Token.kind_eq_ident hx) (Token.kind_eq hl) hfs
        (Token.kind_eq hr) hb
    · simp only [relabel, FnDecl.relabel, FnBody.relabel, htype, hformals, hdecls, hstmts,
        Token.relabel_ident hx hd.name]
  | struct d =>
    simp only [words, StructDecl.words, HaveWords.append_iff, HaveWords.cons_iff,
      HaveWords.nil_iff, List.cons_append] at hts
    obtain ⟨k, _, rfl, hk, x, _, rfl, hx, l, _, rfl, hl, us, _, rfl, hus, r, _, rfl, hr, e, _, rfl,
      he, rfl⟩ := hts
    obtain ⟨ds, hds, heq⟩ := VarDecl.spelled_list hd.fields hus
    have hne : ds ≠ [] := by
      intro hnil
      exact hd.fields_ne_nil (by simpa [hnil] using heq)
    refine ⟨.struct ⟨x.ident, ds⟩, ?_, ?_⟩
    · simpa using Decl.Spelled.structEnd
        (.mk (Token.kind_eq hk) (Token.kind_eq_ident hx) (Token.kind_eq hl) hds hne
          (Token.kind_eq hr)) (Token.kind_eq he)
    · simp only [relabel, StructDecl.relabel, heq, Token.relabel_ident hx hd.name]

/-- Tokens with the words of a program without dots spell the program up to positions. -/
theorem Program.spelled_words {p : Program} (hp : p.WellFormed) (hdot : p.hasDot = false)
    (hts : HaveWords ts p.words) :
    ∃ ds, Sequence Decl.Spelled ts ds ∧
      ds.map (·.relabel .unplaced) = p.decls.map (·.relabel .unplaced) := by
  refine Sequence.of_words (fun d hd _ => Decl.spelled_words (hp d hd) ?_) hts
  rw [hasDot, List.any_eq_false] at hdot
  exact Bool.eq_false_iff.2 (hdot d hd)

end Carrot
