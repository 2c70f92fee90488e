import Carrot.Proofs.Grammar.Spelling
import Carrot.Proofs.Syntax.Relabel
import Carrot.Proofs.Token.Lexing

/-! # Tokens with the same words

The places of tokens do not decide what they spell: tokens with the same words, wherever they
stand, spell the same tree up to positions. Layout and comments change nothing else.
-/

namespace Carrot

/-- The tokens differ at most in their places. -/
def SameWords (us ts : List Token) : Prop := us.map Token.word = ts.map Token.word

namespace SameWords

variable {us ts vs : List Token} {t : Token}

@[simp] theorem nil_iff : SameWords us [] ↔ us = [] := List.map_eq_nil_iff

theorem cons_iff : SameWords us (t :: ts) ↔
    ∃ u us', us = u :: us' ∧ u.word = t.word ∧ SameWords us' ts :=
  List.map_eq_cons_iff

theorem append_iff : SameWords us (ts ++ vs) ↔
    ∃ us₁ us₂, us = us₁ ++ us₂ ∧ SameWords us₁ ts ∧ SameWords us₂ vs := by
  rw [SameWords, List.map_append]
  exact List.map_eq_append_iff

end SameWords

namespace Token

variable {u t : Token}

theorem kind_of_word {k : TokenKind} (h : u.word = t.word) (ht : t.kind = k) : u.kind = k :=
  (congrArg TokenWord.kind h).trans ht

theorem text_of_word (h : u.word = t.word) : u.text = t.text := congrArg TokenWord.text h

theorem relabel_ident_of_word (h : u.word = t.word) :
    u.ident.relabel .unplaced = t.ident.relabel .unplaced := by
  simp [Ident.relabel, Relabelling.unplaced, ident, text_of_word h]

theorem literal?_of_word {e : Expr} (h : u.word = t.word) (ht : t.literal? = some e) :
    ∃ e', u.literal? = some e' ∧ e'.relabel .unplaced = e.relabel .unplaced := by
  unfold literal? at ht ⊢
  rw [kind_of_word h rfl, intValue, text_of_word h]
  split at ht <;> cases ht <;> exact ⟨_, rfl, by simp [Expr.relabel, intValue]⟩

end Token

theorem Expr.listRelabel_eq_map (r : Relabelling) (es : List Expr) :
    Expr.listRelabel r es = es.map (·.relabel r) := by
  induction es with
  | nil => rfl
  | cons e es ih => rw [listRelabel, ih, List.map_cons]

theorem Stmt.listRelabel_eq_map (r : Relabelling) (ss : List Stmt) :
    Stmt.listRelabel r ss = ss.map (·.relabel r) := by
  induction ss with
  | nil => rfl
  | cons s ss ih => rw [listRelabel, ih, List.map_cons]

variable {us ts : List Token}

/-! ### Lists of parts -/

section Lists

variable {α : Type} {P : List Token → α → Prop} {f : α → α} {as : List α}

theorem Sequence.respelled (hP : ∀ {ts us a}, P ts a → SameWords us ts →
      ∃ a', P us a' ∧ f a' = f a) (h : Sequence P ts as) (hus : SameWords us ts) :
    ∃ as', Sequence P us as' ∧ as'.map f = as.map f := by
  induction h generalizing us with
  | nil =>
    rw [SameWords.nil_iff] at hus
    exact ⟨[], hus ▸ .nil, rfl⟩
  | snoc _ ha ih =>
    obtain ⟨us₁, us₂, rfl, h₁, h₂⟩ := SameWords.append_iff.1 hus
    obtain ⟨as', has, hmap⟩ := ih h₁
    obtain ⟨a', ha', heq⟩ := hP ha h₂
    exact ⟨as' ++ [a'], .snoc has ha', by simp [hmap, heq]⟩

theorem Separated.respelled (hP : ∀ {ts us a}, P ts a → SameWords us ts →
      ∃ a', P us a' ∧ f a' = f a) (h : Separated P ts as) (hus : SameWords us ts) :
    ∃ as', Separated P us as' ∧ as'.map f = as.map f := by
  induction h generalizing us with
  | nil =>
    rw [SameWords.nil_iff] at hus
    exact ⟨[], hus ▸ .nil, rfl⟩
  | one ha =>
    obtain ⟨a', ha', heq⟩ := hP ha hus
    exact ⟨[a'], .one ha', by simp [heq]⟩
  | snoc _ hne hc ha ih =>
    simp only [SameWords.append_iff, SameWords.cons_iff] at hus
    obtain ⟨us₁, _, rfl, h₁, c, us₂, rfl, hcomma, h₂⟩ := hus
    obtain ⟨as', has, hmap⟩ := ih h₁
    obtain ⟨a', ha', heq⟩ := hP ha h₂
    refine ⟨as' ++ [a'], .snoc has ?_ (Token.kind_of_word hcomma hc) ha', ?_⟩
    · rintro rfl
      exact hne (List.map_eq_nil_iff.1 hmap.symm)
    · simp [hmap, heq]

end Lists

/-! ### Types and variables -/

theorem TypeExpr.Spelled.respelled {ty : TypeExpr} (h : TypeExpr.Spelled ts ty)
    (hus : SameWords us ts) :
    ∃ ty', TypeExpr.Spelled us ty' ∧ ty'.relabel .unplaced = ty.relabel .unplaced := by
  cases h with
  | word h =>
    simp only [SameWords.cons_iff, SameWords.nil_iff] at hus
    obtain ⟨t, _, rfl, ht, rfl⟩ := hus
    exact ⟨ty, .word (Token.kind_of_word ht rfl ▸ h), rfl⟩
  | struct hs hx =>
    simp only [SameWords.cons_iff, SameWords.nil_iff] at hus
    obtain ⟨s, _, rfl, hs', x, _, rfl, hx', rfl⟩ := hus
    refine ⟨.struct x.ident, .struct (Token.kind_of_word hs' hs)
      (Token.kind_of_word hx' hx), ?_⟩
    rw [relabel, relabel, Token.relabel_ident_of_word hx']

theorem VarDecl.Spelled.respelled {d : VarDecl} (h : VarDecl.Spelled ts d)
    (hus : SameWords us ts) :
    ∃ d', VarDecl.Spelled us d' ∧ d'.relabel .unplaced = d.relabel .unplaced := by
  cases h with
  | @ofType ts ty x e hty hx he =>
    simp only [SameWords.append_iff, SameWords.cons_iff, SameWords.nil_iff] at hus
    obtain ⟨us, _, rfl, hus, y, _, rfl, hy, f, _, rfl, hf, rfl⟩ := hus
    obtain ⟨ty', hty', heq⟩ := hty.respelled hus
    refine ⟨.ofType ty' y.ident, .ofType hty' (Token.kind_of_word hy hx)
      (Token.kind_of_word hf he), ?_⟩
    rw [relabel_ofType, relabel_ofType, heq, Token.relabel_ident_of_word hy]

theorem Formal.Spelled.respelled {f : Formal} (h : Formal.Spelled ts f) (hus : SameWords us ts) :
    ∃ f', Formal.Spelled us f' ∧ f'.relabel .unplaced = f.relabel .unplaced := by
  cases h with
  | mk hty hx =>
    simp only [SameWords.append_iff, SameWords.cons_iff, SameWords.nil_iff] at hus
    obtain ⟨us, _, rfl, hus, y, _, rfl, hy, rfl⟩ := hus
    obtain ⟨ty, hty, heq⟩ := hty.respelled hus
    refine ⟨⟨ty, y.ident⟩, .mk hty (Token.kind_of_word hy hx), ?_⟩
    rw [relabel, relabel, heq, Token.relabel_ident_of_word hy]

/-! ### Expressions -/

theorem Expr.PlaceSpelled.respelled {p : Expr} (h : Expr.PlaceSpelled ts p)
    (hus : SameWords us ts) :
    ∃ p', Expr.PlaceSpelled us p' ∧ p'.relabel .unplaced = p.relabel .unplaced := by
  induction h generalizing us with
  | ident hx =>
    simp only [SameWords.cons_iff, SameWords.nil_iff] at hus
    obtain ⟨y, _, rfl, hy, rfl⟩ := hus
    refine ⟨.ident y.ident, .ident (Token.kind_of_word hy hx), ?_⟩
    rw [relabel, relabel, Token.relabel_ident_of_word hy]
  | dot _ hd hx ih =>
    simp only [SameWords.append_iff, SameWords.cons_iff, SameWords.nil_iff] at hus
    obtain ⟨us, _, rfl, hus, d, _, rfl, hd', y, _, rfl, hy, rfl⟩ := hus
    obtain ⟨r, hr, heq⟩ := ih hus
    refine ⟨.dot r y.ident, .dot hr (Token.kind_of_word hd' hd)
      (Token.kind_of_word hy hx), ?_⟩
    rw [relabel, relabel, heq, Token.relabel_ident_of_word hy]

namespace ExprPart

/-- The tokens spell this part up to positions. -/
def Respelled (us : List Token) : ExprPart → Prop
  | expr l e => ∃ e', Spelled us (expr l e') ∧ e'.relabel .unplaced = e.relabel .unplaced
  | args es => ∃ es', Spelled us (args es') ∧
      Expr.listRelabel .unplaced es' = Expr.listRelabel .unplaced es

theorem Spelled.respelled {p : ExprPart} (h : Spelled ts p) (hus : SameWords us ts) :
    Respelled us p := by
  induction h generalizing us with
  | place h =>
    obtain ⟨p', hp', heq⟩ := h.respelled hus
    exact ⟨p', .place hp', heq⟩
  | literal h =>
    simp only [SameWords.cons_iff, SameWords.nil_iff] at hus
    obtain ⟨u, _, rfl, hu, rfl⟩ := hus
    obtain ⟨e', he', heq⟩ := Token.literal?_of_word hu h
    exact ⟨e', .literal he', heq⟩
  | group hl _ hr ih =>
    simp only [SameWords.append_iff, SameWords.cons_iff, SameWords.nil_iff, List.cons_append] at hus
    obtain ⟨l, _, rfl, hl', us, _, rfl, hus, r, _, rfl, hr', rfl⟩ := hus
    obtain ⟨e', he', heq⟩ := ih hus
    exact ⟨e', .group (Token.kind_of_word hl' hl) he' (Token.kind_of_word hr' hr),
      heq⟩
  | call hf hl _ hr ih =>
    simp only [SameWords.append_iff, SameWords.cons_iff, SameWords.nil_iff, List.cons_append] at hus
    obtain ⟨f, _, rfl, hf', l, _, rfl, hl', us, _, rfl, hus, r, _, rfl, hr', rfl⟩ := hus
    obtain ⟨es', hes', heq⟩ := ih hus
    refine ⟨.call f.ident es', .call (Token.kind_of_word hf' hf)
      (Token.kind_of_word hl' hl) hes' (Token.kind_of_word hr' hr), ?_⟩
    rw [Expr.relabel, Expr.relabel, heq, Token.relabel_ident_of_word hf']
  | unary ht _ ih =>
    obtain ⟨o, us, rfl, ho, hus⟩ := SameWords.cons_iff.1 hus
    obtain ⟨e', he', heq⟩ := ih hus
    refine ⟨.unary _ e', .unary (Token.kind_of_word ho rfl ▸ ht) he', ?_⟩
    rw [Expr.relabel, Expr.relabel, heq]
  | binary _ ht _ iha ihb =>
    simp only [SameWords.append_iff, SameWords.cons_iff] at hus
    obtain ⟨us, _, rfl, hus, o, vs, rfl, ho, hvs⟩ := hus
    obtain ⟨a', ha', ha⟩ := iha hus
    obtain ⟨b', hb', hb⟩ := ihb hvs
    refine ⟨.binary _ a' b', .binary ha' (Token.kind_of_word ho rfl ▸ ht) hb', ?_⟩
    rw [Expr.relabel, Expr.relabel, ha, hb]
  | assign hp ht _ ih =>
    simp only [SameWords.append_iff, SameWords.cons_iff] at hus
    obtain ⟨us, _, rfl, hus, o, vs, rfl, ho, hvs⟩ := hus
    obtain ⟨p', hp', hplace⟩ := hp.respelled hus
    obtain ⟨v', hv', hvalue⟩ := ih hvs
    refine ⟨.assign p' v', .assign hp' (Token.kind_of_word ho ht) hv', ?_⟩
    rw [Expr.relabel, Expr.relabel, hplace, hvalue]
  | lower _ ih =>
    obtain ⟨e', he', heq⟩ := ih hus
    exact ⟨e', he'.lower, heq⟩
  | noArgs =>
    rw [SameWords.nil_iff] at hus
    exact ⟨[], hus ▸ .noArgs, rfl⟩
  | firstArg _ ih =>
    obtain ⟨e', he', heq⟩ := ih hus
    exact ⟨[e'], .firstArg he', by simp only [Expr.listRelabel, heq]⟩
  | nextArg _ hne hc _ ih ihe =>
    simp only [SameWords.append_iff, SameWords.cons_iff] at hus
    obtain ⟨us, _, rfl, hus, c, vs, rfl, hcomma, hvs⟩ := hus
    obtain ⟨es', hes', hlist⟩ := ih hus
    obtain ⟨e', he', heq⟩ := ihe hvs
    rw [Expr.listRelabel_eq_map, Expr.listRelabel_eq_map] at hlist
    refine ⟨es' ++ [e'], .nextArg hes' ?_ (Token.kind_of_word hcomma hc) he', ?_⟩
    · rintro rfl
      exact hne (List.map_eq_nil_iff.1 hlist.symm)
    · simp [Expr.listRelabel_eq_map, hlist, heq]

end ExprPart

/-! ### Statements -/

namespace StmtPart

open ExprPart (expr args)

/-- The tokens spell this part up to positions. -/
def Respelled (us : List Token) : StmtPart → Prop
  | stmt s => ∃ s', Spelled us (stmt s') ∧ s'.relabel .unplaced = s.relabel .unplaced
  | stmts ss => ∃ ss', Spelled us (stmts ss') ∧
      Stmt.listRelabel .unplaced ss' = Stmt.listRelabel .unplaced ss
  | block b => ∃ b', Spelled us (block b') ∧ b'.relabel .unplaced = b.relabel .unplaced

/-- A guarded statement depends on positions only through its condition and its block. -/
theorem relabel_close (r : Relabelling) (g : Guard) {c c' : Expr} {b b' : FnBody}
    (hc : c'.relabel r = c.relabel r) (hb : b'.relabel r = b.relabel r) :
    ((Owner.ofGuard g c').close b').relabel r = ((Owner.ofGuard g c).close b).relabel r := by
  obtain ⟨hds, hss⟩ := FnBody.mk.inj hb
  cases g <;> simp only [Owner.ofGuard, Owner.close, Stmt.relabel, hc, hds, hss]

theorem Spelled.respelled {p : StmtPart} (h : Spelled ts p) (hus : SameWords us ts) :
    Respelled us p := by
  induction h generalizing us with
  | assign hp ht hv he =>
    simp only [SameWords.append_iff, SameWords.cons_iff, SameWords.nil_iff, List.append_assoc,
      List.cons_append] at hus
    obtain ⟨us, _, rfl, hus, o, _, rfl, ho, vs, _, rfl, hvs, e, _, rfl, he', rfl⟩ := hus
    obtain ⟨p', hp', hplace⟩ := hp.respelled hus
    obtain ⟨v', hv', hvalue⟩ := hv.respelled hvs
    refine ⟨.assign p' v', ?_, by rw [Stmt.relabel, Stmt.relabel, hplace, hvalue]⟩
    simpa using Spelled.assign hp' (Token.kind_of_word ho ht) hv'
      (Token.kind_of_word he' he)
  | increment hp ht he =>
    simp only [SameWords.append_iff, SameWords.cons_iff, SameWords.nil_iff] at hus
    obtain ⟨us, _, rfl, hus, o, _, rfl, ho, e, _, rfl, he', rfl⟩ := hus
    obtain ⟨p', hp', hplace⟩ := hp.respelled hus
    exact ⟨.increment p', .increment hp' (Token.kind_of_word ho ht)
      (Token.kind_of_word he' he), by rw [Stmt.relabel, Stmt.relabel, hplace]⟩
  | decrement hp ht he =>
    simp only [SameWords.append_iff, SameWords.cons_iff, SameWords.nil_iff] at hus
    obtain ⟨us, _, rfl, hus, o, _, rfl, ho, e, _, rfl, he', rfl⟩ := hus
    obtain ⟨p', hp', hplace⟩ := hp.respelled hus
    exact ⟨.decrement p', .decrement hp' (Token.kind_of_word ho ht)
      (Token.kind_of_word he' he), by rw [Stmt.relabel, Stmt.relabel, hplace]⟩
  | read hk ha hp he =>
    simp only [SameWords.append_iff, SameWords.cons_iff, SameWords.nil_iff, List.cons_append] at hus
    obtain ⟨k, _, rfl, hk', a, _, rfl, ha', us, _, rfl, hus, e, _, rfl, he', rfl⟩ := hus
    obtain ⟨p', hp', hplace⟩ := hp.respelled hus
    exact ⟨.read p', .read (Token.kind_of_word hk' hk) (Token.kind_of_word ha' ha)
      hp' (Token.kind_of_word he' he), by rw [Stmt.relabel, Stmt.relabel, hplace]⟩
  | write hk ha hv he =>
    simp only [SameWords.append_iff, SameWords.cons_iff, SameWords.nil_iff, List.cons_append] at hus
    obtain ⟨k, _, rfl, hk', a, _, rfl, ha', us, _, rfl, hus, e, _, rfl, he', rfl⟩ := hus
    obtain ⟨v', hv', hvalue⟩ := hv.respelled hus
    exact ⟨.write v', .write (Token.kind_of_word hk' hk) (Token.kind_of_word ha' ha)
      hv' (Token.kind_of_word he' he), by rw [Stmt.relabel, Stmt.relabel, hvalue]⟩
  | call hf hl h hr he =>
    simp only [SameWords.append_iff, SameWords.cons_iff, SameWords.nil_iff, List.cons_append] at hus
    obtain ⟨f, _, rfl, hf', l, _, rfl, hl', us, _, rfl, hus, r, _, rfl, hr', e, _, rfl, he', rfl⟩ :=
      hus
    obtain ⟨es', hes', hlist⟩ := h.respelled hus
    refine ⟨.call f.ident es', .call (Token.kind_of_word hf' hf)
      (Token.kind_of_word hl' hl) hes' (Token.kind_of_word hr' hr)
      (Token.kind_of_word he' he), ?_⟩
    rw [Stmt.relabel, Stmt.relabel, hlist, Token.relabel_ident_of_word hf']
  | ret hk he =>
    simp only [SameWords.cons_iff, SameWords.nil_iff] at hus
    obtain ⟨k, _, rfl, hk', e, _, rfl, he', rfl⟩ := hus
    exact ⟨.ret none, .ret (Token.kind_of_word hk' hk) (Token.kind_of_word he' he),
      rfl⟩
  | retValue hk hv he =>
    simp only [SameWords.append_iff, SameWords.cons_iff, SameWords.nil_iff, List.cons_append] at hus
    obtain ⟨k, _, rfl, hk', us, _, rfl, hus, e, _, rfl, he', rfl⟩ := hus
    obtain ⟨v', hv', hvalue⟩ := hv.respelled hus
    exact ⟨.ret (some v'), .retValue (Token.kind_of_word hk' hk) hv'
      (Token.kind_of_word he' he), by rw [Stmt.relabel, Stmt.relabel, hvalue]⟩
  | guarded g hk hl hc hr _ ih =>
    simp only [SameWords.append_iff, SameWords.cons_iff, List.cons_append] at hus
    obtain ⟨k, _, rfl, hk', l, _, rfl, hl', us, _, rfl, hus, r, vs, rfl, hr', hvs⟩ := hus
    obtain ⟨c', hc', hcond⟩ := hc.respelled hus
    obtain ⟨b', hb', hblock⟩ := ih hvs
    exact ⟨(Owner.ofGuard g c').close b', .guarded g (Token.kind_of_word hk' hk)
      (Token.kind_of_word hl' hl) hc' (Token.kind_of_word hr' hr) hb',
      relabel_close .unplaced g hcond hblock⟩
  | ifElse hk hl hc hr _ he _ ihb ihd =>
    simp only [SameWords.append_iff, SameWords.cons_iff, List.cons_append, List.append_assoc] at hus
    obtain ⟨k, _, rfl, hk', l, _, rfl, hl', us, _, rfl, hus, r, _, rfl, hr', vs, _, rfl, hvs, e,
      ws, rfl, he', hws⟩ := hus
    obtain ⟨c', hc', hcond⟩ := hc.respelled hus
    obtain ⟨b', hb', hblock⟩ := ihb hvs
    obtain ⟨d', hd', helse⟩ := ihd hws
    obtain ⟨hds, hss⟩ := FnBody.mk.inj hblock
    obtain ⟨heds, hess⟩ := FnBody.mk.inj helse
    refine ⟨.ifElse c' b'.decls b'.stmts d'.decls d'.stmts, ?_, ?_⟩
    · simpa using Spelled.ifElse (Token.kind_of_word hk' hk)
        (Token.kind_of_word hl' hl) hc' (Token.kind_of_word hr' hr) hb'
        (Token.kind_of_word he' he) hd'
    · rw [Stmt.relabel, Stmt.relabel, hcond, hds, hss, heds, hess]
  | noStmts =>
    rw [SameWords.nil_iff] at hus
    exact ⟨[], hus ▸ .noStmts, rfl⟩
  | nextStmt _ _ ih ihs =>
    -- The list grows at its end, so it is split in front of its last statement.
    obtain ⟨us₁, us₂, rfl, h₁, h₂⟩ := SameWords.append_iff.1 hus
    obtain ⟨ss', hss', hlist⟩ := ih h₁
    obtain ⟨s', hs', heq⟩ := ihs h₂
    refine ⟨ss' ++ [s'], .nextStmt hss' hs', ?_⟩
    rw [Stmt.listRelabel_eq_map, Stmt.listRelabel_eq_map] at hlist ⊢
    simp [hlist, heq]
  | block hl hds _ hr ih =>
    simp only [SameWords.append_iff, SameWords.cons_iff, SameWords.nil_iff, List.cons_append,
      List.append_assoc] at hus
    obtain ⟨l, _, rfl, hl', us, _, rfl, hus, vs, _, rfl, hvs, r, _, rfl, hr', rfl⟩ := hus
    obtain ⟨ds', hds', hdecls⟩ := hds.respelled (f := (·.relabel .unplaced))
      VarDecl.Spelled.respelled hus
    obtain ⟨ss', hss', hstmts⟩ := ih hvs
    refine ⟨⟨ds', ss'⟩, ?_, by rw [FnBody.relabel, FnBody.relabel, hdecls, hstmts]⟩
    simpa using Spelled.block (Token.kind_of_word hl' hl) hds' hss'
      (Token.kind_of_word hr' hr)

end StmtPart

/-! ### Declarations -/

theorem StructDecl.Spelled.respelled {d : StructDecl} (h : StructDecl.Spelled ts d)
    (hus : SameWords us ts) :
    ∃ d', StructDecl.Spelled us d' ∧ d'.relabel .unplaced = d.relabel .unplaced := by
  cases h with
  | mk hk hx hl hds hne hr =>
    simp only [SameWords.append_iff, SameWords.cons_iff, SameWords.nil_iff, List.cons_append] at hus
    obtain ⟨k, _, rfl, hk', y, _, rfl, hy, l, _, rfl, hl', us, _, rfl, hus, r, _, rfl, hr', rfl⟩ :=
      hus
    obtain ⟨ds', hds', hfields⟩ := hds.respelled (f := (·.relabel .unplaced))
      VarDecl.Spelled.respelled hus
    refine ⟨⟨y.ident, ds'⟩, .mk (Token.kind_of_word hk' hk)
      (Token.kind_of_word hy hx) (Token.kind_of_word hl' hl) hds' ?_
      (Token.kind_of_word hr' hr), ?_⟩
    · rintro rfl
      exact hne (List.map_eq_nil_iff.1 hfields.symm)
    · rw [relabel, relabel, hfields, Token.relabel_ident_of_word hy]

theorem Decl.Spelled.respelled {d : Decl} (h : Decl.Spelled ts d) (hus : SameWords us ts) :
    ∃ d', Decl.Spelled us d' ∧ d'.relabel .unplaced = d.relabel .unplaced := by
  cases h with
  | var h =>
    obtain ⟨d', hd', heq⟩ := h.respelled hus
    exact ⟨.var d', .var hd', congrArg Decl.var heq⟩
  | func hty hx hl hfs hr hb =>
    simp only [SameWords.append_iff, SameWords.cons_iff, List.cons_append, List.append_assoc] at hus
    obtain ⟨us, _, rfl, hus, y, _, rfl, hy, l, _, rfl, hl', vs, _, rfl, hvs, r, ws, rfl, hr',
      hws⟩ := hus
    obtain ⟨ty', hty', htype⟩ := hty.respelled hus
    obtain ⟨fs', hfs', hformals⟩ := hfs.respelled (f := (·.relabel .unplaced))
      Formal.Spelled.respelled hvs
    obtain ⟨b', hb', hbody⟩ := hb.respelled hws
    refine ⟨.func ⟨ty', y.ident, fs', b'⟩, ?_, ?_⟩
    · simpa using Decl.Spelled.func hty' (Token.kind_of_word hy hx)
        (Token.kind_of_word hl' hl) hfs' (Token.kind_of_word hr' hr) hb'
    · simp only [relabel, FnDecl.relabel, htype, hformals, hbody, Token.relabel_ident_of_word hy]
  | struct h =>
    obtain ⟨d', hd', heq⟩ := h.respelled hus
    exact ⟨.struct d', .struct hd', congrArg Decl.struct heq⟩
  | structEnd h he =>
    simp only [SameWords.append_iff, SameWords.cons_iff, SameWords.nil_iff] at hus
    obtain ⟨us, _, rfl, hus, e, _, rfl, he', rfl⟩ := hus
    obtain ⟨d', hd', heq⟩ := h.respelled hus
    exact ⟨.struct d', .structEnd hd' (Token.kind_of_word he' he), congrArg Decl.struct heq⟩

/-- Tokens with the same words spell the same declarations up to positions. -/
theorem Sequence.respelled_decls {ds : List Decl} (h : Sequence Decl.Spelled ts ds)
    (hus : SameWords us ts) : ∃ ds', Sequence Decl.Spelled us ds' ∧
      ds'.map (·.relabel .unplaced) = ds.map (·.relabel .unplaced) :=
  h.respelled Decl.Spelled.respelled hus

end Carrot
