import Carrot.Proofs.Parsing.Soundness.Expression

/-! # What can be read of a function body is spelled

A partly read body covers the tokens of the blocks that are open, each with the
declarations and statements that are complete in it, and those of the point that has
been reached in the innermost one. Every step inside the body keeps this.
-/

namespace Carrot

open ExprPart (expr args termLevel)

variable {ts us vs : List Token} {t : Token} {e : Expr}

/-! ### Blocks -/

/-- The tokens of a block between its brace and the current point. -/
inductive OpenBlock.Covers : List Token → OpenBlock → Prop
  | mk {ts us ds ss} (hds : Sequence VarDecl.Spelled ts ds.reverse)
      (hss : StmtPart.Spelled us (.stmts ss.reverse)) : Covers (ts ++ us) ⟨ds, ss⟩

theorem OpenBlock.Covers.empty : OpenBlock.Covers [] .empty :=
  show OpenBlock.Covers ([] ++ []) ⟨[], []⟩ from .mk .nil .noStmts

theorem OpenBlock.Covers.addStmt {b : OpenBlock} {s : Stmt} (h : b.Covers ts)
    (hs : StmtPart.Spelled us (.stmt s)) : (b.addStmt s).Covers (ts ++ us) := by
  cases h with
  | mk hds hss => simpa [OpenBlock.addStmt] using Covers.mk hds (by simpa using hss.nextStmt hs)

theorem OpenBlock.Covers.addDecl {b : OpenBlock} {d : VarDecl} (h : b.Covers ts)
    (hb : b.stmts = []) (hd : VarDecl.Spelled us d) : (b.addDecl d).Covers (ts ++ us) := by
  cases h with
  | @mk ts ws ds ss hds hss =>
    subst hb
    obtain rfl := hss.stmts_nil
    have hds' : Sequence VarDecl.Spelled (ts ++ us) (d :: ds).reverse := by
      simpa using hds.snoc hd
    have hss' : StmtPart.Spelled [] (.stmts ([] : List Stmt).reverse) := .noStmts
    simpa [OpenBlock.addDecl] using Covers.mk hds' hss'

theorem OpenBlock.Covers.body {b : OpenBlock} {l r : Token} (h : b.Covers ts)
    (hl : l.kind = .lbrace) (hr : r.kind = .rbrace) :
    StmtPart.Spelled (l :: ts ++ [r]) (.block b.body) := by
  cases h with
  | mk hds hss => simpa [OpenBlock.body] using StmtPart.Spelled.block hl hds hss hr

/-- Tokens of a statement before its block. -/
inductive Owner.Covers : List Token → Owner → Prop
  | guard {ts c} {k l r : Token} (g : Guard) (hk : k.kind = g.keyword) (hl : l.kind = .lparen)
      (hc : ExprPart.Spelled ts (expr 0 c)) (hr : r.kind = .rparen) :
      Covers (k :: l :: ts ++ [r]) (.ofGuard g c)
  | ifElse {ts c ds ss} {e : Token} (h : StmtPart.Spelled ts (.stmt (.ifThen c ds ss)))
      (he : e.kind = .kwElse) : Covers (ts ++ [e]) (.ifElse c ds ss)

theorem Owner.Covers.close {o : Owner} {b : FnBody} (h : o.Covers ts)
    (hb : StmtPart.Spelled us (.block b)) : StmtPart.Spelled (ts ++ us) (.stmt (o.close b)) := by
  cases h with
  | guard g hk hl hc hr => simpa using StmtPart.Spelled.guarded g hk hl hc hr hb
  | @ifElse ts c ds ss e h he =>
    obtain ⟨k, l, vs, r, ws, rfl, hk, hl, hc, hr, hd⟩ := h.ifThen
    simpa [Owner.close] using StmtPart.Spelled.ifElse hk hl hc hr hd he hb

/-- Tokens of a body up to the brace that opens its innermost block. -/
inductive OuterCovers : List Token → List (OpenBlock × Owner) → Prop
  | nil : OuterCovers [] []
  | block {ts us vs outer b o} {l : Token} (h : OuterCovers ts outer) (hb : OpenBlock.Covers us b)
      (ho : Owner.Covers vs o) (hl : l.kind = .lbrace) :
      OuterCovers (ts ++ us ++ vs ++ [l]) ((b, o) :: outer)

/-! ### Points in a block -/

/-- The tokens of a declaration or statement that is partly read. -/
inductive Point.Covers : List Token → Point → Prop
  | between : Covers [] .between
  | localTag {k : Token} (hk : k.kind = .kwStruct) : Covers [k] .localTag
  | localType {ts ty} (h : TypeExpr.Spelled ts ty) : Covers ts (.localType ty)
  | localName {ts ty} {x : Token} (h : TypeExpr.Spelled ts ty) (hx : x.kind = .ident) :
      Covers (ts ++ [x]) (.localName (.ofType ty x.ident))
  | place {ts r} (h : Expr.PlaceSpelled ts r) : Covers ts (.place r)
  | placeDot {ts r} {d : Token} (h : Expr.PlaceSpelled ts r) (hd : d.kind = .dot) :
      Covers (ts ++ [d]) (.placeDot r)
  | readArrows {k : Token} (hk : k.kind = .kwCin) : Covers [k] .readArrows
  | readName {k a : Token} (hk : k.kind = .kwCin) (ha : a.kind = .shiftRight) :
      Covers [k, a] .readName
  | readPlace {ts r} {k a : Token} (hk : k.kind = .kwCin) (ha : a.kind = .shiftRight)
      (h : Expr.PlaceSpelled ts r) : Covers (k :: a :: ts) (.readPlace r)
  | readDot {ts r} {k a d : Token} (hk : k.kind = .kwCin) (ha : a.kind = .shiftRight)
      (h : Expr.PlaceSpelled ts r) (hd : d.kind = .dot) : Covers (k :: a :: ts ++ [d]) (.readDot r)
  | writeArrows {k : Token} (hk : k.kind = .kwCout) : Covers [k] .writeArrows
  | guardOpen {k : Token} (g : Guard) (hk : k.kind = g.keyword) : Covers [k] (.guardOpen g)
  | blockOpen {ts o} (h : Owner.Covers ts o) : Covers ts (.blockOpen o)
  | returned {k : Token} (hk : k.kind = .kwReturn) : Covers [k] .returned
  | semicolon {ts s}
      (h : ∀ e : Token, e.kind = .semicolon → StmtPart.Spelled (ts ++ [e]) (.stmt s)) :
      Covers ts (.semicolon s)
  | expr {ts x} (h : ExprStep.Covers ts x) : Covers ts (.expr x)

/-- Whether the point is inside a declaration. -/
def Point.isLocal : Point → Bool
  | .localTag | .localType _ | .localName _ => true
  | _ => false

namespace PartialBody

/-- The tokens of a body behind the brace that opens it; its head is `h`. -/
structure Covers (h : FnHead) (ts : List Token) (b : PartialBody) : Prop where
  head_eq : b.head = h
  parts : ∃ us vs ws, ts = us ++ vs ++ ws ∧ OuterCovers us b.outer ∧ OpenBlock.Covers vs b.block ∧
    Point.Covers ws b.point
  stmts_eq_nil : b.point.isLocal → b.block.stmts = []

theorem covers_start (h : FnHead) : Covers h [] (start h) :=
  ⟨rfl, ⟨[], [], [], rfl, .nil, .empty, .between⟩, fun _ => rfl⟩

/-! ### Steps inside a body -/

section

variable {h : FnHead} {b c : PartialBody} {ws : List Token} (hh : b.head = h)
  (ho : OuterCovers us b.outer) (hb : OpenBlock.Covers vs b.block)

include hh ho hb

theorem covers_moveTo {p : Point} (hp : p.Covers ws) (hl : p.isLocal → b.block.stmts = []) :
    (b.moveTo p).Covers h (us ++ vs ++ ws) :=
  ⟨hh, ⟨us, vs, ws, rfl, ho, hb, hp⟩, hl⟩

theorem covers_finish {s : Stmt} (hs : StmtPart.Spelled ws (.stmt s)) :
    (b.finish s).Covers h (us ++ vs ++ ws) :=
  ⟨hh, ⟨us, vs ++ ws, [], by simp, ho, hb.addStmt hs, .between⟩, fun h => by cases h⟩

theorem covers_expect {p : Purpose} (hp : p.Covers ws) :
    (b.expect p).Covers h (us ++ vs ++ ws) := by
  refine covers_moveTo hh ho hb (.expr (.operand ?_)) (fun h => by cases h)
  simpa [Surroundings.ofPurpose] using Surroundings.Covers.mk hp .nil .nil

theorem covers_follow {x : ExprStep} (hx : ExprStep.Covers ws x) :
    (b.follow x).Covers h (us ++ vs ++ ws) := by
  have hopen : (b.moveTo (.expr x)).Covers h (us ++ vs ++ ws) :=
    covers_moveTo hh ho hb (.expr hx) (fun h => by cases h)
  cases hx with
  | operand | field | after => exact hopen
  | @done ts us p e t hp he ht =>
    cases hp with
    | assign hp hk => 
      apply covers_finish hh ho hb (s := .assign _ e)
      simpa using StmtPart.Spelled.assign hp hk he (Option.some.inj ht).symm
    | write hk ha =>
      exact covers_finish hh ho hb (.write hk ha he (Option.some.inj ht).symm)
    | ret hk => exact covers_finish hh ho hb (.retValue hk he (Option.some.inj ht).symm)
    | guard g hk hl =>
      refine covers_moveTo hh ho hb (.blockOpen ?_) (fun h => by cases h)
      exact .guard g hk hl he (Option.some.inj ht).symm
    | argument => cases ht
  | called hf hl h hr =>
    refine covers_moveTo hh ho hb (.semicolon fun e he => ?_) (fun h => by cases h)
    simpa using StmtPart.Spelled.call hf hl h hr he

theorem covers_closeBlock? (ht : t.kind = .rbrace) :
    b.closeBlock? = some c → c.Covers h (us ++ vs ++ [t]) := by
  unfold closeBlock?
  split
  · next block owner outer houter =>
    rintro ⟨⟩
    rw [houter] at ho
    cases ho with
    | @block xs ys zs _ _ _ l ho hblock howner hl =>
      have hs := howner.close (hb.body hl ht)
      exact ⟨hh, ⟨xs, ys ++ (zs ++ (l :: vs ++ [t])), [], by simp, ho, hblock.addStmt hs, .between⟩,
        fun h => by cases h⟩
  · rintro ⟨⟩

theorem covers_openDecl? (hs : b.block.stmts = []) :
    b.openDecl? t = some c → c.Covers h (us ++ vs ++ [t]) := by
  unfold openDecl?
  split
  · next hk =>
    rintro ⟨⟩
    exact covers_moveTo hh ho hb (.localTag hk) fun _ => hs
  · intro h
    obtain ⟨ty, hty, rfl⟩ := Option.map_eq_some_iff.1 h
    exact covers_moveTo hh ho hb (.localType (.word hty)) fun _ => hs

theorem covers_openElse? (ht : t.kind = .kwElse) :
    b.openElse? = some c → c.Covers h (us ++ vs ++ [t]) := by
  unfold openElse?
  split
  · next e ds ss rest hrest =>
    rintro ⟨⟩
    cases hblock : b.block with
    | mk decls stmts =>
      rw [hblock] at hb hrest
      subst hrest
      cases hb with
      | @mk xs ys _ _ hds hss =>
        obtain ⟨ys, zs, rfl, hys, hzs⟩ := StmtPart.Spelled.stmts_snoc (by simpa using hss)
        exact ⟨hh, ⟨us, xs ++ ys, zs ++ [t], by simp, ho, .mk hds hys, .blockOpen (.ifElse hzs ht)⟩,
          fun h => by cases h⟩
  · rintro ⟨⟩

theorem covers_openStmt? : b.openStmt? t = some c → c.Covers h (us ++ vs ++ [t]) := by
  fun_cases openStmt? b t with
  | case1 hk =>
    rintro ⟨⟩
    exact covers_moveTo hh ho hb (.place (.ident hk)) (fun h => by cases h)
  | case2 hk =>
    rintro ⟨⟩
    exact covers_moveTo hh ho hb (.readArrows hk) (fun h => by cases h)
  | case3 hk =>
    rintro ⟨⟩
    exact covers_moveTo hh ho hb (.writeArrows hk) (fun h => by cases h)
  | case4 hk =>
    rintro ⟨⟩
    exact covers_moveTo hh ho hb (.guardOpen .ifGuard hk) (fun h => by cases h)
  | case5 hk =>
    rintro ⟨⟩
    exact covers_moveTo hh ho hb (.guardOpen .whileGuard hk) (fun h => by cases h)
  | case6 hk =>
    rintro ⟨⟩
    exact covers_moveTo hh ho hb (.guardOpen .repeatGuard hk) (fun h => by cases h)
  | case7 hk =>
    rintro ⟨⟩
    exact covers_moveTo hh ho hb (.returned hk) (fun h => by cases h)
  | case8 hk => exact covers_openElse? hh ho hb hk
  | case9 hs =>
    intro h
    exact covers_openDecl? hh ho hb (List.isEmpty_iff.1 hs) h
  | case10 => rintro ⟨⟩

theorem covers_place? {r : Expr} (hr : Expr.PlaceSpelled ws r) :
    b.place? r t.kind = some c → c.Covers h (us ++ vs ++ (ws ++ [t])) := by
  generalize hk : t.kind = k
  fun_cases place? b r k with
  | case1 r =>
    rintro ⟨⟩
    exact covers_moveTo hh ho hb (.placeDot hr hk) (fun h => by cases h)
  | case2 f =>
    rintro ⟨⟩
    cases hr with
    | ident hx => exact covers_expect hh ho hb (.argument hx hk .nil)
  | case3 r =>
    rintro ⟨⟩
    exact covers_expect hh ho hb (.assign hr hk)
  | case4 r =>
    rintro ⟨⟩
    refine covers_moveTo hh ho hb (.semicolon fun e he => ?_) (fun h => by cases h)
    simpa using StmtPart.Spelled.increment hr hk he
  | case5 r =>
    rintro ⟨⟩
    refine covers_moveTo hh ho hb (.semicolon fun e he => ?_) (fun h => by cases h)
    simpa using StmtPart.Spelled.decrement hr hk he
  | case6 => rintro ⟨⟩

end

/-- What a step in a body keeps. -/
theorem Covers.next? {h : FnHead} {b c : PartialBody} (hc : b.Covers h ts) :
    b.next? t = some c → c.Covers h (ts ++ [t]) := by
  -- The tokens are those of the open blocks, of what is done in the innermost, and of the point.
  obtain ⟨hh, ⟨us, vs, ws, rfl, ho, hb, hp⟩, hl⟩ := hc
  rw [List.append_assoc]
  fun_cases PartialBody.next? b t with
  | case1 hk hpt =>
    rw [hpt] at hp
    cases hp
    exact covers_closeBlock? hh ho hb hk
  | case2 hpt =>
    rw [hpt] at hp
    cases hp
    exact covers_openStmt? hh ho hb
  | case3 hk hpt =>
    rintro ⟨⟩
    rw [hpt] at hp hl
    cases hp with
    | localTag hs => exact covers_moveTo hh ho hb (.localType (.struct hs hk)) hl
  | case4 ty hk hpt =>
    rintro ⟨⟩
    rw [hpt] at hp hl
    cases hp with
    | localType h => exact covers_moveTo hh ho hb (.localName h hk) hl
  | case5 d hk hpt =>
    rintro ⟨⟩
    rw [hpt] at hp hl
    cases hp with
    | @localName ws ty x h hx =>
      have hd := hb.addDecl (hl rfl) (.ofType h hx hk)
      exact ⟨hh, ⟨us, vs ++ (ws ++ [x, t]), [], by simp, ho, hd, .between⟩, fun h => by cases h⟩
  | case6 r hpt =>
    rw [hpt] at hp
    cases hp with
    | place h => exact covers_place? hh ho hb h
  | case7 r hk hpt =>
    rintro ⟨⟩
    rw [hpt] at hp
    cases hp with
    | placeDot h hd =>
      refine covers_moveTo hh ho hb (.place ?_) (fun h => by cases h)
      simpa using h.dot hd hk
  | case8 hk hpt =>
    rintro ⟨⟩
    rw [hpt] at hp
    cases hp with
    | readArrows h => exact covers_moveTo hh ho hb (.readName h hk) (fun h => by cases h)
  | case9 hk hpt =>
    rintro ⟨⟩
    rw [hpt] at hp
    cases hp with
    | readName h ha =>
      exact covers_moveTo hh ho hb (.readPlace h ha (.ident hk)) (fun h => by cases h)
  | case10 r hk hpt =>
    rintro ⟨⟩
    rw [hpt] at hp
    cases hp with
    | readPlace h ha hr => exact covers_moveTo hh ho hb (.readDot h ha hr hk) (fun h => by cases h)
  | case11 r hk hpt =>
    rintro ⟨⟩
    rw [hpt] at hp
    cases hp with
    | readPlace h ha hr => exact covers_finish hh ho hb (.read h ha hr hk)
  | case12 r hk hpt =>
    rintro ⟨⟩
    rw [hpt] at hp
    cases hp with
    | readDot h ha hr hd =>
      refine covers_moveTo hh ho hb ?_ (fun h => by cases h)
      simpa using Point.Covers.readPlace h ha (hr.dot hd hk)
  | case13 hk hpt =>
    rintro ⟨⟩
    rw [hpt] at hp
    cases hp with
    | writeArrows h => exact covers_expect hh ho hb (.write h hk)
  | case14 g hk hpt =>
    rintro ⟨⟩
    rw [hpt] at hp
    cases hp with
    | guardOpen g h => exact covers_expect hh ho hb (.guard g h hk)
  | case15 o hk hpt =>
    rintro ⟨⟩
    rw [hpt] at hp
    cases hp with
    | blockOpen h =>
      exact ⟨hh, ⟨us ++ vs ++ ws ++ [t], [], [], by simp, .block ho hb h hk, .empty, .between⟩,
        fun h => by cases h⟩
  | case16 hk hpt =>
    rintro ⟨⟩
    rw [hpt] at hp
    cases hp with
    | returned h => exact covers_finish hh ho hb (.ret h hk)
  | case17 hpt =>
    intro h
    obtain ⟨y, hy, rfl⟩ := Option.map_eq_some_iff.1 h
    rw [hpt] at hp
    cases hp with
    | @returned k h =>
      have hs : Surroundings.Covers [k] (.ofPurpose .ret) := .mk (.ret h) .nil .nil
      exact covers_follow hh ho hb (hs.operand? hy)
  | case18 s hk hpt =>
    rintro ⟨⟩
    rw [hpt] at hp
    cases hp with
    | semicolon h => exact covers_finish hh ho hb (h t hk)
  | case19 x hpt =>
    intro h
    obtain ⟨y, hy, rfl⟩ := Option.map_eq_some_iff.1 h
    rw [hpt] at hp
    cases hp with
    | expr hx => exact covers_follow hh ho hb (hx.next? hy)
  | case20 => rintro ⟨⟩

/-- The tokens of a body that may end, with its braces. -/
theorem Covers.complete? {h : FnHead} {b : PartialBody} {f : FnDecl} {l r : Token}
    (hc : b.Covers h ts) (hf : b.complete? = some f) (hl : l.kind = .lbrace)
    (hr : r.kind = .rbrace) : ∃ body, f = ⟨h.returnType, h.name, h.formals, body⟩ ∧
      StmtPart.Spelled (l :: ts ++ [r]) (.block body) := by
  obtain ⟨rfl, ⟨us, vs, ws, rfl, ho, hb, hp⟩, -⟩ := hc
  unfold PartialBody.complete? at hf
  split at hf
  · next hpt houter =>
    cases hf
    rw [hpt] at hp
    rw [houter] at ho
    cases hp
    cases ho
    exact ⟨b.block.body, rfl, by simpa using hb.body hl hr⟩
  · cases hf

end PartialBody

end Carrot
