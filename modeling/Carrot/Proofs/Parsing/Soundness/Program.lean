import Carrot.Proofs.Parsing.Soundness.Body

/-! # What can be read is spelled

A partly read program covers the declarations that are complete, followed by the one
that is being read. Every step keeps this, so a program that may end covers
declarations that are spelled.
-/

namespace Carrot

variable {ts us vs : List Token} {t : Token} {e : Expr}

/-! ### Declarations -/

/-- Tokens of a field that is partly read. -/
inductive FieldPoint.Covers : List Token → FieldPoint → Prop
  | between : Covers [] .between
  | tag {k : Token} (hk : k.kind = .kwStruct) : Covers [k] .tag
  | type {ts ty} (h : TypeExpr.Spelled ts ty) : Covers ts (.type ty)
  | name {ts ty} {x : Token} (h : TypeExpr.Spelled ts ty) (hx : x.kind = .ident) :
      Covers (ts ++ [x]) (.name (.ofType ty x.ident))

/-- Tokens behind which one more formal may stand; the formals are kept latest first. -/
def BeforeFormal (ts : List Token) (fs : List Formal) : Prop :=
  ∀ us f, Formal.Spelled us f → Separated Formal.Spelled (ts ++ us) (f :: fs).reverse

theorem BeforeFormal.nil : BeforeFormal [] [] := fun _ _ h => .one h

theorem BeforeFormal.comma {fs : List Formal} (h : Separated Formal.Spelled ts fs.reverse)
    (hne : fs ≠ []) (ht : t.kind = .comma) : BeforeFormal (ts ++ [t]) fs := by
  intro us f hf
  simpa using h.snoc (by simpa using hne) ht hf

/-- Tokens of a formal list that is partly read. -/
inductive FormalPoint.Covers : List Token → List Formal → FormalPoint → Prop
  | first : Covers [] [] .first
  | next {ts fs} (h : BeforeFormal ts fs) : Covers ts fs .next
  | tag {ts fs} {k : Token} (h : BeforeFormal ts fs) (hk : k.kind = .kwStruct) :
      Covers (ts ++ [k]) fs .tag
  | type {ts us fs ty} (h : BeforeFormal ts fs) (hty : TypeExpr.Spelled us ty) :
      Covers (ts ++ us) fs (.type ty)
  | after {ts fs} (h : Separated Formal.Spelled ts fs.reverse) (hne : fs ≠ []) :
      Covers ts fs .after

/-- Tokens of a declaration that is partly read, except the end of a struct declaration. -/
inductive OpenDecl.Covers : List Token → OpenDecl → Prop
  | none : Covers [] .none
  | tag {k : Token} (hk : k.kind = .kwStruct) : Covers [k] .tag
  | tagName {k x : Token} (hk : k.kind = .kwStruct) (hx : x.kind = .ident) :
      Covers [k, x] (.tagName x.ident)
  | type {ts ty} (h : TypeExpr.Spelled ts ty) : Covers ts (.type ty)
  | name {ts ty} {x : Token} (h : TypeExpr.Spelled ts ty) (hx : x.kind = .ident) :
      Covers (ts ++ [x]) (.name ty x.ident)
  | fields {ts us fs q} {k x l : Token} (hk : k.kind = .kwStruct) (hx : x.kind = .ident)
      (hl : l.kind = .lbrace) (hfs : Sequence VarDecl.Spelled ts fs.reverse)
      (hq : FieldPoint.Covers us q) : Covers (k :: x :: l :: ts ++ us) (.fields x.ident fs q)
  | formals {ts us ty fs q} {x l : Token} (hty : TypeExpr.Spelled ts ty) (hx : x.kind = .ident)
      (hl : l.kind = .lparen) (hq : FormalPoint.Covers us fs q) :
      Covers (ts ++ x :: l :: us) (.formals ⟨ty, x.ident, fs⟩ q)
  | bodyOpen {ts us ty fs} {x l r : Token} (hty : TypeExpr.Spelled ts ty) (hx : x.kind = .ident)
      (hl : l.kind = .lparen) (hfs : Separated Formal.Spelled us fs) (hr : r.kind = .rparen) :
      Covers (ts ++ x :: l :: us ++ [r]) (.bodyOpen ⟨ty, x.ident, fs⟩)
  | body {ts us h b} {l : Token} (hh : Covers ts (.bodyOpen h)) (hl : l.kind = .lbrace)
      (hb : PartialBody.Covers h us b) : Covers (ts ++ l :: us) (.body b)

/-- Tokens that lead to a program that is partly read. -/
inductive PartialProgram.Covers : List Token → PartialProgram → Prop
  | current {ts us p} (h : Sequence Decl.Spelled ts p.decls.reverse)
      (hc : OpenDecl.Covers us p.current) : Covers (ts ++ us) p
  | structEnd {ts us ds d} (h : Sequence Decl.Spelled ts ds.reverse)
      (hd : StructDecl.Spelled us d) : Covers (ts ++ us) ⟨.struct d :: ds, .structEnd⟩

/-! ### Steps inside a declaration -/

theorem OpenDecl.covers_first? {c : OpenDecl} : first? t = some c → c.Covers [t] := by
  unfold first?
  split
  · next hk =>
    rintro ⟨⟩
    exact .tag hk
  · intro h
    obtain ⟨ty, hty, rfl⟩ := Option.map_eq_some_iff.1 h
    exact .type (.word hty)

theorem OpenDecl.covers_field? {c : OpenDecl} {k x l : Token} {fs : List VarDecl} {q : FieldPoint}
    (hk : k.kind = .kwStruct) (hx : x.kind = .ident) (hl : l.kind = .lbrace)
    (hfs : Sequence VarDecl.Spelled ts fs.reverse) (hq : q.Covers us) :
    field? x.ident fs q t = some c → c.Covers (k :: x :: l :: ts ++ us ++ [t]) := by
  rw [List.append_assoc]
  fun_cases OpenDecl.field? x.ident fs q t with
  | case1 hs =>
    rintro ⟨⟩
    cases hq
    exact .fields hk hx hl hfs (.tag hs)
  | case2 =>
    intro h
    obtain ⟨ty, hty, rfl⟩ := Option.map_eq_some_iff.1 h
    cases hq
    exact .fields hk hx hl hfs (.type (.word hty))
  | case3 hy =>
    rintro ⟨⟩
    cases hq with
    | tag hs => exact .fields hk hx hl hfs (.type (.struct hs hy))
  | case4 ty hy =>
    rintro ⟨⟩
    cases hq with
    | type h => exact .fields hk hx hl hfs (.name h hy)
  | case5 d he =>
    rintro ⟨⟩
    cases hq with
    | @name us ty y h hy =>
      have hd : Sequence VarDecl.Spelled (ts ++ (us ++ [y, t]))
          (.ofType ty y.ident :: fs).reverse := by
        simpa using hfs.snoc (.ofType h hy he)
      simpa using Covers.fields hk hx hl hd .between
  | case6 => rintro ⟨⟩

theorem OpenDecl.covers_formal? {c : OpenDecl} {ty : TypeExpr} {x l : Token} {fs : List Formal}
    {q : FormalPoint} (hty : TypeExpr.Spelled ts ty) (hx : x.kind = .ident)
    (hl : l.kind = .lparen) (hq : q.Covers us fs) :
    formal? ⟨ty, x.ident, fs⟩ q t = some c → c.Covers (ts ++ x :: l :: us ++ [t]) := by
  have hstep {vs fs q} (hq : FormalPoint.Covers vs fs q) (hvs : vs = us ++ [t]) :
      OpenDecl.Covers (ts ++ x :: l :: us ++ [t]) (.formals ⟨ty, x.ident, fs⟩ q) := by
    subst hvs
    simpa using OpenDecl.Covers.formals hty hx hl hq
  fun_cases OpenDecl.formal? ⟨ty, x.ident, fs⟩ q t with
  | case1 hr =>
    rintro ⟨⟩
    cases hq
    exact .bodyOpen hty hx hl .nil hr
  | case2 hr =>
    rintro ⟨⟩
    cases hq with
    | after h => exact .bodyOpen hty hx hl h hr
  | case3 hk =>
    rintro ⟨⟩
    cases hq
    exact hstep (.tag .nil hk) rfl
  | case4 hk =>
    rintro ⟨⟩
    cases hq with
    | next h => exact hstep (.tag h hk) rfl
  | case5 =>
    intro h
    obtain ⟨uy, huy, rfl⟩ := Option.map_eq_some_iff.1 h
    cases hq
    exact hstep (.type .nil (.word huy)) rfl
  | case6 =>
    intro h
    obtain ⟨uy, huy, rfl⟩ := Option.map_eq_some_iff.1 h
    cases hq with
    | next h => exact hstep (.type h (.word huy)) rfl
  | case7 hy =>
    rintro ⟨⟩
    cases hq with
    | tag h hk => exact hstep (.type h (.struct hk hy)) (by simp)
  | case8 uy hy =>
    rintro ⟨⟩
    cases hq with
    | type h huy => exact hstep (.after (h _ _ (.mk huy hy)) (by simp)) (by simp)
  | case9 hc =>
    rintro ⟨⟩
    cases hq with
    | after h hne => exact hstep (.next (.comma h hne hc)) rfl
  | case10 => rintro ⟨⟩

namespace PartialProgram

variable {p q : PartialProgram}

theorem covers_start : Covers [] start :=
  show Covers ([] ++ []) start from .current .nil .none

/-- Between two declarations, all tokens are used up. -/
theorem Covers.sequence (h : p.Covers ts) (hp : p.IsBetween) :
    Sequence Decl.Spelled ts p.decls.reverse := by
  cases h with
  | current h hc =>
    rcases hp with hp | hp
    · rw [hp] at hc
      cases hc
      simpa using h
    · rw [hp] at hc
      cases hc
  | structEnd h hd => simpa using h.snoc (.struct hd)

theorem covers_moveTo {c : OpenDecl} (h : Sequence Decl.Spelled ts p.decls.reverse)
    (hc : c.Covers us) : (p.moveTo c).Covers (ts ++ us) := .current h hc

theorem covers_finish {d : Decl} (h : Sequence Decl.Spelled ts p.decls.reverse)
    (hd : Decl.Spelled us d) : (p.finish d).Covers (ts ++ us) := by
  have h' : Sequence Decl.Spelled (ts ++ us) (p.finish d).decls.reverse := by
    simpa [finish] using h.snoc hd
  simpa using Covers.current h' .none

theorem covers_body? {b : PartialBody} (h : Sequence Decl.Spelled ts p.decls.reverse)
    (hb : OpenDecl.Covers us (.body b)) :
    p.body? b t = some q → q.Covers (ts ++ (us ++ [t])) := by
  cases hb with
  | @body us vs _ _ l hh hl hb =>
    unfold body?
    split
    · next f hr hf =>
      rintro ⟨⟩
      cases hh with
      | @bodyOpen us ws ty fs x m r hty hx hm hfs hr' =>
        obtain ⟨body, rfl, hbody⟩ := hb.complete? hf hl hr
        apply covers_finish h
        simpa using Decl.Spelled.func hty hx hm hfs hr' hbody
    · intro hq
      obtain ⟨c, hc, rfl⟩ := Option.map_eq_some_iff.1 hq
      apply covers_moveTo h
      simpa using OpenDecl.Covers.body hh hl (hb.next? hc)

/-- What a step keeps. -/
theorem Covers.next? (h : p.Covers ts) : p.next? t = some q → q.Covers (ts ++ [t]) := by
  cases h with
  | @structEnd ts us ds d h hd =>
    by_cases ht : t.kind = .semicolon
    · simp only [PartialProgram.next?, ht]
      rintro ⟨⟩
      simpa [finish, moveTo] using covers_finish (p := ⟨ds, .none⟩) h (.structEnd hd ht)
    · rw [next?_first (.inr rfl) ht]
      intro hq
      obtain ⟨c, hc, rfl⟩ := Option.map_eq_some_iff.1 hq
      refine covers_moveTo ?_ (OpenDecl.covers_first? hc)
      simpa using h.snoc (.struct hd)
  | @current ts us p h hc =>
    rw [List.append_assoc]
    fun_cases PartialProgram.next? p t with
    | case1 _ hcur =>
      rw [hcur] at hc
      cases hc
    | case2 hcur =>
      intro hq
      obtain ⟨d, hd, rfl⟩ := Option.map_eq_some_iff.1 hq
      rw [hcur] at hc
      cases hc
      exact covers_moveTo h (OpenDecl.covers_first? hd)
    | case3 hcur =>
      rw [hcur] at hc
      cases hc
    | case4 hx hcur =>
      rintro ⟨⟩
      rw [hcur] at hc
      cases hc with
      | tag hk => exact covers_moveTo h (.tagName hk hx)
    | case5 s hl hcur =>
      rintro ⟨⟩
      rw [hcur] at hc
      cases hc with
      | tagName hk hx =>
        have hnil : Sequence VarDecl.Spelled [] ([] : List VarDecl).reverse := .nil
        exact covers_moveTo h (by simpa using OpenDecl.Covers.fields hk hx hl hnil .between)
    | case6 s hy hcur =>
      rintro ⟨⟩
      rw [hcur] at hc
      cases hc with
      | tagName hk hx => exact covers_moveTo h (.name (.struct hk hx) hy)
    | case7 ty hx hcur =>
      rintro ⟨⟩
      rw [hcur] at hc
      cases hc with
      | type hty => exact covers_moveTo h (.name hty hx)
    | case8 ty x he hcur =>
      rintro ⟨⟩
      rw [hcur] at hc
      cases hc with
      | name hty hx =>
        refine covers_finish h (.var ?_)
        simpa using VarDecl.Spelled.ofType hty hx he
    | case9 ty x hl hcur =>
      rintro ⟨⟩
      rw [hcur] at hc
      cases hc with
      | name hty hx =>
        apply covers_moveTo h
        simpa using OpenDecl.Covers.formals hty hx hl .first
    | case10 s f fs hr hcur =>
      rintro ⟨⟩
      rw [hcur] at hc
      cases hc with
      | fields hk hx hl hfs hq =>
        cases hq
        have hd := StructDecl.Spelled.mk hk hx hl hfs (by simp) hr
        simpa [finish] using Covers.structEnd h hd
    | case11 s fs q hcur =>
      intro hq
      obtain ⟨d, hd, rfl⟩ := Option.map_eq_some_iff.1 hq
      rw [hcur] at hc
      cases hc with
      | fields hk hx hl hfs hq =>
        exact covers_moveTo h (OpenDecl.covers_field? hk hx hl hfs hq hd)
    | case12 fh q hcur =>
      intro hq
      obtain ⟨d, hd, rfl⟩ := Option.map_eq_some_iff.1 hq
      rw [hcur] at hc
      cases hc with
      | formals hty hx hl hq => exact covers_moveTo h (OpenDecl.covers_formal? hty hx hl hq hd)
    | case13 fh hl hcur =>
      rintro ⟨⟩
      rw [hcur] at hc
      exact covers_moveTo h (.body hc hl (PartialBody.covers_start _))
    | case14 b hcur =>
      rw [hcur] at hc
      exact covers_body? h hc
    | case15 => rintro ⟨⟩

/-- What a run keeps. -/
theorem Covers.reads (h : start.Reads ts p) : p.Covers ts :=
  Reads.preserves (fun _ _ _ _ h => Covers.next? h) covers_start h

/-- A program that may end holds declarations that are spelled. -/
theorem spelled_of_complete? {ds : List Decl} (h : start.read ts = .ok p)
    (hds : p.complete? = some ds) : Sequence Decl.Spelled ts ds := by
  have hp : p.IsBetween := by
    unfold complete? at hds
    split at hds
    · next h => exact .inl h
    · next h => exact .inr h
    · cases hds
  rw [complete?_of_isBetween hp] at hds
  cases hds
  exact (Covers.reads (read_eq_ok_iff.1 h)).sequence hp

end PartialProgram

end Carrot
