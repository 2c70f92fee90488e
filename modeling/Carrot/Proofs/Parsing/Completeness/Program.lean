import Carrot.Proofs.Parsing.Completeness.Body

/-! # What is spelled can be read

Each declaration is read from a point between two of them to such a point, with the
declaration itself added. A semicolon behind a struct declaration belongs to it, so
the state behind a struct is a point of its own.
-/

namespace Carrot

/-! ### Declarations -/

namespace PartialProgram

variable {p : PartialProgram} {ts us : List Token} {t x : Token} {ty : TypeExpr}

/-- A type and a name begin a variable or a function. -/
theorem reads_typed (h : TypeExpr.Spelled ts ty) (hx : x.kind = .ident) (hp : p.IsBetween) :
    p.Reads (ts ++ [x]) (p.moveTo (.name ty x.ident)) := by
  cases h with
  | @word t _ h =>
    have ht : p.next? t = some (p.moveTo (.type ty)) := by
      cases hk : t.kind <;> rw [hk] at h <;> cases h <;>
        simp [next?_first hp, OpenDecl.first?, hk, TypeExpr.ofKind?]
    exact .cons ht (.one (by simp [next?, hx]))
  | @struct k y hk hy =>
    have htag : p.next? k = some (p.moveTo .tag) := by
      simp [next?_first hp, OpenDecl.first?, hk]
    have hname : (p.moveTo .tag).next? y = some (p.moveTo (.tagName y.ident)) := by
      simp [next?, hy]
    exact .cons htag (.cons hname (.one (by simp [next?, hx])))

/-! #### Formals -/

theorem reads_formal {h : FnHead} {q : FormalPoint} (hq : q = .first ∨ q = .next) {f : Formal}
    (hf : Formal.Spelled ts f) :
    (p.moveTo (.formals h q)).Reads ts
      (p.moveTo (.formals { h with formals := f :: h.formals } .after)) := by
  cases hf with
  | @mk ts ty x hty hx =>
    have hlast : (p.moveTo (.formals h (.type ty))).next? x = some
        (p.moveTo (.formals { h with formals := ⟨ty, x.ident⟩ :: h.formals } .after)) := by
      simp [next?, OpenDecl.formal?, hx]
    refine Reads.snoc ?_ hlast
    cases hty with
    | @word t _ h =>
      apply Reads.one
      cases hk : t.kind <;> rw [hk] at h <;> cases h <;> rcases hq with rfl | rfl <;>
        simp [next?, OpenDecl.formal?, hk, TypeExpr.ofKind?]
    | @struct k y hk hy =>
      have htag : (p.moveTo (.formals h q)).next? k = some (p.moveTo (.formals h .tag)) := by
        rcases hq with rfl | rfl <;> simp [next?, OpenDecl.formal?, hk]
      exact .cons htag (.one (by simp [next?, OpenDecl.formal?, hy]))

/-- A formal list is read up to its parenthesis. -/
theorem reads_formals {x : Ident} {fs : List Formal} {r : Token}
    (h : Separated Formal.Spelled ts fs) (hr : r.kind = .rparen) :
    (p.moveTo (.formals ⟨ty, x, []⟩ .first)).Reads (ts ++ [r])
      (p.moveTo (.bodyOpen ⟨ty, x, fs⟩)) := by
  have hfs : fs ≠ [] → (p.moveTo (.formals ⟨ty, x, []⟩ .first)).Reads ts
      (p.moveTo (.formals ⟨ty, x, fs.reverse⟩ .after)) := by
    induction h with
    | nil => exact fun h => absurd rfl h
    | one hf => exact fun _ => reads_formal (.inl rfl) hf
    | @snoc ts us f fs c _ hne hc hf ih =>
      intro _
      have hcomma : (p.moveTo (.formals ⟨ty, x, fs.reverse⟩ .after)).next? c = some
          (p.moveTo (.formals ⟨ty, x, fs.reverse⟩ .next)) := by
        simp [next?, OpenDecl.formal?, hc]
      simpa using (ih hne).append (.cons hcomma (reads_formal (.inr rfl) hf))
  cases fs with
  | nil =>
    obtain rfl := h.eq_nil
    exact .one (by simp [next?, OpenDecl.formal?, hr])
  | cons f fs =>
    apply (hfs (by simp)).snoc
    simp [next?, OpenDecl.formal?, hr]

/-! #### Fields -/

theorem reads_field {s : Ident} {fs : List VarDecl} {d : VarDecl} (h : VarDecl.Spelled ts d) :
    (p.moveTo (.fields s fs .between)).Reads ts (p.moveTo (.fields s (d :: fs) .between)) := by
  cases h with
  | @ofType ts ty x e hty hx he =>
    have hname : (p.moveTo (.fields s fs (.type ty))).next? x = some
        (p.moveTo (.fields s fs (.name (.ofType ty x.ident)))) := by
      simp [next?, OpenDecl.field?, hx]
    have hend : (p.moveTo (.fields s fs (.name (.ofType ty x.ident)))).next? e = some
        (p.moveTo (.fields s (.ofType ty x.ident :: fs) .between)) := by
      simp [next?, OpenDecl.field?, he]
    refine Reads.append ?_ (.cons hname (.one hend))
    cases hty with
    | @word t _ h =>
      apply Reads.one
      cases hk : t.kind <;> rw [hk] at h <;> cases h <;>
        simp [next?, OpenDecl.field?, hk, TypeExpr.ofKind?]
    | @struct k y hk hy =>
      have htag : (p.moveTo (.fields s fs .between)).next? k = some
          (p.moveTo (.fields s fs .tag)) := by
        simp [next?, OpenDecl.field?, hk]
      exact .cons htag (.one (by simp [next?, OpenDecl.field?, hy]))

theorem reads_fields {s : Ident} {ds : List VarDecl} (h : Sequence VarDecl.Spelled ts ds) :
    (p.moveTo (.fields s [] .between)).Reads ts (p.moveTo (.fields s ds.reverse .between)) := by
  induction h with
  | nil => exact .nil
  | snoc _ hd ih => simpa using ih.append (reads_field hd)

/-! #### Bodies and whole declarations -/

/-- A block is read as the body of a function. -/
theorem reads_fnBody {h : FnHead} {b : FnBody} (hb : StmtPart.Spelled ts (.block b)) :
    (p.moveTo (.bodyOpen h)).Reads ts
      (p.finish (.func ⟨h.returnType, h.name, h.formals, b⟩)) := by
  cases hb with
  | @block ts us ds ss l r hl hds hss hr =>
    have hopen : (p.moveTo (.bodyOpen h)).next? l = some (p.moveTo (.body (.start h))) := by
      simp [next?, hl]
    have hdecls := PartialBody.reads_varDecls (b := .start h) hds rfl rfl
    have hstmts := hss.isRead ((PartialBody.start h).addDecls ds) rfl
    apply ((Reads.cons hopen (reads_of_body hdecls)).append (reads_of_body hstmts)).snoc
    simp [next?, body?, hr, PartialBody.complete?, PartialBody.addStmts, PartialBody.addDecls,
      PartialBody.start, OpenBlock.body, OpenBlock.empty, finish, moveTo]

theorem reads_structDecl {d : StructDecl} (h : StructDecl.Spelled ts d) (hp : p.IsBetween) :
    p.Reads ts (p.finish (.struct d) .structEnd) := by
  cases h with
  | @mk ts ds k x l r hk hx hl hds hne hr =>
    have htag : p.next? k = some (p.moveTo .tag) := by
      simp [next?_first hp, OpenDecl.first?, hk]
    have hname : (p.moveTo .tag).next? x = some (p.moveTo (.tagName x.ident)) := by
      simp [next?, hx]
    have hopen : (p.moveTo (.tagName x.ident)).next? l = some
        (p.moveTo (.fields x.ident [] .between)) := by
      simp [next?, hl]
    apply (Reads.cons htag (.cons hname (.cons hopen (reads_fields hds)))).snoc
    obtain ⟨f, fs, hfs⟩ := List.exists_cons_of_ne_nil (mt List.reverse_eq_nil_iff.1 hne)
    rw [hfs, ← List.reverse_reverse ds, hfs]
    simp [next?, hr, finish, moveTo]

theorem reads_decl {d : Decl} (h : Decl.Spelled ts d) (hp : p.IsBetween) :
    ∃ q, p.Reads ts q ∧ q.decls = d :: p.decls ∧ q.IsBetween := by
  cases h with
  | @var _ d h =>
    cases h with
    | @ofType ts ty x e hty hx he =>
      refine ⟨p.finish (.var (.ofType ty x.ident)), ?_, rfl, .inl rfl⟩
      simpa using (reads_typed hty hx hp).snoc (t := e) (by simp [next?, he]; rfl)
  | @func ts us vs ty fs b x l r hty hx hl hfs hr hb =>
    refine ⟨p.finish (.func ⟨ty, x.ident, fs, b⟩), ?_, rfl, .inl rfl⟩
    have hopen : (p.moveTo (.name ty x.ident)).next? l = some
        (p.moveTo (.formals ⟨ty, x.ident, []⟩ .first)) := by
      simp [next?, hl]
    simpa using (reads_typed hty hx hp).append
      (.cons hopen ((reads_formals hfs hr).append (reads_fnBody hb)))
  | struct h => exact ⟨_, reads_structDecl h hp, rfl, .inr rfl⟩
  | @structEnd ts d e h he =>
    refine ⟨p.finish (.struct d), (reads_structDecl h hp).snoc ?_, rfl, .inl rfl⟩
    simp [next?, finish, he, moveTo]

theorem reads_decls {ds : List Decl} (h : Sequence Decl.Spelled ts ds) :
    ∃ q, start.Reads ts q ∧ q.decls = ds.reverse ∧ q.IsBetween := by
  induction h with
  | nil => exact ⟨start, .nil, rfl, .inl rfl⟩
  | snoc _ hd ih =>
    obtain ⟨q, hq, hds, hb⟩ := ih
    obtain ⟨r, hr, hds', hb'⟩ := reads_decl hd hb
    exact ⟨r, hq.append hr, by simp [hds', hds], hb'⟩

/-- Declarations that are spelled are read as a complete program. -/
theorem complete?_of_spelled {ds : List Decl} (h : Sequence Decl.Spelled ts ds) :
    ∃ q, start.read ts = .ok q ∧ q.complete? = some ds := by
  obtain ⟨q, hq, hds, hb⟩ := reads_decls h
  exact ⟨q, read_eq_ok_iff.2 hq, by rw [complete?_of_isBetween hb, hds, List.reverse_reverse]⟩

end PartialProgram

end Carrot
