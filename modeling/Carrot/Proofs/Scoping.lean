import Carrot.Proofs.Resolution.Context
import Mathlib.Data.List.Induction

/-! # Lexical scoping

What a name stands for at a point of a program, said of the tree alone. A block
lists its declarations; one that is accepted binds its name in the block, and the
innermost block that binds a name decides. Nothing here is pushed, popped or
reported, and no binding that is already noted on the tree is looked at.
-/

namespace Carrot.Scoping

/-- A declaration as its block sees it. -/
inductive Item where
  | formal (f : Formal)
  | var (d : VarDecl)
  | func (d : FnDecl)
  | struct (d : StructDecl)
  deriving Repr

/-- The blocks around a point, the innermost first, each with its declarations before the point. -/
abbrev Blocks := List (List Item)

namespace Item

def name : Item → Ident
  | .formal f => f.name
  | .var d => d.name
  | .func d => d.name
  | .struct d => d.name

/-- What a declaration binds its name to, if its type allows it, behind the accepted
declarations `front` of its block and inside the scopes `outer`. Structs are numbered from
`base` on. -/
def binding? (base : Nat) (outer : List (Scope Binding)) (front : Scope Binding) :
    Item → Option Binding
  | .formal f =>
    if f.type = .void then none else some ⟨f.type.label, some f.name.position, .formal⟩
  | .var d =>
    match d.type with
    | .void => none
    | .struct tag =>
      (((front :: outer).findSome? (·.lookup tag.name)).bind (·.structRef?)).map fun ref =>
        ⟨tag.name, some d.name.position, .instanceOf (some ref)⟩
    | type => some ⟨type.label, some d.name.position, .var⟩
  | .func d => some (Session.fnBinding d)
  | .struct d =>
    some (.ofStruct d.name.name (some d.name.position)
      (base + front.countP fun e => e.2.structRef?.isSome))

end Item

/-- The accepted declarations of a block after one more declaration. -/
def accept (base : Nat) (outer : List (Scope Binding)) (front : Scope Binding) (i : Item) :
    Scope Binding :=
  match i.binding? base outer front with
  | none => front
  | some b => front.insertNew i.name.name b

/-- The accepted declarations of a block, in order. -/
def scope (base : Nat) (outer : List (Scope Binding)) (items : List Item) : Scope Binding :=
  items.foldl (accept base outer) []

/-- The accepted declarations of each block around a point. -/
def scopes (base : Nat) : Blocks → List (Scope Binding)
  | [] => []
  | items :: outer => scope base (scopes base outer) items :: scopes base outer

/-- What a name stands for at a point: its first accepted declaration in the innermost block
that has one. -/
def find (base : Nat) (blocks : Blocks) (name : String) : Option Binding :=
  (scopes base blocks).findSome? (·.lookup name)

/-- What a name stands for in the innermost block alone. -/
def findLocal (base : Nat) (blocks : Blocks) (name : String) : Option Binding :=
  (scopes base blocks).head?.bind (·.lookup name)

/-- The declaration `i` behind `before` in its block is accepted and binds its name to `b`. -/
structure Accepted (base : Nat) (outer : List (Scope Binding)) (before : List Item) (i : Item)
    (b : Binding) : Prop where
  free : (scope base outer before).lookup i.name.name = none
  fits : i.binding? base outer (scope base outer before) = some b

@[simp] theorem scope_nil (base : Nat) (outer : List (Scope Binding)) :
    scope base outer [] = [] := rfl

theorem scope_append_singleton (base : Nat) (outer : List (Scope Binding)) (items : List Item)
    (i : Item) :
    scope base outer (items ++ [i]) = accept base outer (scope base outer items) i := by
  simp [scope, List.foldl_append]

theorem lookup_insertNew (s : Scope Binding) (name x : String) (b : Binding) :
    (s.insertNew name b).lookup x = (s.lookup x).or (if name = x then some b else none) := by
  unfold Scope.insertNew
  by_cases hx : name = x
  · subst hx
    cases h : s.lookup name <;> simp [h, List.lookup_append]
  · have hne : (x == name) = false := by simpa using Ne.symm hx
    rw [if_neg hx, Option.or_none]
    split
    · rfl
    · simp [List.lookup_append, List.lookup_cons, hne]

section Admit

variable {base : Nat} {outer : List (Scope Binding)} {front : Scope Binding} {i : Item}

theorem accept_of_unfit (h : i.binding? base outer front = none) :
    accept base outer front i = front := by
  simp only [accept, h]

theorem accept_of_taken {b : Binding} (h : front.lookup i.name.name = some b) :
    accept base outer front i = front := by
  unfold accept
  split
  · rfl
  · simp [Scope.insertNew, h]

theorem accept_of_free {b : Binding} (h : front.lookup i.name.name = none)
    (hb : i.binding? base outer front = some b) :
    accept base outer front i = front ++ [(i.name.name, b)] := by
  simp only [accept, hb, Scope.insertNew, h, Option.isSome_none, Bool.false_eq_true, if_false]

end Admit

theorem lookup_accept (base : Nat) (outer : List (Scope Binding)) (front : Scope Binding)
    (i : Item) (x : String) :
    (accept base outer front i).lookup x =
      (front.lookup x).or (if i.name.name = x then i.binding? base outer front else none) := by
  unfold accept
  cases i.binding? base outer front with
  | none => simp
  | some b => exact lookup_insertNew front i.name.name x b

/-- A block binds a name to `b` exactly if `b` is the binding of its first accepted declaration
of that name. -/
theorem lookup_scope_eq_some_iff (base : Nat) (outer : List (Scope Binding))
    (items : List Item) (x : String) (b : Binding) :
    (scope base outer items).lookup x = some b ↔ ∃ before i after,
      items = before ++ i :: after ∧ i.name.name = x ∧ Accepted base outer before i b := by
  induction items using List.reverseRecOn with
  | nil => simp
  | append_singleton items i ih =>
    rw [scope_append_singleton, lookup_accept]
    constructor
    · intro h
      cases hx : (scope base outer items).lookup x with
      | some c =>
        obtain rfl : c = b := by simpa [hx] using h
        obtain ⟨before, j, after, rfl, hj, haccepted⟩ := ih.1 hx
        exact ⟨before, j, after ++ [i], by simp, hj, haccepted⟩
      | none =>
        obtain ⟨rfl, hb⟩ : i.name.name = x ∧ i.binding? base outer (scope base outer items) =
            some b := by simpa [hx] using h
        exact ⟨items, i, [], rfl, rfl, hx, hb⟩
    · rintro ⟨before, j, after, hsplit, rfl, haccepted⟩
      rcases List.eq_nil_or_concat after with rfl | ⟨after, k, rfl⟩
      · obtain ⟨rfl, hij⟩ := List.append_inj' hsplit rfl
        obtain rfl : i = j := by simpa using hij
        simp [haccepted.free, haccepted.fits]
      · have hshape : items ++ [i] = (before ++ j :: after) ++ [k] := by simpa using hsplit
        obtain ⟨rfl, -⟩ := List.append_inj' hshape rfl
        rw [ih.2 ⟨before, j, after, rfl, rfl, haccepted⟩, Option.some_or]

/-- `name` stands for `b` at a point: `b` is the binding of the first accepted declaration of
the name in the innermost block that has one. -/
inductive StandsFor (base : Nat) : Blocks → String → Binding → Prop where
  | here {before after : List Item} {i : Item} {outer : Blocks} {b : Binding}
      (h : Accepted base (scopes base outer) before i b) :
      StandsFor base ((before ++ i :: after) :: outer) i.name.name b
  | outward {items : List Item} {outer : Blocks} {name : String} {b : Binding}
      (hnone : ∀ before i after c, items = before ++ i :: after → i.name.name = name →
        ¬ Accepted base (scopes base outer) before i c)
      (h : StandsFor base outer name b) : StandsFor base (items :: outer) name b

theorem find_cons (base : Nat) (items : List Item) (outer : Blocks) (name : String) :
    find base (items :: outer) name =
      ((scope base (scopes base outer) items).lookup name).or (find base outer name) := by
  simp only [find, scopes, List.findSome?_cons]
  cases (scope base (scopes base outer) items).lookup name <;> rfl

theorem find_eq_some_iff (base : Nat) (blocks : Blocks) (name : String) (b : Binding) :
    find base blocks name = some b ↔ StandsFor base blocks name b := by
  -- The blocks are listed from the inside, so the first one that has the name decides.
  induction blocks with
  | nil =>
    constructor
    · intro h
      simp [find, scopes] at h
    · intro h
      cases h
  | cons items outer ih =>
    rw [find_cons]
    constructor
    · intro h
      cases hx : (scope base (scopes base outer) items).lookup name with
      | some c =>
        obtain rfl : c = b := by simpa [hx] using h
        obtain ⟨before, i, after, rfl, rfl, haccepted⟩ := (lookup_scope_eq_some_iff ..).1 hx
        exact .here haccepted
      | none =>
        refine .outward (fun before i after c hsplit hname haccepted => ?_) (ih.1 (by
          simpa [hx] using h))
        have hsome := (lookup_scope_eq_some_iff base (scopes base outer) items name c).2
          ⟨before, i, after, hsplit, hname, haccepted⟩
        simp [hx] at hsome
    · rintro (⟨haccepted⟩ | ⟨hnone, h⟩)
      · rw [(lookup_scope_eq_some_iff ..).2 ⟨_, _, _, rfl, rfl, haccepted⟩, Option.some_or]
      · have hx : (scope base (scopes base outer) items).lookup name = none := by
          rw [Option.eq_none_iff_forall_ne_some]
          intro c hc
          obtain ⟨before, i, after, hsplit, hname, haccepted⟩ := (lookup_scope_eq_some_iff ..).1 hc
          exact hnone before i after c hsplit hname haccepted
        rw [hx, Option.none_or, ih.2 h]

end Carrot.Scoping

namespace Carrot

/-! ### Uses -/

/-- An identifier with what it stands for noted; it is left as it was if it stands for nothing. -/
def Ident.noted (x : Ident) : Option Binding → Ident
  | some b => { x with binding := some b }
  | none => x

mutual

/-- The identifiers of an expression that stand for themselves, in the order of the text: all
but the fields behind dots. -/
def Expr.uses : Expr → List Ident
  | .int _ _ | .str _ _ | .bool _ _ => []
  | .ident x => [x]
  | .dot e _ => e.uses
  | .assign t v => t.uses ++ v.uses
  | .call f args => f :: Expr.listUses args
  | .unary _ e => e.uses
  | .binary _ l r => l.uses ++ r.uses

def Expr.listUses : List Expr → List Ident
  | [] => []
  | e :: es => e.uses ++ Expr.listUses es

end

mutual

def Stmt.uses : Stmt → List Ident
  | .assign t v => t.uses ++ v.uses
  | .increment p | .decrement p | .read p | .write p => p.uses
  | .ifThen e _ ss | .whileLoop e _ ss | .repeatLoop e _ ss => e.uses ++ Stmt.listUses ss
  | .ifElse e _ ss _ ess => e.uses ++ Stmt.listUses ss ++ Stmt.listUses ess
  | .call f args => f :: Expr.listUses args
  | .ret none => []
  | .ret (some v) => v.uses

def Stmt.listUses : List Stmt → List Ident
  | [] => []
  | s :: ss => s.uses ++ Stmt.listUses ss

end

def Decl.uses : Decl → List Ident
  | .func d => Stmt.listUses d.body.stmts
  | .var _ | .struct _ => []

/-- The identifiers in the expressions of a program, in the order of the text. -/
def Program.uses (p : Program) : List Ident := p.decls.flatMap Decl.uses

namespace Scoping

/-- A point where a name is looked up. -/
inductive Site where
  /-- An identifier in an expression. -/
  | use (blocks : Blocks) (x : Ident)
  /-- A variable declaration, whose type may name a struct. -/
  | decl (blocks : Blocks) (d : VarDecl)
  deriving Repr

namespace Site

def use? : Site → Option Ident
  | .use _ x => some x
  | .decl _ _ => none

/-- The identifier of a use with what it stands for noted. -/
def resolved? (base : Nat) : Site → Option Ident
  | .use blocks x => some (x.noted (find base blocks x.name))
  | .decl _ _ => none

/-- The name at a site that stands for nothing. The type of a declaration whose name is taken
is not looked at. -/
def missing? (base : Nat) : Site → Option Ident
  | .use blocks x => if (find base blocks x.name).isNone then some x else none
  | .decl blocks d =>
    match d.type with
    | .struct tag =>
      if findLocal base blocks d.name.name = none ∧ find base blocks tag.name = none
      then some tag else none
    | _ => none

end Site

/-- The sites of the declarations `ds` behind the declarations `before` of their block. -/
def declSites (outer : Blocks) : List Item → List VarDecl → List Site
  | _, [] => []
  | before, d :: ds => .decl (before :: outer) d :: declSites outer (before ++ [.var d]) ds

def exprSites (blocks : Blocks) (xs : List Ident) : List Site := xs.map (.use blocks)

mutual

def stmtSites (blocks : Blocks) : Stmt → List Site
  | .assign t v => exprSites blocks (t.uses ++ v.uses)
  | .increment p | .decrement p | .read p | .write p => exprSites blocks p.uses
  | .ifThen e ds ss | .whileLoop e ds ss | .repeatLoop e ds ss =>
    exprSites blocks e.uses ++ (declSites blocks [] ds ++ stmtsSites (ds.map .var :: blocks) ss)
  | .ifElse e ds ss eds ess =>
    exprSites blocks e.uses ++ (declSites blocks [] ds ++ stmtsSites (ds.map .var :: blocks) ss)
      ++ (declSites blocks [] eds ++ stmtsSites (eds.map .var :: blocks) ess)
  | .call f args => exprSites blocks (f :: Expr.listUses args)
  | .ret none => []
  | .ret (some v) => exprSites blocks v.uses

def stmtsSites (blocks : Blocks) : List Stmt → List Site
  | [] => []
  | s :: ss => stmtSites blocks s ++ stmtsSites blocks ss

end

/-- A declaration at the top level as its block sees it. -/
def Item.ofDecl : Decl → Item
  | .var d => .var d
  | .func d => .func d
  | .struct d => .struct d

/-- The sites of a declaration behind the declarations `before` at the top level. The block of
a function has its formals in front; the fields of a struct whose name is taken are passed
over. -/
def topSites (base : Nat) (before : List Item) : Decl → List Site
  | .var d => [.decl [before] d]
  | .func d =>
    let top := before ++ [.func d]
    let formals := d.formals.map Item.formal
    declSites [top] formals d.body.decls ++
      stmtsSites [formals ++ d.body.decls.map .var, top] d.body.stmts
  | .struct d =>
    if findLocal base [before] d.name.name = none then
      declSites [before ++ [.struct d]] [] d.fields
    else []

def sites (base : Nat) : List Item → List Decl → List Site
  | _, [] => []
  | before, d :: ds => topSites base before d ++ sites base (before ++ [.ofDecl d]) ds

/-! ### Every use is a site -/

@[simp] theorem use?_declSites (outer : Blocks) (before : List Item) (ds : List VarDecl) :
    (declSites outer before ds).filterMap Site.use? = [] := by
  induction ds generalizing before with
  | nil => rfl
  | cons d ds ih => simpa [declSites, Site.use?] using ih _

@[simp] theorem use?_exprSites (blocks : Blocks) (xs : List Ident) :
    (exprSites blocks xs).filterMap Site.use? = xs := by
  induction xs with
  | nil => rfl
  | cons x xs ih => simpa [exprSites, Site.use?] using ih

mutual

theorem use?_stmtSites : ∀ (t : Stmt) (blocks : Blocks),
    (stmtSites blocks t).filterMap Site.use? = t.uses
  | .assign _ _, _ | .increment _, _ | .decrement _, _ | .read _, _ | .write _, _ | .call _ _, _
  | .ret (some _), _ => by simp only [stmtSites, Stmt.uses, use?_exprSites]
  | .ret none, _ => rfl
  | .ifThen _ _ ss, _ | .whileLoop _ _ ss, _ | .repeatLoop _ _ ss, _ => by
    simp [stmtSites, Stmt.uses, use?_stmtsSites ss]
  | .ifElse _ _ ss _ ess, _ => by
    simp [stmtSites, Stmt.uses, use?_stmtsSites ss, use?_stmtsSites ess]

theorem use?_stmtsSites : ∀ (ss : List Stmt) (blocks : Blocks),
    (stmtsSites blocks ss).filterMap Site.use? = Stmt.listUses ss
  | [], _ => rfl
  | s :: ss, _ => by
    simp [stmtsSites, Stmt.listUses, use?_stmtSites s, use?_stmtsSites ss]

end

theorem use?_topSites (base : Nat) (before : List Item) (d : Decl) :
    (topSites base before d).filterMap Site.use? = d.uses := by
  cases d with
  | var d => rfl
  | func d => simp [topSites, Decl.uses, use?_stmtsSites]
  | struct d =>
    simp only [topSites, Decl.uses]
    split_ifs <;> simp

theorem use?_sites (base : Nat) (before : List Item) (ds : List Decl) :
    (sites base before ds).filterMap Site.use? = ds.flatMap Decl.uses := by
  induction ds generalizing before with
  | nil => rfl
  | cons d ds ih => simp [sites, use?_topSites, ih]

end Scoping

end Carrot
