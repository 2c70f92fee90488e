import Carrot.Node
import Carrot.Proofs.Resolution.Blame
import Carrot.Proofs.Resolution.Lexical

/-! # What resolution leaves in place

Visiting a part of a program opens and closes scopes, but behind the part all scopes are
as they were, apart from the name that the part itself declares. So a run ends with one
scope, and in it stand the accepted declarations of the top level.
-/

namespace Carrot

/-! ### The entries of a block -/

namespace Scoping

variable {base : Nat} {outer : List (Scope Binding)}

/-- What the declaration `i` behind `before` adds to its block: nothing, unless it is accepted. -/
def added? (base : Nat) (outer : List (Scope Binding)) (before : List Item) (i : Item) :
    Option (String × Binding) :=
  if (scope base outer before).lookup i.name.name = none then
    (i.binding? base outer (scope base outer before)).map (i.name.name, ·)
  else none

/-- What the declarations `items` behind `before` add to their block, in order. -/
def entries (base : Nat) (outer : List (Scope Binding)) : List Item → List Item → Scope Binding
  | _, [] => []
  | before, i :: items =>
    (added? base outer before i).toList ++ entries base outer (before ++ [i]) items

theorem added?_eq_some_iff {before : List Item} {i : Item} {x : String} {b : Binding} :
    added? base outer before i = some (x, b) ↔
      i.name.name = x ∧ Accepted base outer before i b := by
  unfold added?
  constructor
  · intro h
    split at h
    · next hfree =>
      obtain ⟨c, hc, heq⟩ := Option.map_eq_some_iff.1 h
      cases heq
      exact ⟨rfl, hfree, hc⟩
    · cases h
  · rintro ⟨rfl, hfree, hfits⟩
    rw [if_pos hfree, hfits]
    rfl

theorem accept_eq_append (before : List Item) (i : Item) :
    accept base outer (scope base outer before) i =
      scope base outer before ++ (added? base outer before i).toList := by
  unfold added?
  cases hl : (scope base outer before).lookup i.name.name with
  | some b => simp [accept_of_taken hl]
  | none =>
    cases hb : i.binding? base outer (scope base outer before) with
    | none => simp [accept_of_unfit hb]
    | some b => simp [accept_of_free hl hb]

theorem scope_append (before items : List Item) :
    scope base outer (before ++ items) =
      scope base outer before ++ entries base outer before items := by
  induction items generalizing before with
  | nil => simp [entries]
  | cons i items ih =>
    rw [List.append_cons, ih, scope_append_singleton, accept_eq_append, entries,
      List.append_assoc]

theorem scope_eq_entries (items : List Item) :
    scope base outer items = entries base outer [] items := scope_append [] items

/-- The entries are the bindings of the accepted declarations. -/
theorem mem_entries_iff {before items : List Item} {x : String} {b : Binding} :
    (x, b) ∈ entries base outer before items ↔ ∃ l i r, items = l ++ i :: r ∧
      i.name.name = x ∧ Accepted base outer (before ++ l) i b := by
  induction items generalizing before with
  | nil => simp [entries]
  | cons j items ih =>
    rw [entries, List.mem_append, Option.mem_toList, added?_eq_some_iff, ih]
    constructor
    · rintro (⟨hname, haccepted⟩ | ⟨l, i, r, rfl, hname, haccepted⟩)
      · exact ⟨[], j, items, rfl, hname, by simpa using haccepted⟩
      · exact ⟨j :: l, i, r, rfl, hname, by simpa using haccepted⟩
    · rintro ⟨l, i, r, hsplit, hname, haccepted⟩
      cases l with
      | nil =>
        cases hsplit
        exact .inl ⟨hname, by simpa using haccepted⟩
      | cons k l =>
        cases hsplit
        exact .inr ⟨l, i, r, rfl, hname, by simpa using haccepted⟩

theorem nodup_insertNew {s : Scope Binding} (h : (s.map (·.1)).Nodup) (name : String)
    (b : Binding) : ((s.insertNew name b).map (·.1)).Nodup := by
  unfold Scope.insertNew
  split
  · exact h
  · next hfree =>
    have hnot : name ∉ s.map (·.1) := by
      intro hmem
      obtain ⟨e, he, rfl⟩ := List.mem_map.1 hmem
      exact hfree (List.lookup_isSome_iff.2 ⟨e, he, by simp⟩)
    rw [List.map_append, List.nodup_append]
    have hone : [name].Nodup := List.nodup_cons.2 ⟨List.not_mem_nil, List.nodup_nil⟩
    refine ⟨h, hone, fun x hx y hy hxy => hnot ?_⟩
    obtain rfl : y = name := by simpa using hy
    exact hxy ▸ hx

/-- A block has at most one entry for each name. -/
theorem nodup_scope (items : List Item) : ((scope base outer items).map (·.1)).Nodup := by
  induction items using List.reverseRecOn with
  | nil => simp
  | append_singleton items i ih =>
    rw [scope_append_singleton, accept]
    split
    · exact ih
    · exact nodup_insertNew ih _ _

theorem atTop_decls {c : Context} {before : List Item} (h : AtTop base c before)
    (ds : List Decl) : AtTop base (c.decls ds).context (before ++ ds.map .ofDecl) := by
  induction ds generalizing c before with
  | nil => simpa [Context.decls, Context.all] using h
  | cons d ds ih => simpa [Context.decls, Context.all] using ih (agree_decl h d).2

end Scoping

/-! ### What a declaration adds -/

namespace Context

/-- The context is `c` with at most one more binding behind the others of the innermost scope:
that of the name `x`, which is noted on it as `y` shows. The fields of all structs are kept. -/
structure Gains (d c : Context) (x y : Ident) : Prop where
  outer : d.outer = c.outer
  fields : c.fields.tables <+: d.fields.tables
  front : d.front = c.front ∨ ∃ b : Binding, b.declaredAt = some x.position ∧
    y = { x with binding := some b } ∧ d.front = c.front ++ [(x.name, b)]

namespace Gains

variable {c : Context} {x y : Ident}

theorem refl (c : Context) (x y : Ident) : c.Gains c x y := ⟨rfl, List.prefix_rfl, .inl rfl⟩

theorem bind {b : Binding} (hb : b.declaredAt = some x.position) :
    (c.bind x.name b).Gains c x { x with binding := some b } :=
  ⟨rfl, List.prefix_rfl, .inr ⟨b, hb, rfl, rfl⟩⟩

end Gains

variable {c : Context}

theorem gains_varDecl (d : VarDecl) :
    (c.varDecl d).context.Gains c d.name (c.varDecl d).node.name := by
  fun_cases varDecl c d with
  | case1 => exact .refl c _ _
  | case2 => exact .refl c _ _
  | case3 =>
    fun_cases declareVar c d with
    | case1 => exact .refl c _ _
    | case2 => exact .refl c _ _
    | case3 => exact .bind rfl
    | case4 => exact .bind rfl

theorem gains_formal (f : Formal) :
    (c.formal f).context.Gains c f.name (c.formal f).node.name := by
  fun_cases formal c f with
  | case1 => exact .refl c _ _
  | case2 => exact .refl c _ _
  | case3 => exact .bind rfl

theorem gains_fnName (d : FnDecl) : (c.fnName d).context.Gains c d.name (c.fnName d).node := by
  fun_cases fnName c d with
  | case1 => exact .refl c _ _
  | case2 => exact .bind rfl

theorem gains_structDecl (d : StructDecl) :
    (c.structDecl d).context.Gains c d.name (c.structDecl d).node.name := by
  fun_cases structDecl c d with
  | case1 => exact .refl c _ _
  | case2 => exact ⟨rfl, List.prefix_append _ _, .inr ⟨_, rfl, rfl, rfl⟩⟩

end Context

def Decl.name : Decl → Ident
  | .var d => d.name
  | .func d => d.name
  | .struct d => d.name

theorem Context.gains_decl (c : Context) (d : Decl) :
    (c.decl d).context.Gains c d.name (c.decl d).node.name := by
  cases d with
  | var d => exact gains_varDecl d
  | func d => exact gains_fnName d
  | struct d => exact gains_structDecl d

/-! ### Nodes -/

namespace Node

/-- The declarations, statements and expressions among the nodes. -/
def IsPart : Node → Prop
  | .decl _ | .formal _ | .stmt _ | .expr _ => True
  | .program _ | .body _ | .type _ | .position _ => False

/-- The name that a node itself declares. -/
def ownName? : Node → Option Ident
  | .decl d => some d.name
  | .formal f => some f.name
  | _ => none

/-- All names that a node declares, those of its parts included. -/
def declared : Node → List Ident
  | .program p => p.declared
  | .decl d => d.declared
  | .formal f => [f.name]
  | .body b => b.declared
  | .stmt s => s.declared
  | .expr _ | .type _ | .position _ => []

end Node

namespace Session

/-- The session is `s` with at most one more binding behind the others of the innermost scope: that
of the name `own?`, which is noted on it as `noted?` shows. -/
structure Keeps (t s : Session) (own? noted? : Option Ident) : Prop where
  fault : t.fault = none
  fields : s.fields.tables <+: t.fields.tables
  scopes : t.table.scopes = s.table.scopes ∨ ∃ x front outer b, own? = some x ∧
    noted? = some { x with binding := some b } ∧ b.declaredAt = some x.position ∧
    s.table.scopes = front :: outer ∧ t.table.scopes = (front ++ [(x.name, b)]) :: outer

/-- A session without a fault that has a scope is given by what is in scope. -/
theorem eq_ofContext {s : Session} {front : Scope Binding} {outer : List (Scope Binding)}
    (hf : s.fault = none) (hs : s.table.scopes = front :: outer) :
    s = ofContext ⟨front, outer, s.fields⟩ s.table.marked s.log := by
  obtain ⟨⟨_, _⟩, _, _, _⟩ := s
  cases hf
  cases hs
  rfl

theorem keeps_of_resolved (c : Context) (m n : Bool) (log log' : List Diagnostic)
    (own? noted? : Option Ident) : (ofContext c n log').Keeps (ofContext c m log) own? noted? :=
  ⟨rfl, List.prefix_rfl, .inl rfl⟩

theorem keeps_of_gains {c d : Context} {x y : Ident} (h : d.Gains c x y) (m n : Bool)
    (log log' : List Diagnostic) :
    (ofContext d n log').Keeps (ofContext c m log) (some x) (some y) := by
  refine ⟨rfl, h.fields, ?_⟩
  rcases h.front with hfront | ⟨b, hb, hy, hfront⟩
  · left
    simp only [ofContext, Context.scopes, hfront, h.outer]
  · right
    refine ⟨x, c.front, c.outer, b, rfl, congrArg some hy, hb, rfl, ?_⟩
    simp only [ofContext, Context.scopes, hfront, h.outer]

/-- Visiting a part of a program leaves everything in place but the name that it declares. -/
theorem keeps_node {s : Session} {n : Node} (hf : s.fault = none) (hs : s.table.scopes ≠ [])
    (hn : n.IsPart) (hnamed : Named n.declared) :
    (s.node n).2.2.Keeps s n.ownName? (s.node n).1.ownName? := by
  obtain ⟨front, outer, hscopes⟩ := List.exists_cons_of_ne_nil hs
  rw [eq_ofContext hf hscopes]
  generalize (⟨front, outer, s.fields⟩ : Context) = c
  cases n with
  | decl d =>
    simp only [node, decl_ofContext c d _ _ hnamed, Outcome.session]
    exact keeps_of_gains (c.gains_decl d) _ _ _ _
  | formal f =>
    simp only [node, formal_ofContext c f _ _ (named_cons.1 hnamed).1, Outcome.session]
    exact keeps_of_gains (Context.gains_formal f) _ _ _ _
  | stmt t =>
    simp only [node, stmt_ofContext c _ _ t hnamed, Resolved.session]
    exact keeps_of_resolved c _ _ _ _ _ _
  | expr e =>
    simp only [node, expr_ofContext, Resolved.session]
    exact keeps_of_resolved c _ _ _ _ _ _
  | program p => cases hn
  | body b => cases hn
  | type t => cases hn
  | position p => cases hn

end Session

/-! ### Runs -/

namespace Resolution

open Scoping

/-- A run over a program whose declared names are not empty meets no fault, reports at identifiers
of the program only and ends with one scope: the accepted declarations of the top level in
order, the first accepted one for each name. And visiting any part of a program, in whatever
scopes, leaves the scopes and the fields of all structs as they were, but for the name that the
part itself declares, which comes last in the innermost scope. -/
theorem restores_scopes :
    (∀ (p : Program) (fields : StructFields), Named p.declared →
      let base := fields.nextId
      let items := p.decls.map Item.ofDecl
      let s := (ofProgram p fields).session
      s.fault = none ∧ Blames s.log p.leaves ∧
        ∃ top : Scope Binding, s.table.scopes = [top] ∧ top = entries base [] [] items ∧
          (top.map (·.1)).Nodup ∧ ∀ x b, (x, b) ∈ top ↔ ∃ before i after,
            items = before ++ i :: after ∧ i.name.name = x ∧ Accepted base [] before i b) ∧
    ∀ (s : Session) (n : Node), s.fault = none → s.table.scopes ≠ [] → n.IsPart →
      Named n.declared → (s.node n).2.2.Keeps s n.ownName? (s.node n).1.ownName? := by
  refine ⟨fun p fields hp => ?_, fun s n hf hs hn hnamed => s.keeps_node hf hs hn hnamed⟩
  intro base items s
  have hs : s = .ofContext ((Context.initial fields).decls p.decls).context
      (!((Context.initial fields).decls p.decls).found.isEmpty)
      ((Context.initial fields).decls p.decls).found :=
    congrArg (·.session) (ofProgram_eq p fields hp)
  -- What is in scope at the top level is what the declarations before are accepted as.
  have hfirst : AtTop base (.initial fields) [] := ⟨rfl, rfl⟩
  have htop : AtTop base ((Context.initial fields).decls p.decls).context items :=
    atTop_decls hfirst p.decls
  have hscopes : s.table.scopes = [scope base [] items] := by
    rw [hs]
    exact htop.scopes
  refine ⟨by rw [hs]; rfl, blames_diagnostics fields hp, _, hscopes, scope_eq_entries items,
    nodup_scope items, fun x b => ?_⟩
  rw [scope_eq_entries]
  exact mem_entries_iff

/-- A void variable, `a` declared three times over, a struct with fields of its own type, and a
function with a formal of its own name. -/
def crowdedProgram : Program :=
  let ident (name : String) (line : Int) : Ident := ⟨name, ⟨line, 1⟩, none⟩
  ⟨[.var ⟨.void, ident "v" 1, VarDecl.notStruct⟩,
    .var ⟨.int, ident "a" 2, VarDecl.notStruct⟩,
    .var ⟨.bool, ident "a" 3, VarDecl.notStruct⟩,
    .struct ⟨ident "S" 4, [⟨.struct (ident "S" 5), ident "next" 6, 0⟩,
      ⟨.void, ident "n" 7, VarDecl.notStruct⟩]⟩,
    .func ⟨.int, ident "f" 8, [⟨.int, ident "f" 9⟩],
      ⟨[⟨.struct (ident "S" 10), ident "s" 11, 0⟩],
        [.write (.dot (.ident (ident "s" 12)) (ident "next" 13))]⟩⟩,
    .struct ⟨ident "a" 14, [⟨.int, ident "n" 15, VarDecl.notStruct⟩]⟩], stdinName⟩

theorem restores_scopes_crowdedProgram :
    Named crowdedProgram.declared ∧ (ofProgram crowdedProgram).session.fault = none ∧
      (∃ top : Scope Binding, (ofProgram crowdedProgram).session.table.scopes = [top] ∧
        top.map (fun e => (e.1, e.2.label)) = [("a", "int"), ("S", "struct"), ("f", "int")]) ∧
      ∀ d ∈ crowdedProgram.decls,
        ((ofProgram crowdedProgram).session.node (.decl d)).2.2.Keeps
          (ofProgram crowdedProgram).session (some d.name)
          ((ofProgram crowdedProgram).session.node (.decl d)).1.ownName? := by
  have hnamed : Named crowdedProgram.declared := by unfold Named; decide
  obtain ⟨hfault, -, top, hscopes, htop, -, -⟩ := restores_scopes.1 crowdedProgram .empty hnamed
  refine ⟨hnamed, hfault, ⟨top, hscopes, by rw [htop]; decide⟩, fun d hd => ?_⟩
  refine restores_scopes.2 _ (.decl d) hfault (by rw [hscopes]; simp) trivial fun x hx => ?_
  exact hnamed x (List.mem_flatMap.2 ⟨d, hd, hx⟩)

end Resolution

end Carrot
