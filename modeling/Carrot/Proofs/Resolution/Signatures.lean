import Carrot.Proofs.Resolution.Cascade
import Carrot.Proofs.Resolution.Firsts

/-! # Signatures and formals

A function lists its parameters twice. Its signature has the first formal of each name, void or
not. The scope that its body sees has the first formal of each name that is not void. The two agree
on a name unless its first formal is void.
-/

namespace Carrot

/-! ### What formals report -/

namespace Formal

/-- What is reported of a formal behind others: that it is void, or that its name is bound. -/
def complaint? (before : List Formal) (f : Formal) : Option Diagnostic :=
  if f.type = .void then some (.error f.name.position .voidNonFunction)
  else if ∃ g ∈ before, g.type ≠ .void ∧ g.name.name = f.name.name then
    some (.error f.name.position .multiplyDeclared)
  else none

/-- What is reported of formals behind others, in order. -/
def complaints : List Formal → List Formal → List Diagnostic
  | _, [] => []
  | before, f :: fs => (f.complaint? before).toList ++ complaints (before ++ [f]) fs

/-- What a formal is bound to for the body of its function. -/
def binding (f : Formal) : Binding := ⟨f.type.label, some f.name.position, .formal⟩

/-- The scope that some formals make: the first of each name among those that are not void. -/
def scope (fs : List Formal) : Scope Binding :=
  .ofFirsts (·.name.name) binding (fs.filter (·.type ≠ .void))

/-- The parameters of a signature: the first of each name. -/
def params (fs : List Formal) : List Param :=
  (firsts (·.name.name) fs).map fun f => ⟨f.name.name, f.type.label⟩

variable {fs : List Formal} {f : Formal}

theorem scope_append_singleton :
    scope (fs ++ [f]) =
      if f.type = .void then scope fs else (scope fs).insertNew f.name.name f.binding := by
  rw [scope, List.filter_append]
  by_cases hv : f.type = .void
  · rw [if_pos hv, List.filter_cons_of_neg (by simpa using hv), List.filter_nil, List.append_nil,
      scope]
  · rw [if_neg hv, List.filter_cons_of_pos (by simpa using hv), List.filter_nil,
      Scope.ofFirsts_append_singleton, scope]

theorem isSome_lookup_scope (fs : List Formal) (n : String) :
    ((scope fs).lookup n).isSome ↔ ∃ g ∈ fs, g.type ≠ .void ∧ g.name.name = n := by
  rw [scope, Scope.isSome_lookup_ofFirsts]
  simp [and_assoc]

theorem params_eq_signature (fs : List Formal) :
    params fs = Param.signature (fs.map fun f => ⟨f.name.name, f.type.label⟩) := by
  rw [Param.signature_eq_firsts, firsts_map, params]

/-- If the first formal of a name is not void, the signature has its type, and so has the binding
that the body sees. -/
theorem agree_of_first {before after : List Formal} (hfs : fs = before ++ f :: after)
    (hfirst : ∀ g ∈ before, g.name.name ≠ f.name.name) (hv : f.type ≠ .void) :
    ⟨f.name.name, f.type.label⟩ ∈ params fs ∧ (scope fs).lookup f.name.name = some f.binding := by
  subst hfs
  constructor
  · exact List.mem_map_of_mem (mem_firsts after hfirst)
  · have hnone : (before.filter (·.type ≠ .void)).find? (·.name.name = f.name.name) = none := by
      rw [List.find?_eq_none]
      exact fun g hg => by simpa using hfirst g (List.mem_of_mem_filter hg)
    rw [scope, Scope.lookup_ofFirsts, List.filter_append, List.find?_append, hnone, Option.none_or,
      List.filter_cons_of_pos (by simpa using hv), List.find?_cons_of_pos (by simp),
      Option.map_some]

end Formal

namespace Context

variable {c : Context}

theorem context_all_append {α : Type} (f : Context → α → Outcome α) (c : Context)
    (xs ys : List α) : (all f c (xs ++ ys)).context = (all f (all f c xs).context ys).context := by
  induction xs generalizing c with
  | nil => rfl
  | cons x xs ih => exact ih (f c x).context

theorem front_formal (f : Formal) : (c.formal f).context.front =
    if f.type = .void then c.front else c.front.insertNew f.name.name f.binding := by
  fun_cases formal c f with
  | case1 hv => rw [if_pos hv]
  | case2 hv hl => rw [if_neg hv, Scope.insertNew, if_pos hl]
  | case3 hv hl =>
    rw [if_neg hv, Scope.insertNew, if_neg hl]
    rfl

/-- The scope of a function behind some of its formals. -/
theorem front_formals (fs : List Formal) :
    (c.enter.formals fs).context.front = Formal.scope fs := by
  induction fs using List.reverseRecOn with
  | nil => rfl
  | append_singleton fs f ih =>
    rw [formals, context_all_append, ← formals, Formal.scope_append_singleton, ← ih]
    exact front_formal f

theorem found_formal {before : List Formal} (hfront : c.front = Formal.scope before) (f : Formal) :
    (c.formal f).found = (f.complaint? before).toList := by
  have htaken := Formal.isSome_lookup_scope before f.name.name
  unfold formal Formal.complaint?
  rw [hfront]
  by_cases hv : f.type = .void
  · simp [hv]
  · by_cases hl : ((Formal.scope before).lookup f.name.name).isSome
    · rw [if_neg hv, if_pos hl, if_neg hv, if_pos (htaken.1 hl)]
      rfl
    · rw [if_neg hv, if_neg hl, if_neg hv, if_neg (mt htaken.2 hl)]
      rfl

theorem found_formals (before fs : List Formal) :
    ((c.enter.formals before).context.formals fs).found = Formal.complaints before fs := by
  induction fs generalizing before with
  | nil => rfl
  | cons f fs ih =>
    have hrest := ih (before ++ [f])
    rw [formals, formals, context_all_append, ← formals] at hrest
    rw [formals, all, found_formal (front_formals before), Formal.complaints]
    exact congrArg _ hrest

/-! ### The name of a function -/

variable {d : FnDecl}

theorem fnName_of_free (h : c.front.lookup d.name.name = none) {own : Binding}
    (hown : own = Session.fnBinding d) :
    c.fnName d = ⟨{ d.name with binding := some own }, c.bind d.name.name own, []⟩ := by
  rw [fnName, hown, if_neg (by simp [h])]

theorem fnName_of_taken (h : c.front.lookup d.name.name ≠ none) :
    c.fnName d = ⟨d.name, c, [.error d.name.position .multiplyDeclared]⟩ := by
  rw [fnName, if_pos (Option.isSome_iff_ne_none.2 h)]

end Context

namespace Session

open Resolution (unknownFieldProgram unknownFieldSession reaches_unknownFieldSession)

theorem fnBinding_eq (d : FnDecl) : fnBinding d =
    ⟨d.returnType.label, some d.name.position, .func (Formal.params d.formals)⟩ := by
  rw [fnBinding, Formal.params_eq_signature]

/-- The visit of a function, in a session without a fault that has a scope: its name is bound if it
is free, and its body is visited where its formals have been. -/
theorem fnDecl_of_scope {s : Session} {front : Scope Binding} {outer : List (Scope Binding)}
    (hf : s.fault = none) (hs : s.table.scopes = front :: outer) {d : FnDecl}
    (hname : d.name.name ≠ "") :
    (s.fnDecl d).1.name = (Context.fnName ⟨front, outer, s.fields⟩ d).node ∧
      (s.fnDecl d).1.body =
        ((all formal (s.fnName d).2.push d.formals).2.body d.body).1 := by
  have hdecl := (fnDecl_eq s d).trans (run_of_fault hf d _)
  refine ⟨?_, congrArg (·.1.body) hdecl⟩
  have hnamed := fnName_ofContext ⟨front, outer, s.fields⟩ d s.table.marked s.log hname
  rw [← eq_ofContext hf hs] at hnamed
  exact (congrArg (·.1.name) hdecl).trans (congrArg Prod.fst hnamed)

/-- The session in which the body of a function is visited. -/
theorem formals_fnName (c : Context) (m : Bool) (log : List Diagnostic) {d : FnDecl}
    (hname : d.name.name ≠ "") (hformals : Named (d.formals.map (·.name))) :
    ∃ n, (all formal ((ofContext c m log).fnName d).2.push d.formals).2 =
      ofContext ⟨Formal.scope d.formals, (c.fnName d).context.scopes, (c.fnName d).context.fields⟩ n
        (log ++ (c.fnName d).found ++ Formal.complaints [] d.formals) := by
  have hcontext : ((c.fnName d).context.enter.formals d.formals).context =
      ⟨Formal.scope d.formals, (c.fnName d).context.scopes, (c.fnName d).context.fields⟩ := by
    have hextends := (c.fnName d).context.enter.formals_extends d.formals
    rw [← (c.fnName d).context.front_formals d.formals]
    exact congrArg₂ (Context.mk _) hextends.outer hextends.fields
  have hfound : ((c.fnName d).context.enter.formals d.formals).found =
      Formal.complaints [] d.formals := (c.fnName d).context.found_formals [] d.formals
  simp only [fnName_ofContext c d m log hname, Outcome.session, push_ofContext,
    formals_ofContext _ _ _ _ hformals, hcontext, hfound]
  exact ⟨_, rfl⟩

/-- What a function records, and what its body sees, in a session without a fault that has a scope,
as every session of a run is (`Reaches.exists_scope`). The signature has the first formal of each
name. When the body is entered, the scope of the function has the first formal of each name that is
not void, with its type and its place, in front of the other scopes; these are as before, but for
the function itself, if its name is free. So where the first formal of a name is not void, the
signature and the body agree on its type. Besides a name that is taken, each void formal is
reported, and each other one whose name is bound, in order. -/
theorem fnDecl_records_formals (s : Session) (d : FnDecl) {front : Scope Binding}
    {outer : List (Scope Binding)} (hf : s.fault = none) (hs : s.table.scopes = front :: outer)
    (hname : d.name.name ≠ "") (hformals : Named (d.formals.map (·.name))) :
    let own : Binding :=
      ⟨d.returnType.label, some d.name.position, .func (Formal.params d.formals)⟩
    let x := (s.fnDecl d).1.name
    ∃ t, s.Calls (.decl (.func d)) t (.body d.body) ∧ t.fault = none ∧
      (s.fnDecl d).1.body = (t.body d.body).1 ∧
      (front.lookup d.name.name = none → x = { d.name with binding := some own } ∧
        t.table.scopes = Formal.scope d.formals :: (front ++ [(d.name.name, own)]) :: outer ∧
        t.log = s.log ++ Formal.complaints [] d.formals) ∧
      (front.lookup d.name.name ≠ none → x = d.name ∧
        t.table.scopes = Formal.scope d.formals :: front :: outer ∧
        t.log = s.log ++ .error d.name.position .multiplyDeclared ::
          Formal.complaints [] d.formals) ∧
      ((Formal.params d.formals).map (·.name)).Nodup ∧
      ((Formal.scope d.formals).map (·.1)).Nodup ∧
      ∀ before f after, d.formals = before ++ f :: after →
        (∀ g ∈ before, g.name.name ≠ f.name.name) → f.type ≠ .void →
        ⟨f.name.name, f.type.label⟩ ∈ Formal.params d.formals ∧
          t.table.lookupLocal f.name.name =
            some ⟨f.type.label, some f.name.position, .formal⟩ := by
  intro own x
  obtain ⟨hx, hbody⟩ : x = _ ∧ _ := fnDecl_of_scope hf hs hname
  obtain ⟨n, ht⟩ :=
    formals_fnName ⟨front, outer, s.fields⟩ s.table.marked s.log hname hformals
  rw [← eq_ofContext hf hs] at ht
  refine ⟨_, .fnBody, ?_⟩
  rw [ht] at hbody ⊢
  refine ⟨rfl, hbody, fun hfree => ?_, fun htaken => ?_, ?_, ?_,
    fun before f after hsplit hfirst hv => Formal.agree_of_first hsplit hfirst hv⟩
  · have heq := Context.fnName_of_free (c := ⟨front, outer, s.fields⟩) hfree (fnBinding_eq d).symm
    rw [hx, heq, List.append_nil]
    exact ⟨rfl, rfl, rfl⟩
  · have heq := Context.fnName_of_taken (c := ⟨front, outer, s.fields⟩) htaken
    rw [hx, heq, List.append_assoc]
    exact ⟨rfl, rfl, rfl⟩
  · rw [Formal.params, List.map_map]
    exact nodup_firsts _ _
  · exact Scope.nodup_ofFirsts _ _ _

/-- A function whose formals repeat the names `a` and `b`, void ones among them. -/
def repeatingFunction : FnDecl :=
  let formal (type : TypeExpr) (name : String) (column : Int) : Formal :=
    ⟨type, ⟨name, ⟨6, column⟩, none⟩⟩
  ⟨.int, ⟨"g", ⟨6, 5⟩, none⟩,
    [formal .void "a" 12, formal .int "a" 19, formal .bool "b" 27, formal .int "b" 34,
      formal .void "b" 42],
    ⟨[], [.ret (some (.ident ⟨"a", ⟨7, 8⟩, none⟩))]⟩⟩

/-- Behind a struct and a variable, the signature calls `a` void, and the body sees an integer. -/
theorem fnDecl_records_formals_repeating :
    (Session.new .empty).Reaches (.program unknownFieldProgram) unknownFieldSession [] ∧
      ∃ t, unknownFieldSession.Calls (.decl (.func repeatingFunction)) t
          (.body repeatingFunction.body) ∧
        (unknownFieldSession.fnDecl repeatingFunction).1.name.binding.map (·.role) =
          some (.func [⟨"a", "void"⟩, ⟨"b", "bool"⟩]) ∧
        t.table.scopes.head? = some [("a", ⟨"int", some ⟨6, 19⟩, .formal⟩),
          ("b", ⟨"bool", some ⟨6, 27⟩, .formal⟩)] ∧
        t.log = unknownFieldSession.log ++ [.error ⟨6, 12⟩ .voidNonFunction,
          .error ⟨6, 34⟩ .multiplyDeclared, .error ⟨6, 42⟩ .voidNonFunction] := by
  obtain ⟨t, hcalls, -, -, hbound, -⟩ := fnDecl_records_formals unknownFieldSession
    repeatingFunction rfl rfl (by decide) (by unfold Named; decide)
  obtain ⟨hname, hscopes, hlog⟩ := hbound rfl
  have hscope : Formal.scope repeatingFunction.formals =
      [("a", ⟨"int", some ⟨6, 19⟩, .formal⟩), ("b", ⟨"bool", some ⟨6, 27⟩, .formal⟩)] := by
    decide
  refine ⟨reaches_unknownFieldSession, t, hcalls, ?_, ?_, hlog⟩
  · rw [hname]
    decide
  · rw [hscopes, hscope]
    rfl

end Session

end Carrot
