import Carrot.Proofs.Resolution.Cascade
import Carrot.Proofs.Resolution.Firsts

/-! # The fields that a struct records

The fields of a struct are gone through twice: they are listed in a table of the struct, and then
declared in a scope that is closed again. While they are declared, earlier fields hide what is
in scope around the struct. If nothing is reported, none of the types was hidden, and what is noted
on the fields is what is listed.
-/

namespace Carrot

/-! ### Records of fields -/

namespace VarDecl

/-- What a field is listed as, by the scopes around the fields: an instance of a struct, known or
not, or a variable. -/
def record (scopes : List (Scope Binding)) (v : VarDecl) : Binding :=
  match v.type with
  | .struct tag =>
    ⟨tag.name, some v.name.position,
      .instanceOf ((scopes.findSome? (·.lookup tag.name)).bind (·.structRef?))⟩
  | type => ⟨type.label, some v.name.position, .var⟩

/-- The table of a struct: the first of each name among the fields that are not void. -/
def records (scopes : List (Scope Binding)) (vs : List VarDecl) : Scope Binding :=
  .ofFirsts (·.name.name) (record scopes) (vs.filter (·.type ≠ .void))

variable {scopes : List (Scope Binding)} {vs : List VarDecl} {v : VarDecl}

theorem records_append_singleton : records scopes (vs ++ [v]) =
    if v.type = .void then records scopes vs
    else (records scopes vs).insertNew v.name.name (v.record scopes) := by
  rw [records, List.filter_append]
  by_cases hv : v.type = .void
  · rw [if_pos hv, List.filter_cons_of_neg (by simpa using hv), List.filter_nil, List.append_nil,
      records]
  · rw [if_neg hv, List.filter_cons_of_pos (by simpa using hv), List.filter_nil,
      Scope.ofFirsts_append_singleton, records]

theorem records_eq_map (hvoid : ∀ v ∈ vs, v.type ≠ .void) (hnodup : (vs.map (·.name.name)).Nodup) :
    records scopes vs = vs.map fun v => (v.name.name, v.record scopes) := by
  have hfilter : vs.filter (·.type ≠ .void) = vs := by
    rw [List.filter_eq_self]
    simpa using hvoid
  rw [records, hfilter, Scope.ofFirsts, firsts_eq_self hnodup]

/-- A scope of variables in front hides a struct, or makes no difference. -/
theorem record_cons {front : Scope Binding} (hfront : front.Forall Binding.IsVariable)
    (h : (v.record (front :: scopes)).Checked) :
    v.record (front :: scopes) = v.record scopes := by
  unfold record at h ⊢
  split
  · next tag htype =>
    simp only [htype] at h
    cases hl : front.lookup tag.name with
    | none => rw [List.findSome?_cons, hl]
    | some b =>
      have hnone := (hfront _ (mem_of_lookup hl)).structRef?_eq_none
      simp [hl, hnone, Binding.Checked] at h
  · rfl

end VarDecl

namespace Context

variable {c : Context}

theorem fieldBinding?_eq (v : VarDecl) :
    c.fieldBinding? v = if v.type = .void then none else some (v.record c.scopes) := by
  unfold fieldBinding? VarDecl.record
  cases v.type <;> rfl

theorem addFields_eq_records (vs : List VarDecl) :
    vs.foldl c.addField [] = VarDecl.records c.scopes vs := by
  induction vs using List.reverseRecOn with
  | nil => rfl
  | append_singleton vs v ih =>
    rw [List.foldl_append, List.foldl_cons, List.foldl_nil, ih, VarDecl.records_append_singleton,
      addField, fieldBinding?_eq]
    by_cases hv : v.type = .void
    · rw [if_pos hv, if_pos hv]
    · rw [if_neg hv, if_neg hv]

/-! ### Declaring the fields -/

theorem declareVar_eq_record {v : VarDecl} (hv : v.type ≠ .void)
    (hx : (c.declareVar v).found = []) :
    (v.record c.scopes).IsVariable ∧
      (c.declareVar v).node.name = { v.name with binding := some (v.record c.scopes) } ∧
      (c.declareVar v).context = c.bind v.name.name (v.record c.scopes) := by
  cases ht : v.type with
  | void => exact absurd ht hv
  | int | bool => simp [declareVar, VarDecl.record, ht, Binding.IsVariable]
  | struct tag =>
    have hfind : c.scopes.findSome? (·.lookup tag.name) = c.find tag.name := rfl
    simp only [declareVar, VarDecl.record, ht, hfind] at hx ⊢
    cases hb : c.find tag.name with
    | none => simp [hb] at hx
    | some b =>
      simp only [hb, Option.bind_some] at hx ⊢
      cases href : b.structRef? with
      | none => simp [href] at hx
      | some ref => exact ⟨.inr ⟨ref, rfl⟩, rfl, rfl⟩

/-- Fields that are not reported are not void and have different names, and each is bound to its
record. -/
theorem varDecls_eq_records {scopes : List (Scope Binding)} {vs : List VarDecl}
    (houter : c.outer = scopes) (hfront : c.front.Forall Binding.IsVariable)
    (hx : (c.varDecls vs).found = []) :
    (c.varDecls vs).node.map (·.name) =
        vs.map (fun v => { v.name with binding := some (v.record scopes) }) ∧
      (∀ v ∈ vs, v.type ≠ .void ∧ c.front.lookup v.name.name = none) ∧
      (vs.map (·.name.name)).Nodup := by
  induction vs generalizing c with
  | nil => exact ⟨rfl, by simp, List.nodup_nil⟩
  | cons v vs ih =>
    rw [varDecls, all] at hx ⊢
    obtain ⟨hx, hxs⟩ := List.append_eq_nil_iff.1 hx
    have hvoid : v.type ≠ .void := by
      intro hv
      simp [varDecl, hv] at hx
    rcases varDecl_of_found_eq_nil hx with ⟨b, hb, hformal, -⟩ | ⟨hfree, heq⟩
    · -- Among fields there are no formals that could be repeated.
      have hvar := hfront _ (mem_of_lookup hb)
      rw [hvar.not_isFormal] at hformal
      cases hformal
    rw [heq] at hx hxs ⊢
    obtain ⟨hvar, hname, hcontext⟩ := declareVar_eq_record hvoid hx
    have hrecord : v.record c.scopes = v.record scopes := by
      rw [← houter]
      exact VarDecl.record_cons hfront hvar.checked
    rw [hrecord] at hvar hname hcontext
    rw [hcontext] at hxs ⊢
    obtain ⟨hnames, hrest, hnodup⟩ := ih (c := c.bind v.name.name (v.record scopes)) houter
      (hfront.append hvar) hxs
    have hlater : ∀ w ∈ vs, c.front.lookup w.name.name = none ∧ v.name.name ≠ w.name.name := by
      intro w hw
      have hfree := (hrest w hw).2
      rw [lookup_bind, Option.or_eq_none_iff] at hfree
      exact ⟨hfree.1, fun hsame => by simp [hsame] at hfree⟩
    refine ⟨?_, ?_, ?_⟩
    · rw [List.map_cons, List.map_cons, hname]
      exact congrArg _ hnames
    · exact List.forall_mem_cons.2 ⟨⟨hvoid, hfree⟩, fun w hw => ⟨(hrest w hw).1, (hlater w hw).1⟩⟩
    · rw [List.map_cons, List.nodup_cons]
      refine ⟨fun hmem => ?_, hnodup⟩
      obtain ⟨w, hw, hsame⟩ := List.mem_map.1 hmem
      exact (hlater w hw).2 hsame.symm

end Context

namespace Session

open Resolution (unknownFieldProgram unknownFieldSession reaches_unknownFieldSession)

variable {s : Session} {d : StructDecl} {front : Scope Binding} {outer : List (Scope Binding)}

theorem structDecl_of_taken (hf : s.fault = none) (hs : s.table.scopes = front :: outer)
    (htaken : front.lookup d.name.name ≠ none) : s.structDecl d =
      (d, { s with
        table := s.table.mark
        log := s.log ++ [.error d.name.position .multiplyDeclared] }) := by
  have hlookup : (s.table.lookupLocal d.name.name).isSome := by
    rw [SymbolTable.lookupLocal, hs]
    exact Option.isSome_iff_ne_none.2 htaken
  rw [structDecl_eq, run_of_fault hf, if_pos hlookup]
  rfl

theorem structDecl_of_free (hf : s.fault = none) (hs : s.table.scopes = front :: outer)
    (hd : Named d.declared) (hfree : front.lookup d.name.name = none) {own : Binding}
    (hown : own = .ofStruct d.name.name (some d.name.position) s.fields.nextId) :
    let scopes := (front ++ [(d.name.name, own)]) :: outer
    let fields := s.fields.register (VarDecl.records scopes d.fields)
    let fs := Context.varDecls ⟨[], scopes, fields⟩ d.fields
    ∃ m, s.structDecl d = (⟨{ d.name with binding := some own }, fs.node⟩,
      ofContext ⟨front ++ [(d.name.name, own)], outer, fields⟩ m (s.log ++ fs.found)) := by
  subst hown
  have hstruct := structDecl_ofContext ⟨front, outer, s.fields⟩ d s.table.marked s.log hd
  rw [← eq_ofContext hf hs, Context.structDecl, if_neg (by simp [hfree]), Context.withStruct,
    Context.addFields_eq_records] at hstruct
  exact ⟨_, hstruct⟩

/-- What a struct records, in a session without a fault that has a scope, as every session of a run
is (`Reaches.exists_scope`). If its name is free, the struct is bound behind the others of the
innermost scope, and nothing else is in the scopes of the session behind it. The table of the struct
has one scope: the first of each name among the fields that are not void, in order. If the visit
reports nothing, all fields are there, and on each of them is noted what is listed. If the name is
taken, this is reported, and nothing else happens. -/
theorem structDecl_records_fields (s : Session) (d : StructDecl) {front : Scope Binding}
    {outer : List (Scope Binding)} (hf : s.fault = none) (hs : s.table.scopes = front :: outer)
    (hd : Named d.declared) :
    let own := Binding.ofStruct d.name.name (some d.name.position) s.fields.nextId
    let scopes := (front ++ [(d.name.name, own)]) :: outer
    let listed := VarDecl.records scopes d.fields
    let x := (s.structDecl d).1
    let t := (s.structDecl d).2
    (front.lookup d.name.name = none →
      t.fault = none ∧ x.name = { d.name with binding := some own } ∧ t.table.scopes = scopes ∧
      t.fields.tables = s.fields.tables ++ [⟨[listed], false⟩] ∧
      t.fields.table s.fields.nextId = ⟨[listed], false⟩ ∧ (listed.map (·.1)).Nodup ∧
      (t.log = s.log →
        listed = d.fields.map (fun v => (v.name.name, v.record scopes)) ∧
        x.fields.map (·.name) =
          d.fields.map fun v => { v.name with binding := some (v.record scopes) })) ∧
    (front.lookup d.name.name ≠ none → s.structDecl d =
      (d, { s with
        table := s.table.mark
        log := s.log ++ [.error d.name.position .multiplyDeclared] })) := by
  intro own scopes listed x t
  refine ⟨fun hfree => ?_, structDecl_of_taken hf hs⟩
  obtain ⟨m, heq⟩ := structDecl_of_free hf hs hd hfree rfl
  simp only [x, t, heq]
  refine ⟨rfl, rfl, rfl, rfl, StructFields.table_register _ _, Scope.nodup_ofFirsts _ _ _,
    fun hlog => ?_⟩
  have hfound : (Context.varDecls ⟨[], scopes, s.fields.register listed⟩ d.fields).found = [] :=
    List.append_right_eq_self.1 hlog
  obtain ⟨hnames, hvoid, hdistinct⟩ :=
    Context.varDecls_eq_records rfl (by simp [Scope.Forall]) hfound
  exact ⟨VarDecl.records_eq_map (fun v hv => (hvoid v hv).1) hdistinct, hnames⟩

/-- A struct with fields of its own type and of another, one of them named like that one. -/
def linkedStruct : StructDecl :=
  ⟨⟨"T", ⟨6, 8⟩, none⟩,
    [⟨.struct ⟨"T", ⟨7, 8⟩, none⟩, ⟨"next", ⟨7, 10⟩, none⟩, 0⟩,
      ⟨.struct ⟨"S", ⟨8, 8⟩, none⟩, ⟨"S", ⟨8, 10⟩, none⟩, 0⟩,
      ⟨.int, ⟨"n", ⟨9, 5⟩, none⟩, VarDecl.notStruct⟩]⟩

/-- A struct whose fields repeat the name `m`, a void one and one of an unknown type among them. -/
def repeatingStruct : StructDecl :=
  ⟨⟨"U", ⟨6, 8⟩, none⟩,
    [⟨.void, ⟨"m", ⟨7, 6⟩, none⟩, VarDecl.notStruct⟩,
      ⟨.struct ⟨"W", ⟨8, 8⟩, none⟩, ⟨"m", ⟨8, 10⟩, none⟩, 0⟩,
      ⟨.bool, ⟨"m", ⟨9, 6⟩, none⟩, VarDecl.notStruct⟩]⟩

/-- Behind a struct `S` and a variable `v`, nothing is reported of the first struct. -/
theorem structDecl_records_fields_linked :
    (Session.new .empty).Reaches (.program unknownFieldProgram) unknownFieldSession [] ∧
      (unknownFieldSession.structDecl linkedStruct).1.fields.map (·.name.binding) =
        [some ⟨"T", some ⟨7, 10⟩, .instanceOf (some ⟨1, "T", some ⟨6, 8⟩⟩)⟩,
          some ⟨"S", some ⟨8, 10⟩, .instanceOf (some ⟨0, "S", some ⟨1, 8⟩⟩)⟩,
          some ⟨"int", some ⟨9, 5⟩, .var⟩] ∧
      ((unknownFieldSession.structDecl repeatingStruct).2.fields.table 1).scopes =
        [[("m", ⟨"W", some ⟨8, 10⟩, .instanceOf none⟩)]] ∧
      (unknownFieldSession.structDecl { linkedStruct with name := ⟨"v", ⟨6, 8⟩, none⟩ }).2.log =
        unknownFieldSession.log ++ [.error ⟨6, 8⟩ .multiplyDeclared] := by
  refine ⟨reaches_unknownFieldSession, ?_, ?_, ?_⟩
  · obtain ⟨-, -, -, -, -, -, hnoted⟩ := (structDecl_records_fields unknownFieldSession
      linkedStruct rfl rfl (by unfold Named; decide)).1 rfl
    have h := congrArg (List.map Ident.binding) (hnoted rfl).2
    rw [List.map_map] at h
    exact h
  · obtain ⟨-, -, -, -, htable, -⟩ := (structDecl_records_fields unknownFieldSession
      repeatingStruct rfl rfl (by unfold Named; decide)).1 rfl
    exact congrArg SymbolTable.scopes htable
  · have htaken := (structDecl_records_fields unknownFieldSession
      { linkedStruct with name := ⟨"v", ⟨6, 8⟩, none⟩ } rfl rfl (by unfold Named; decide)).2
      (by decide)
    exact congrArg (·.2.log) htaken

end Session

end Carrot
