import Carrot.Proofs.Resolution.Renumbering

/-! # Passes over one program

A program may be resolved again and again, each time in a new table, on the tree that the
pass before has left, and into the same log. Every pass finds the same, and notes the same
bindings up to the identities of structs. A binding that stood on the tree before the first
pass stays only where no pass notes one.
-/

namespace Carrot

/-! ### What a binding shows -/

def StructRef.unnumbered (r : StructRef) : StructRef := { r with id := 0 }

def Role.unnumbered : Role → Role
  | .structDecl name _ => .structDecl name 0
  | .instanceOf decl => .instanceOf (decl.map (·.unnumbered))
  | .var => .var
  | .formal => .formal
  | .func params => .func params

/-- A binding without the identities of structs, which differ from pass to pass. -/
def Binding.unnumbered (b : Binding) : Binding := { b with role := b.role.unnumbered }

def Scope.unnumbered (s : Scope Binding) : Scope Binding := s.map fun e => (e.1, e.2.unnumbered)

/-- All that a binding shows: in place of the identity of a struct that it declares, the fields of
that struct. -/
structure Record where
  binding : Binding
  fields : List (Scope Binding)
  deriving DecidableEq, Repr

def Binding.record (f : StructFields) (b : Binding) : Record :=
  ⟨b.unnumbered, (b.structRef?.map fun r => (f.table r.id).scopes.map Scope.unnumbered).getD []⟩

/-- What the bindings on the identifiers of a program show. -/
def Program.records (f : StructFields) (p : Program) : List (Option Record) :=
  p.idents.map fun x => x.binding.map (·.record f)

/-- The struct that a binding declares, if any, is one of `f`. -/
def Binding.Known (f : StructFields) (b : Binding) : Prop := ∀ r ∈ b.structRef?, r.id < f.nextId

/-- The bindings on a program declare no structs but those of `f`. -/
def Program.Grounded (f : StructFields) (p : Program) : Prop :=
  ∀ x ∈ p.idents, ∀ b ∈ x.binding, b.Known f

theorem StructRef.unnumbered_shift (k : Nat) (r : StructRef) :
    (r.shift k).unnumbered = r.unnumbered := rfl

theorem Binding.unnumbered_shift (k : Nat) (b : Binding) :
    (b.shift k).unnumbered = b.unnumbered := by
  obtain ⟨_, _, role⟩ := b
  cases role with
  | instanceOf decl => cases decl <;> rfl
  | var | formal | func | structDecl => rfl

theorem Scope.unnumbered_shift (k : Nat) (s : Scope Binding) :
    Scope.unnumbered (Scope.shift k s) = Scope.unnumbered s := by
  simp [unnumbered, shift, Binding.unnumbered_shift]

section

variable {old : List (SymbolTable Binding)} {f : StructFields} {b : Binding}

/-- Behind other structs, a binding shows what it shows alone. -/
theorem Binding.record_shift : (b.shift old.length).record (f.behind old) = b.record f := by
  have hfields (id : Nat) : ((f.behind old).table (old.length + id)).scopes.map Scope.unnumbered =
      (f.table id).scopes.map Scope.unnumbered := by
    simp only [StructFields.table_behind, SymbolTable.shift, List.map_map, Function.comp_def,
      Scope.unnumbered_shift]
  rw [record, record, unnumbered_shift, structRef?_shift]
  cases b.structRef? with
  | none => rfl
  | some r => simp only [Option.map_some, StructRef.shift, hfields]

/-- Structs that are declared later do not change what a known binding shows. -/
theorem Binding.Known.record_behind (h : b.Known f) (g : StructFields) :
    b.record (g.behind f.tables) = b.record f := by
  rw [record, record]
  cases hr : b.structRef? with
  | none => rfl
  | some r =>
    have hid : r.id < f.tables.length := h r hr
    simp only [Option.map_some, StructFields.table, StructFields.behind,
      List.getElem?_append_left hid]

theorem Binding.Known.behind (h : b.Known f) (g : StructFields) : b.Known (g.behind f.tables) := by
  intro r hr
  rw [StructFields.nextId_behind]
  exact Nat.lt_of_lt_of_le (h r hr) (Nat.le_add_right _ _)

end

/-! ### Declared names -/

section Declared

variable (r : Relabelling)

theorem names_relabel (ds : List VarDecl) :
    (ds.map (·.relabel r)).map (·.name) = (ds.map (·.name)).map (·.relabel r) := by
  simp [VarDecl.relabel]

mutual

theorem Stmt.declared_relabel : ∀ s : Stmt,
    (s.relabel r).declared = s.declared.map (·.relabel r)
  | .assign _ _ | .increment _ | .decrement _ | .read _ | .write _ | .call _ _ | .ret none
  | .ret (some _) => by simp only [relabel, declared, List.map_nil]
  | .ifThen _ ds ss | .whileLoop _ ds ss | .repeatLoop _ ds ss => by
    simp only [relabel, declared, names_relabel, Stmt.listDeclared_relabel ss, List.map_append]
  | .ifElse _ ds ss eds ess => by
    simp only [relabel, declared, names_relabel, Stmt.listDeclared_relabel ss,
      Stmt.listDeclared_relabel ess, List.map_append]

theorem Stmt.listDeclared_relabel : ∀ ss : List Stmt,
    Stmt.listDeclared (Stmt.listRelabel r ss) = (Stmt.listDeclared ss).map (·.relabel r)
  | [] => rfl
  | s :: ss => by
    simp only [listRelabel, listDeclared, Stmt.declared_relabel s, Stmt.listDeclared_relabel ss,
      List.map_append]

end

theorem Decl.declared_relabel (d : Decl) :
    (d.relabel r).declared = d.declared.map (·.relabel r) := by
  cases d with
  | var d => rfl
  | func d =>
    simp only [relabel, declared, FnDecl.relabel, FnDecl.declared, FnBody.relabel,
      FnBody.declared, Stmt.listDeclared_relabel, List.map_map, List.map_cons, List.map_append]
    rfl
  | struct d =>
    simp only [relabel, declared, StructDecl.relabel, StructDecl.declared, names_relabel,
      List.map_cons]

theorem Program.declared_relabel (p : Program) :
    (p.relabel r).declared = p.declared.map (·.relabel r) := by
  simp only [relabel, declared, List.flatMap_map, List.map_flatMap, Decl.declared_relabel]

end Declared

/-- Whether declared names are empty does not depend on the bindings. -/
theorem named_of_unbound {p q : Program} (h : q.relabel .unbound = p.relabel .unbound)
    (hp : Named p.declared) : Named q.declared := by
  have hunbound (p : Program) : Named (p.relabel .unbound).declared ↔ Named p.declared := by
    rw [Program.declared_relabel]
    exact List.forall_mem_map
  rwa [← hunbound, h, hunbound]

/-! ### Passes -/

/-- Resolves the names of a program in a new table, and reports behind `log`. -/
def Resolution.reporting (log : List Diagnostic) (p : Program) (fields : StructFields) :
    Resolution :=
  let (p, s) := { Session.new fields with log := log }.program p
  ⟨p, s⟩

/-- One pass over a program, and the part of the log that is its own. -/
structure Pass where
  resolution : Resolution
  diagnostics : List Diagnostic

namespace Pass

/-- What comes into the log from here on is the pass's own. -/
def of (p : Program) (fields : StructFields) (log : List Diagnostic) : Pass :=
  let r := Resolution.reporting log p fields
  ⟨r, r.session.log.drop log.length⟩

def program (a : Pass) : Program := a.resolution.program

def fields (a : Pass) : StructFields := a.resolution.session.fields

/-- The log behind the pass. -/
def log (a : Pass) : List Diagnostic := a.resolution.session.log

def records (a : Pass) : List (Option Record) := a.program.records a.fields

end Pass

/-- So many passes, one behind the other, over a program with the structs `fields` on it. -/
def passes : Nat → Program → StructFields → List Diagnostic → List Pass
  | 0, _, _, _ => []
  | n + 1, p, fields, log =>
    let a := Pass.of p fields log
    a :: passes n a.program a.fields a.log

/-! ### One pass -/

/-- What resolving a program gives if nothing is noted on it and there are no other structs. -/
def Program.alone (p : Program) : Outcome (List Decl) :=
  (Context.initial .empty).decls (p.relabel .unbound).decls

namespace Program

variable (p : Program)

/-- For each identifier of a program, the binding that is on it and the one that is noted. -/
def pairs : List (Option Binding × Option Binding) :=
  (slots p.leaves).zip (slots (p.alone.node.flatMap Decl.leaves))

/-- What the bindings on a program show behind a pass. -/
def settled (f : StructFields) : List (Option Record) :=
  p.pairs.map fun s => (s.2.map (·.record p.alone.context.fields)).or (s.1.map (·.record f))

/-- Where no binding is noted, those on the program declare no structs but those of `f`. -/
def Rooted (f : StructFields) : Prop := ∀ s ∈ p.pairs, s.2 = none → ∀ b ∈ s.1, b.Known f

theorem slots_leaves : slots p.leaves = p.idents.map (·.binding) := rfl

variable {p}

theorem Grounded.rooted {f : StructFields} (h : p.Grounded f) : p.Rooted f := by
  intro s hs _ b hb
  have hmem : s.1 ∈ slots p.leaves := (List.of_mem_zip hs).1
  obtain ⟨x, hx, heq⟩ := List.mem_map.1 hmem
  exact h x hx b (heq ▸ hb)

end Program

/-- Behind a pass over `p` with the structs `f`, into the log `log`. -/
structure Pass.Follows (a : Pass) (p : Program) (f : StructFields) (log : List Diagnostic) :
    Prop where
  fault : a.resolution.session.fault = none
  unbound : a.program.relabel .unbound = p.relabel .unbound
  fields : a.fields = p.alone.context.fields.behind f.tables
  diagnostics : a.diagnostics = p.alone.found
  log : a.log = log ++ p.alone.found
  ok : a.resolution.ok = p.alone.found.isEmpty
  snapshot : a.resolution.snapshot =
    SymbolTable.snapshot (·.label) ⟨p.alone.context.scopes, false⟩
  slots : slots a.program.leaves = p.pairs.map fun s => overlay f.nextId s.1 s.2

/-- A log in front has no part in what a pass gives. -/
theorem Resolution.reporting_eq (log : List Diagnostic) {p : Program} (fields : StructFields)
    (hp : Named p.declared) :
    let o := (Context.initial fields).decls p.decls
    reporting log p fields =
      ⟨⟨o.node, p.file⟩, .ofContext o.context (!o.found.isEmpty) (log ++ o.found)⟩ := by
  have h := Session.decls_ofContext (.initial fields) p.decls false log hp
  have hnew : { Session.new fields with log := log } =
    Session.ofContext (.initial fields) false log := rfl
  simp only [Outcome.session, Bool.false_or] at h
  simp only [reporting, Session.program, hnew, h]

theorem Context.snapshot_behind (old : List (SymbolTable Binding)) (c : Context) (m n : Bool) :
    SymbolTable.snapshot (·.label) ⟨(c.behind old).scopes, m⟩ =
      SymbolTable.snapshot (·.label) ⟨c.scopes, n⟩ := by
  have hscope (s : Scope Binding) : (Scope.shift old.length s).map (fun e => (e.1, e.2.label)) =
      s.map fun e => (e.1, e.2.label) := by
    simp [Scope.shift]
  simp [SymbolTable.snapshot, behind, scopes, hscope]

theorem Pass.follows {p : Program} (f : StructFields) (log : List Diagnostic)
    (hp : Named p.declared) : (Pass.of p f log).Follows p f log := by
  -- The pass starts behind the structs of all passes before.
  have hrun := Context.follows_decls f.tables (.initial .empty) p.decls
  rw [← Context.initial_eq_behind] at hrun
  have heq := Resolution.reporting_eq log f hp
  have hunbound : (Resolution.reporting log p f).program.relabel .unbound = p.relabel .unbound := by
    have h := Resolution.program_unbound p f hp
    rw [Resolution.ofProgram_eq p f hp] at h
    rw [heq]
    exact h
  have hfound : ((Context.initial f).decls p.decls).found = p.alone.found := hrun.found
  have hcontext : ((Context.initial f).decls p.decls).context =
      p.alone.context.behind f.tables := hrun.context
  constructor
  · rw [of, heq]
    rfl
  · exact hunbound
  · rw [fields, of, heq]
    exact congrArg Context.fields hcontext
  · simp only [of, heq, Session.ofContext, hfound]
    exact List.drop_left
  · simp only [Pass.log, of, heq, Session.ofContext, hfound]
  · simp only [of, heq, Session.ofContext, Resolution.ok, hfound, Bool.not_not]
  · simp only [of, heq, Session.ofContext, Resolution.snapshot, hcontext]
    exact Context.snapshot_behind _ _ _ _
  · rw [program, of, heq]
    refine hrun.noted.slots.trans ?_
    rw [Program.pairs, List.map_zip_eq_zipWith]
    rfl

namespace Pass.Follows

variable {a : Pass} {p : Program} {f : StructFields} {log : List Diagnostic}

theorem alone_eq (h : a.Follows p f log) : a.program.alone = p.alone := by
  rw [Program.alone, Program.alone, h.unbound]

/-- A pass notes the same bindings as the pass before. -/
theorem pairs_eq (h : a.Follows p f log) :
    a.program.pairs = p.pairs.map fun s => (overlay f.nextId s.1 s.2, s.2) := by
  have hlength := (Context.follows_decls [] (.initial .empty) p.decls).noted.length
  have hnoted : p.pairs.map (·.2) = Carrot.slots (p.alone.node.flatMap Decl.leaves) :=
    List.map_snd_zip (Nat.le_of_eq hlength.symm)
  rw [Program.pairs, h.alone_eq, h.slots, ← hnoted, List.zip_map']

/-- Behind a pass, a slot shows what is noted in it, and else what it has shown before. -/
theorem record_overlay (h : a.Follows p f log) {old new : Option Binding}
    (hold : new = none → ∀ b ∈ old, b.Known f) :
    (overlay f.nextId old new).map (·.record a.fields) =
      (new.map (·.record p.alone.context.fields)).or (old.map (·.record f)) := by
  rw [h.fields]
  cases new with
  | some b => exact congrArg some Binding.record_shift
  | none =>
    cases old with
    | none => rfl
    | some b => exact congrArg some ((hold rfl b rfl).record_behind _)

theorem records_eq (h : a.Follows p f log) (hp : p.Rooted f) : a.records = p.settled f := by
  have hslots : a.records = (Carrot.slots a.program.leaves).map (·.map (·.record a.fields)) := by
    rw [Program.slots_leaves, List.map_map]
    rfl
  rw [hslots, h.slots, List.map_map, Program.settled]
  exact List.map_congr_left fun s hs => h.record_overlay (hp s hs)

/-- A further pass leaves what the bindings show. -/
theorem settled_eq (h : a.Follows p f log) (hp : p.Rooted f) :
    a.program.settled a.fields = p.settled f := by
  rw [Program.settled, h.pairs_eq, h.alone_eq, List.map_map, Program.settled]
  refine List.map_congr_left fun s hs => ?_
  simp only [Function.comp_apply, h.record_overlay (hp s hs)]
  cases s.2 <;> rfl

theorem rooted (h : a.Follows p f log) (hp : p.Rooted f) : a.program.Rooted a.fields := by
  intro s hs hnone b hb
  rw [h.pairs_eq] at hs
  obtain ⟨t, ht, rfl⟩ := List.mem_map.1 hs
  have hkept : overlay f.nextId t.1 t.2 = t.1 := by rw [overlay, hnone]; rfl
  rw [h.fields]
  exact (hp t ht hnone b (hkept ▸ hb)).behind _

end Pass.Follows

/-! ### All passes -/

/-- What a pass gives over what other passes have left of `p` and the structs `f`. -/
structure Pass.Agrees (a : Pass) (p : Program) (f : StructFields) : Prop where
  fault : a.resolution.session.fault = none
  unbound : a.program.relabel .unbound = p.relabel .unbound
  diagnostics : a.diagnostics = p.alone.found
  ok : a.resolution.ok = p.alone.found.isEmpty
  snapshot : a.resolution.snapshot =
    SymbolTable.snapshot (·.label) ⟨p.alone.context.scopes, false⟩
  records : a.records = p.settled f

theorem Pass.agrees_of_mem {n : Nat} {p : Program} {f : StructFields} {log : List Diagnostic}
    (hp : Named p.declared) (hroot : p.Rooted f) :
    ∀ a ∈ passes n p f log, a.Agrees p f := by
  induction n generalizing p f log with
  | zero => simp [passes]
  | succ n ih =>
    have hfirst := Pass.follows f log hp
    intro a ha
    rcases List.mem_cons.1 ha with rfl | ha
    · exact ⟨hfirst.fault, hfirst.unbound, hfirst.diagnostics, hfirst.ok, hfirst.snapshot,
        hfirst.records_eq hroot⟩
    · have hrest := ih (named_of_unbound hfirst.unbound hp) (hfirst.rooted hroot) a ha
      have halone := hfirst.alone_eq
      exact ⟨hrest.fault, hrest.unbound.trans hfirst.unbound, halone ▸ hrest.diagnostics,
        halone ▸ hrest.ok, halone ▸ hrest.snapshot,
        hrest.records.trans (hfirst.settled_eq hroot)⟩

theorem length_passes (n : Nat) (p : Program) (f : StructFields) (log : List Diagnostic) :
    (passes n p f log).length = n := by
  induction n generalizing p f log with
  | zero => rfl
  | succ n ih => rw [passes, List.length_cons, ih]

/-- The log behind a pass is the log in front of all passes and what each pass up to it found. -/
theorem log_passes {n : Nat} {p : Program} {f : StructFields} {log : List Diagnostic}
    (hp : Named p.declared) {k : Nat} {a : Pass} (ha : (passes n p f log)[k]? = some a) :
    a.log = log ++ ((passes n p f log).take (k + 1)).flatMap (·.diagnostics) := by
  induction n generalizing p f log k with
  | zero => simp [passes] at ha
  | succ n ih =>
    have hfirst := Pass.follows f log hp
    rw [passes] at ha ⊢
    rw [List.take_succ_cons, List.flatMap_cons, hfirst.diagnostics]
    cases k with
    | zero =>
      cases ha
      rw [hfirst.log, List.take_zero, List.flatMap_nil, List.append_nil]
    | succ k =>
      rw [ih (named_of_unbound hfirst.unbound hp) ha, hfirst.log, List.append_assoc]

/-- However often a program is resolved, with whatever bindings on it, each time in a new table and
into one log: no pass meets a fault or changes anything but bindings; all passes find the same,
end with the same table and leave bindings that show the same; and what a pass finds is what it
adds to the log, which is nothing exactly if the pass is fine. -/
theorem passes_agree (n : Nat) (p : Program) (f : StructFields) (log : List Diagnostic)
    (hp : Named p.declared) (hf : p.Grounded f) :
    let ps := passes n p f log
    ps.length = n ∧
      (∀ a ∈ ps, a.resolution.session.fault = none ∧
        a.program.relabel .unbound = p.relabel .unbound ∧
        (a.resolution.ok = true ↔ a.diagnostics = [])) ∧
      (∀ a ∈ ps, ∀ b ∈ ps, a.diagnostics = b.diagnostics ∧
        a.resolution.snapshot = b.resolution.snapshot ∧ a.resolution.ok = b.resolution.ok ∧
        a.records = b.records) ∧
      ∀ k a, ps[k]? = some a → a.log = log ++ (ps.take (k + 1)).flatMap (·.diagnostics) := by
  intro ps
  have hagree : ∀ a ∈ ps, a.Agrees p f := Pass.agrees_of_mem hp hf.rooted
  refine ⟨length_passes n p f log, fun a ha => ?_, fun a ha b hb => ?_,
    fun k a ha => log_passes hp ha⟩
  · have h := hagree a ha
    refine ⟨h.fault, h.unbound, ?_⟩
    rw [h.ok, h.diagnostics]
    exact List.isEmpty_iff
  · have h := hagree a ha
    have k := hagree b hb
    exact ⟨h.diagnostics.trans k.diagnostics.symm, h.snapshot.trans k.snapshot.symm,
      h.ok.trans k.ok.symm, h.records.trans k.records.symm⟩

/-- A program that earlier runs have left bindings on: on the type of a formal, which resolution
passes over, on a name that stands for nothing, and on the name of a struct. -/
def staleProgram : Program :=
  let ident (name : String) (line : Int) : Ident := ⟨name, ⟨line, 1⟩, none⟩
  let left : Binding := .ofStruct "Old" none 0
  ⟨[.struct ⟨⟨"S", ⟨1, 1⟩, some left⟩, [⟨.int, ident "n" 2, VarDecl.notStruct⟩]⟩,
    .func ⟨.void, ident "f" 3, [⟨.struct ⟨"S", ⟨4, 1⟩, some left⟩, ident "a" 5⟩],
      ⟨[⟨.struct (ident "S" 6), ident "s" 7, 0⟩],
        [.assign (.dot (.ident (ident "s" 8)) (ident "n" 9))
          (.ident ⟨"u", ⟨10, 1⟩, some left⟩)]⟩⟩], stdinName⟩

/-- The fields of the struct that the bindings on `staleProgram` declare. -/
def staleFields : StructFields := ⟨[⟨[[("m", ⟨"bool", none, .var⟩)]], false⟩]⟩

theorem passes_agree_staleProgram :
    Named staleProgram.declared ∧ staleProgram.Grounded staleFields ∧
      ∀ a ∈ passes 3 staleProgram staleFields [],
        a.diagnostics = [.error ⟨10, 1⟩ .undeclared] ∧ a.resolution.ok = false ∧
          a.resolution.snapshot = [[("S", "struct"), ("f", "void")]] := by
  have hnamed : Named staleProgram.declared := by unfold Named; decide
  have hgrounded : staleProgram.Grounded staleFields := by
    unfold Program.Grounded Binding.Known
    decide
  refine ⟨hnamed, hgrounded, fun a ha => ?_⟩
  obtain ⟨-, -, hsame, -⟩ := passes_agree 3 staleProgram staleFields [] hnamed hgrounded
  have hfirst : Pass.of staleProgram staleFields [] ∈ passes 3 staleProgram staleFields [] :=
    List.mem_cons_self
  obtain ⟨hfound, hsnapshot, hok, -⟩ := hsame a ha _ hfirst
  rw [hfound, hsnapshot, hok]
  decide

end Carrot
