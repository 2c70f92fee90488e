import Carrot.Diagnostic
import Carrot.SymbolTable
import Carrot.Syntax

/-! # What name resolution carries along

A session holds the symbol table, the fields of all struct declarations, the
diagnostics in the order they were found, and a fault once resolution could not go
on. After a fault nothing more is visited, and the scopes that were open stay open.
-/

namespace Carrot

/-- The fields of struct declarations, each table under the identity of its declaration. -/
structure StructFields where
  tables : List (SymbolTable Binding)
  deriving DecidableEq, Repr

namespace StructFields

def empty : StructFields := ⟨[]⟩

/-- The identity that the next declaration gets. -/
def nextId (f : StructFields) : Nat := f.tables.length

/-- Adds a declaration without fields. -/
def declare (f : StructFields) : StructFields := ⟨f.tables ++ [.new]⟩

def table (f : StructFields) (id : Nat) : SymbolTable Binding := f.tables[id]?.getD .new

def set (f : StructFields) (id : Nat) (t : SymbolTable Binding) : StructFields :=
  ⟨f.tables.set id t⟩

def lookup (f : StructFields) (id : Nat) (name : String) : Option Binding :=
  (f.table id).lookupGlobal name

def snapshot (f : StructFields) (id : Nat) : Snapshot := (f.table id).snapshot (·.label)

end StructFields

/-- Why resolution could not go on. -/
inductive Fault where
  | undeclarable (name : String) (position : Position) (reason : TableError)
  | underflow (reason : TableError)
  | field (reason : TableError)
  | unsupported (node : String)
  deriving DecidableEq, Repr

def Fault.message : Fault → String
  | .undeclarable n p e =>
      "Could not declare '" ++ n ++ "' at " ++ p.text ++ ": " ++ e.message
  | .underflow e => "Scope stack underflow: " ++ e.message
  | .field e => e.message
  | .unsupported n => "Name analysis has no rule for node type '" ++ n ++ "'."

structure Session where
  table : SymbolTable Binding
  fields : StructFields
  log : List Diagnostic
  fault : Option Fault
  deriving DecidableEq, Repr

namespace Session

/-- A session with a new table. -/
def new (fields : StructFields) : Session := ⟨.new, fields, [], none⟩

/-- Reports diagnostics; an error among them marks the table. -/
def report (s : Session) (ds : List Diagnostic) : Session :=
  if ds.isEmpty then s else { s with table := s.table.mark, log := s.log ++ ds }

def error (s : Session) (p : Position) (c : Code) : Session := s.report [.error p c]

def stop (s : Session) (f : Fault) : Session := { s with fault := some f }

/-- Goes on with `f` unless a fault has stopped the session. -/
def run {α : Type} (s : Session) (x : α) (f : α → Session → α × Session) : α × Session :=
  if s.fault.isSome then (x, s) else f x s

/-- Binds a declared name and notes the binding on it. -/
def declare (s : Session) (x : Ident) (b : Binding) : Ident × Session :=
  match s.table.add (some x.name) (some b) with
  | .ok t => ({ x with binding := some b }, { s with table := t })
  | .error e => (x, s.stop (.undeclarable x.name x.position e))

def push (s : Session) : Session :=
  if s.fault.isSome then s else { s with table := s.table.push }

def pop (s : Session) : Session :=
  if s.fault.isSome then s
  else match s.table.pop with
    | .ok t => { s with table := t }
    | .error e => s.stop (.underflow e)

end Session

end Carrot
