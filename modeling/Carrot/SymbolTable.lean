/-! # Symbol tables

A table is a stack of scopes, the innermost first; a scope lists names with what
they are bound to, in the order of their declaration and without repetition. The
table also remembers whether an error was found; nothing resets that mark. What
names are bound to is left open.
-/

namespace Carrot

/-- Why a table refuses an operation. -/
inductive TableError where
  | noScopes
  | duplicate (name : String)
  | nothingGiven
  | noName
  | noBinding
  deriving DecidableEq, Repr

def TableError.message : TableError → String
  | .noScopes => "symbol table has no scopes"
  | .duplicate n => "'" ++ n ++ "' is already declared in the current scope"
  | .nothingGiven => "name and sym are null"
  | .noName => "name is null"
  | .noBinding => "sym is null"

abbrev Scope (β : Type) := List (String × β)

structure SymbolTable (β : Type) where
  scopes : List (Scope β)
  marked : Bool
  deriving DecidableEq, Repr

/-- For each scope, innermost first, the names with their labels. -/
abbrev Snapshot := List (List (String × String))

namespace SymbolTable

variable {β : Type}

/-- A new table has one empty scope. -/
def new : SymbolTable β := ⟨[[]], false⟩

instance : Inhabited (SymbolTable β) := ⟨new⟩

def size (t : SymbolTable β) : Nat := t.scopes.length

def push (t : SymbolTable β) : SymbolTable β := ⟨[] :: t.scopes, t.marked⟩

def pop (t : SymbolTable β) : Except TableError (SymbolTable β) :=
  match t.scopes with
  | [] => .error .noScopes
  | _ :: rest => .ok ⟨rest, t.marked⟩

def lookupLocal (t : SymbolTable β) (name : String) : Option β :=
  t.scopes.head?.bind (·.lookup name)

def lookupGlobal (t : SymbolTable β) (name : String) : Option β :=
  t.scopes.findSome? (·.lookup name)

/-- Binds a name in the innermost scope. A name must be given and not empty, and so must what
it is bound to; there must be a scope; the scope must not have the name: in this order. -/
def add (t : SymbolTable β) (name : Option String) (b : Option β) :
    Except TableError (SymbolTable β) :=
  match name.filter (· ≠ ""), b with
  | none, none => .error .nothingGiven
  | none, some _ => .error .noName
  | some _, none => .error .noBinding
  | some n, some b =>
    match t.scopes with
    | [] => .error .noScopes
    | s :: rest =>
      if (s.lookup n).isSome then .error (.duplicate n)
      else .ok ⟨(s ++ [(n, b)]) :: rest, t.marked⟩

/-- Binds a name unless the innermost scope has it. -/
def addNew (t : SymbolTable β) (name : String) (b : β) : Except TableError (SymbolTable β) :=
  if (t.lookupLocal name).isSome then .ok t else t.add (some name) (some b)

/-- Remembers that an error was found. -/
def mark (t : SymbolTable β) : SymbolTable β := ⟨t.scopes, true⟩

def snapshot (label : β → String) (t : SymbolTable β) : Snapshot :=
  t.scopes.map (·.map fun e => (e.1, label e.2))

/-- One line of a dump: the names of a scope with their labels. -/
def dumpScope (s : List (String × String)) : String :=
  "\x7b" ++ String.intercalate ", " (s.map fun e => e.1 ++ "=" ++ e.2) ++ "\x7d\n"

/-- A snapshot as text, one line for each scope. -/
def dump (s : Snapshot) : String :=
  "\n=== Sym Table ===\n" ++ String.join (s.map dumpScope) ++ "\n"

/-- How a table shows itself: by the number of its scopes. -/
def summary (t : SymbolTable β) : String := "SymbolTable(scopes=" ++ toString t.size ++ ")"

end SymbolTable

end Carrot
