import Carrot.Text.Quoted

/-! # Dealings with the outside

A script is what a run asks of its surroundings, step by step: it prints, reads,
writes, and goes on with the answer. Here scripts are run on a store, a model of the
surroundings in which nothing but reading, writing and printing happens.
-/

namespace Carrot

/-- Why a file cannot be read or written. -/
inductive FileError where
  | missing (path : String)
  | denied (path : String)
  /-- The path contains the character that ends paths. -/
  | unusable
  deriving DecidableEq, Repr

namespace FileError

def name : FileError → String
  | .missing _ => "FileNotFoundError"
  | .denied _ => "PermissionError"
  | .unusable => "ValueError"

def message : FileError → String
  | .missing p => "[Errno 2] No such file or directory: " ++ Text.quoted p
  | .denied p => "[Errno 13] Permission denied: " ++ Text.quoted p
  | .unusable => "embedded null byte"

/-- The system refuses a file that is missing or denied; an unusable path never reaches it. -/
def isRefusal : FileError → Bool
  | .missing _ | .denied _ => true
  | .unusable => false

end FileError

/-- Where texts are printed: the output, the errors, or a log of the caller's. -/
inductive Channel where
  | output | errors | log
  deriving DecidableEq, Repr

inductive Script (α : Type) where
  | done (value : α)
  | print (channel : Channel) (text : String) (next : Script α)
  | readFile (path : String) (next : Except FileError (List UInt8) → Script α)
  | readInput (next : List UInt8 → Script α)
  | writeFile (path text : String) (next : Option FileError → Script α)
  | makeDirectory (path : String) (next : Script α)
  /-- Asks for the time since the start, in ten-thousandths of a second. -/
  | elapsed (next : Nat → Script α)

/-- The surroundings of a run, and what it has left there. -/
structure Store where
  files : List (String × List UInt8) := []
  input : List UInt8 := []
  unwritable : List String := []
  written : List (String × String) := []
  directories : List String := []
  output : String := ""
  errors : String := ""
  log : String := ""
  deriving Repr

namespace Store

def print (s : Store) (text : String) : Channel → Store
  | .output => { s with output := s.output ++ text }
  | .errors => { s with errors := s.errors ++ text }
  | .log => { s with log := s.log ++ text }

def isUsable (path : String) : Bool := !path.toList.contains '\x00'

def read (s : Store) (path : String) : Except FileError (List UInt8) :=
  if !isUsable path then .error .unusable
  else
    match s.files.lookup path with
    | some octets => .ok octets
    | none => .error (.missing path)

/-- Why a path cannot be written, if it cannot. -/
def refuses? (s : Store) (path : String) : Option FileError :=
  if !isUsable path then some .unusable
  else if path ∈ s.unwritable then some (.denied path)
  else none

/-- Writes a file in place of one that was written before. -/
def write (s : Store) (path text : String) : Store :=
  { s with written := s.written.filter (·.1 ≠ path) ++ [(path, text)] }

end Store

namespace Script

variable {α β : Type}

def bind : Script α → (α → Script β) → Script β
  | .done v, f => f v
  | .print c t next, f => .print c t (next.bind f)
  | .readFile p next, f => .readFile p fun r => (next r).bind f
  | .readInput next, f => .readInput fun r => (next r).bind f
  | .writeFile p t next, f => .writeFile p t fun r => (next r).bind f
  | .makeDirectory p next, f => .makeDirectory p (next.bind f)
  | .elapsed next, f => .elapsed fun n => (next n).bind f

instance : Monad Script where
  pure := .done
  bind := .bind

def say (text : String) (channel : Channel := .output) : Script Unit :=
  .print channel text (.done ())

/-- Runs a script on a store, whose clock stands still. -/
def run : Script α → Store → α × Store
  | .done v, s => (v, s)
  | .print c t next, s => next.run (s.print t c)
  | .readFile p next, s => (next (s.read p)).run s
  | .readInput next, s => (next s.input).run s
  | .writeFile p t next, s =>
    match s.refuses? p with
    | some e => (next (some e)).run s
    | none => (next none).run (s.write p t)
  | .makeDirectory p next, s => next.run { s with directories := s.directories ++ [p] }
  | .elapsed next, s => (next 0).run s

@[simp] theorem run_pure (v : α) (s : Store) : (pure v : Script α).run s = (v, s) := rfl

@[simp] theorem run_say (t : String) (c : Channel) (s : Store) :
    (say t c).run s = ((), s.print t c) := rfl

@[simp] theorem run_bind (x : Script α) (f : α → Script β) (s : Store) :
    (x >>= f).run s = (f (x.run s).1).run (x.run s).2 := by
  change (x.bind f).run s = _
  induction x generalizing s with
  | done v => rfl
  | print c t next ih => exact ih _
  | readFile p next ih => exact ih _ _
  | readInput next ih => exact ih _ _
  | writeFile p t next ih =>
    simp only [bind, run]
    split
    · exact ih _ _
    · exact ih _ _
  | makeDirectory p next ih => exact ih _
  | elapsed next ih => exact ih _ _

end Script

end Carrot
