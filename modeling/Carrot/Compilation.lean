import Carrot.Artifact
import Carrot.Path
import Carrot.Script
import Carrot.Source

/-! # Compilation

A text goes through two stages: it is read as a tree, and the names of the tree are
resolved. The product of a stage can be saved as an artifact next to the text's file,
and a run may stop after the first stage. Diagnostics are printed as they are found.
-/

namespace Carrot

inductive Stage where
  | tree | names
  deriving DecidableEq, Repr

namespace Stage

def all : List Stage := [.tree, .names]

def name : Stage → String
  | .tree => "ast"
  | .names => "name_analysis"

/-- How a command line chooses a stage. -/
def key : Stage → String
  | .tree => "1"
  | .names => "2"

def title : Stage → String
  | .tree => "Abstract Syntax Tree"
  | .names => "Name-Analysed AST and Global Symbol Table"

def ofName? (s : String) : Option Stage := all.find? (·.name == s)

def ofKey? (s : String) : Option Stage := all.find? (·.key == s)

end Stage

namespace Compilation

structure Request where
  text : String
  file : Option String := none
  /-- The directory that file names are read from. -/
  directory : Path := .top
  saved : List Stage := []
  stopAfter : Option Stage := none
  /-- Where diagnostics are printed. -/
  channel : Channel := .errors
  deriving Repr

/-- What a run ends with: the product of the last stage that was asked for. -/
inductive Product where
  | tree (p : Program)
  | names (r : Resolution)
  deriving Repr

inductive Failure where
  | notice (n : Notice)
  | internal (reason : String)
  deriving DecidableEq, Repr

/-- What is printed in place of a trace of calls. -/
def traceMark : String := "<traceback>\n"

/-- A failure that the compiler did not foresee. -/
def unforeseen (reason : String) : String := "An unexpected internal error occurred: " ++ reason

/-- The file of a request; a file without a name is none. -/
def Request.path? (r : Request) : Option Path := (r.file.filter (· ≠ "")).map r.directory.resolve

/-- The name of the file as the program carries it. -/
def Request.fileName (r : Request) : String := (r.path?.map Path.text).getD stdinName

/-- Where the artifact of a stage is saved. -/
def Request.artifactPath (r : Request) (stage : Stage) : String :=
  (r.path?.map (·.withoutExtension.text)).getD "stdin_output" ++ "." ++ stage.name ++ ".json"

/-- Saves an artifact if the request asks for it. A file that the system refuses is reported
and passed over; a path that is no path ends the run. -/
def save (r : Request) (stage : Stage) (artifact : Json) : Script (Except Failure Unit) :=
  if stage ∈ r.saved then do
    .say ("--- Saving artifact '" ++ stage.name ++ "' to " ++ r.artifactPath stage ++ " ---\n")
    let failure ← .writeFile (r.artifactPath stage) (artifact.text (some 2)) .done
    match failure with
    | none => pure (.ok ())
    | some e =>
      if e.isRefusal then do
        .say ("Error: Could not save artifact '" ++ stage.name ++ "': " ++ e.message ++ "\n")
        pure (.ok ())
      else do
        .say traceMark .errors
        pure (.error (.internal (unforeseen e.message)))
  else pure (.ok ())

/-- Resolves the names of a program that has been read. -/
def resolve (r : Request) (p : Program) : Script (Except Failure Product) := do
  let resolution := Resolution.ofProgram p
  .say (Diagnostic.printed resolution.diagnostics) r.channel
  match resolution.session.fault with
  | some fault => pure (.error (.internal fault.message))
  | none =>
    match ← save r .names (Artifact.ofResolution resolution) with
    | .error e => pure (.error e)
    | .ok () => pure (.ok (.names resolution))

/-- Compiles a text. -/
def script (r : Request) : Script (Except Failure Product) := do
  let parsed := Source.parse r.text r.fileName
  .say (Diagnostic.printed parsed.warnings) r.channel
  match parsed.result with
  | .error e => pure (.error (.notice (e.notice (some r.fileName))))
  | .ok p =>
    match ← save r .tree (Artifact.ofProgram p) with
    | .error e => pure (.error e)
    | .ok () => if r.stopAfter = some .tree then pure (.ok (.tree p)) else resolve r p

end Compilation

end Carrot
