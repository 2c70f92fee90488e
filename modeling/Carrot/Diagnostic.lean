import Carrot.Message
import Carrot.Position

/-! # Diagnostics and notices

A diagnostic is a remark about one place that does not end the run. A notice ends
it: it may know a place and a file, and says so in front of its message.
-/

namespace Carrot

inductive Severity where
  | error | warning
  deriving DecidableEq, Repr

def Severity.name : Severity → String
  | .error => "error"
  | .warning => "warning"

structure Diagnostic where
  severity : Severity
  code : Code
  position : Position
  deriving DecidableEq, Repr

namespace Diagnostic

def error (position : Position) (code : Code) : Diagnostic := ⟨.error, code, position⟩

def warning (position : Position) (code : Code) : Diagnostic := ⟨.warning, code, position⟩

def isError (d : Diagnostic) : Bool := d.severity = .error

def mark : Severity → String
  | .error => " ***ERROR*** "
  | .warning => " ***WARNING*** "

/-- A diagnostic as it is printed, on one line. -/
def line (d : Diagnostic) : String := d.position.text ++ mark d.severity ++ d.code.message

/-- All diagnostics as they are printed. -/
def printed (ds : List Diagnostic) : String := String.join (ds.map fun d => d.line ++ "\n")

end Diagnostic

structure Notice where
  code : Code
  position : Option Position
  file : Option String
  details : Details
  deriving DecidableEq, Repr

namespace Notice

/-- Where a notice applies; a file without a name is no file. -/
def location (position : Option Position) (file : Option String) : String :=
  let named := file.filter (· ≠ "")
  match position, named with
  | some p, some f =>
      "Error in '" ++ f ++ "' (Line: " ++ toString p.line ++ ", Column: " ++ toString p.column
        ++ "):\n"
  | some p, none => "Error at line " ++ toString p.line ++ ", column " ++ toString p.column ++ ":\n"
  | none, some f => "Error in '" ++ f ++ "': "
  | none, none => ""

def text (n : Notice) : String := location n.position n.file ++ n.code.fill n.details

/-- The detail that keeps the message from being written, if one is missing. -/
def missing? (n : Notice) : Option String := n.code.missing? n.details

end Notice

end Carrot
