import Carrot.CommandLine.Options
import Carrot.Text.Lines
import Carrot.Text.Utf8

/-! # The command line

A run reads the input, compiles it, writes the annotated program if that is asked for,
and says how it went. Its status is zero on success, one if the text has errors and two
if the command line does not make sense. Only a failure to write the annotated program
breaks a run off.
-/

namespace Carrot.CommandLine

def usage : String := "usage: carrotc [-h] [-o OUTPUT_FILE] [-c \x7b1,2\x7d] [input_file]\n"

def help : String :=
  usage ++ "
Parse and name-analyse a Carrot program.

positional arguments:
  input_file            Carrot source file. Reads stdin when omitted.

options:
  -h, --help            show this help message and exit
  -o OUTPUT_FILE, --output OUTPUT_FILE
                        Write the unparsed program, each identifier annotated
                        with its binding, to this file.
  -c \x7b1,2\x7d, --compile \x7b1,2\x7d
                        Stop after a stage and save its JSON artifact next to
                        the input ('1' = Abstract Syntax Tree, '2' = Name-
                        Analysed AST and Global Symbol Table).
"

inductive Color where
  | red | green | cyan
  deriving DecidableEq, Repr

def Color.code : Color → String
  | .red => "91"
  | .green => "92"
  | .cyan => "96"

def Color.paint (c : Color) (text : String) : String :=
  "\x1b[" ++ c.code ++ "m" ++ text ++ "\x1b[0m"

/-- How a run ends: with a status, or broken off. -/
inductive Ending where
  | status (n : Nat)
  | brokenOff (e : FileError)
  deriving DecidableEq, Repr

/-- Why there is nothing to go on with. -/
inductive Failure where
  | notice (n : Notice)
  | sourceMissing
  | unexpected (name reason : String)
  deriving DecidableEq, Repr

def Failure.ofFile (e : FileError) : Failure :=
  match e with
  | .missing _ => .sourceMissing
  | e => .unexpected e.name e.message

def Failure.ofCompilation : Compilation.Failure → Failure
  | .notice n => .notice n
  | .internal reason => .unexpected "InternalCompilerError" reason

/-- The text that octets encode, with unified line breaks. -/
def decode (octets : List UInt8) : Except Failure String :=
  match Text.Utf8.decode octets with
  | .ok s => .ok (String.ofList (Text.unifyBreaks s.toList))
  | .error e => .error (.unexpected "UnicodeDecodeError" e.message)

/-- Reads the input, and tells which file it comes from. -/
def readSource (directory : Path) (o : Options) :
    Script (Except Failure (String × Option String)) :=
  match o.input with
  | none => .readInput fun octets => .done ((decode octets).map (·, none))
  | some name =>
    let path := (directory.resolve name).text
    .readFile path fun
      | .ok octets => .done ((decode octets).map (·, some path))
      | .error e => .done (.error (.ofFile e))

/-- How the input is called: by the name that was given, if it is one. -/
def inputName (o : Options) : String := (o.input.filter (· ≠ "")).getD "stdin"

def compile (directory : Path) (o : Options) : Script (Except Failure Compilation.Product) := do
  match ← readSource directory o with
  | .error e => pure (.error e)
  | .ok (text, file) =>
    let request : Compilation.Request :=
      { text := text, file := file, directory := directory, saved := o.compile.toList,
        stopAfter := o.compile }
    match ← Compilation.script request with
    | .error e => pure (.error (.ofCompilation e))
    | .ok product => pure (.ok product)

def complain (text : String) : Script Unit := .say (Color.red.paint text ++ "\n") .errors

def reportFailure (o : Options) : Failure → Script Unit
  | .notice n => complain ("\n--- SYNTAX ERROR ---\n" ++ n.text)
  | .sourceMissing => complain ("ERROR: Source file '" ++ inputName o ++ "' not found.")
  | .unexpected name reason => do
    complain "\n--- UNEXPECTED COMPILER ERROR ---"
    .say "This may be a bug in the compiler. Please report it.\n" .errors
    .say (name ++ ": " ++ reason ++ "\n") .errors

/-- The program of a product, unless its names have errors; then their number. -/
def program : Compilation.Product → Except Nat Program
  | .tree p => .ok p
  | .names r =>
    if r.ok then .ok r.program else .error (r.diagnostics.countP (·.isError))

/-- Writes the annotated program, if a file is given for it. -/
def writeProgram (directory : Path) (o : Options) (p : Program) : Script (Option FileError) :=
  match o.output.filter (· ≠ "") with
  | none => pure none
  | some name => do
    let path := directory.resolve name
    -- Whether this worked shows when the file is written.
    .makeDirectory path.directory.text (.done ())
    match ← (.writeFile path.text p.text .done : Script (Option FileError)) with
    | some e => pure (some e)
    | none =>
      .say ("Annotated program written to " ++ path.text ++ "\n")
      pure none

/-- What a successful run says at its end. -/
def success : Option Stage → String
  | some stage => "--- Stopped after stage '" ++ stage.key ++ "' (" ++ stage.title ++ ") ---"
  | none => "--- Name analysis successful ---"

def analyse (directory : Path) (o : Options) : Script Ending := do
  .say ("--- Analysing " ++ inputName o ++ " ---\n")
  match ← compile directory o with
  | .error e =>
    reportFailure o e
    pure (.status 1)
  | .ok product =>
    match program product with
    | .error n =>
      complain ("\n--- NAME ANALYSIS FAILED (" ++ toString n ++ " error(s)) ---")
      pure (.status 1)
    | .ok p =>
      match ← writeProgram directory o p with
      | some e => pure (.brokenOff e)
      | none =>
        .say ("\n" ++ Color.green.paint (success o.compile) ++ "\n")
        pure (.status 0)

/-- A number of ten-thousandths with four places. -/
def fourPlaces (n : Nat) : String :=
  toString (n / 10000) ++ "." ++ ((toString (10000 + n % 10000)).drop 1).toString

def reportTime : Script Unit :=
  .elapsed fun n =>
    .say ("\n" ++ Color.cyan.paint ("--- Total Execution Time: " ++ fourPlaces n ++ " seconds ---")
      ++ "\n")

def refuse (e : UsageError) : Script Ending := do
  .say (usage ++ "carrotc: error: " ++ e.message ++ "\n") .errors
  pure (.status 2)

/-- Runs a command line in a directory; `terminal` tells whether the input comes from a
terminal. -/
def script (directory : Path) (words : List String) (terminal : Bool) : Script Ending :=
  match Options.ofWords words with
  | .error e => refuse e
  | .ok .help => do
    .say help
    pure (.status 0)
  | .ok (.run o) =>
    if terminal && (o.input.filter (· ≠ "")).isNone then refuse .noInput
    else do
      let ending ← analyse directory o
      match ending with
      | .status _ => reportTime
      | .brokenOff _ => pure ()
      pure ending

end Carrot.CommandLine
