import Carrot.Compilation
import Carrot.Text.Printable

/-! # Options

The words of a command line are classified first: a word that names an option, by its
short or long name or by the start of a long one, may carry a value; two dashes alone
end the options; negative numbers, words with a blank and all others stand for
themselves. Then the words are taken from left to right. The first word that stands
for itself is the input file, and what has no use is collected and refused.
-/

namespace Carrot

inductive Flag where
  | help | output | compile
  deriving DecidableEq, Repr

namespace Flag

def all : List Flag := [.help, .output, .compile]

def short : Flag → Char
  | .help => 'h'
  | .output => 'o'
  | .compile => 'c'

def long : Flag → String
  | .help => "--help"
  | .output => "--output"
  | .compile => "--compile"

def text (f : Flag) : String := "-" ++ f.short.toString ++ "/" ++ f.long

def ofShort? (c : Char) : Option Flag := all.find? (·.short == c)

/-- The options whose long name starts so. -/
def ofStart (s : List Char) : List Flag := all.filter fun f => s.isPrefixOf f.long.toList

end Flag

inductive UsageError where
  | ambiguous (word : String)
  | expectsValue (flag : Flag)
  | takesNoValue (flag : Flag) (value : String)
  | invalidChoice (value : String)
  | unrecognized (words : List String)
  | noInput
  deriving DecidableEq, Repr

namespace UsageError

def argument (f : Flag) (problem : String) : String := "argument " ++ f.text ++ ": " ++ problem

def message : UsageError → String
  | .ambiguous w =>
    "ambiguous option: " ++ w ++ " could match "
      ++ String.intercalate ", " (Flag.all.map Flag.long)
  | .expectsValue f => argument f "expected one argument"
  | .takesNoValue f v => argument f ("ignored explicit argument " ++ Text.quoted v)
  | .invalidChoice v =>
    argument .compile ("invalid choice: " ++ Text.quoted v ++ " (choose from "
      ++ String.intercalate ", " (Stage.all.map fun s => Text.quoted s.key) ++ ")")
  | .unrecognized ws => "unrecognized arguments: " ++ String.intercalate " " ws
  | .noInput => "input_file is required when not reading from a pipe."

end UsageError

/-- What a word of the command line is. -/
inductive Word where
  | plain (text : String)
  /-- Two dashes, which end the options. -/
  | dashes
  /-- An option with its joined value. -/
  | option (flag : Flag) (value : Option (List Char))
  /-- The short name for help, with the short names written directly behind it. -/
  | helpChain (names : List Char)
  /-- A word that looks like an option and is none. -/
  | unknown (text : String)
  deriving DecidableEq, Repr

namespace Word

/-- A word up to its first equals sign, and what follows it if it has one. -/
def splitValue (w : List Char) : List Char × Option (List Char) :=
  match w.dropWhile (· ≠ '=') with
  | [] => (w, none)
  | _ :: value => (w.takeWhile (· ≠ '='), some value)

/-- Whether a word without its dash is a number: digits with at most one point, which a digit
follows. -/
def isNumber (w : List Char) : Bool :=
  let w := if w.getLast? = some '\n' then w.dropLast else w
  match w.dropWhile Text.isDecimal with
  | [] => !w.isEmpty
  | '.' :: decimals => !decimals.isEmpty && decimals.all Text.isDecimal
  | _ => false

def other (w : List Char) : Word :=
  if isNumber w.tail || w.contains ' ' then .plain (String.ofList w)
  else .unknown (String.ofList w)

/-- A word that starts with two dashes: an option by its whole name or by the start of one. -/
def ofLong (w : List Char) : Except UsageError Word :=
  let (name, value) := splitValue w
  match Flag.all.find? (·.long.toList == name), Flag.ofStart name with
  | some f, _ => .ok (.option f value)
  | none, [] => .ok (other w)
  | none, [f] => .ok (.option f value)
  | none, _ => .error (.ambiguous (String.ofList w))

/-- The value in what is written behind a short name; an equals sign in front is not part of
it. -/
def joined? : List Char → Option (List Char)
  | [] => none
  | '=' :: value => some value
  | value => some value

/-- A word that starts with a dash and `c`. Behind the short name for help stand further short
names, unless it is a lone equals sign. -/
def ofShort (c : Char) (rest : List Char) : Word :=
  match Flag.ofShort? c, joined? rest with
  | none, _ => other ('-' :: c :: rest)
  | some .help, none => .helpChain []
  | some .help, some (name :: names) => .helpChain (name :: names)
  | some f, value => .option f value

def ofText (s : String) : Except UsageError Word :=
  match s.toList with
  | ['-', '-'] => .ok .dashes
  | '-' :: '-' :: w => ofLong ('-' :: '-' :: w)
  | '-' :: c :: rest => .ok (ofShort c rest)
  | _ => .ok (.plain s)

/-- Classifies words; behind two dashes all stand for themselves. -/
def ofTexts : List String → Except UsageError (List Word)
  | [] => .ok []
  | s :: ss =>
    match ofText s with
    | .error e => .error e
    | .ok .dashes => .ok (.dashes :: ss.map .plain)
    | .ok w => (ofTexts ss).map (w :: ·)

end Word

structure Options where
  input : Option String := none
  output : Option String := none
  compile : Option Stage := none
  deriving DecidableEq, Repr

inductive Command where
  | help
  | run (o : Options)
  deriving DecidableEq, Repr

namespace Options

/-- What has been taken from the words on the left. -/
structure Taken where
  options : Options := {}
  /-- Whether the place of the input file is filled. -/
  filled : Bool := false
  rest : List String := []

/-- Takes back the option of a flag that takes a value. -/
def unset (o : Options) : Flag → Options
  | .help => o
  | .output => { o with output := none }
  | .compile => { o with compile := none }

/-- Sets the option of a flag that takes a value. Two dashes are no value: they take back what
was set before. -/
def set (o : Options) (f : Flag) (value : String) : Except UsageError Options :=
  if value = "--" then .ok (o.unset f)
  else
    match f with
    | .help => .ok o
    | .output => .ok { o with output := some value }
    | .compile =>
      match Stage.ofKey? value with
      | some stage => .ok { o with compile := some stage }
      | none => .error (.invalidChoice value)

/-- Checks the short names behind the one for help. One that takes a value needs it here or, if
`hasNext`, in the word that follows; a character that names no option makes all that is left a
value, which help does not take. -/
def checkHelp (hasNext : Bool) : List Char → Except UsageError Unit
  | [] => .ok ()
  | c :: rest =>
    match Flag.ofShort? c with
    | none => .error (.takesNoValue .help (String.ofList (c :: rest)))
    | some .help => checkHelp hasNext rest
    | some f => if rest = [] && !hasNext then .error (.expectsValue f) else .ok ()

/-- Whether words start with one that can be the value of an option. -/
def hasValue : List Word → Bool
  | .plain _ :: _ => true
  | _ => false

/-- Takes a word that stands for itself. -/
def Taken.plain (t : Taken) (s : String) : Taken :=
  if t.filled then { t with rest := t.rest ++ [s] }
  else { t with options := { t.options with input := some s }, filled := true }

def take (t : Taken) : List Word → Except UsageError (Taken × Bool)
  | [] => .ok (t, false)
  | .plain s :: .dashes :: ws =>
    if t.filled then take { t with rest := t.rest ++ [s, "--"] } ws else take (t.plain s) ws
  | .plain s :: ws => take (t.plain s) ws
  | .dashes :: ws => take (if t.filled then { t with rest := t.rest ++ ["--"] } else t) ws
  | .unknown s :: ws => take { t with rest := t.rest ++ [s] } ws
  | .helpChain names :: ws => (checkHelp (hasValue ws) names).map fun _ => (t, true)
  | .option .help none :: _ => .ok (t, true)
  | .option .help (some v) :: _ => .error (.takesNoValue .help (String.ofList v))
  | .option f (some v) :: ws =>
    match set t.options f (String.ofList v) with
    | .ok o => take { t with options := o } ws
    | .error e => .error e
  | .option f none :: .plain v :: ws =>
    match set t.options f v with
    | .ok o => take { t with options := o } ws
    | .error e => .error e
  | .option f none :: _ => .error (.expectsValue f)

def ofWords (words : List String) : Except UsageError Command := do
  let (taken, help) ← take {} (← Word.ofTexts words)
  if help then .ok .help
  else if taken.rest.isEmpty then .ok (.run taken.options)
  else .error (.unrecognized taken.rest)

end Options

end Carrot
