import Carrot.CommandLine
import Carrot.Proofs.Compilation

/-! # How a run ends

Where its input can be read and its files can be written, a run ends with status zero
exactly if the text is a program whose names, if they were asked for, are clean. What it
writes and what it says on the error channel follows from what the stages give.
-/

namespace Carrot

/-! ### Diagnostics are lines -/

theorem newline_not_mem_toString (i : Int) : '\n' ∉ (toString i).toList := by
  have hnat (n : Nat) : '\n' ∉ n.repr.toList := by
    intro h
    rw [Nat.toList_repr] at h
    exact absurd (Nat.isDigit_of_mem_toDigits (by decide) (by decide) h) (by decide)
  cases i with
  | ofNat n => exact hnat n
  | negSucc n =>
    intro h
    rcases List.mem_append.1 (String.toList_append ▸ h) with hsign | hdigit
    · exact absurd hsign (by decide)
    · exact hnat _ hdigit

namespace Diagnostic

/-- A line names the place, then the gravity, then what is wrong, and breaks once, at its end. -/
theorem count_newline_line (d : Diagnostic) (mark : String) (hmark : '\n' ∉ mark.toList) :
    (toString d.position.line ++ ":" ++ toString d.position.column ++ mark ++ d.code.message ++
      "\n").toList.count '\n' = 1 := by
  have hmessage : '\n' ∉ d.code.message.toList := by cases d.code <;> decide +kernel
  have hline := List.count_eq_zero_of_not_mem (newline_not_mem_toString d.position.line)
  have hcolumn := List.count_eq_zero_of_not_mem (newline_not_mem_toString d.position.column)
  simp only [String.toList_append, List.count_append, hline, hcolumn,
    List.count_eq_zero_of_not_mem hmark, List.count_eq_zero_of_not_mem hmessage]
  decide

/-- Diagnostics of one gravity are printed with one mark. -/
theorem printed_of_severity {ds : List Diagnostic} {severity : Severity}
    (h : ∀ d ∈ ds, d.severity = severity) : printed ds =
      String.join (ds.map fun d => toString d.position.line ++ ":" ++ toString d.position.column ++
        mark severity ++ d.code.message ++ "\n") := by
  rw [printed]
  refine congrArg String.join (List.map_congr_left fun d hd => ?_)
  rw [line, Position.text, h d hd]

end Diagnostic

namespace CommandLine

/-! ### Reading the input -/

section

variable (directory : Path) (o : Options) (s : Store)

@[simp] theorem store_readSource : ((readSource directory o).run s).2 = s := by
  unfold readSource
  cases o.input with
  | none => rfl
  | some name =>
    simp only [Script.run]
    cases s.read (directory.resolve name).text <;> rfl

@[simp] theorem writes_readSource : (readSource directory o).writes s = [] := by
  unfold readSource
  cases o.input with
  | none => rfl
  | some name =>
    simp only [Script.writes]
    cases s.read (directory.resolve name).text <;> rfl

/-- What has been printed does not matter for reading. -/
theorem readSource_print (text : String) (c : Channel) :
    ((readSource directory o).run (s.print text c)).1 = ((readSource directory o).run s).1 := by
  have hread (path : String) : (s.print text c).read path = s.read path := by
    cases c <;> rfl
  unfold readSource
  cases o.input with
  | none => cases c <;> rfl
  | some name =>
    simp only [Script.run, hread]
    cases s.read (directory.resolve name).text <;> rfl

end

/-! ### Compiling it -/

/-- The compilation that the options ask for. -/
def request (directory : Path) (o : Options) (text : String) (file : Option String) :
    Compilation.Request :=
  { text := text, file := file, directory := directory, saved := o.compile.toList,
    stopAfter := o.compile }

section

variable {directory : Path} {o : Options} {s : Store} {text : String} {file : Option String}
  (hread : ((readSource directory o).run s).1 = .ok (text, file))

include hread

theorem run_compile_of_ok {product : Compilation.Product}
    (h : ((Compilation.script (request directory o text file)).run s).1 = .ok product) :
    (compile directory o).run s =
      (.ok product, ((Compilation.script (request directory o text file)).run s).2) := by
  rw [request] at h
  simp only [compile, Script.run_bind, hread, store_readSource, request, h, Script.run_pure]

theorem run_compile_of_error {e : Compilation.Failure}
    (h : ((Compilation.script (request directory o text file)).run s).1 = .error e) :
    (compile directory o).run s =
      (.error (.ofCompilation e),
        ((Compilation.script (request directory o text file)).run s).2) := by
  rw [request] at h
  simp only [compile, Script.run_bind, hread, store_readSource, request, h, Script.run_pure]

theorem writes_compile : (compile directory o).writes s =
    (Compilation.script (request directory o text file)).writes s := by
  simp only [compile, Script.writes_bind, hread, store_readSource, writes_readSource, request,
    List.nil_append]
  generalize (Compilation.script _).run s = q
  obtain ⟨e | product, t⟩ := q <;> exact List.append_nil _

end

/-! ### Writing the program -/

/-- Where the annotated program is written; an empty name names no file. -/
def outputPath? (directory : Path) (o : Options) : Option String :=
  (o.output.filter (· ≠ "")).map fun name => (directory.resolve name).text

/-- The surroundings let the annotated program be written. -/
def Writable (directory : Path) (o : Options) (s : Store) : Prop :=
  ∀ path ∈ outputPath? directory o, s.refuses? path = none

@[simp] theorem writable_run {α : Type} (directory : Path) (o : Options) (x : Script α)
    (s : Store) : Writable directory o (x.run s).2 ↔ Writable directory o s := by
  simp [Writable]

@[simp] theorem writable_print (directory : Path) (o : Options) (s : Store) (text : String)
    (c : Channel) : Writable directory o (s.print text c) ↔ Writable directory o s := by
  simp [Writable]

section

variable {directory : Path} {o : Options} {s : Store} (hwrite : Writable directory o s)

include hwrite

/-- No file was named, or the surroundings let the one that was be written. -/
theorem Writable.named : o.output.filter (· ≠ "") = none ∨
    ∃ name, o.output.filter (· ≠ "") = some name ∧
      s.refuses? (directory.resolve name).text = none := by
  rw [Writable, outputPath?] at hwrite
  cases h : o.output.filter (· ≠ "") with
  | none => exact .inl rfl
  | some name => exact .inr ⟨name, rfl, hwrite _ (by rw [h]; rfl)⟩

variable (p : Program)

theorem run_writeProgram : ((writeProgram directory o p).run s).1 = none := by
  unfold writeProgram
  obtain h | ⟨name, h, hwritable⟩ := hwrite.named
  · rw [h]
    rfl
  · rw [h]
    simp [Script.run_writeFile, hwritable]

theorem errors_writeProgram :
    ((writeProgram directory o p).run s).2.shown .errors = s.shown .errors := by
  unfold writeProgram
  obtain h | ⟨name, h, hwritable⟩ := hwrite.named
  · rw [h]
    rfl
  · rw [h]
    simp [Script.run_writeFile, hwritable]

theorem writes_writeProgram : (writeProgram directory o p).writes s =
    ((outputPath? directory o).map (·, p.text)).toList := by
  unfold writeProgram outputPath?
  obtain h | ⟨name, h, hwritable⟩ := hwrite.named
  · rw [h]
    rfl
  · rw [h]
    simp [Script.run_writeFile, Script.writes_writeFile, hwritable]

end

/-! ### The whole run -/

/-- What the options ask for is found in the text, and no error with it. -/
def Clean (r : Compilation.Request) : Prop :=
  ∃ p, r.parsed.result = .ok p ∧
    (r.stopAfter = some .tree ∨ ∀ d ∈ (Resolution.ofProgram p).diagnostics, d.isError = false)

/-- The program as it is written, with its bindings if they were asked for. -/
def annotated (r : Compilation.Request) (p : Program) : Program :=
  if r.stopAfter = some .tree then p else (Resolution.ofProgram p).program

/-- A report in red, on lines of its own. -/
def report (text : String) : String := "\x1b[91m" ++ text ++ "\x1b[0m\n"

theorem report_eq_paint (text : String) : report text = Color.red.paint text ++ "\n" := by
  have hopen : "\x1b[" ++ Color.red.code ++ "m" = "\x1b[91m" := by decide
  have hclose : "\x1b[0m" ++ "\n" = "\x1b[0m\n" := by decide
  rw [report, Color.paint, hopen, ← hclose, ← String.append_assoc]

/-- What is reported behind the diagnostics. -/
def banner (r : Compilation.Request) : String :=
  match r.parsed.result with
  | .error e => report ("\n--- SYNTAX ERROR ---\n" ++ (e.notice (some r.fileName)).text)
  | .ok _ =>
    if r.findings.any (·.isError) then
      report ("\n--- NAME ANALYSIS FAILED (" ++ toString (r.findings.countP (·.isError)) ++
        " error(s)) ---")
    else ""

section

variable {r : Compilation.Request} {p : Program} (hr : r.parsed.result = .ok p)

include hr

theorem clean_iff : Clean r ↔ ∀ d ∈ r.findings, d.isError = false := by
  simp only [Clean, hr, Except.ok.injEq, exists_eq_left', Compilation.Request.findings,
    Compilation.Request.stages]
  by_cases hstop : r.stopAfter = some .tree <;> simp [hstop]

theorem program_of_clean (h : Clean r) :
    program (Compilation.productOf p r.lastStage) = .ok (annotated r p) := by
  obtain ⟨q, hq, h⟩ := h
  cases hr.symm.trans hq
  by_cases hstop : r.stopAfter = some .tree
  · simp [Compilation.Request.lastStage, annotated, hstop, Compilation.productOf, program]
  · have hp := Compilation.named_of_parsed hr
    have hok := (Resolution.ok_iff .empty hp).2 (h.resolve_left hstop)
    simp [Compilation.Request.lastStage, annotated, hstop, Compilation.productOf, program, hok]

theorem program_of_not_clean (h : ¬Clean r) : program (Compilation.productOf p r.lastStage) =
    .error (r.findings.countP (·.isError)) := by
  have hp := Compilation.named_of_parsed hr
  have hstop : r.stopAfter ≠ some .tree := fun hstop => h ⟨p, hr, .inl hstop⟩
  have hok : (Resolution.ofProgram p).ok = false := by
    rw [Bool.eq_false_iff]
    exact fun hok => h ⟨p, hr, .inr ((Resolution.ok_iff .empty hp).1 hok)⟩
  simp [Compilation.Request.lastStage, hstop, Compilation.productOf, program, hok,
    Compilation.Request.findings, hr, Compilation.Request.stages]

theorem banner_of_clean (h : Clean r) : banner r = "" := by
  have hnone : r.findings.any (·.isError) = false := by simpa using (clean_iff hr).1 h
  simp [banner, hr, hnone]

theorem banner_of_not_clean (h : ¬Clean r) : banner r =
    report ("\n--- NAME ANALYSIS FAILED (" ++ toString (r.findings.countP (·.isError)) ++
      " error(s)) ---") := by
  rw [clean_iff hr] at h
  have hany : r.findings.any (·.isError) := by simpa using h
  simp [banner, hr, hany]

end

section

variable {directory : Path} {o : Options} {s : Store} {text : String} {file : Option String}
  (hread : ((readSource directory o).run s).1 = .ok (text, file))

/-- The artifact that is saved for a program. -/
theorem writes_request {p : Program}
    (hr : (request directory o text file).parsed.result = .ok p)
    (hwrite : (request directory o text file).Writable s) :
    (Compilation.script (request directory o text file)).writes s =
      (o.compile.map fun stage => (request directory o text file).artifact stage
        (Compilation.productOf p stage)).toList := by
  rw [Compilation.writes_script_of_ok hr hwrite]
  cases h : o.compile with
  | none => simp [request, h, Compilation.Request.stages]
  | some stage => cases stage <;> simp [request, h, Compilation.Request.stages]

/-- A stage that was chosen has a product, and its artifact is saved. -/
theorem artifact_eq_some_iff {r : Compilation.Request} {p : Program}
    (hr : r.parsed.result = .ok p) (stage? : Option Stage) (f : String × String) :
    (stage?.map fun stage => r.artifact stage (Compilation.productOf p stage)) = some f ↔
      ∃ stage product, stage? = some stage ∧ Compilation.product? r.parsed stage = some product ∧
        r.artifact stage product = f := by
  simp [Compilation.product?_of_parsed hr]

include hread

/-- A run over a text with a syntax error. -/
theorem analyse_of_error {e : SyntaxError}
    (hr : (request directory o text file).parsed.result = .error e) :
    let r := request directory o text file
    ((analyse directory o).run s).1 = .status 1 ∧ (analyse directory o).writes s = [] ∧
      ((analyse directory o).run s).2.shown .errors =
        s.shown .errors ++ Diagnostic.printed r.parsed.warnings ++ banner r := by
  have hread {t c} := (readSource_print directory o s t c).trans hread
  have hchannel : (request directory o text file).channel = .errors := rfl
  simp [analyse, run_compile_of_error hread, writes_compile hread,
    Compilation.run_script_of_error hr, Compilation.writes_script_of_error hr, reportFailure,
    complain, report_eq_paint, Failure.ofCompilation, hchannel, banner, hr]

variable {p : Program} (hr : (request directory o text file).parsed.result = .ok p)
  (hwrite : (request directory o text file).Writable s)

include hr hwrite

/-- A run over a program with errors in its names. -/
theorem analyse_of_not_clean (h : ¬Clean (request directory o text file)) :
    let r := request directory o text file
    ((analyse directory o).run s).1 = .status 1 ∧
      (analyse directory o).writes s =
        (o.compile.map fun stage => r.artifact stage (Compilation.productOf p stage)).toList ∧
      ((analyse directory o).run s).2.shown .errors =
        s.shown .errors ++ Diagnostic.printed (r.parsed.warnings ++ r.findings) ++ banner r := by
  have hread {t c} := (readSource_print directory o s t c).trans hread
  have hshown {t} (ht : (request directory o text file).Writable t) :=
    Compilation.shown_script_of_ok hr ht (c := .errors) (by decide) rfl
  simp [analyse, run_compile_of_ok hread (Compilation.run_script_of_ok hr _), writes_compile hread,
    hshown, writes_request hr, hwrite, program_of_not_clean hr h, complain,
    banner_of_not_clean hr h, report_eq_paint]

/-- A run over a program without errors, as far as they were looked for. -/
theorem analyse_of_clean (hout : Writable directory o s)
    (h : Clean (request directory o text file)) :
    let r := request directory o text file
    ((analyse directory o).run s).1 = .status 0 ∧
      (analyse directory o).writes s =
        (o.compile.map fun stage => r.artifact stage (Compilation.productOf p stage)).toList ++
          ((outputPath? directory o).map (·, (annotated r p).text)).toList ∧
      ((analyse directory o).run s).2.shown .errors =
        s.shown .errors ++ Diagnostic.printed (r.parsed.warnings ++ r.findings) ++ banner r := by
  have hread {t c} := (readSource_print directory o s t c).trans hread
  have hshown {t} (ht : (request directory o text file).Writable t) :=
    Compilation.shown_script_of_ok hr ht (c := .errors) (by decide) rfl
  simp [analyse, run_compile_of_ok hread (Compilation.run_script_of_ok hr _), writes_compile hread,
    hshown, writes_request hr, hwrite, program_of_clean hr h, run_writeProgram,
    errors_writeProgram, writes_writeProgram, hout, banner_of_clean hr h]

end

/-- Where its artifacts can be written, any compilation gives a product or the notice of a syntax
error. If the input can be read and the files can be written, the run ends with status zero if all
that the options ask for is clean, and with one otherwise. It writes the artifact of the stage that
was chosen, if that stage has a product, and then the program, if the status is zero and a file was
named. On the error channel stand the warnings of reading and the errors of name resolution, each
on a line with its place, its mark and its message, and then the report of a failure. -/
theorem analyse_outcome {directory : Path} {o : Options} {s : Store} {text : String}
    {file : Option String} (hread : ((readSource directory o).run s).1 = .ok (text, file))
    (hwrite : (request directory o text file).Writable s) (hout : Writable directory o s) :
    let r := request directory o text file
    let ending := (analyse directory o).run s
    let line (mark : String) (d : Diagnostic) : String := toString d.position.line ++ ":" ++
      toString d.position.column ++ mark ++ d.code.message ++ "\n"
    (∀ q : Compilation.Request, q.Writable s →
      (∃ product, ((Compilation.script q).run s).1 = .ok product) ∨
        ∃ n, ((Compilation.script q).run s).1 = .error (.notice n) ∧ n.missing? = none) ∧
    (ending.1 = .status 0 ↔ Clean r) ∧ (ending.1 = .status 1 ↔ ¬Clean r) ∧
    (∃ artifact output : Option (String × String),
      (analyse directory o).writes s = artifact.toList ++ output.toList ∧
      ending.2.written = (s.writeAll (artifact.toList ++ output.toList)).written ∧
      (∀ f, artifact = some f ↔ ∃ stage product, o.compile = some stage ∧
        Compilation.product? r.parsed stage = some product ∧ r.artifact stage product = f) ∧
      ∀ f, output = some f ↔ ending.1 = .status 0 ∧ ∃ path p, outputPath? directory o = some path ∧
        r.parsed.result = .ok p ∧ (path, (annotated r p).text) = f) ∧
    ending.2.errors = s.errors ++ String.join (r.parsed.warnings.map (line " ***WARNING*** ")) ++
      String.join (r.findings.map (line " ***ERROR*** ")) ++ banner r ∧
    (∀ d ∈ r.parsed.warnings, d.severity = .warning ∧
      (line " ***WARNING*** " d).toList.count '\n' = 1) ∧
    ∀ d ∈ r.findings, d.severity = .error ∧ (line " ***ERROR*** " d).toList.count '\n' = 1 := by
  intro r ending line
  have hwarnings : ∀ d ∈ r.parsed.warnings, d.severity = .warning :=
    Source.severity_of_mem_warnings
  have hfindings : ∀ d ∈ r.findings, d.severity = .error := fun d hd =>
    of_decide_eq_true (Compilation.onlyErrors_findings r d hd)
  have hlines : (∀ d ∈ r.parsed.warnings, d.severity = .warning ∧
      (line " ***WARNING*** " d).toList.count '\n' = 1) ∧
      ∀ d ∈ r.findings, d.severity = .error ∧ (line " ***ERROR*** " d).toList.count '\n' = 1 :=
    ⟨fun d hd => ⟨hwarnings d hd, d.count_newline_line _ (by decide)⟩,
      fun d hd => ⟨hfindings d hd, d.count_newline_line _ (by decide)⟩⟩
  have hchannel {report : String}
      (h : ending.2.errors =
        s.errors ++ Diagnostic.printed (r.parsed.warnings ++ r.findings) ++ report) :
      ending.2.errors = s.errors ++ String.join (r.parsed.warnings.map (line " ***WARNING*** ")) ++
        String.join (r.findings.map (line " ***ERROR*** ")) ++ report := by
    rw [h, Diagnostic.printed_append, Diagnostic.printed_of_severity hwarnings,
      Diagnostic.printed_of_severity hfindings, ← String.append_assoc]
    rfl
  have hwritten {artifact output : Option (String × String)}
      (h : (analyse directory o).writes s = artifact.toList ++ output.toList) :
      ending.2.written = (s.writeAll (artifact.toList ++ output.toList)).written :=
    h ▸ Script.written_run (analyse directory o) s
  refine ⟨fun q hq => Compilation.product_or_notice q hq, ?_⟩
  -- A run ends in one of three ways: the text is refused, it has errors, or it is clean.
  cases hr : r.parsed.result with
  | error e =>
    obtain ⟨hend, hwrites, herrors⟩ := analyse_of_error hread hr
    have hclean : ¬Clean r := by
      rintro ⟨p, hp, -⟩
      rw [hr] at hp
      cases hp
    have hnone : r.findings = [] := by simp [Compilation.Request.findings, hr]
    have hproduct (stage : Stage) : Compilation.product? r.parsed stage = none := by
      simp [Compilation.product?, hr, Except.toOption]
    refine ⟨by simp [ending, hend, hclean], by simp [ending, hend, hclean],
      ⟨none, none, hwrites, hwritten hwrites, ?_, ?_⟩, hchannel ?_, hlines⟩
    · simp [hproduct]
    · simp
    · rw [hnone, List.append_nil]
      exact herrors
  | ok p =>
    by_cases hclean : Clean r
    · obtain ⟨hend, hwrites, herrors⟩ := analyse_of_clean hread hr hwrite hout hclean
      refine ⟨by simp [ending, hend, hclean], by simp [ending, hend, hclean],
        ⟨_, _, hwrites, hwritten hwrites, artifact_eq_some_iff hr o.compile, ?_⟩,
        hchannel herrors, hlines⟩
      simp [ending, hend, r]
    · obtain ⟨hend, hwrites, herrors⟩ := analyse_of_not_clean hread hr hwrite hclean
      rw [← List.append_nil (Option.toList _)] at hwrites
      refine ⟨by simp [ending, hend, hclean], by simp [ending, hend, hclean],
        ⟨_, none, hwrites, hwritten hwrites, artifact_eq_some_iff hr o.compile, ?_⟩,
        hchannel herrors, hlines⟩
      simp [ending, hend]

/-- A function that puts a number which is too large into a name that is not declared. -/
def overflowText : String := "void f()\x7bx=4294967296;\x7d"

def overflowTokens : List Token :=
  [⟨.kwVoid, "void", ⟨1, 1⟩⟩, ⟨.ident, "f", ⟨1, 6⟩⟩, ⟨.lparen, "(", ⟨1, 7⟩⟩, ⟨.rparen, ")", ⟨1, 8⟩⟩,
    ⟨.lbrace, "\x7b", ⟨1, 9⟩⟩, ⟨.ident, "x", ⟨1, 10⟩⟩, ⟨.assign, "=", ⟨1, 11⟩⟩,
    ⟨.intLit, "4294967296", ⟨1, 12⟩⟩, ⟨.semicolon, ";", ⟨1, 22⟩⟩, ⟨.rbrace, "\x7d", ⟨1, 23⟩⟩]

def overflowDecls : List Decl :=
  [.func ⟨.void, ⟨"f", ⟨1, 6⟩, none⟩, [],
    ⟨[], [.assign (.ident ⟨"x", ⟨1, 10⟩, none⟩) (.int 2147483647 ⟨1, 12⟩)]⟩⟩]

theorem parse_overflowText : Source.parse overflowText =
    ⟨[.warning ⟨1, 12⟩ .intLiteralTooLarge], .ok ⟨overflowDecls, stdinName⟩⟩ := by
  have htokens : Tokens.ofText overflowText.toList = ⟨overflowTokens, none⟩ := by decide +kernel
  have hread : Source.readTokens (Tokens.ofText overflowText.toList) = .ok overflowDecls := by
    rw [htokens]
    rfl
  rw [Source.parse_of_readTokens rfl hread, htokens]
  rfl

/-- The text on the input, with its names asked for and a file for the program. -/
def askingOptions : Options := { output := some "out", compile := some .names }

def askingStore : Store := { input := overflowText.toList.map (·.toNat.toUInt8) }

/-- The warning is printed first, although its place is behind that of the error. -/
theorem analyse_outcome_undeclared :
    ((readSource .top askingOptions).run askingStore).1 = .ok (overflowText, none) ∧
      ((analyse .top askingOptions).run askingStore).1 = .status 1 ∧
      ((analyse .top askingOptions).run askingStore).2.errors =
        "1:12 ***WARNING*** integer literal too large; using max value
1:10 ***ERROR*** Undeclared identifier
\x1b[91m
--- NAME ANALYSIS FAILED (1 error(s)) ---\x1b[0m
" ∧
      ∃ product, (analyse .top askingOptions).writes askingStore =
        [(request .top askingOptions overflowText none).artifact .names product] := by
  have hread : ((readSource .top askingOptions).run askingStore).1 =
      .ok (overflowText, none) := by rfl
  have hwrite : (request .top askingOptions overflowText none).Writable askingStore := by
    intro stage hstage
    rw [List.mem_singleton.1 hstage]
    decide +kernel
  have hout : Writable .top askingOptions askingStore := by
    intro path hpath
    cases hpath
    decide +kernel
  obtain ⟨-, -, hstatus, ⟨artifact, output, hwrites, -, hartifact, houtput⟩, herrors, -⟩ :=
    analyse_outcome hread hwrite hout
  have hparsed : (request .top askingOptions overflowText none).parsed =
      ⟨[.warning ⟨1, 12⟩ .intLiteralTooLarge], .ok ⟨overflowDecls, stdinName⟩⟩ :=
    parse_overflowText
  have hr := congrArg Source.Parsed.result hparsed
  have hfindings : (request .top askingOptions overflowText none).findings =
      [.error ⟨1, 10⟩ .undeclared] := by
    rw [Compilation.Request.findings, hr]
    rfl
  have hclean : ¬Clean (request .top askingOptions overflowText none) := by
    rw [clean_iff hr, hfindings]
    decide
  have hend := hstatus.2 hclean
  rw [banner_of_not_clean hr hclean, hparsed, hfindings] at herrors
  have hsaved := (hartifact _).2
    ⟨.names, _, rfl, Compilation.product?_of_parsed hr .names, rfl⟩
  refine ⟨hread, hend, herrors.trans (by decide +kernel), ?_⟩
  cases output with
  | none => exact ⟨_, hsaved ▸ hwrites⟩
  | some f =>
    have hzero := ((houtput f).1 rfl).1
    rw [hend] at hzero
    cases hzero

end CommandLine

end Carrot
