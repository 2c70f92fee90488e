import Carrot.Compilation
import Carrot.Proofs.Resolution.Clean
import Carrot.Proofs.Resolution.Severity
import Carrot.Proofs.Script

/-! # What a compilation gives

Where its artifacts can be written, a compilation gives the product of the last stage that
was asked for, or the notice of a syntax error. It never fails in another way, since the
names of a program that was read are not empty. On its way it saves the products of the
stages it reaches and prints what they report.
-/

namespace Carrot

namespace Source

theorem severity_of_mem_checkNumbers {ts : List Token} :
    ∀ d ∈ (checkNumbers ts).1, d.severity = .warning := by
  induction ts with
  | nil => simp [checkNumbers]
  | cons t ts ih =>
    rw [checkNumbers]
    dsimp only
    split
    · split
      · simp
      · split
        · exact List.forall_mem_cons.2 ⟨rfl, ih⟩
        · exact ih
    · exact ih

/-- Reading a text gives no other diagnostics than warnings. -/
theorem severity_of_mem_warnings {text file : String} :
    ∀ d ∈ (parse text file).warnings, d.severity = .warning := by
  cases hs : Screening.check text.toList with
  | error e => simp [parse_of_check_error hs, Parsed.error]
  | ok u =>
    cases hr : readTokens (Tokens.ofText text.toList) with
    | error e => simp [parse_of_readTokens_error hs hr, Parsed.error]
    | ok ds =>
      rw [parse_of_readTokens hs hr]
      exact severity_of_mem_checkNumbers

end Source

theorem Diagnostic.printed_append (ds es : List Diagnostic) :
    printed (ds ++ es) = printed ds ++ printed es := by
  simp [printed, String.join_append]

namespace Compilation

/-- What a stage makes of a program, whether or not it meets a fault. -/
def productOf (p : Program) : Stage → Product
  | .tree => .tree p
  | .names => .names (Resolution.ofProgram p)

/-- A product that was made to its end. -/
def Product.isComplete : Product → Bool
  | .tree _ => true
  | .names r => r.session.fault.isNone

/-- What a stage produces of a text that has been read. -/
def product? (parsed : Source.Parsed) (stage : Stage) : Option Product :=
  (parsed.result.toOption.map (productOf · stage)).filter Product.isComplete

/-- The artifact that shows a product. -/
def Product.artifact : Product → Json
  | .tree p => Artifact.ofProgram p
  | .names r => Artifact.ofResolution r

namespace Request

/-- The text of a request, read. -/
def parsed (r : Request) : Source.Parsed := Source.parse r.text r.fileName

/-- The stages that a request goes through. -/
def stages (r : Request) : List Stage :=
  if r.stopAfter = some .tree then [.tree] else [.tree, .names]

def lastStage (r : Request) : Stage := if r.stopAfter = some .tree then .tree else .names

/-- What name resolution finds, if it is reached. -/
def findings (r : Request) : List Diagnostic :=
  match r.parsed.result with
  | .ok p => if .names ∈ r.stages then (Resolution.ofProgram p).diagnostics else []
  | .error _ => []

/-- The file that shows a product. -/
def artifact (r : Request) (stage : Stage) (product : Product) : String × String :=
  (r.artifactPath stage, product.artifact.text (some 2))

/-- The surroundings let a request save its artifacts. -/
def Writable (r : Request) (s : Store) : Prop :=
  ∀ stage ∈ r.saved, s.refuses? (r.artifactPath stage) = none

@[simp] theorem writable_run {α : Type} (r : Request) (x : Script α) (s : Store) :
    r.Writable (x.run s).2 ↔ r.Writable s := by
  simp [Writable]

@[simp] theorem writable_print (r : Request) (s : Store) (text : String) (c : Channel) :
    r.Writable (s.print text c) ↔ r.Writable s := by
  simp [Writable]

end Request

variable {r : Request} {s : Store}

/-! ### Saving -/

theorem run_save (hw : r.Writable s) (stage : Stage) (artifact : Json) :
    ((save r stage artifact).run s).1 = .ok () := by
  unfold save
  split
  · next h => simp [Script.run_writeFile, hw stage h]
  · rfl

theorem shown_save (hw : r.Writable s) (stage : Stage) (artifact : Json) {c : Channel}
    (hc : c ≠ .output) : ((save r stage artifact).run s).2.shown c = s.shown c := by
  unfold save
  split
  · next h => simp [Script.run_writeFile, hw stage h, hc.symm]
  · rfl

theorem writes_save (hw : r.Writable s) (stage : Stage) (artifact : Json) :
    (save r stage artifact).writes s =
      if stage ∈ r.saved then [(r.artifactPath stage, artifact.text (some 2))] else [] := by
  unfold save
  split
  · next h => simp [Script.run_writeFile, Script.writes_writeFile, hw stage h]
  · rfl

/-! ### The second stage -/

section

variable {p : Program} (hp : Named p.declared) (hw : r.Writable s)

include hp hw

theorem run_resolve : ((resolve r p).run s).1 = .ok (.names (Resolution.ofProgram p)) := by
  simp [resolve, Resolution.fault_ofProgram .empty hp, run_save, hw]

theorem shown_resolve {c : Channel} (hc : c ≠ .output) (hchannel : r.channel = c) :
    ((resolve r p).run s).2.shown c =
      s.shown c ++ Diagnostic.printed (Resolution.ofProgram p).diagnostics := by
  simp [resolve, Resolution.fault_ofProgram .empty hp, run_save, shown_save, hw, hc, hchannel]

theorem writes_resolve : (resolve r p).writes s =
    if .names ∈ r.saved then [r.artifact .names (.names (Resolution.ofProgram p))] else [] := by
  simp [resolve, Resolution.fault_ofProgram .empty hp, run_save, writes_save, hw,
    Request.artifact, Product.artifact]

end

/-! ### Both stages -/

section

variable {e : SyntaxError} (hr : r.parsed.result = .error e)

include hr

theorem run_script_of_error : (script r).run s =
    (.error (.notice (e.notice (some r.fileName))),
      s.print (Diagnostic.printed r.parsed.warnings) r.channel) := by
  rw [Request.parsed] at hr ⊢
  simp [script, hr]

theorem writes_script_of_error : (script r).writes s = [] := by
  rw [Request.parsed] at hr
  simp [script, hr]

end

section

variable {p : Program} (hr : r.parsed.result = .ok p) (hw : r.Writable s)

include hr

theorem named_of_parsed : Named p.declared := (Source.wellFormed_of_parse hr).named

theorem product?_of_parsed (stage : Stage) :
    product? r.parsed stage = some (productOf p stage) := by
  have hfault := Resolution.fault_ofProgram .empty (named_of_parsed hr)
  rw [product?, hr]
  cases stage with
  | tree => rfl
  | names => simp [Except.toOption, productOf, Product.isComplete, hfault]

include hw

theorem run_script_of_ok : ((script r).run s).1 = .ok (productOf p r.lastStage) := by
  have hp := named_of_parsed hr
  rw [Request.parsed] at hr
  by_cases hstop : r.stopAfter = some .tree <;>
    simp [script, hr, hstop, run_save, run_resolve, hp, hw, productOf, Request.lastStage]

theorem shown_script_of_ok {c : Channel} (hc : c ≠ .output) (hchannel : r.channel = c) :
    ((script r).run s).2.shown c =
      s.shown c ++ Diagnostic.printed (r.parsed.warnings ++ r.findings) := by
  have hp := named_of_parsed hr
  rw [Diagnostic.printed_append, Request.findings, hr, Request.parsed, ← String.append_assoc]
  rw [Request.parsed] at hr
  by_cases hstop : r.stopAfter = some .tree
  · simp [script, hr, hstop, run_save, shown_save, hw, hc, hchannel, Request.stages,
      Diagnostic.printed]
  · simp [script, hr, hstop, run_save, shown_save, shown_resolve, hp, hw, hc, hchannel,
      Request.stages]

theorem writes_script_of_ok : (script r).writes s = r.stages.flatMap fun stage =>
    if stage ∈ r.saved then [r.artifact stage (productOf p stage)] else [] := by
  have hp := named_of_parsed hr
  rw [Request.parsed] at hr
  by_cases hstop : r.stopAfter = some .tree
  · simp [script, hr, hstop, run_save, writes_save, hw, Request.stages, Request.artifact,
      productOf, Product.artifact]
  · simp [script, hr, hstop, run_save, writes_save, writes_resolve, hp, hw, Request.stages,
      Request.artifact, productOf, Product.artifact]

end

/-- Name resolution, if it is reached, finds nothing but errors. -/
theorem onlyErrors_findings (r : Request) : OnlyErrors r.findings := by
  unfold Request.findings
  split
  · next p hr =>
    split
    · exact Resolution.onlyErrors_diagnostics .empty (named_of_parsed hr)
    · exact onlyErrors_nil
  · exact onlyErrors_nil

/-- Where its artifacts can be written, a compilation gives a product or the notice of a syntax
error, which can be written out. -/
theorem product_or_notice (r : Request) (hw : r.Writable s) :
    (∃ product, ((script r).run s).1 = .ok product) ∨
      ∃ n, ((script r).run s).1 = .error (.notice n) ∧ n.missing? = none := by
  cases hr : r.parsed.result with
  | error e =>
    rw [run_script_of_error hr]
    exact .inr ⟨_, rfl, e.missing?_notice _⟩
  | ok p => exact .inl ⟨_, run_script_of_ok hr hw⟩

end Compilation

end Carrot
