import Carrot.Partial.Program

/-! # Runs over tokens

What a partly read expression, body or program becomes when tokens are read one
after another. Reading inside an expression is reading inside its body, and reading
inside a body is reading inside its program, for as long as the inner one goes on.
-/

namespace Carrot

/-- Reading the tokens one by one leads from `s` to `s'`. -/
def Reads {σ : Type} (next? : σ → Token → Option σ) (s : σ) (ts : List Token) (s' : σ) : Prop :=
  ts.foldlM next? s = some s'

namespace Reads

variable {σ : Type} {next? : σ → Token → Option σ} {s s' s'' : σ} {t : Token}
  {ts us : List Token}

theorem nil : Reads next? s [] s := rfl

theorem cons (h : next? s t = some s') (hs : Reads next? s' ts s'') :
    Reads next? s (t :: ts) s'' := by
  simpa [Reads, h] using hs

theorem one (h : next? s t = some s') : Reads next? s [t] s' := cons h nil

theorem append (h : Reads next? s ts s') (hs : Reads next? s' us s'') :
    Reads next? s (ts ++ us) s'' := by
  rw [Reads] at h
  simpa [Reads, h] using hs

theorem snoc (h : Reads next? s ts s') (ht : next? s' t = some s'') :
    Reads next? s (ts ++ [t]) s'' :=
  h.append (one ht)

@[simp] theorem nil_iff : Reads next? s [] s' ↔ s = s' := by
  simp [Reads]

theorem cons_iff : Reads next? s (t :: ts) s' ↔ ∃ r, next? s t = some r ∧ Reads next? r ts s' := by
  simp [Reads, Option.bind_eq_some_iff]

theorem append_iff :
    Reads next? s (ts ++ us) s' ↔ ∃ r, Reads next? s ts r ∧ Reads next? r us s' := by
  simp [Reads, Option.bind_eq_some_iff]

/-- What each step keeps, a run keeps. -/
theorem invariant {P : σ → Prop} (step : ∀ s t s', P s → next? s t = some s' → P s') (hs : P s)
    (h : Reads next? s ts s') : P s' := by
  induction ts generalizing s with
  | nil => exact nil_iff.1 h ▸ hs
  | cons t ts ih =>
    obtain ⟨r, hr, hts⟩ := cons_iff.1 h
    exact ih (step _ _ _ hs hr) hts

theorem preserves {P : List Token → σ → Prop}
    (step : ∀ us s t s', P us s → next? s t = some s' → P (us ++ [t]) s')
    (hs : P us s) (h : Reads next? s ts s') : P (us ++ ts) s' := by
  induction ts generalizing us s with
  | nil => simpa using nil_iff.1 h ▸ hs
  | cons t ts ih =>
    obtain ⟨r, hr, hts⟩ := cons_iff.1 h
    simpa using ih (step us s t r hs hr) hts

end Reads

/-! ### From expressions to bodies -/

namespace ExprStep

abbrev Reads : ExprStep → List Token → ExprStep → Prop := Carrot.Reads next?

/-- A finished expression takes no more tokens; the others do. -/
def isOpen : ExprStep → Bool
  | .operand _ | .field _ _ | .after _ _ => true
  | .done _ _ | .called _ _ => false

theorem isOpen_of_next? {x y : ExprStep} {t : Token} (h : x.next? t = some y) : x.isOpen := by
  cases x <;> simp_all [next?, isOpen]

end ExprStep

namespace PartialBody

abbrev Reads : PartialBody → List Token → PartialBody → Prop := Carrot.Reads next?

@[simp] theorem moveTo_point (b : PartialBody) (p : Point) : (b.moveTo p).point = p := rfl

@[simp] theorem moveTo_moveTo (b : PartialBody) (p q : Point) :
    (b.moveTo p).moveTo q = b.moveTo q := rfl

@[simp] theorem finish_moveTo (b : PartialBody) (p : Point) (s : Stmt) :
    (b.moveTo p).finish s = b.finish s := rfl

@[simp] theorem expect_moveTo (b : PartialBody) (p : Point) (q : Purpose) :
    (b.moveTo p).expect q = b.expect q := rfl

@[simp] theorem follow_moveTo (b : PartialBody) (p : Point) (x : ExprStep) :
    (b.moveTo p).follow x = b.follow x := by
  unfold follow
  split <;> rfl

theorem follow_of_isOpen {b : PartialBody} {x : ExprStep} (hx : x.isOpen) :
    b.follow x = b.moveTo (.expr x) := by
  cases x <;> simp_all [follow, ExprStep.isOpen]

theorem next?_expr (b : PartialBody) (x : ExprStep) (t : Token) :
    (b.moveTo (.expr x)).next? t = (x.next? t).map b.follow := by
  simp only [next?, moveTo_point]
  congr 1

/-- Reading on in an expression is reading on in its body. -/
theorem reads_of_expr {b : PartialBody} {x y : ExprStep} {ts : List Token} (hx : x.isOpen)
    (h : x.Reads ts y) : (b.moveTo (.expr x)).Reads ts (b.follow y) := by
  induction ts generalizing x with
  | nil =>
    obtain rfl := Reads.nil_iff.1 h
    rw [follow_of_isOpen hx]
    exact .nil
  | cons t ts ih =>
    obtain ⟨z, hz, hts⟩ := Reads.cons_iff.1 h
    refine .cons ((next?_expr b x t).trans (congrArg _ hz)) ?_
    cases ts with
    | nil =>
      obtain rfl := Reads.nil_iff.1 hts
      exact .nil
    | cons u us =>
      obtain ⟨w, hw, -⟩ := Reads.cons_iff.1 hts
      have hz := ExprStep.isOpen_of_next? hw
      rw [follow_of_isOpen hz]
      exact ih hz hts

end PartialBody

/-! ### From bodies to programs -/

namespace PartialProgram

abbrev Reads : PartialProgram → List Token → PartialProgram → Prop := Carrot.Reads next?

@[simp] theorem moveTo_current (p : PartialProgram) (d : OpenDecl) :
    (p.moveTo d).current = d := rfl

@[simp] theorem moveTo_moveTo (p : PartialProgram) (d e : OpenDecl) :
    (p.moveTo d).moveTo e = p.moveTo e := rfl

/-- The brace that may end a body is not read as a part of it. -/
theorem next?_eq_none_of_complete? {b : PartialBody} {f : FnDecl} {t : Token}
    (h : b.complete? = some f) (ht : t.kind = .rbrace) : b.next? t = none := by
  obtain ⟨head, outer, block, point⟩ := b
  unfold PartialBody.complete? at h
  split at h <;> simp_all [PartialBody.next?, PartialBody.closeBlock?]

theorem body?_of_next? {p : PartialProgram} {b c : PartialBody} {t : Token}
    (h : b.next? t = some c) : p.body? b t = some (p.moveTo (.body c)) := by
  unfold body?
  split
  · next f hk hf => simp [next?_eq_none_of_complete? hf hk] at h
  · simp [h]

/-- Reading on in a body is reading on in its program. -/
theorem reads_of_body {p : PartialProgram} {b c : PartialBody} {ts : List Token}
    (h : b.Reads ts c) : (p.moveTo (.body b)).Reads ts (p.moveTo (.body c)) := by
  induction ts generalizing b with
  | nil =>
    obtain rfl := Reads.nil_iff.1 h
    exact .nil
  | cons t ts ih =>
    obtain ⟨d, hd, hts⟩ := Reads.cons_iff.1 h
    exact .cons (body?_of_next? hd) (ih hts)

/-- `read` finds the end of the run, if all tokens can be read. -/
theorem read_eq_ok_iff {p q : PartialProgram} {ts : List Token} :
    p.read ts = .ok q ↔ p.Reads ts q := by
  induction ts generalizing p with
  | nil => simp [read]
  | cons t ts ih =>
    refine Iff.trans ?_ Reads.cons_iff.symm
    rw [read]
    cases h : p.next? t with
    | none => simp
    | some r => simp [ih]

end PartialProgram

end Carrot
