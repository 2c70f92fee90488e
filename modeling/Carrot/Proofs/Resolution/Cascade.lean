import Carrot.Proofs.Resolution.Chains
import Carrot.Proofs.Resolution.Reaches

/-! # Chains of dots in a run

Whatever chain of dots is resolved at whatever time of a run, its first failure is the only
one that is reported. The chain fails without a word only behind a field whose struct is
unknown. The declaration of this field was reported, unless the run is among the fields of
its struct and this declaration is still to come.
-/

namespace Carrot

namespace Session

variable {base : Nat}

/-- In this session, resolving the chain binds the first names of it to what they stand for and
leaves the others alone, and at most one thing is found. If nothing fails, all are bound, and the
last one gives the hint. A name that is not declared is reported at the start of the chain, a field
that is none of its struct at the field, and a dot behind something else than an instance at the
name in front of it. The chain fails without a report only behind a field whose type named no
struct at its declaration and names none here, and `Known` holds of it. -/
def ResolvesChain (s : Session) (Known : String → Binding → Prop) (x : Ident) (fs : List Ident) :
    Prop :=
  ∃ ps rest x' fs' hint found, x :: fs = ps.map (·.1) ++ rest ∧
    x' :: fs' = ps.map .bound ++ rest ∧
    s.node (.expr (.chain x fs)) = (.expr (.chain x' fs'), hint, s.report found) ∧
    found.length ≤ 1 ∧ s.names.StandFor ps ∧
    s.names.ChainEnds (fun y b => Known y.name b) ps rest hint found

theorem fits_of_standFor {c : Context} {m : Bool} {log : List Diagnostic}
    {ps : List (Ident × Binding)} (h : c.Coherent base)
    (hps : (ofContext c m log).names.StandFor ps) : ∀ e ∈ ps, e.2.Fits c.global := by
  induction hps with
  | nil => exact fun e he => absurd he List.not_mem_nil
  | name hb =>
    intro e he
    obtain rfl := List.mem_singleton.1 he
    exact Scope.Forall.findSome? h.scopes hb
  | @field front y f b g decl id _ hrole hstruct hfield ih =>
    intro e he
    rcases List.mem_append.1 he with he | he
    · exact ih e he
    · obtain rfl := List.mem_singleton.1 he
      exact h.field (h.le_of_structOf? (ih (y, b) (by simp)) hrole hstruct) hfield

/-- An instance in a chain that knows no struct is a field. -/
theorem unknown_of_standFor {c : Context} {m : Bool} {log : List Diagnostic}
    {P : String → Binding → Prop} (hcoherent : c.Coherent base) (h : c.Explained base P)
    {front : List (Ident × Binding)} {y : Ident} {b : Binding}
    (hps : (ofContext c m log).names.StandFor (front ++ [(y, b)]))
    (hrole : b.role = .instanceOf none) : front ≠ [] ∧ P y.name b := by
  have hunknown : ¬b.Checked := not_not.2 hrole
  rcases hps.last with ⟨-, hb⟩ | ⟨before, z, d, decl, id, rfl, hfront, hrole', hstruct, hb⟩
  · exact absurd (h.find hb) hunknown
  · have hfits := fits_of_standFor hcoherent hfront (z, d) (by simp)
    have hid := hcoherent.le_of_structOf? hfits hrole' hstruct
    exact ⟨by simp, h.field hid hb hunknown⟩

theorem ResolvesChain.mono {s : Session} {P Q : String → Binding → Prop} {x : Ident}
    {fs : List Ident} (h : s.ResolvesChain P x fs) (hPQ : ∀ {y b}, P y b → Q y b) :
    s.ResolvesChain Q x fs := by
  obtain ⟨ps, rest, x', fs', hint, found, hnames, hbound, hnode, hlength, hstand, hends⟩ := h
  exact ⟨ps, rest, x', fs', hint, found, hnames, hbound, hnode, hlength, hstand, hends.mono hPQ⟩

/-- At every session of a run, a chain fails without a report only behind a field that was reported
or is ahead. -/
theorem Reaches.resolvesChain {p : Program} {fields : StructFields} {s : Session}
    {ahead : List VarDecl} (h : (new fields).Reaches (.program p) s ahead) (x : Ident)
    (fs : List Ident) : s.ResolvesChain (fun y b => p.Reports s.log y b ∨
      ∃ d ∈ ahead, ∃ tag, d.ListsUnknown y b tag) x fs := by
  obtain ⟨c, m, log, rfl, hcoherent, hexplained⟩ := h.explained
  obtain ⟨ps, rest, x', fs', hnames, hnodes, hnode, hstand, hends⟩ := Names.exists_chainEnds
    (fun hps hrole _ => unknown_of_standFor hcoherent hexplained hps hrole) x fs
  refine ⟨ps, rest, x', fs', _, _, hnames, hnodes, ?_, hends.length_found_le, hstand, hends⟩
  rw [← hnode]
  rfl

theorem ResolvesChain.exists_known {s : Session} {Known : String → Binding → Prop} {x : Ident}
    {fs : List Ident} (h : s.ResolvesChain Known x fs)
    (hquiet : (s.node (.expr (.chain x fs))).2 = (.nothing, s)) : ∃ y b, Known y b := by
  obtain ⟨ps, rest, x', fs', hint, found, -, -, hnode, -, -, hends⟩ := h
  obtain ⟨rfl, hlog⟩ := Prod.mk.inj ((congrArg Prod.snd hnode).symm.trans hquiet)
  cases hends with
  | unknown _ _ _ hknown => exact ⟨_, _, hknown⟩
  | undeclared | invalidField | nonStruct => exact absurd (congrArg (·.log) hlog) (by simp [report])

end Session

namespace Resolution

/-- Resolving a chain binds the first names of it to what they stand for, and reports its first
failure only. Where no fields are ahead, it fails without a report only behind a field whose type
was reported at its declaration; among the fields of a struct, the declaration of this field may be
ahead instead. Each session of a run is one of these, and no fields are ahead in it while the run is
not busy with a struct, or where it visits an expression. -/
theorem chain_reports_once (p : Program) (fields : StructFields) (x : Ident) (fs : List Ident) :
    (∀ s, (Session.new fields).Reaches (.program p) s [] →
      s.ResolvesChain (p.Reports s.log) x fs) ∧
    (∀ s ahead, (Session.new fields).Reaches (.program p) s ahead →
      s.ResolvesChain (fun y b => p.Reports s.log y b ∨
        ∃ d ∈ ahead, ∃ tag, d.ListsUnknown y b tag) x fs) ∧
    (∀ focus s, (Session.new fields).RunsThrough p focus s → s.fault = none →
      ∃ ahead, (Session.new fields).Reaches (.program p) s ahead ∧
        ((∀ id, focus ≠ .struct id) → ahead = [])) ∧
    ∀ s e, (Session.new fields).Visits (.program p) s (.expr e) →
      (Session.new fields).Reaches (.program p) s [] := by
  refine ⟨fun s hs => ?_, fun s ahead hs => hs.resolvesChain x fs,
    fun focus s hruns => hruns.reaches, fun s e hvisit => hvisit.reaches_expr⟩
  refine (hs.resolvesChain x fs).mono fun hknown => hknown.resolve_right ?_
  rintro ⟨d, hd, -⟩
  cases hd

def unknownFieldProgram : Program :=
  ⟨[.struct ⟨⟨"S", ⟨1, 8⟩, none⟩, [⟨.struct ⟨"T", ⟨2, 10⟩, none⟩, ⟨"a", ⟨2, 12⟩, none⟩, 0⟩]⟩,
    .var ⟨.struct ⟨"S", ⟨4, 8⟩, none⟩, ⟨"v", ⟨4, 10⟩, none⟩, 0⟩], stdinName⟩

def unknownFieldSession : Session := ((Session.new .empty).node (.program unknownFieldProgram)).2.2

theorem reaches_unknownFieldSession :
    (Session.new .empty).Reaches (.program unknownFieldProgram) unknownFieldSession [] :=
  .behind (.here rfl) rfl

/-- Behind the field `a` of the variable `v`, the field `b` is passed over without a word. -/
theorem chain_reports_once_unknownField :
    let v : Ident := ⟨"v", ⟨6, 1⟩, none⟩
    let fs : List Ident := [⟨"a", ⟨6, 3⟩, none⟩, ⟨"b", ⟨6, 5⟩, none⟩]
    (unknownFieldSession.node (.expr (.chain v fs))).2 = (.nothing, unknownFieldSession) ∧
      unknownFieldSession.log = [.error ⟨2, 10⟩ .undeclared] ∧
      unknownFieldSession.ResolvesChain
        (unknownFieldProgram.Reports unknownFieldSession.log) v fs :=
  ⟨rfl, rfl, (chain_reports_once unknownFieldProgram .empty _ _).1 _ (.behind (.here rfl) rfl)⟩

/-- A struct with a field of its own type in front of one of a struct that is not declared. -/
def forwardFieldDecl : StructDecl :=
  ⟨⟨"S", ⟨1, 8⟩, none⟩, [⟨.struct ⟨"S", ⟨1, 19⟩, none⟩, ⟨"self", ⟨1, 21⟩, none⟩, 0⟩,
    ⟨.struct ⟨"T", ⟨1, 34⟩, none⟩, ⟨"a", ⟨1, 36⟩, none⟩, 0⟩]⟩

/-- Between the two fields, the second one is listed, but nothing has been reported yet. A field of
it is passed over without a word. -/
theorem chain_quiet_among_fields :
    let p : Program := ⟨[.struct forwardFieldDecl], stdinName⟩
    let x : Ident := ⟨"self", ⟨2, 1⟩, none⟩
    let fs : List Ident := [⟨"a", ⟨2, 6⟩, none⟩, ⟨"z", ⟨2, 8⟩, none⟩]
    ∃ s, (Session.new .empty).RunsThrough p (.struct 0) s ∧ s.fault = none ∧ s.log = [] ∧
      (s.node (.expr (.chain x fs))).2 = (.nothing, s) ∧
      ¬s.ResolvesChain (p.Reports s.log) x fs := by
  intro p x fs
  have hduring := @Session.During.declared (.new .empty) (.decl (.struct forwardFieldDecl)) _ _
    (forwardFieldDecl.fields.take 1) (forwardFieldDecl.fields.drop 1) .here rfl rfl
  have hruns := @Session.RunsThrough.inside (.new .empty) p [] [] _ _ rfl hduring
  refine ⟨_, hruns, rfl, rfl, rfl, fun hchain => ?_⟩
  obtain ⟨y, b, _, _, _, _, _, _, hreported⟩ := hchain.exists_known rfl
  rcases hreported with h | h <;> cases h

end Resolution

end Carrot
