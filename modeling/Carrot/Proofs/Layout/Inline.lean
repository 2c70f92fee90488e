import Carrot.Proofs.Layout.Words
import Carrot.Proofs.Syntax.Walk

/-! # Text inside a line

Expressions are written inside a line. What they look like depends on their leaves: as long as names
are names, literals are literals and the notes on bindings keep to themselves, the text of an
expression breaks no line, leaves no bracket open and has no brace outside string literals. This
holds with notes and without.
-/

namespace Carrot

namespace Layout

open Screening (Mode special)

/-! ### Braces outside string literals -/

/-- What the text behind a character is inside of, as far as string literals go. -/
def next : Mode → Char → Mode
  | .quote, c => if c = '\\' then .escape else if c = '"' then .code else .quote
  | .escape, _ => .quote
  | m, c => if c = '"' then .quote else m

def brace (c : Char) : Int := if c = '\x7b' then 1 else if c = '\x7d' then -1 else 0

/-- The opening braces less the closing ones, outside string literals. -/
def braces (m : Mode) : List Char → Int
  | [] => 0
  | c :: cs => (if m = .code then brace c else 0) + braces (next m c) cs

theorem braces_plain {c : Char} (hc : c ∉ special) (cs : List Char) :
    braces .code (c :: cs) = braces .code cs := by
  simp only [special, List.mem_cons, List.not_mem_nil, or_false, not_or] at hc
  simp [braces, brace, next, hc]

theorem braces_stringTail {cs : List Char} (h : Lexeme.StringTail cs) (rest : List Char) :
    braces .quote (cs ++ rest) = braces .code rest := by
  induction h with
  | close => simp [braces, next]
  | escape _ _ ih => simpa [braces, next] using ih
  | plain hq hb _ _ ih => simpa [braces, next, hq, hb] using ih

/-! ### Pieces of a line -/

/-- Inside a line the characters leave everything as it is: the line, the open brackets and the
braces that are counted. -/
structure Inline (cs : List Char) : Prop where
  noBreak : ∀ c ∈ cs, Text.isLineBreak c = false
  passes : ∀ stack rest, Screening.passes .code stack (cs ++ rest) =
    Screening.passes .code stack rest
  braces : ∀ rest, braces .code (cs ++ rest) = braces .code rest

namespace Inline

variable {c : Char} {cs ds : List Char}

theorem nil : Inline [] := ⟨by simp, fun _ _ => rfl, fun _ => rfl⟩

theorem append (h : Inline cs) (h' : Inline ds) : Inline (cs ++ ds) where
  noBreak := List.forall_mem_append.2 ⟨h.noBreak, h'.noBreak⟩
  passes stack rest := by rw [List.append_assoc, h.passes, h'.passes]
  braces rest := by rw [List.append_assoc, h.braces, h'.braces]

theorem cons (hc : c ∉ special) (h : Inline cs) : Inline (c :: cs) where
  noBreak := List.forall_mem_cons.2 ⟨Screening.isLineBreak_of_not_special hc, h.noBreak⟩
  passes stack rest := by rw [List.cons_append, Screening.passes_plain hc, h.passes]
  braces rest := by rw [List.cons_append, braces_plain hc, h.braces]

theorem plain (hcs : ∀ c ∈ cs, c ∉ special) : Inline cs := by
  induction cs with
  | nil => exact nil
  | cons c cs ih =>
    obtain ⟨hc, hcs⟩ := List.forall_mem_cons.1 hcs
    exact cons hc (ih hcs)

theorem wordChars (hcs : ∀ c ∈ cs, Lexeme.isWordChar c) : Inline cs :=
  plain fun c hc => Lexeme.not_special_of_isWordChar (hcs c hc)

/-- A fixed text without special characters. -/
theorem fixed (cs : List Char) (hcs : cs.all (· ∉ special)) : Inline cs :=
  plain (by simpa using hcs)

theorem parens (h : Inline cs) : Inline ('(' :: cs ++ [')']) where
  noBreak := by
    have hcs := h.noBreak
    simp only [List.cons_append, List.forall_mem_cons, List.forall_mem_append]
    exact ⟨by decide, hcs, by decide, by simp⟩
  passes stack rest := by
    rw [List.append_assoc, List.cons_append, Screening.passes_open (c := ')') rfl, h.passes]
    exact Screening.passes_close rfl
  braces rest := by
    have hopen : Layout.braces .code ('(' :: (cs ++ ')' :: rest)) =
        Layout.braces .code (cs ++ ')' :: rest) := by simp [Layout.braces, brace, next]
    have hclose : Layout.braces .code (')' :: rest) = Layout.braces .code rest := by
      simp [Layout.braces, brace, next]
    rw [List.append_assoc, List.cons_append]
    exact hopen.trans ((h.braces _).trans hclose)

/-- A slash starts no comment in front of a blank. -/
theorem slash (h : Inline cs) : Inline ('/' :: ' ' :: cs) where
  noBreak := List.forall_mem_cons.2 ⟨by decide, List.forall_mem_cons.2 ⟨by decide, h.noBreak⟩⟩
  passes stack rest := by
    rw [List.cons_append, List.cons_append, Screening.passes_slash (by simp),
      Screening.passes_plain (by decide), h.passes]
  braces rest := by
    rw [← h.braces rest]
    simp [Layout.braces, brace, next]

theorem intercalate {ss : List String} (h : ∀ s ∈ ss, Inline s.toList) :
    Inline (String.intercalate ", " ss).toList := by
  induction ss with
  | nil => exact nil
  | cons s ss ih =>
    obtain ⟨hs, hss⟩ := List.forall_mem_cons.1 h
    cases ss with
    | nil => simpa using hs
    | cons t ts =>
      have hmore := cons (c := ',') (by decide) (cons (c := ' ') (by decide) (ih hss))
      simpa [String.intercalate_cons_cons] using hs.append hmore

theorem literal {s : String} (h : IsStringLiteral s) : Inline s.toList := by
  obtain ⟨cs, hlist, htail, hbreak⟩ := h
  rw [hlist]
  refine ⟨List.forall_mem_cons.2 ⟨by decide, hbreak⟩, fun stack rest => ?_, fun rest => ?_⟩
  · rw [List.cons_append, Screening.passes_code (by decide)]
    exact (htail.passes stack rest).trans (by simpa using fun _ => hbreak)
  · simpa [Layout.braces, brace, next] using braces_stringTail htail rest

/-- A binary operator in front of a blank. -/
theorem binary (op : BinaryOp) (h : Inline cs) : Inline (op.text.toList ++ ' ' :: cs) := by
  cases op with
  | div => exact slash h
  | _ => exact (fixed _ (by decide)).append (cons (by decide) h)

theorem unary (op : UnaryOp) (h : Inline cs) : Inline (op.text.toList ++ cs) := by
  cases op <;> exact (fixed _ (by decide)).append h

end Inline

/-- The first character is not a blank, and not a closing brace. -/
def Visible (cs : List Char) : Prop :=
  ∃ c ds, cs = c :: ds ∧ Lexeme.isBlank c = false ∧ c ≠ '\x7d'

theorem Visible.append {cs : List Char} (h : Visible cs) (ds : List Char) : Visible (cs ++ ds) := by
  obtain ⟨c, cs, rfl, hc⟩ := h
  exact ⟨c, cs ++ ds, rfl, hc⟩

/-- The characters can start a line. -/
structure Starts (cs : List Char) : Prop where
  inline : Inline cs
  visible : Visible cs

namespace Starts

variable {c : Char} {cs ds : List Char}

theorem append (h : Starts cs) (h' : Inline ds) : Starts (cs ++ ds) :=
  ⟨h.inline.append h', h.visible.append ds⟩

theorem parens (h : Inline cs) : Starts ('(' :: cs ++ [')']) :=
  ⟨h.parens, '(', cs ++ [')'], rfl, by decide, by decide⟩

/-- A fixed text without special characters. -/
theorem fixed (hc : Lexeme.isBlank c = false ∧ c ≠ '\x7d') (hcs : (c :: cs).all (· ∉ special)) :
    Starts (c :: cs) :=
  ⟨.fixed _ hcs, c, cs, rfl, hc⟩

theorem wordChars (hc : Lexeme.isWordChar c) (hcs : ∀ d ∈ cs, Lexeme.isWordChar d) :
    Starts (c :: cs) := by
  refine ⟨.wordChars (List.forall_mem_cons.2 ⟨hc, hcs⟩), c, cs, rfl, ?_, ?_⟩
  · rw [Bool.eq_false_iff]
    intro hblank
    rw [Lexeme.isWordChar_of_isBlank hblank] at hc
    cases hc
  · rintro rfl
    exact absurd hc (by decide)

theorem name {s : String} (h : IsName s) : Starts s.toList := by
  obtain ⟨c, cs, hcs, hc, hword, -⟩ := h
  rw [hcs]
  exact wordChars (Lexeme.isWordChar_of_isLetter hc) hword

theorem natural (n : Nat) : Starts n.repr.toList := by
  obtain ⟨c, cs, hcs, hdigit⟩ := Lexeme.exists_digits n
  obtain ⟨hc, hds⟩ := List.forall_mem_cons.1 hdigit
  rw [hcs]
  exact wordChars (Lexeme.isWordChar_of_isDigit hc) fun d hd =>
    Lexeme.isWordChar_of_isDigit (hds d hd)

end Starts

end Layout

/-! ### Leaves -/

open Layout

/-- The note on a name stays in the line of the name. -/
def Binding.Quiet (b : Binding) : Prop := Inline b.note.toList

/-- A leaf that is written as it should be. -/
def Leaf.Neat : Leaf → Prop
  | .ident x => IsName x.name ∧ ∀ b ∈ x.binding, b.Quiet
  | .int v _ => 0 ≤ v
  | .str s _ => IsStringLiteral s
  | .bool _ _ => True

/-- All leaves are written as they should be. -/
def Neat (ls : List Leaf) : Prop := ∀ l ∈ ls, l.Neat

@[simp] theorem neat_nil : Neat [] := by simp [Neat]

@[simp] theorem neat_cons {l : Leaf} {ls : List Leaf} : Neat (l :: ls) ↔ l.Neat ∧ Neat ls :=
  List.forall_mem_cons

@[simp] theorem neat_append {ls ms : List Leaf} : Neat (ls ++ ms) ↔ Neat ls ∧ Neat ms :=
  List.forall_mem_append

theorem neat_flatMap {α : Type} {f : α → List Leaf} {as : List α} :
    Neat (as.flatMap f) ↔ ∀ a ∈ as, Neat (f a) := by
  simp only [Neat, List.mem_flatMap]
  exact ⟨fun h a ha l hl => h l ⟨a, ha, hl⟩, fun h l ⟨a, ha, hl⟩ => h a ha l hl⟩

theorem Leaf.Neat.text {x : Ident} (h : (Leaf.ident x).Neat) : Starts x.text.toList := by
  obtain ⟨hname, hnote⟩ := h
  unfold Ident.text
  cases hb : x.binding with
  | none => exact .name hname
  | some b =>
    have hb : Inline b.note.toList := hnote b hb
    simpa using (Starts.name hname).append hb.parens

/-! ### Expressions -/

mutual

theorem Expr.starts : ∀ {e : Expr}, Neat e.leaves → Starts e.text.toList
  | .int v _, h => by
    obtain ⟨n, rfl⟩ := Int.eq_ofNat_of_zero_le (neat_cons.1 h).1
    exact .natural n
  | .str s _, h => by
    have hs : IsStringLiteral s := (neat_cons.1 h).1
    have ⟨cs, hcs, _⟩ := hs
    exact ⟨.literal hs, '"', cs, hcs, by decide, by decide⟩
  | .bool true _, _ => by
    rw [text]
    exact .fixed (by decide) (by decide)
  | .bool false _, _ => by
    rw [text]
    exact .fixed (by decide) (by decide)
  | .ident x, h => (neat_cons.1 h).1.text
  | .dot r f, h => by
    simp only [leaves, neat_append, neat_cons] at h
    have hr := (Expr.starts h.1).inline
    simpa [text] using (Starts.parens hr).append (.cons (by decide) h.2.1.text.inline)
  | .assign t v, h => by
    simp only [leaves, neat_append] at h
    have hv : Inline (' ' :: '=' :: ' ' :: v.text.toList) :=
      .cons (by decide) (.cons (by decide) (.cons (by decide) (Expr.starts h.2).inline))
    simpa [text] using Starts.parens ((Expr.starts h.1).inline.append hv)
  | .call f args, h => by
    simp only [leaves, neat_append, neat_cons] at h
    have hargs := Expr.inline_args h.2
    simpa [text] using h.1.1.text.append hargs.parens
  | .unary op e, h => by
    have he := (Expr.starts (e := e) h).inline
    simpa [text] using Starts.parens (Inline.unary op he)
  | .binary op l r, h => by
    simp only [leaves, neat_append] at h
    have hr := Inline.cons (c := ' ') (by decide) (Inline.binary op (Expr.starts h.2).inline)
    simpa [text] using Starts.parens ((Expr.starts h.1).inline.append hr)

theorem Expr.inline_args : ∀ {es : List Expr}, Neat (Expr.listLeaves es) →
    Inline (Expr.argsText es).toList
  | [], _ => .nil
  | e :: es, h => by
    simp only [listLeaves, neat_append] at h
    simpa [argsText] using (Expr.starts h.1).inline.append (Expr.inline_moreArgs h.2)

theorem Expr.inline_moreArgs : ∀ {es : List Expr}, Neat (Expr.listLeaves es) →
    Inline (Expr.moreArgsText es).toList
  | [], _ => .nil
  | e :: es, h => by
    simp only [listLeaves, neat_append] at h
    have he := (Expr.starts h.1).inline.append (Expr.inline_moreArgs h.2)
    simpa [moreArgsText] using Inline.cons (c := ',') (by decide) (.cons (c := ' ') (by decide) he)

end

end Carrot
