import Carrot.Proofs.Layout.Inline

/-! # Indented lines

Declarations and statements are written as whole lines, each indented by four blanks for every
brace that is open before it. A line that closes a brace stands where the line that opened it does.
The brace at the end of a function is not indented, which fits since functions stand at the top
level only.
-/

namespace Carrot

namespace Layout

/-! ### Lines with their indents -/

/-- The line is empty, or indented for `depth` open braces; its own closing brace counts. -/
def LineAt (depth : Int) (l : List Char) : Prop :=
  l = [] ∨ ∃ n c cs, l = List.replicate n ' ' ++ c :: cs ∧ Lexeme.isBlank c = false ∧
    (n : Int) = 4 * (depth - if c = '\x7d' then 1 else 0)

/-- The opening braces less the closing ones in some lines, outside string literals. -/
def openBraces : List (List Char) → Int
  | [] => 0
  | l :: ls => braces .code l + openBraces ls

/-- Behind `depth` open braces, each line is indented for the braces before it. -/
def Canonical (depth : Int) : List (List Char) → Prop
  | [] => True
  | l :: ls => LineAt depth l ∧ Canonical (depth + braces .code l) ls

/-- Each line is indented for the braces in the lines before it. -/
theorem Canonical.lineAt {depth : Int} {ls before after : List (List Char)} {l : List Char}
    (h : Canonical depth ls) (hls : ls = before ++ l :: after) :
    LineAt (depth + openBraces before) l := by
  subst hls
  induction before generalizing depth with
  | nil =>
    rw [openBraces, Int.add_zero]
    exact h.1
  | cons b before ih =>
    rw [openBraces, ← Int.add_assoc]
    exact ih h.2

/-- The characters are whole lines, indented for `depth` open braces before them, which leave no
bracket open. -/
structure Indented (depth : Nat) (cs : List Char) : Prop where
  passes : ∀ stack rest, Screening.passes .code stack (cs ++ rest) =
    Screening.passes .code stack rest
  lines : ∀ rest, Canonical depth (Text.lines rest) → Canonical depth (Text.lines (cs ++ rest))

/-- The blanks before a line. -/
def pad (depth : Nat) : List Char := List.replicate (4 * depth) ' '

theorem inline_pad (depth : Nat) : Inline (pad depth) :=
  .plain fun c hc => by rw [List.eq_of_mem_replicate hc]; decide

theorem lines_append_lineFeed {l : List Char} (hl : ∀ c ∈ l, Text.isLineBreak c = false)
    (rest : List Char) : Text.lines (l ++ '\n' :: rest) = l :: Text.lines rest := by
  induction l with
  | nil => rfl
  | cons c cs ih =>
    obtain ⟨hc, hcs⟩ := List.forall_mem_cons.1 hl
    rw [List.cons_append, Screening.lines_of_not_isLineBreak hc, ih hcs, Text.consLine]

theorem lineAt_pad {depth : Nat} {cs : List Char} (h : Visible cs) :
    LineAt depth (pad depth ++ cs) := by
  obtain ⟨c, cs, rfl, hc, hbrace⟩ := h
  exact .inr ⟨4 * depth, c, cs, rfl, hc, by simp [hbrace]⟩

/-- A closing brace stands where the line with its opening one does. -/
theorem lineAt_close (depth : Nat) (cs : List Char) :
    LineAt (depth + 1) (pad depth ++ '\x7d' :: cs) :=
  .inr ⟨4 * depth, '\x7d', cs, rfl, by decide, by simp⟩

theorem Inline.braces_eq_zero {cs : List Char} (h : Inline cs) : Layout.braces .code cs = 0 := by
  have hbraces := h.braces []
  rwa [List.append_nil] at hbraces

namespace Indented

variable {depth : Nat} {cs ds : List Char}

theorem nil : Indented depth [] := ⟨fun _ _ => rfl, fun _ h => h⟩

theorem append (h : Indented depth cs) (h' : Indented depth ds) : Indented depth (cs ++ ds) where
  passes stack rest := by rw [List.append_assoc, h.passes, h'.passes]
  lines rest hrest := by
    rw [List.append_assoc]
    exact h.lines _ (h'.lines _ hrest)

theorem join {α : Type} {text : α → String} {as : List α}
    (h : ∀ a ∈ as, Indented depth (text a).toList) :
    Indented depth (String.join (as.map text)).toList := by
  induction as with
  | nil => simpa using nil
  | cons a as ih =>
    obtain ⟨ha, has⟩ := List.forall_mem_cons.1 h
    simpa using ha.append (ih has)

theorem emptyLine : Indented depth ['\n'] where
  passes stack rest := Screening.passes_newline
  lines rest hrest := by
    have hline := lines_append_lineFeed (l := []) (by simp) rest
    rw [List.nil_append] at hline
    rw [List.singleton_append, hline]
    exact ⟨.inl rfl, by simpa [braces] using hrest⟩

theorem line (depth : Nat) (h : Starts cs) : Indented depth (pad depth ++ cs ++ ['\n']) := by
  have hinline := (inline_pad depth).append h.inline
  constructor
  · intro stack rest
    rw [List.append_assoc, hinline.passes]
    exact Screening.passes_newline
  · intro rest hrest
    rw [List.append_assoc, List.singleton_append, lines_append_lineFeed hinline.noBreak]
    refine ⟨lineAt_pad h.visible, ?_⟩
    rwa [hinline.braces_eq_zero, Int.add_zero]

/-- A line that opens a brace, the lines in the braces, and the line that closes it. -/
theorem block (depth : Nat) {header body tail : List Char} (hh : Starts header)
    (hb : Indented (depth + 1) body) (ht : Inline tail) :
    Indented depth ((pad depth ++ header ++ ['\x7b']) ++ '\n' :: (body ++
      ((pad depth ++ '\x7d' :: tail) ++ ['\n']))) := by
  have hpad := inline_pad depth
  have hopen := hpad.append hh.inline
  constructor
  · intro stack rest
    simp only [List.append_assoc, List.cons_append, List.nil_append]
    rw [hpad.passes, hh.inline.passes, Screening.passes_open (c := '\x7d') rfl,
      Screening.passes_newline, hb.passes, hpad.passes, Screening.passes_close (o := '\x7b') rfl,
      ht.passes, Screening.passes_newline]
  · intro rest hrest
    have hup : braces .code (pad depth ++ header ++ ['\x7b']) = 1 := by
      rw [hopen.braces]
      rfl
    have hdown : braces .code (pad depth ++ '\x7d' :: tail) = -1 := by
      rw [hpad.braces]
      simp [braces, brace, next, ht.braces_eq_zero]
    have hfirst : ∀ c ∈ pad depth ++ header ++ ['\x7b'], Text.isLineBreak c = false :=
      List.forall_mem_append.2 ⟨hopen.noBreak, List.forall_mem_singleton.2 (by decide)⟩
    have hlast : ∀ c ∈ pad depth ++ '\x7d' :: tail, Text.isLineBreak c = false :=
      List.forall_mem_append.2 ⟨hpad.noBreak, List.forall_mem_cons.2 ⟨by decide, ht.noBreak⟩⟩
    rw [List.append_assoc _ _ rest, List.cons_append, lines_append_lineFeed hfirst]
    refine ⟨?_, ?_⟩
    · rw [List.append_assoc]
      exact lineAt_pad (hh.visible.append _)
    -- The first line has opened a brace, so the body is one level further in.
    · rw [hup, List.append_assoc body]
      refine hb.lines _ ?_
      rw [List.append_assoc _ ['\n'], List.singleton_append, lines_append_lineFeed hlast]
      refine ⟨lineAt_close depth tail, ?_⟩
      rwa [hdown, Int.natCast_add, Int.natCast_one, Int.add_neg_cancel_right]

end Indented

/-! ### Variables -/

/-- The indent behind some open braces. -/
def level (depth : Nat) : Int := step * depth

theorem level_succ (depth : Nat) : level depth + step = level (depth + 1) := by
  simp only [level, step]
  omega

@[simp] theorem blanks_level (depth : Nat) : (blanks (level depth)).toList = pad depth := by
  have hindent : (level depth).toNat = 4 * depth := by
    simp only [level, step]
    omega
  rw [blanks, String.toList_ofList, hindent, pad]

theorem starts_type {ty : TypeExpr} (h : Neat ty.leaves) : Starts ty.text.toList := by
  cases ty with
  | struct tag =>
    have htag := (neat_cons.1 h).1.1
    have hstruct : Starts "struct".toList := .fixed (by decide) (by decide)
    have hname := Inline.cons (c := ' ') (by decide) (Starts.name htag).inline
    simpa [TypeExpr.text] using hstruct.append hname
  | int | bool | void => exact .fixed (by decide) (by decide)

/-- A type and a name, as variables, formals and functions start. -/
theorem starts_typed {ty : TypeExpr} {x : Ident} (hty : Neat ty.leaves) (hx : (Leaf.ident x).Neat) :
    Starts (ty.text.toList ++ ' ' :: x.name.toList) :=
  (starts_type hty).append (.cons (by decide) (Starts.name hx.1).inline)

theorem indented_varDecl (depth : Nat) {d : VarDecl} (h : Neat d.leaves) :
    Indented depth (varDecl (level depth) d).toList := by
  simp only [VarDecl.leaves, neat_append, neat_cons] at h
  have hend : Inline [';'] := .fixed _ (by decide)
  simpa [varDecl] using Indented.line depth ((starts_typed h.1 h.2.1).append hend)

theorem indented_varDecls (depth : Nat) {ds : List VarDecl} (h : Neat (ds.flatMap VarDecl.leaves)) :
    Indented depth (varDecls (level depth) ds).toList :=
  .join fun d hd => indented_varDecl depth (neat_flatMap.1 h d hd)

/-! ### Statements -/

/-- The contents of a block behind the line that opens it. -/
theorem indented_block (depth : Nat) {header : List Char} {ds : List VarDecl} {body : String}
    (hh : Starts header) (hds : Neat (ds.flatMap VarDecl.leaves))
    (hb : Indented (depth + 1) body.toList) :
    Indented depth (pad depth ++ header ++ '\x7b' :: '\n' ::
      (Layout.block (level depth) ds body).toList) := by
  have hvars : Indented (depth + 1) (varDecls (level depth + step) ds).toList := by
    rw [level_succ]
    exact indented_varDecls (depth + 1) hds
  simpa [Layout.block] using Indented.block depth hh (hvars.append hb) .nil

theorem inline_semicolon {e : Expr} (h : Neat e.leaves) : Inline (e.text.toList ++ [';']) :=
  (Expr.starts h).inline.append (.fixed _ (by decide))

theorem starts_guard {k : String} {c : Expr} (hk : Starts k.toList) (hc : Neat c.leaves) :
    Starts (k.toList ++ ' ' :: ('(' :: c.text.toList ++ [')']) ++ [' ']) :=
  (hk.append (.cons (by decide) (Expr.starts hc).inline.parens)).append (.fixed _ (by decide))

theorem indented_guarded (depth : Nat) {k : String} {c : Expr} {ds : List VarDecl} {body : String}
    (hk : Starts k.toList) (hc : Neat c.leaves) (hds : Neat (ds.flatMap VarDecl.leaves))
    (hb : Indented (depth + 1) body.toList) :
    Indented depth (guarded (level depth) k c ++ Layout.block (level depth) ds body).toList := by
  simpa [guarded] using indented_block depth (starts_guard hk hc) hds hb

mutual

-- A block has its statements one level further in, so the depth varies along the induction.
theorem indented_stmt : ∀ {s : Stmt} (depth : Nat), Neat s.leaves →
    Indented depth (stmt (level depth) s).toList
  | .assign t v, depth, h => by
    simp only [Stmt.leaves, neat_append] at h
    have hv : Inline (' ' :: '=' :: ' ' :: (v.text.toList ++ [';'])) :=
      .cons (by decide) (.cons (by decide) (.cons (by decide) (inline_semicolon h.2)))
    simpa [stmt] using Indented.line depth ((Expr.starts h.1).append hv)
  | .increment p, depth, h => by
    have hend : Inline ['+', '+', ';'] := .fixed _ (by decide)
    simpa [stmt] using Indented.line depth ((Expr.starts (e := p) h).append hend)
  | .decrement p, depth, h => by
    have hend : Inline ['-', '-', ';'] := .fixed _ (by decide)
    simpa [stmt] using Indented.line depth ((Expr.starts (e := p) h).append hend)
  | .read p, depth, h => by
    have hcin : Starts "cin >> ".toList := .fixed (by decide) (by decide)
    simpa [stmt] using Indented.line depth (hcin.append (inline_semicolon (e := p) h))
  | .write v, depth, h => by
    have hcout : Starts "cout << ".toList := .fixed (by decide) (by decide)
    simpa [stmt] using Indented.line depth (hcout.append (inline_semicolon (e := v) h))
  | .ifThen c ds ss, depth, h | .whileLoop c ds ss, depth, h | .repeatLoop c ds ss, depth, h => by
    simp only [Stmt.leaves, neat_append] at h
    rw [stmt, level_succ]
    have hss := indented_stmts (depth + 1) h.2.2
    exact indented_guarded depth (.fixed (by decide) (by decide)) h.1 h.2.1 hss
  | .ifElse c ds ss eds ess, depth, h => by
    simp only [Stmt.leaves, neat_append] at h
    obtain ⟨⟨hc, hds, hss⟩, heds, hess⟩ := h
    have hif : Starts "if".toList := .fixed (by decide) (by decide)
    have helse : Starts "else ".toList := .fixed (by decide) (by decide)
    have hthen := indented_guarded depth hif hc hds (indented_stmts (depth + 1) hss)
    have hother := indented_block depth helse heds (indented_stmts (depth + 1) hess)
    simpa [stmt, level_succ] using hthen.append hother
  | .call f args, depth, h => by
    have hcall := (Expr.starts (e := .call f args) h).append (.fixed [';'] (by decide))
    simpa [stmt] using Indented.line depth hcall
  | .ret none, depth, h => by
    have hret : Starts "return;".toList := .fixed (by decide) (by decide)
    simpa [stmt] using Indented.line depth hret
  | .ret (some v), depth, h => by
    have hret : Starts "return ".toList := .fixed (by decide) (by decide)
    simpa [stmt] using Indented.line depth (hret.append (inline_semicolon (e := v) h))

theorem indented_stmts : ∀ {ss : List Stmt} (depth : Nat), Neat (Stmt.listLeaves ss) →
    Indented depth (stmts (level depth) ss).toList
  | [], _, _ => by
    rw [stmts]
    exact .nil
  | s :: ss, depth, h => by
    simp only [Stmt.listLeaves, neat_append] at h
    simpa [stmts] using (indented_stmt depth h.1).append (indented_stmts depth h.2)

end

/-! ### Programs -/

theorem inline_formals {fs : List Formal} (h : Neat (fs.flatMap Formal.leaves)) :
    Inline (String.intercalate ", " (fs.map formal)).toList := by
  refine .intercalate (List.forall_mem_map.2 fun f hf => ?_)
  have hneat := neat_flatMap.1 h f hf
  simp only [Formal.leaves, neat_append, neat_cons] at hneat
  simpa [formal] using (starts_typed hneat.1 hneat.2.1).inline

/-- Functions stand at the top level, where their last brace is to be. -/
theorem indented_fnDecl {d : FnDecl} (h : Neat d.leaves) :
    Indented 0 (fnDecl (level 0) d).toList := by
  simp only [FnDecl.leaves, FnBody.leaves, neat_append, neat_cons] at h
  obtain ⟨hty, ⟨hx, -⟩, hfs, hds, hss⟩ := h
  have hheader := (starts_typed hty hx).append
    ((inline_formals hfs).parens.append (.fixed [' '] (by decide)))
  have hbody := (indented_varDecls 1 hds).append (indented_stmts 1 hss)
  have hblock := Indented.block 0 hheader hbody .nil
  simpa [fnDecl, level_succ, pad] using hblock.append .emptyLine

theorem indented_structDecl (depth : Nat) {d : StructDecl} (h : Neat d.leaves) :
    Indented depth (structDecl (level depth) d).toList := by
  simp only [StructDecl.leaves, neat_append, neat_cons] at h
  have hheader : Starts ("struct ".toList ++ d.name.name.toList) :=
    (Starts.fixed (by decide) (by decide)).append (Starts.name h.1.1.1).inline
  have hfields := indented_varDecls (depth + 1) h.2
  have hblock := Indented.block depth hheader hfields (.fixed [';'] (by decide))
  simpa [structDecl, level_succ] using hblock.append .emptyLine

theorem indented_decl {d : Decl} (h : Neat d.leaves) : Indented 0 (decl (level 0) d).toList := by
  cases d with
  | var d => exact indented_varDecl 0 h
  | func d => exact indented_fnDecl h
  | struct d => exact indented_structDecl 0 h

end Layout

namespace Program

variable {p : Program}

theorem indented (h : Neat p.leaves) : Layout.Indented 0 p.text.toList :=
  .join fun d hd => Layout.indented_decl (neat_flatMap.1 h d hd)

theorem check_text (h : Neat p.leaves) : Screening.check p.text.toList = .ok () := by
  have hpasses := (indented h).passes [] []
  rw [List.append_nil] at hpasses
  rw [Screening.check_eq_ok_iff_passes, hpasses]
  rfl

/-- Each line of a program's text is indented for the braces before it. -/
theorem lineAt_text (h : Neat p.leaves) {before after : List (List Char)} {l : List Char}
    (hl : Text.lines p.text.toList = before ++ l :: after) :
    Layout.LineAt (Layout.openBraces before) l := by
  have hcanonical := (indented h).lines [] trivial
  rw [List.append_nil] at hcanonical
  simpa using hcanonical.lineAt hl

end Program

end Carrot
