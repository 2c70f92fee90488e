import Carrot.Script

/-! # What a script leaves behind

Besides its value, a run leaves files and printed texts. The files are those that it
writes, in their order, one in place of another at the same path; nothing else that it
does changes them, or what the surroundings allow.
-/

namespace Carrot

namespace Store

/-- What has been printed on a channel. -/
def shown (s : Store) : Channel → String
  | .output => s.output
  | .errors => s.errors
  | .log => s.log

@[simp] theorem shown_print (s : Store) (text : String) (c d : Channel) :
    (s.print text c).shown d = if c = d then s.shown d ++ text else s.shown d := by
  cases c <;> cases d <;> rfl

@[simp] theorem shown_write (s : Store) (path text : String) (c : Channel) :
    (s.write path text).shown c = s.shown c := by
  cases c <;> rfl

@[simp] theorem refuses?_print (s : Store) (text path : String) (c : Channel) :
    (s.print text c).refuses? path = s.refuses? path := by
  cases c <;> rfl

@[simp] theorem refuses?_write (s : Store) (path text other : String) :
    (s.write path text).refuses? other = s.refuses? other := rfl

@[simp] theorem written_print (s : Store) (text : String) (c : Channel) :
    (s.print text c).written = s.written := by
  cases c <;> rfl

/-- Writes files one after the other. -/
def writeAll (s : Store) (files : List (String × String)) : Store :=
  files.foldl (fun s f => s.write f.1 f.2) s

/-- Which files there are depends on the files before and on what is written. -/
theorem written_writeAll {s t : Store} (h : s.written = t.written)
    (files : List (String × String)) : (s.writeAll files).written = (t.writeAll files).written := by
  induction files generalizing s t with
  | nil => exact h
  | cons f files ih => exact ih (by simp only [write, h])

end Store

namespace Script

variable {α β : Type}

/-- The files that a run on a store writes, in their order. -/
def writes : Script α → Store → List (String × String)
  | .done _, _ => []
  | .print c t next, s => next.writes (s.print t c)
  | .readFile p next, s => (next (s.read p)).writes s
  | .readInput next, s => (next s.input).writes s
  | .writeFile p t next, s =>
    match s.refuses? p with
    | some e => (next (some e)).writes s
    | none => (p, t) :: (next none).writes (s.write p t)
  | .makeDirectory p next, s => next.writes { s with directories := s.directories ++ [p] }
  | .elapsed next, s => (next 0).writes s

@[simp] theorem writes_pure (v : α) (s : Store) : (pure v : Script α).writes s = [] := rfl

@[simp] theorem writes_say (t : String) (c : Channel) (s : Store) : (say t c).writes s = [] := rfl

@[simp] theorem writes_bind (x : Script α) (f : α → Script β) (s : Store) :
    (x >>= f).writes s = x.writes s ++ (f (x.run s).1).writes (x.run s).2 := by
  change (x.bind f).writes s = _
  induction x generalizing s with
  | done v => rfl
  | print c t next ih => exact ih _
  | readFile p next ih => exact ih _ _
  | readInput next ih => exact ih _ _
  | writeFile p t next ih =>
    cases h : s.refuses? p with
    | some e =>
      simp only [bind, writes, run, h]
      exact ih _ _
    | none =>
      simp only [bind, writes, run, h, List.cons_append]
      rw [ih]
  | makeDirectory p next ih => exact ih _
  | elapsed next ih => exact ih _ _

@[simp] theorem shown_makeDirectory (path : String) (s : Store) (c : Channel) :
    ((makeDirectory path (.done ())).run s).2.shown c = s.shown c := by
  cases c <;> rfl

@[simp] theorem writes_makeDirectory (path : String) (s : Store) :
    (makeDirectory path (.done ())).writes s = [] := rfl

section

variable {s : Store} {path : String} (text : String) (h : s.refuses? path = none)

include h

theorem run_writeFile :
    (writeFile path text .done).run s = ((none, s.write path text) : Option FileError × Store) := by
  simp only [run, h]

theorem writes_writeFile :
    (writeFile path text .done : Script (Option FileError)).writes s = [(path, text)] := by
  simp only [writes, h]

end

/-- A run leaves the files that it writes. -/
theorem written_run (x : Script α) (s : Store) :
    (x.run s).2.written = (s.writeAll (x.writes s)).written := by
  induction x generalizing s with
  | done v => rfl
  | print c t next ih => exact (ih _).trans (Store.written_writeAll (Store.written_print _ _ _) _)
  | readFile p next ih => exact ih _ _
  | readInput next ih => exact ih _ _
  | writeFile p t next ih =>
    cases h : s.refuses? p with
    | some e =>
      simp only [writes, run, h]
      exact ih _ _
    | none =>
      simp only [writes, run, h]
      exact ih _ _
  | makeDirectory p next ih =>
    rw [run, writes, ih]
    apply Store.written_writeAll
    rfl
  | elapsed next ih => exact ih _ _

/-- A run changes nothing about where files can be written. -/
@[simp] theorem refuses?_run (x : Script α) (s : Store) (path : String) :
    (x.run s).2.refuses? path = s.refuses? path := by
  induction x generalizing s with
  | done v => rfl
  | print c t next ih => exact (ih _).trans (Store.refuses?_print _ _ _ _)
  | readFile p next ih => exact ih _ _
  | readInput next ih => exact ih _ _
  | writeFile p t next ih =>
    simp only [run]
    split
    · exact ih _ _
    · exact (ih _ _).trans (Store.refuses?_write _ _ _ _)
  | makeDirectory p next ih => exact ih _
  | elapsed next ih => exact ih _ _

end Script

end Carrot
