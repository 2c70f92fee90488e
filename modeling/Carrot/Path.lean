/-! # Paths

A path is read from a directory unless it starts with a slash. Empty parts and single
dots are dropped and a double dot cancels the part before it, if there is one. A path
that starts with exactly two slashes keeps both.
-/

namespace Carrot

/-- A path without empty parts and dots. -/
structure Path where
  twoSlashes : Bool
  parts : List (List Char)
  deriving DecidableEq, Repr

namespace Path

def split : List Char → List (List Char)
  | [] => [[]]
  | c :: cs =>
    if c = '/' then [] :: split cs
    else
      match split cs with
      | [] => [[c]]
      | p :: ps => (c :: p) :: ps

/-- Adds a part to the parts before it, the last of them first. -/
def addPart (before : List (List Char)) (p : List Char) : List (List Char) :=
  if p = [] ∨ p = ['.'] then before
  else if p = ['.', '.'] then before.tail
  else p :: before

def top : Path := ⟨false, []⟩

/-- The place where the reading of a text starts. -/
def origin (directory : Path) : List Char → Path
  | '/' :: '/' :: '/' :: _ => top
  | '/' :: '/' :: _ => ⟨true, []⟩
  | '/' :: _ => top
  | _ => directory

/-- The path that a text names when it is read from `directory`. -/
def resolve (directory : Path) (s : String) : Path :=
  let start := origin directory s.toList
  ⟨start.twoSlashes, ((split s.toList).foldl addPart start.parts.reverse).reverse⟩

def root (p : Path) : String := if p.twoSlashes then "//" else "/"

def text (p : Path) : String :=
  p.root ++ String.ofList (List.intercalate ['/'] p.parts)

def directory (p : Path) : Path := ⟨p.twoSlashes, p.parts.dropLast⟩

/-- A name without its last dot and what follows; dots at its start open no extension. -/
def dropExtension (name : List Char) : List Char :=
  let leading := name.takeWhile (· = '.')
  let rest := name.dropWhile (· = '.')
  if '.' ∈ rest then leading ++ (rest.reverse.dropWhile (· ≠ '.')).tail.reverse else name

def mapName (f : List Char → List Char) (p : Path) : Path :=
  ⟨p.twoSlashes, p.parts.dropLast ++ (p.parts.getLast?.map f).toList⟩

def withoutExtension (p : Path) : Path := p.mapName dropExtension

end Path

end Carrot
