import Carrot.Position

/-! # Bindings

A binding records what a name was declared as. Its label is the type it shows to
the outside: the declared type, a function's return type, or the name of a struct.
The fields of a struct declaration live in a registry and are found by the
declaration's identity, so a struct may have fields of its own type.
-/

namespace Carrot

/-- A function's parameter as its signature lists it. -/
structure Param where
  name : String
  type : String
  deriving DecidableEq, Repr

/-- A reference to a struct declaration. -/
structure StructRef where
  id : Nat
  name : String
  declaredAt : Option Position
  deriving DecidableEq, Repr

inductive Role where
  | var
  | formal
  | func (params : List Param)
  | structDecl (name : String) (id : Nat)
  /-- A variable of struct type, with the declaration it was checked against. -/
  | instanceOf (decl : Option StructRef)
  deriving DecidableEq, Repr

structure Binding where
  label : String
  declaredAt : Option Position
  role : Role
  deriving DecidableEq, Repr

/-- Adds a parameter to a signature; the first parameter of a name fixes its type. -/
def Param.add (ps : List Param) (p : Param) : List Param :=
  if ps.any (·.name == p.name) then ps else ps ++ [p]

/-- The signature of a parameter list: the first parameter of each name, in order. -/
def Param.signature (ps : List Param) : List Param := ps.foldl Param.add []

namespace Binding

def voidLabel : String := "void"

def structLabel : String := "struct"

/-- The binding that stands for a value which has no fields. -/
def plain (pos : Position) : Binding := ⟨" ", some pos, .var⟩

def ofStruct (name : String) (declaredAt : Option Position) (id : Nat) : Binding :=
  ⟨structLabel, declaredAt, .structDecl name id⟩

/-- The reference to the struct that this binding declares, if it declares one. -/
def structRef? (b : Binding) : Option StructRef :=
  match b.role with
  | .structDecl name id => some ⟨id, name, b.declaredAt⟩
  | _ => none

def isFormal (b : Binding) : Bool := b.role = .formal

end Binding

end Carrot
