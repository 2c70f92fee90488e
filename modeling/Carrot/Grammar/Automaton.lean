import Carrot.Grammar

/-! # Which terminals may come next

The automaton of the grammar with one terminal of lookahead. Two states that agree
on their rules and points are one state, and their lookaheads are joined; so the
terminals that a state offers may include some that only another context allows.
After a refused terminal, the terminals that the reached state offers are the ones
a message lists.
-/

namespace Carrot.Grammar

/-! ### Sets of terminals -/

/-- A set of terminals, one bit each. -/
structure TerminalSet where
  bits : Nat
  deriving DecidableEq, Repr

namespace TerminalSet

def index : Terminal → Nat
  | .endOfText => 0
  | .token k => k.ctorIdx + 1

def empty : TerminalSet := ⟨0⟩

def single (t : Terminal) : TerminalSet := ⟨1 <<< index t⟩

def union (a b : TerminalSet) : TerminalSet := ⟨a.bits ||| b.bits⟩

def contains (a : TerminalSet) (t : Terminal) : Bool := a.bits.testBit (index t)

def isSubset (a b : TerminalSet) : Bool := a.bits ||| b.bits == b.bits

/-- What the whole of two parts may start with. The end of the text stands for an empty part. -/
def andThen (a b : TerminalSet) : TerminalSet :=
  -- The end of the text has bit 0.
  if a.contains .endOfText then ⟨a.bits >>> 1 <<< 1 ||| b.bits⟩ else a

end TerminalSet

abbrev TerminalMap := List (Nonterminal × TerminalSet)

namespace TerminalMap

def get (s : TerminalMap) (n : Nonterminal) : TerminalSet := (s.lookup n).getD .empty

def add (n : Nonterminal) (a : TerminalSet) : TerminalMap → TerminalMap
  | [] => [(n, a)]
  | (m, b) :: s => if n = m then (m, b.union a) :: s else (m, b) :: add n a s

/-- More often than this no terminal can be new for a nonterminal. -/
def maxRounds : Nat :=
  (Nonterminal.ctorIdx .name + 1) * (TerminalSet.index (.token .greater) + 1)

end TerminalMap

/-! ### Starts -/

/-- The terminals that a sequence may start with, if `s` says so of each nonterminal. -/
def firsts (s : TerminalMap) : List Symbol → TerminalSet
  | [] => .single .endOfText
  | .token k :: _ => .single (.token k)
  | .part n :: xs => (TerminalMap.get s n).andThen (firsts s xs)

/-- Adds what all rules say, until nothing is new. -/
def closeStarts (s : TerminalMap) : Nat → TerminalMap
  | 0 => s
  | fuel + 1 =>
    -- The last rules come first: they are for the smallest parts.
    let next := rules.foldr (fun r s => TerminalMap.add r.lhs (firsts s r.rhs) s) s
    if next = s then s else closeStarts next fuel

def starts : TerminalMap := closeStarts [] TerminalMap.maxRounds

/-! ### Openings -/

def rulesOf (n : Nonterminal) : List (Rule × Nat) := rules.zipIdx.filter fun (r, _) => r.lhs = n

/-- The nonterminals that can start at a point, each with the terminals that may follow it. -/
abbrev Openings := TerminalMap

namespace Openings

def addRules (o : Openings) (n : Nonterminal) : Openings :=
  (rulesOf n).foldl (fun o (r, _) =>
    match r.rhs with
    | .part m :: xs => TerminalMap.add m ((firsts starts xs).andThen (TerminalMap.get o n)) o
    | _ => o) o

def addAll (o : Openings) : Openings := o.foldl (fun o (n, _) => addRules o n) o

/-- Adds what is opened in turn, until nothing is new. -/
def close (o : Openings) : Nat → Openings
  | 0 => o
  | fuel + 1 => if o.addAll = o then o else close o.addAll fuel

/-- What can start where `n` can. The end of the text stands for what follows `n`. -/
def ofPart (n : Nonterminal) : Openings := close [(n, .single .endOfText)] TerminalMap.maxRounds

end Openings

/-! ### States -/

/-- A rule with its number and a point in it, and the terminals that may follow the whole. -/
structure Item where
  rule : Rule
  number : Nat
  point : Nat
  follow : TerminalSet
  deriving DecidableEq, Repr

namespace Item

def rest (i : Item) : List Symbol := i.rule.rhs.drop i.point

/-- The place of the point among those of all rules, none of which has more than seven symbols. -/
def place (i : Item) : Nat := 8 * i.number + i.point

end Item

/-- The items that a state is made of, by their places; the others are at the start of a rule. -/
abbrev Kernel := List Item

namespace Kernel

def openings : Kernel → Openings
  | [] => []
  | i :: k =>
    match i.rest with
    | .part n :: xs =>
      let follow := (firsts starts xs).andThen i.follow
      (Openings.ofPart n).foldl (fun o (m, f) => TerminalMap.add m (f.andThen follow) o)
        (openings k)
    | _ => openings k

/-- All items of the state: its kernel and the rules that start at its points. -/
def items (k : Kernel) : List Item :=
  k ++ k.openings.flatMap fun (n, f) => (rulesOf n).map fun (r, number) => ⟨r, number, 0, f⟩

/-- Inserts an item, or joins its lookahead with that of the same place. -/
def insert (i : Item) : Kernel → Kernel
  | [] => [i]
  | j :: k =>
    if i.place = j.place then { j with follow := j.follow.union i.follow } :: k
    else if i.place < j.place then i :: j :: k
    else j :: insert i k

/-- The places of a kernel, one bit each. -/
def places (k : Kernel) : Nat := k.foldl (fun bits i => bits ||| 1 <<< i.place) 0

def join (k l : Kernel) : Kernel :=
  k.zipWith (fun i j => { i with follow := i.follow.union j.follow }) l

def isSubset (k l : Kernel) : Bool := (k.zip l).all fun (i, j) => i.follow.isSubset j.follow

end Kernel

def Symbol.index : Symbol → Nat
  | .token k => k.ctorIdx
  | .part n => TokenKind.ctorIdx .greater + 1 + n.ctorIdx

/-- Adds an item behind symbol `x` to the kernels that are reached over each symbol. -/
def addSuccessor (x : Symbol) (i : Item) : List (Symbol × Kernel) → List (Symbol × Kernel)
  | [] => [(x, [i])]
  | (y, k) :: rest =>
    if x.index = y.index then (y, k.insert i) :: rest else (y, k) :: addSuccessor x i rest

def Kernel.successors (k : Kernel) : List (Symbol × Kernel) :=
  k.items.foldl (fun acc i =>
    match i.rest with
    | x :: _ => addSuccessor x { i with point := i.point + 1 } acc
    | [] => acc) []

/-- A state: its number, its kernel with the places of that, and where each symbol leads. -/
structure State where
  number : Nat
  places : Nat
  kernel : Kernel
  moves : List (Symbol × Nat)

/-- The states found so far, the latest first, and those whose moves are still to be found. -/
structure Build where
  states : List State
  todo : List Nat

namespace Build

def modify (n : Nat) (f : State → State) : List State → List State
  | [] => []
  | s :: ss => if s.number = n then f s :: ss else s :: modify n f ss

/-- Finds the state of a kernel, joining lookaheads, or adds it; a state that is new or has
changed is opened again. -/
def enter (b : Build) (k : Kernel) : Build × Nat :=
  let places := k.places
  match b.states.find? fun s => s.places == places with
  | some s =>
    if k.isSubset s.kernel then (b, s.number)
    else
      (⟨modify s.number (fun s => { s with kernel := s.kernel.join k }) b.states,
        if b.todo.contains s.number then b.todo else s.number :: b.todo⟩, s.number)
  | none =>
    let n := b.states.length
    (⟨⟨n, places, k, []⟩ :: b.states, n :: b.todo⟩, n)

def explore (b : Build) (n : Nat) : Build :=
  match b.states.find? fun s => s.number == n with
  | some s =>
    let (b, moves) := s.kernel.successors.foldl (fun (b, moves) (x, k) =>
      let (b, m) := b.enter k
      (b, (x, m) :: moves)) (b, [])
    { b with states := modify n (fun s => { s with moves := moves }) b.states }
  | none => b

/-- Explores open states until none is left, at most `fuel` times. -/
def run (b : Build) : Nat → Build
  | 0 => b
  | fuel + 1 =>
    match b.todo with
    | [] => b
    | n :: rest => ({ b with todo := rest }.explore n).run fuel

end Build

def firstKernel : Kernel := [⟨⟨.root, [.part .program]⟩, 0, 0, .single .endOfText⟩]

/-- The states of the automaton, by their numbers. -/
def states : List State :=
  ((⟨[⟨0, firstKernel.places, firstKernel, []⟩], [0]⟩ : Build).run 100000).states.reverse

/-! ### Moves -/

/-- What a state does: where symbols lead, and which rules it ends before which terminals. -/
structure Row where
  moves : List (Symbol × Nat)
  ends : List (Rule × TerminalSet)
  deriving Inhabited

def State.row (s : State) : Row :=
  ⟨s.moves, s.kernel.items.filterMap fun i =>
    if i.rest.isEmpty then some (i.rule, i.follow) else none⟩

/-- The automaton; its first state is where a text starts. -/
def automaton : List Row := states.map State.row

namespace Row

def move? (r : Row) (x : Symbol) : Option Nat := r.moves.lookup x

/-- The rule that ends before `t`. -/
def ending? (r : Row) (t : Terminal) : Option Rule :=
  (r.ends.find? fun (_, f) => f.contains t).map (·.1)

/-- The terminals for which a state has something to do. -/
def offers (r : Row) (t : Terminal) : Bool :=
  (r.ending? t).isSome ||
    match t with
    | .token k => (r.move? (.token k)).isSome
    | .endOfText => false

end Row

/-- The states on the way to the current one, the current one first. -/
abbrev Path := List Nat

def Path.row (p : Path) : Row := (p.head?.bind fun n => automaton[n]?).getD default

/-- Ends the rules that end before `t`, at most `fuel` of them, and moves over `t`. A refused
terminal leaves the row of the state that refused it. -/
def Path.step (t : Terminal) (p : Path) : Nat → Except Row Path
  | 0 => .error p.row
  | fuel + 1 =>
    match t, p.row.ending? t with
    | _, some r =>
      let back := p.drop r.rhs.length
      match (Path.row back).move? (.part r.lhs) with
      | some m => Path.step t (m :: back) fuel
      -- Only a whole text leads nowhere.
      | none => .ok p
    | .token k, none =>
      match p.row.move? (.token k) with
      | some m => .ok (m :: p)
      | none => .error p.row
    | .endOfText, none => .error p.row

/-- More rules than these do not end before one terminal. -/
def Path.maxEnds (p : Path) : Nat := 32 * (p.length + 2)

def Path.refusal (p : Path) : List Terminal → Option Row
  | [] => none
  | t :: ts =>
    match p.step t p.maxEnds with
    | .error row => some row
    | .ok q => Path.refusal q ts

def terminals : List Terminal := .endOfText :: TokenKind.all.map .token

/-- The terminals that are offered where a text of these kinds is refused, its end included. -/
def expected (kinds : List TokenKind) : List Terminal :=
  match Path.refusal [0] (kinds.map .token ++ [.endOfText]) with
  | some row => terminals.filter row.offers
  | none => []

end Carrot.Grammar
