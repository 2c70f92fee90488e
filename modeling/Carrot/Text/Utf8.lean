import Carrot.Text.Quoted

/-! # Reading UTF-8

Octets are read one at a time. The first octet of a character tells how many follow
and which values the next one may have, so that no character has two spellings and
no surrogate has one. An offence names the octets that began the character.
-/

namespace Carrot.Text.Utf8

inductive Offence where
  | start
  | continuation
  | cutOff
  deriving DecidableEq, Repr

def Offence.text : Offence → String
  | .start => "invalid start byte"
  | .continuation => "invalid continuation byte"
  | .cutOff => "unexpected end of data"

/-- Why octets are no text: the octets of the offending character, the first at `position`. -/
structure DecodeError where
  position : Nat
  octets : List Nat
  offence : Offence
  deriving DecidableEq, Repr

def DecodeError.message (e : DecodeError) : String :=
  let place :=
    match e.octets with
    | [b] =>
      "byte 0x" ++ String.ofList (hex 2 b) ++ " in position " ++ toString e.position
    | bs =>
      "bytes in position " ++ toString e.position ++ "-"
        ++ toString (e.position + bs.length - 1)
  "'utf-8' codec can't decode " ++ place ++ ": " ++ e.offence.text

/-- A character of which `need` octets are missing: its octets and value up to now, and the
least and greatest value of the next octet. -/
structure Open where
  octets : List Nat
  value : Nat
  need : Nat
  least : Nat
  greatest : Nat
  deriving DecidableEq, Repr

/-- What the first octet of a character opens; nothing is missing after an ASCII character. -/
def first? (b : Nat) : Option Open :=
  if b < 0x80 then some ⟨[b], b, 0, 0x80, 0xbf⟩
  else if b < 0xc2 then none
  else if b < 0xe0 then some ⟨[b], b - 0xc0, 1, 0x80, 0xbf⟩
  else if b = 0xe0 then some ⟨[b], b - 0xe0, 2, 0xa0, 0xbf⟩
  else if b = 0xed then some ⟨[b], b - 0xe0, 2, 0x80, 0x9f⟩
  else if b < 0xf0 then some ⟨[b], b - 0xe0, 2, 0x80, 0xbf⟩
  else if b = 0xf0 then some ⟨[b], b - 0xf0, 3, 0x90, 0xbf⟩
  else if b < 0xf4 then some ⟨[b], b - 0xf0, 3, 0x80, 0xbf⟩
  else if b = 0xf4 then some ⟨[b], b - 0xf0, 3, 0x80, 0x8f⟩
  else none

def Open.next? (o : Open) (b : Nat) : Option Open :=
  if o.least ≤ b ∧ b ≤ o.greatest then
    some ⟨o.octets ++ [b], o.value * 64 + (b - 0x80), o.need - 1, 0x80, 0xbf⟩
  else none

/-- The character that is open after the octet at `position`. -/
def step (position : Nat) (pending : Option Open) (b : Nat) : Except DecodeError Open :=
  match pending with
  | none =>
    match first? b with
    | some o => .ok o
    | none => .error ⟨position, [b], .start⟩
  | some o =>
    match o.next? b with
    | some o => .ok o
    | none => .error ⟨position - o.octets.length, o.octets, .continuation⟩

/-- Reads octets from `position` on; `pending` is the character that is open there. -/
def read (position : Nat) (pending : Option Open) : List UInt8 → Except DecodeError (List Char)
  | [] =>
    match pending with
    | none => .ok []
    | some o => .error ⟨position - o.octets.length, o.octets, .cutOff⟩
  | b :: bs =>
    match step position pending b.toNat with
    | .error e => .error e
    | .ok o =>
      if o.need = 0 then (read (position + 1) none bs).map (Char.ofNat o.value :: ·)
      else read (position + 1) (some o) bs

def decode (octets : List UInt8) : Except DecodeError String :=
  (read 0 none octets).map String.ofList

end Carrot.Text.Utf8
