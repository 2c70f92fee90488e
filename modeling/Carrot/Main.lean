import Carrot.CommandLine

/-! # The program

Performs the script of a command line with the files, the clock and the streams of the
system.
-/

namespace Carrot

/-- The error that the system gives for a path. -/
def FileError.ofSystem (path : String) : IO.Error → FileError
  | .noFileOrDirectory .. => .missing path
  | _ => .denied path

def printTo : Channel → String → IO Unit
  | .output, text => IO.print text
  | .errors, text | .log, text => IO.eprint text

def onFile {α : Type} (path : String) (action : IO α) : IO (Except FileError α) := do
  if !Store.isUsable path then return .error .unusable
  match ← action.toBaseIO with
  | .ok v => return .ok v
  | .error e => return .error (.ofSystem path e)

/-- All octets that are left on a stream, behind those that have been read. -/
partial def readAll (stream : IO.FS.Stream) (octets : List UInt8) : IO (List UInt8) := do
  let chunk ← stream.read 65536
  if chunk.isEmpty then return octets else readAll stream (octets ++ chunk.toList)

/-- Performs a script that started at `start`, in nanoseconds. -/
def Script.perform {α : Type} (start : Nat) : Script α → IO α
  | .done v => return v
  | .print c text next => do
    printTo c text
    next.perform start
  | .readFile path next => do
    let r ← onFile path (IO.FS.readBinFile path)
    (next (r.map (·.toList))).perform start
  | .readInput next => do
    let octets ← readAll (← IO.getStdin) []
    (next octets).perform start
  | .writeFile path text next => do
    match ← onFile path (IO.FS.writeFile path text) with
    | .ok () => (next none).perform start
    | .error e => (next (some e)).perform start
  | .makeDirectory path next => do
    IO.FS.createDirAll path
    next.perform start
  | .elapsed next => do
    (next (((← IO.monoNanosNow) - start) / 100000)).perform start

end Carrot

def main (words : List String) : IO UInt32 := do
  let start ← IO.monoNanosNow
  let terminal ← (← IO.getStdin).isTty
  let directory := Carrot.Path.top.resolve (← IO.currentDir).toString
  match ← (Carrot.CommandLine.script directory words terminal).perform start with
  | .status n => return n.toUInt32
  | .brokenOff e =>
    IO.eprintln (e.name ++ ": " ++ e.message)
    return 1
