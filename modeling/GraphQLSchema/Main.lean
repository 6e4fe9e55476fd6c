import GraphQLSchema.CommandLine.Run
import GraphQLSchema.Path

/-! # The program, run by the system -/

open GraphQLSchema CommandLine

def contentOf (handle : IO.FS.Handle) : IO Content := do
  try return .ok (← handle.readBinToEnd).data.toList
  catch e => return .error (toString e)

def readFile (path : String) : IO (Except String Content) := do
  try return .ok (← contentOf (← IO.FS.Handle.mk path .read))
  catch e => return .error (toString e)

def writeFile (path : String) (bytes : List UInt8) : IO (Except String Unit) := do
  try
    let directory := (Path.parent? path).getD ""
    unless directory.isEmpty do IO.FS.createDirAll directory
    IO.FS.writeBinFile path ⟨bytes.toArray⟩
    return .ok ()
  catch e => return .error (toString e)

def give : Notice → IO Unit
  | .logged entry => do IO.eprint (Wording.plain.line (toString (← IO.monoMsNow)) entry)
  | .told text => IO.eprint text

def perform {α : Type} : Program α → IO α
  | .done a => return a
  | .read path next => do perform (next (← readFile path))
  | .save path bytes next => do perform (next (← writeFile path bytes))
  | .print text next => do
    IO.print text
    perform next
  | .notify notice next => do
    give notice
    perform next

def main (args : List String) : IO UInt32 := do
  let ending ← perform (program Wording.plain args)
  return UInt32.ofNat ending.exitCode
