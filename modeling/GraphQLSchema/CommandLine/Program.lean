/-!
# Programs

What a program asks of the system, step after step: what comes next depends on the answers. It reads
and writes files, prints, and gives notice on the stream beside the output. Faults of the system come
as texts.
-/

namespace GraphQLSchema.CommandLine

/-- A line of the log, always at the level of warnings. Lines below that level are left out. -/
structure LogEntry where
  target : String
  message : String
  fields : List (String × String)
  deriving DecidableEq, Repr

inductive Notice where
  | logged (entry : LogEntry)
  | told (text : String)
  deriving DecidableEq, Repr

abbrev Content := Except String (List UInt8)

inductive Program (α : Type) where
  | done (a : α)
  | read (path : String) (next : Except String Content → Program α)
  | save (path : String) (bytes : List UInt8) (next : Except String Unit → Program α)
  | print (text : String) (next : Program α)
  | notify (notice : Notice) (next : Program α)

namespace Program

variable {α β : Type}

protected def bind : Program α → (α → Program β) → Program β
  | done a, f => f a
  | read path next, f => read path fun c => (next c).bind f
  | save path bytes next, f => save path bytes fun o => (next o).bind f
  | print text next, f => print text (next.bind f)
  | notify notice next, f => notify notice (next.bind f)

instance : Monad Program where
  pure := done
  bind := Program.bind

end Program

end GraphQLSchema.CommandLine
