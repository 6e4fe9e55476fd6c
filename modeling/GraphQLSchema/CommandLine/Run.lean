import GraphQLSchema.CommandLine.Command
import GraphQLSchema.CommandLine.Program
import GraphQLSchema.Config
import GraphQLSchema.Introspection.Export
import GraphQLSchema.Introspection.Import
import GraphQLSchema.Introspection.Json
import GraphQLSchema.Sdl
import GraphQLSchema.Snapshot

/-!
# Running commands

Each command is a program: it looks for the configuration, makes its registry with all the checks
that belong to it, and tells or saves what comes out.

What libraries say in words of their own is a parameter, `Wording`: why they refuse a text, bytes or
arguments, and how they lay out a line of the log. The variable that sets another level for the log
is not looked at.
-/

namespace GraphQLSchema.CommandLine

structure Wording where
  /-- Why a text is not read as an introspection result. -/
  json : String → String
  /-- Why what a file gives is not read as a snapshot, with all causes. -/
  snapshot : Content → String
  /-- Why a text is not read as a configuration. -/
  toml : String → String
  usage : List String → String
  /-- A line of the log, written at some time. -/
  line : String → LogEntry → String

/-- In place of libraries. -/
def Wording.plain : Wording where
  json _ := "invalid JSON"
  snapshot _ := "invalid snapshot"
  toml _ := "invalid TOML"
  usage _ := "error: the arguments are not in order; try --help\n"
  line time entry :=
    time ++ "  WARN " ++ entry.target ++ ": " ++ entry.message ++
      String.join (entry.fields.map fun (name, value) => " " ++ name ++ "=" ++ value) ++ "\n"

/-! ## Failures -/

/-- A fault of the file system is told twice: by the error, and as its cause. -/
def systemMessage (fault : String) : String := "IO error: " ++ fault ++ ": " ++ fault

inductive LoadFault where
  | unreadable (fault : String)
  | undecodable (reason : String)
  | schema (error : SchemaError)
  deriving DecidableEq, Repr

def LoadFault.message : LoadFault → String
  | unreadable fault => systemMessage fault
  | undecodable reason => "unable to encode or decode snapshot: " ++ reason
  | schema e => e.message

inductive Failure where
  | unreadable (file fault : String)
  | notIntrospection (file reason : String)
  | unloadable (file : String) (fault : LoadFault)
  | schema (error : SchemaError)
  | unwritable (fault : String)
  deriving DecidableEq, Repr

def Failure.message : Failure → String
  | unreadable file fault => "failed to read " ++ file ++ ": " ++ fault
  | notIntrospection file reason => file ++ " is not an introspection result: " ++ reason
  | unloadable file fault => "failed to load snapshot " ++ file ++ ": " ++ fault.message
  | schema e => e.message
  | unwritable fault => systemMessage fault

/-- A program that may fail. What it has done up to there stays done. -/
abbrev Task := ExceptT Failure Program

/-! ## What programs ask -/

def read (path : String) : Program (Except String Content) := .read path .done

def print (text : String) : Program Unit := .print text (.done ())

def warn (entry : LogEntry) : Program Unit := .notify (.logged entry) (.done ())

def tell (text : String) : Program Unit := .notify (.told text) (.done ())

def save (path : String) (bytes : List UInt8) : Task Unit := do
  match ← (Program.save path bytes .done : Program (Except String Unit)) with
  | .ok () => return ()
  | .error fault => throw (.unwritable fault)

/-! ## Texts -/

def textOf? (bytes : List UInt8) : Option String := String.fromUTF8? ⟨bytes.toArray⟩

def textOf (answer : Except String Content) : Except String String := do
  match textOf? (← ← answer) with
  | some text => return text
  | none => throw "stream did not contain valid UTF-8"

def infoLine (label value : String) : String :=
  "  " ++ label ++ String.ofList (List.replicate (14 - label.length) ' ') ++ " " ++ value ++ "\n"

def summary (r : Registry) : String :=
  let roots := Operation.all.filterMap fun o => (r.roots.get o).map (infoLine o.word)
  let kinds := TypeKind.all.map fun k =>
    infoLine k.label (toString (r.types.toList.filter (·.kind = k)).length)
  "Schema Info:\n" ++ String.join roots ++ String.join kinds ++
    infoLine "Directives" (toString r.directives.toList.length)

/-! ## Registries -/

/-- Problems that validation finds are logged where they are found. -/
def report : SchemaError → Program Unit
  | .invalid problems =>
    warn { target := "schema_model::registry", message := "schema validation failed"
           fields := [("errors", toString problems.length)] }
  | _ => return ()

def liftSchema {α : Type} : Except SchemaError α → Task α
  | .ok a => return a
  | .error e => do
    report e
    throw (.schema e)

variable (w : Wording)

/-- A configuration that is missing or not in order counts as none; only the latter is worth a warning. -/
def loadConfig (configFile : String) : Program Config := do
  match textOf (← read configFile) with
  | .error _ => return {}
  | .ok text =>
    match Config.ofText? text with
    | some config => return config
    | none =>
      warn { target := "schema_model::config", message := "invalid config, using defaults: " ++ w.toml text
             fields := [("path", configFile)] }
      return {}

def loadFile (config : Config) (file : String) : Task Registry := do
  match textOf (← read file) with
  | .error fault => throw (.unreadable file fault)
  | .ok text =>
    match Introspection.Schema.ofText text with
    | .error _ => throw (.notIntrospection file (w.json text))
    | .ok schema =>
      let r ← liftSchema (Registry.ofIntrospection schema config.registry)
      liftSchema (Registry.Edit.applyTo r Registry.finalize)

def loadSnapshot (file : String) : Task Registry := do
  match ← read file with
  | .error fault => throw (.unloadable file (.unreadable fault))
  | .ok (.error fault) => throw (.unloadable file (.undecodable (w.snapshot (.error fault))))
  | .ok (.ok bytes) =>
    match Registry.ofSnapshot bytes with
    | .ok r => return r
    | .error .undecodable => throw (.unloadable file (.undecodable (w.snapshot (.ok bytes))))
    | .error (.schema e) =>
      report e
      throw (.unloadable file (.schema e))

/-! ## Commands -/

def Command.taskUnder (config : Config) (configFile : String) : Command → Task Unit
  | .validate file => do
    let r ← loadFile w config file
    print ("✓ " ++ file ++ " is valid: " ++ toString r.types.toList.length ++ " types, " ++
      toString r.directives.toList.length ++ " directives\n")
  | .sdl file => do
    let r ← loadFile w config file
    print (← liftSchema r.sdl)
  | .introspect file => do
    let r ← loadFile w config file
    print ((← liftSchema r.toIntrospection).render ++ "\n")
  | .snapshot file output => do
    let r ← loadFile w config file
    let path := output.getD (config.resolve configFile)
    save path (← liftSchema r.snapshot)
    print ("✓ Wrote snapshot: " ++ path ++ "\n")
  | .info file ofSnapshot => do
    let r ← if ofSnapshot then loadSnapshot w file else loadFile w config file
    print (summary r)

def Command.task (configFile : String) (command : Command) : Task Unit := do
  command.taskUnder w (← loadConfig w configFile) configFile

inductive Ending where
  | usage
  | help
  | failed (failure : Failure)
  | done
  deriving DecidableEq, Repr

def Ending.exitCode : Ending → Nat
  | usage => 2
  | failed _ => 1
  | help | done => 0

def program (args : List String) : Program Ending := do
  match Request.ofArgs args with
  | .usage =>
    tell (w.usage args)
    return .usage
  | .help topic =>
    print topic.text
    return .help
  | .run i =>
    match ← (i.command.task w i.configFile).run with
    | .ok () => return .done
    | .error f =>
      tell ("Error: " ++ f.message ++ "\n")
      return .failed f

end GraphQLSchema.CommandLine
