import GraphQLSchema.CommandLine.Arguments

/-!
# Commands

`Invocation.ofArgs` reads the arguments of the program: an option for the configuration file, then
one of the commands with its own options and its file.
-/

namespace GraphQLSchema.CommandLine

inductive Command where
  | validate (file : String)
  | sdl (file : String)
  | introspect (file : String)
  | snapshot (file : String) (output : Option String)
  | info (file : String) (ofSnapshot : Bool)
  deriving DecidableEq, Repr

inductive Verb where
  | validate | sdl | introspect | snapshot | info
  deriving DecidableEq, Repr

namespace Verb

def all : List Verb := [validate, sdl, introspect, snapshot, info]

def word : Verb → String
  | validate => "validate"
  | sdl => "sdl"
  | introspect => "introspect"
  | snapshot => "snapshot"
  | info => "info"

def ofWord? (s : String) : Option Verb := all.find? (·.word = s)

def about : Verb → String
  | validate => "Import an introspection result and run finalize checks"
  | sdl => "Print the schema as SDL"
  | introspect => "Re-export a validated introspection result"
  | snapshot => "Write a binary snapshot of the finalized schema"
  | info => "Show type and directive counts"

def flags : Verb → List Flag
  | snapshot => [{ long := "output", short := some 'o', takesValue := true }]
  | info => [{ long := "snapshot", short := none, takesValue := false }]
  | _ => []

def command (v : Verb) (file : String) (given : Given) : Command :=
  match v with
  | validate => .validate file
  | sdl => .sdl file
  | introspect => .introspect file
  | snapshot => .snapshot file (given.value? "output")
  | info => .info file (given.has "snapshot")

end Verb

def defaultConfigFile : String := "schema-model.toml"

structure Invocation where
  configFile : String
  command : Command
  deriving DecidableEq, Repr

inductive Topic where
  | program
  | verb (verb : Verb)
  | help
  deriving DecidableEq, Repr

def helpWord : String := "help"

def Topic.ofWord? (w : String) : Option Topic :=
  if w = helpWord then some help else (Verb.ofWord? w).map verb

inductive Request where
  | run (invocation : Invocation)
  | help (topic : Topic)
  | usage
  deriving DecidableEq, Repr

def Stop.request (topic : Topic) : Stop → Request
  | .help => .help topic
  | .usage => .usage

/-- The arguments behind the word for help: at most one more word. -/
def helpRequest : List String → Request
  | [] => .help .program
  | [w] =>
    match Topic.ofWord? w with
    | some topic => .help topic
    | none => .usage
  | _ => .usage

def Verb.commandOf (v : Verb) (args : List String) : Except Stop Command :=
  match scan v.flags 1 {} args with
  | .ok (given, []) =>
    match given.settle with
    | .ok given =>
      match given.operands with
      | [file] => .ok (v.command file given)
      | _ => .error .usage
    | .error e => .error e
  | .ok _ => .error .usage
  | .error e => .error e

def topFlags : List Flag := [{ long := "config", short := some 'c', takesValue := true }]

/-- Reads all arguments. Help that is asked for behind a verb comes even if the last option in
front of it is not in order. -/
def Request.ofArgs (args : List String) : Request :=
  match scan topFlags 0 {} args with
  | .ok (given, word :: rest) =>
    if word = helpWord then helpRequest rest
    else
      match Verb.ofWord? word with
      | none => .usage
      | some v =>
        match v.commandOf rest, given.settle with
        | .error e, _ => e.request (.verb v)
        | .ok _, .error e => e.request .program
        | .ok command, .ok given =>
          .run { configFile := (given.value? "config").getD defaultConfigFile, command }
  | .ok (_, []) => .usage
  | .error e => e.request .program

/-! ## Help -/

private def lines (ls : List String) : String := String.join (ls.map (· ++ "\n"))

private def padded (width : Nat) (s : String) : String :=
  s ++ String.ofList (List.replicate (width - s.length) ' ')

def Verb.help (v : Verb) : String :=
  let usage (options : String) := "Usage: schema-model " ++ v.word ++ options ++ " <FILE>"
  let file (what : String) := ["", "Arguments:", "  <FILE>  " ++ what, "", "Options:"]
  let plain := file "Introspection JSON file"
  let head (options : String) := [v.about, "", usage options]
  lines <|
    match v with
    | snapshot =>
      head " [OPTIONS]" ++ plain ++
        ["  -o, --output <OUTPUT>  Output path (default: [output].snapshot_path from the config)",
         "  -h, --help             Print help"]
    | info =>
      head " [OPTIONS]" ++ file "Introspection JSON file, or a snapshot with --snapshot" ++
        ["      --snapshot  Read a binary snapshot instead of JSON", "  -h, --help      Print help"]
    | _ => head "" ++ plain ++ ["  -h, --help  Print help"]

private def helpAbout : String := "Print this message or the help of the given subcommand(s)"

def programHelp : String :=
  lines <|
    ["SchemaModel - GraphQL schema registry tools", "",
     "Usage: schema-model [OPTIONS] <COMMAND>", "", "Commands:"] ++
      Verb.all.map (fun v => "  " ++ padded 10 v.word ++ "  " ++ v.about) ++
      ["  " ++ padded 10 helpWord ++ "  " ++ helpAbout, "", "Options:",
       "  -c, --config <CONFIG>  Path to the config file [default: " ++ defaultConfigFile ++ "]",
       "  -h, --help             Print help"]

def helpOnHelp : String :=
  lines
    [helpAbout, "", "Usage: schema-model help [COMMAND]...", "", "Arguments:",
     "  [COMMAND]...  Print help for the subcommand(s)"]

def Topic.text : Topic → String
  | program => programHelp
  | verb v => v.help
  | help => helpOnHelp

end GraphQLSchema.CommandLine
